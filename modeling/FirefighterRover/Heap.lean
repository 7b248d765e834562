import FirefighterRover.Lib.EventRuns
import Mathlib.Algebra.Group.Nat.Defs

/-!
main.c: the _sbrk of GCC builds, over the calls that malloc and free make of it. Pointers are 32
bits wide. A request of 2^31 or more is a negative one: the caller gives memory back.
-/
namespace RoverHeap
open EventRuns

structure Linker where
  end_ : UInt32
  heapLimit : UInt32
  deriving DecidableEq, Repr

structure Heap where
  heapEnd : UInt32
  heapLimit : UInt32
  deriving DecidableEq, Repr

def Heap.boot : Heap := ⟨0, 0⟩

def sbrkFailed : UInt32 := 0xFFFFFFFF

def Heap.init (linker : Linker) (heap : Heap) : Heap :=
  if heap.heapEnd = 0 then ⟨linker.end_, linker.heapLimit⟩ else heap

def sbrk (linker : Linker) (delta : UInt32) (heap : Heap) : UInt32 × Heap :=
  let heap := heap.init linker
  let prevHeapEnd := heap.heapEnd
  if prevHeapEnd + delta > heap.heapLimit then (sbrkFailed, heap)
  else (prevHeapEnd, { heap with heapEnd := heap.heapEnd + delta })

structure Block where
  start : Nat
  size : Nat
  deriving DecidableEq, Repr

def Block.stop (b : Block) : Nat := b.start + b.size

/-- The heap, and the blocks its caller holds: those granted that the break has not been taken
    below since. -/
structure Holder where
  heap : Heap
  live : List Block
  deriving DecidableEq, Repr

def isRelease (delta : UInt32) : Bool := 2 ^ 31 ≤ delta.toNat

def call (linker : Linker) (s : Holder) (delta : UInt32) : Holder :=
  let result := sbrk linker delta s.heap
  if result.1 = sbrkFailed then { s with heap := result.2 }
  else if isRelease delta then
    ⟨result.2, s.live.filter fun b => b.stop ≤ result.2.heapEnd.toNat⟩
  else ⟨result.2, s.live ++ [⟨result.1.toNat, delta.toNat⟩]⟩

def after (linker : Linker) (deltas : List UInt32) : Holder := run (call linker) ⟨.boot, []⟩ deltas

def Holder.brk (linker : Linker) (s : Holder) : Nat := (s.heap.init linker).heapEnd.toNat

/-- The heap lies in the lower half of the address space, as on-chip memory does. -/
structure Linker.Sound (linker : Linker) : Prop where
  nonzero : 0 < linker.end_.toNat
  ordered : linker.end_.toNat ≤ linker.heapLimit.toNat
  low : linker.heapLimit.toNat < 2 ^ 31

def Owned (linker : Linker) (s : Holder) (delta : UInt32) : Prop :=
  isRelease delta = true → linker.end_.toNat + (2 ^ 32 - delta.toNat) ≤ s.brk linker

instance (linker : Linker) (s : Holder) (delta : UInt32) : Decidable (Owned linker s delta) :=
  inferInstanceAs (Decidable (_ → _))

def AllOwned (linker : Linker) : Holder → List UInt32 → Prop
  | _, [] => True
  | s, delta :: rest => Owned linker s delta ∧ AllOwned linker (call linker s delta) rest

instance decidableAllOwned (linker : Linker) :
    ∀ (s : Holder) (deltas : List UInt32), Decidable (AllOwned linker s deltas)
  | _, [] => inferInstanceAs (Decidable True)
  | s, delta :: rest =>
    have := decidableAllOwned linker (call linker s delta) rest
    inferInstanceAs (Decidable (Owned linker s delta ∧ _))

structure Stacked (linker : Linker) (s : Holder) : Prop where
  limit : (s.heap.init linker).heapLimit = linker.heapLimit
  low : linker.end_.toNat ≤ s.brk linker
  high : s.brk linker ≤ linker.heapLimit.toNat
  inside : ∀ b ∈ s.live, linker.end_.toNat ≤ b.start ∧ b.stop ≤ s.brk linker
  apart : s.live.Pairwise fun a b => a.stop ≤ b.start

inductive Moves (linker : Linker) (brk : Nat) (delta : UInt32) : UInt32 × Heap → Prop where
  | refused {heap : Heap} : isRelease delta = false → linker.heapLimit.toNat < brk + delta.toNat →
      heap.heapEnd.toNat = brk → heap.heapLimit = linker.heapLimit →
      Moves linker brk delta (sbrkFailed, heap)
  | granted {start : UInt32} {heap : Heap} : isRelease delta = false →
      brk + delta.toNat ≤ linker.heapLimit.toNat → start ≠ sbrkFailed → start.toNat = brk →
      heap.heapEnd.toNat = brk + delta.toNat → heap.heapLimit = linker.heapLimit →
      Moves linker brk delta (start, heap)
  | released {start : UInt32} {heap : Heap} : isRelease delta = true → start ≠ sbrkFailed →
      heap.heapEnd.toNat + (2 ^ 32 - delta.toNat) = brk → linker.end_.toNat ≤ heap.heapEnd.toNat →
      heap.heapLimit = linker.heapLimit → Moves linker brk delta (start, heap)

theorem sbrk_moves {linker : Linker} (sound : linker.Sound) {s : Holder}
    (stacked : Stacked linker s) {delta : UInt32} (owned : Owned linker s delta) :
    Moves linker (s.brk linker) delta (sbrk linker delta s.heap) := by
  have low := stacked.low
  have high := stacked.high
  have bound := sound.low
  have small := delta.toNat_lt
  unfold Holder.brk at low high ⊢
  unfold Owned Holder.brk at owned
  unfold sbrk
  have limit := stacked.limit
  generalize s.heap.init linker = heap at low high limit owned ⊢
  dsimp only
  have sum : (heap.heapEnd + delta).toNat = (heap.heapEnd.toNat + delta.toNat) % 2 ^ 32 :=
    UInt32.toNat_add _ _
  have start : heap.heapEnd ≠ sbrkFailed := by
    intro same
    have top : heap.heapEnd.toNat = 2 ^ 32 - 1 := by
      rw [same]
      rfl
    omega
  cases release : isRelease delta with
  | true =>
    have given := owned release
    have back : (heap.heapEnd.toNat + delta.toNat) % 2 ^ 32 =
        heap.heapEnd.toNat - (2 ^ 32 - delta.toNat) := by omega
    have fits : ¬ heap.heapEnd + delta > heap.heapLimit := by
      rw [gt_iff_lt, UInt32.lt_iff_toNat_lt, sum, limit]
      omega
    rw [if_neg fits]
    refine .released release start ?_ ?_ limit
    · dsimp only
      rw [sum]
      omega
    · dsimp only
      rw [sum]
      omega
  | false =>
    have request : delta.toNat < 2 ^ 31 := by
      simpa [isRelease] using release
    have exact_ : (heap.heapEnd.toNat + delta.toNat) % 2 ^ 32 = heap.heapEnd.toNat + delta.toNat :=
      Nat.mod_eq_of_lt (by omega)
    by_cases full : heap.heapEnd + delta > heap.heapLimit
    · rw [if_pos full]
      rw [gt_iff_lt, UInt32.lt_iff_toNat_lt, sum, limit, exact_] at full
      exact .refused release full rfl limit
    · rw [if_neg full]
      rw [gt_iff_lt, UInt32.lt_iff_toNat_lt, sum, limit, exact_] at full
      refine .granted release (by omega) start rfl ?_ limit
      dsimp only
      rw [sum, exact_]

theorem init_started {linker : Linker} {heap : Heap} (started : 0 < heap.heapEnd.toNat) :
    heap.init linker = heap := by
  have nonzero : heap.heapEnd ≠ 0 := by
    intro zero
    rw [zero] at started
    exact absurd started (by decide)
  exact if_neg nonzero

theorem brk_started {linker : Linker} {heap : Heap} (live : List Block)
    (started : 0 < heap.heapEnd.toNat) :
    (Holder.mk heap live).brk linker = heap.heapEnd.toNat := by
  unfold Holder.brk
  rw [init_started started]

theorem call_stacked {linker : Linker} (sound : linker.Sound) {s : Holder}
    (stacked : Stacked linker s) {delta : UInt32} (owned : Owned linker s delta) :
    Stacked linker (call linker s delta) := by
  have moves := sbrk_moves sound stacked owned
  have low := stacked.low
  have high := stacked.high
  have first := sound.nonzero
  unfold call
  generalize sbrk linker delta s.heap = result at moves ⊢
  cases moves with
  | @refused heap _ full end_ limit =>
    have started : 0 < heap.heapEnd.toNat := by omega
    simp only [if_true]
    refine ⟨?_, ?_, ?_, ?_, stacked.apart⟩
    · rw [init_started started]
      exact limit
    · rw [brk_started _ started, end_]
      exact low
    · rw [brk_started _ started, end_]
      exact high
    · rw [brk_started _ started, end_]
      exact stacked.inside
  | @granted start heap request fits fresh begins end_ limit =>
    have started : 0 < heap.heapEnd.toNat := by omega
    simp only [fresh, if_false, request, Bool.false_eq_true]
    refine ⟨?_, ?_, ?_, ?_, ?_⟩
    · rw [init_started started]
      exact limit
    · rw [brk_started _ started]
      omega
    · rw [brk_started _ started]
      omega
    · rw [brk_started _ started]
      intro b member
      rcases List.mem_append.mp member with old | new
      · have inside := stacked.inside b old
        omega
      · rw [List.mem_singleton.mp new]
        simp only [Block.stop, begins]
        omega
    · refine List.pairwise_append.mpr ⟨stacked.apart, List.pairwise_singleton _ _, ?_⟩
      intro a old b new
      rw [List.mem_singleton.mp new]
      have inside := stacked.inside a old
      simp only [begins]
      exact inside.2
  | @released start heap release fresh end_ kept limit =>
    have started : 0 < heap.heapEnd.toNat := by omega
    simp only [fresh, if_false, release, if_true]
    refine ⟨?_, ?_, ?_, ?_, stacked.apart.filter _⟩
    · rw [init_started started]
      exact limit
    · rw [brk_started _ started]
      exact kept
    · rw [brk_started _ started]
      omega
    · rw [brk_started _ started]
      intro b member
      obtain ⟨old, below⟩ := List.mem_filter.mp member
      exact ⟨(stacked.inside b old).1, by simpa using below⟩

theorem boot_stacked {linker : Linker} (sound : linker.Sound) :
    Stacked linker ⟨.boot, []⟩ where
  limit := rfl
  low := Nat.le_refl _
  high := sound.ordered
  inside := by simp
  apart := List.Pairwise.nil

theorem run_stacked {linker : Linker} (sound : linker.Sound) (deltas : List UInt32) :
    ∀ s, Stacked linker s → AllOwned linker s deltas → Stacked linker (run (call linker) s deltas) := by
  induction deltas with
  | nil =>
    intro s stacked _
    exact stacked
  | cons delta rest ih =>
    intro s stacked owned
    exact ih _ (call_stacked sound stacked owned.1) owned.2

/-- Whatever the caller asks for, as long as it gives back only what it was given: the blocks it
    holds do not overlap, they lie between the end of the program and the break, and the break is
    within the heap limit. The next call does what its own case says. -/
theorem sbrk_blocks {linker : Linker} (sound : linker.Sound) (deltas : List UInt32)
    (owned : AllOwned linker ⟨.boot, []⟩ deltas) :
    Stacked linker (after linker deltas) ∧
      ∀ delta, Owned linker (after linker deltas) delta →
        Moves linker ((after linker deltas).brk linker) delta
          (sbrk linker delta (after linker deltas).heap) := by
  have stacked := run_stacked sound deltas _ (boot_stacked sound) owned
  exact ⟨stacked, fun delta mine => sbrk_moves sound stacked mine⟩

theorem sbrk_blocks_release :
    after ⟨0x20000000, 0x20000100⟩ [0x40, 0x80, 0x80, 0xFFFFFF80] =
        ⟨⟨0x20000040, 0x20000100⟩, [⟨0x20000000, 0x40⟩]⟩ ∧
      Stacked ⟨0x20000000, 0x20000100⟩
        (after ⟨0x20000000, 0x20000100⟩ [0x40, 0x80, 0x80, 0xFFFFFF80]) ∧
      Moves ⟨0x20000000, 0x20000100⟩ 0x20000040 0x80
        (sbrk ⟨0x20000000, 0x20000100⟩ 0x80 ⟨0x20000040, 0x20000100⟩) := by
  have blocks := sbrk_blocks ⟨by decide, by decide, by decide⟩ _
    (by decide : AllOwned ⟨0x20000000, 0x20000100⟩ ⟨.boot, []⟩ [0x40, 0x80, 0x80, 0xFFFFFF80])
  exact ⟨by decide, blocks.1, blocks.2 0x80 (by decide)⟩

end RoverHeap
