import Mathlib.Algebra.Group.Int.Defs
import Mathlib.Data.List.Basic

/-!
C strings, integers and byte images. A pointer is the memory from it on; a function
reads only as far as its bounds and terminators let it. Two's complement integers are
Int with explicit wrapping, and their memory image is little-endian.
-/
namespace CMemory

abbrev Ptr := Nat → UInt8

def Ptr.add (p : Ptr) (k : Nat) : Ptr := fun i => p (k + i)

def chr (c : Char) : UInt8 := UInt8.ofNat c.toNat

def lit (s : String) : List UInt8 := s.toList.map chr

def cstr (text : List UInt8) : Ptr := fun i => text.getD i 0

def strncmp : Ptr → Ptr → Nat → Int
  | _, _, 0 => 0
  | a, b, n + 1 =>
    if a 0 = b 0 ∧ a 0 ≠ 0 then strncmp (a.add 1) (b.add 1) n
    else (a 0).toNat - (b 0).toNat

theorem clean_of_all {text : List UInt8} (all : (text.all fun c => c != 0) = true) :
    ∀ c ∈ text, c ≠ 0 := by
  simpa using all

theorem strncmp_cstr {text : List UInt8} (clean : ∀ c ∈ text, c ≠ 0) : ∀ {p : Ptr},
    strncmp p (cstr text) text.length = 0 ↔ (List.range text.length).map p = text := by
  induction text with
  | nil => intro p; simp [strncmp]
  | cons c text ih =>
    intro p
    have tail : (cstr (c :: text)).add 1 = cstr text := by
      funext i
      simp [cstr, Ptr.add, Nat.add_comm 1 i]
    have head : cstr (c :: text) 0 = c := rfl
    have nonzero : c ≠ 0 := clean c (by simp)
    have rest := ih (fun x hx => clean x (by simp [hx])) (p := p.add 1)
    have shifted : (List.range text.length).map (p.add 1) =
        (List.range text.length).map (p ∘ Nat.succ) := by
      apply List.map_congr_left
      intro i _
      simp [Ptr.add, Nat.add_comm 1 i]
    rw [List.length_cons, List.range_succ_eq_map, List.map_cons, List.map_map, ← shifted]
    simp only [strncmp, head, tail]
    by_cases same : p 0 = c
    · simp [same, nonzero, rest]
    · have differ : ((p 0).toNat : Int) - c.toNat ≠ 0 := by
        intro equal
        apply same
        apply UInt8.toNat_inj.mp
        omega
      simp [same, differ]

/-- The first `n` bytes of memory. -/
def Ptr.image (p : Ptr) (n : Nat) : List UInt8 := (List.range n).map p

theorem image_succ (p : Ptr) (n : Nat) : p.image (n + 1) = p 0 :: (p.add 1).image n := by
  rw [Ptr.image, List.range_succ_eq_map, List.map_cons, List.map_map]
  congr 1
  apply List.map_congr_left
  intro i _
  simp [Ptr.add, Nat.add_comm 1 i]

theorem image_length (p : Ptr) (n : Nat) : (p.image n).length = n := by
  rw [Ptr.image, List.length_map, List.length_range]

theorem image_congr {p q : Ptr} {n : Nat} (same : ∀ i, i < n → p i = q i) :
    p.image n = q.image n :=
  List.map_congr_left fun i member => same i (List.mem_range.mp member)

theorem cstr_image (text : List UInt8) : (cstr text).image text.length = text := by
  induction text with
  | nil => rfl
  | cons c text ih =>
    have tail : (cstr (c :: text)).add 1 = cstr text := by
      funext i
      simp [cstr, Ptr.add, Nat.add_comm 1 i]
    rw [List.length_cons, image_succ, tail, ih]
    rfl

theorem cstr_terminated (text : List UInt8) : cstr (text ++ [0]) = cstr text := by
  funext i
  rw [cstr, cstr, List.getD_eq_getElem?_getD, List.getD_eq_getElem?_getD]
  rcases Nat.lt_or_ge i text.length with inside | behind
  · rw [List.getElem?_append_left inside]
  · rw [List.getElem?_append_right behind, List.getElem?_eq_none behind, List.getElem?_singleton]
    split <;> rfl

theorem image_take (p : Ptr) {m n : Nat} (short : m ≤ n) : (p.image n).take m = p.image m := by
  rw [Ptr.image, ← List.map_take, List.take_range, Nat.min_eq_left short]
  rfl

theorem image_starts {p : Ptr} {m n : Nat} (short : m ≤ n) : p.image m <+: p.image n := by
  rw [← image_take p short]
  exact List.take_prefix m (p.image n)

theorem image_of_starts {p : Ptr} {n : Nat} {text : List UInt8} (starts : text <+: p.image n) :
    p.image text.length = text := by
  have short := starts.length_le
  rw [image_length] at short
  rw [← image_take p short]
  exact (List.prefix_iff_eq_take.mp starts).symm

def Ptr.store (p : Ptr) (i : Nat) (c : UInt8) : Ptr := fun j => if j = i then c else p j

theorem store_other (p : Ptr) (c : UInt8) {i j : Nat} (other : j ≠ i) : p.store i c j = p j :=
  if_neg other

theorem image_store (p : Ptr) (c : UInt8) {n i : Nat} (behind : n ≤ i) :
    (p.store i c).image n = p.image n :=
  image_congr fun j bound => store_other p c (by omega)

theorem image_append (p : Ptr) (m n : Nat) : p.image (m + n) = p.image m ++ (p.add m).image n := by
  induction m generalizing p with
  | zero =>
    have same : p.add 0 = p := by
      funext i
      simp [Ptr.add]
    rw [Nat.zero_add, same]
    rfl
  | succ m ih =>
    have shifted : (p.add 1).add m = p.add (m + 1) := by
      funext i
      simp only [Ptr.add]
      congr 1
      omega
    rw [Nat.add_right_comm, image_succ, image_succ, ih, shifted, List.cons_append]

theorem image_store_end (p : Ptr) (n : Nat) (c : UInt8) :
    (p.store n c).image (n + 1) = p.image n ++ [c] := by
  have last : ((p.store n c).add n).image 1 = [c] := by simp [Ptr.image, Ptr.add, Ptr.store]
  rw [image_append, image_store p c (Nat.le_refl n), last]

theorem image_byte {p : Ptr} {n : Nat} {text : List UInt8} (starts : p.image n <+: text) {i : Nat}
    (bound : i < n) : p i = cstr text i := by
  obtain ⟨tail, rfl⟩ := starts
  have inside : i < (p.image n).length := by
    rw [image_length]
    exact bound
  rw [cstr, List.getD_eq_getElem?_getD, List.getElem?_append_left inside,
    List.getElem?_eq_getElem inside]
  simp only [Ptr.image, List.getElem_map, List.getElem_range, Option.getD_some]

theorem image_last (p : Ptr) {n : Nat} (positive : 0 < n) :
    (p.image n).getLast? = some (p (n - 1)) := by
  obtain ⟨k, rfl⟩ : ∃ k, n = k + 1 := ⟨n - 1, by omega⟩
  simp [Ptr.image, List.range_succ]

theorem strncmp_starts {text : List UInt8} : ∀ {n : Nat} {p : Ptr}, (∀ i, i < n → p i ≠ 0) →
    (strncmp p (cstr text) n = 0 ↔ p.image n <+: text) := by
  induction text with
  | nil =>
    intro n p clean
    cases n with
    | zero => simp [strncmp, Ptr.image]
    | succ n =>
      have nonzero : p 0 ≠ 0 := clean 0 (Nat.succ_pos n)
      have empty : cstr [] 0 = 0 := rfl
      have positive : (p 0).toNat ≠ 0 := by
        intro zero
        exact nonzero (UInt8.toNat_inj.mp zero)
      rw [image_succ, strncmp, empty, if_neg (fun h => nonzero h.1)]
      simp [positive]
  | cons c text ih =>
    intro n p clean
    cases n with
    | zero => simp [strncmp, Ptr.image]
    | succ n =>
      have nonzero : p 0 ≠ 0 := clean 0 (Nat.succ_pos n)
      have tail : (cstr (c :: text)).add 1 = cstr text := by
        funext i
        simp [cstr, Ptr.add, Nat.add_comm 1 i]
      have head : cstr (c :: text) 0 = c := rfl
      have rest := ih (n := n) (p := p.add 1) (fun i bound => by
        rw [Ptr.add, Nat.add_comm]
        exact clean (i + 1) (by omega))
      rw [image_succ, List.cons_prefix_cons, strncmp, head, tail]
      by_cases same : p 0 = c
      · rw [if_pos ⟨same, nonzero⟩, rest]
        simp [same]
      · have differ : ((p 0).toNat : Int) - c.toNat ≠ 0 := by
          intro equal
          apply same
          apply UInt8.toNat_inj.mp
          omega
        rw [if_neg (fun h => same h.1)]
        simp [same, differ]

theorem strncmp_congr (text : Ptr) : ∀ {n : Nat} {p q : Ptr}, (∀ i, i < n → p i = q i) →
    strncmp p text n = strncmp q text n := by
  intro n
  induction n generalizing text with
  | zero => intro p q _; rfl
  | succ n ih =>
    intro p q same
    have first : p 0 = q 0 := same 0 (Nat.succ_pos n)
    have rest : strncmp (p.add 1) (text.add 1) n = strncmp (q.add 1) (text.add 1) n := by
      apply ih
      intro i bound
      simp only [Ptr.add]
      exact same (1 + i) (by omega)
    simp only [strncmp, first, rest]

/-- What "%.*s" prints: at most `n` bytes, up to the first NUL. -/
def strn : Ptr → Nat → List UInt8
  | _, 0 => []
  | p, n + 1 => if p 0 = 0 then [] else p 0 :: strn (p.add 1) n

theorem strn_image {p : Ptr} {n : Nat} (clean : ∀ c ∈ p.image n, c ≠ 0) : strn p n = p.image n := by
  induction n generalizing p with
  | zero => rfl
  | succ n ih =>
    rw [image_succ] at clean ⊢
    rw [strn, if_neg (clean _ (by simp)), ih (fun c member => clean c (by simp [member]))]

theorem strn_congr : ∀ {n : Nat} {p q : Ptr}, (∀ i, i < n → p i = q i) → strn p n = strn q n := by
  intro n
  induction n with
  | zero => intro p q _; rfl
  | succ n ih =>
    intro p q same
    have first : p 0 = q 0 := same 0 (Nat.succ_pos n)
    have rest : strn (p.add 1) n = strn (q.add 1) n := by
      apply ih
      intro i bound
      simp only [Ptr.add]
      exact same (1 + i) (by omega)
    simp only [strn, first, rest]

/-- A buffer of `size` bytes holds at most `size - 1` characters and a NUL. -/
def snprintf (size : Nat) (text : List UInt8) : List UInt8 := text.take (size - 1)

def decimal (n : Int) : List UInt8 :=
  (if n < 0 then [chr '-'] else []) ++ (Nat.toDigits 10 n.natAbs).map chr

def wrap32 (n : Int) : Int := (n + 2 ^ 31) % 2 ^ 32 - 2 ^ 31

def IsInt32 (n : Int) : Prop := -2 ^ 31 ≤ n ∧ n < 2 ^ 31

instance (n : Int) : Decidable (IsInt32 n) :=
  inferInstanceAs (Decidable (-2 ^ 31 ≤ n ∧ n < 2 ^ 31))

theorem wrap32_isInt32 (n : Int) : IsInt32 (wrap32 n) := by
  simp only [IsInt32, wrap32]
  omega

theorem wrap32_of_isInt32 {n : Int} (fits : IsInt32 n) : wrap32 n = n := by
  simp only [IsInt32, wrap32] at *
  omega

/-- Byte `k` of the image of an int, `k < 4`. -/
def intByte (n : Int) (k : Nat) : UInt8 := UInt8.ofNat (n / 256 ^ k % 256).toNat

def readInt (p : Ptr) : Int :=
  wrap32 ((p 0).toNat + 256 * (p 1).toNat + 65536 * (p 2).toNat + 16777216 * (p 3).toNat)

theorem intByte_toNat (n : Int) (k : Nat) : ((intByte n k).toNat : Int) = n / 256 ^ k % 256 := by
  have low : 0 ≤ n / 256 ^ k % 256 := Int.emod_nonneg _ (by decide)
  have high : n / 256 ^ k % 256 < 256 := Int.emod_lt_of_pos _ (by decide)
  simp only [intByte, UInt8.toNat_ofNat']
  omega

theorem readInt_of_image {p : Ptr} {n : Int} (fits : IsInt32 n)
    (image : ∀ k, k < 4 → p k = intByte n k) : readInt p = n := by
  rw [← wrap32_of_isInt32 fits, readInt, image 0 (by decide), image 1 (by decide),
    image 2 (by decide), image 3 (by decide)]
  simp only [intByte_toNat, wrap32]
  simp only [IsInt32] at fits
  omega

theorem strn_text (text : List UInt8) : ∀ (p : Ptr) (n : Nat), text.length < n →
    (∀ c ∈ text, c ≠ 0) → (∀ i, i ≤ text.length → p i = text.getD i 0) → strn p n = text := by
  induction text with
  | nil =>
    intro p n room _ stored
    obtain ⟨m, rfl⟩ : ∃ m, n = m + 1 := ⟨n - 1, by simp only [List.length_nil] at room; omega⟩
    have stop : p 0 = 0 := stored 0 (Nat.zero_le _)
    simp [strn, stop]
  | cons c text ih =>
    intro p n room clean stored
    obtain ⟨m, rfl⟩ : ∃ m, n = m + 1 := ⟨n - 1, by omega⟩
    have first : p 0 = c := stored 0 (Nat.zero_le _)
    have rest : strn (p.add 1) m = text := by
      refine ih (p.add 1) m ?_ (fun x hx => clean x (by simp [hx])) ?_
      · simp only [List.length_cons] at room
        omega
      · intro i hi
        have shifted := stored (1 + i) (by simp only [List.length_cons]; omega)
        rw [Nat.add_comm 1 i, List.getD_cons_succ, Nat.add_comm i 1] at shifted
        exact shifted
    simp [strn, first, clean c (by simp), rest]

end CMemory
