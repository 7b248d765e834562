import FirefighterRover.Lib.EventRuns

/-!
Schedules that run in rounds. A step that changes the state lowers a rank, up to the work its
event brings along. Such a schedule cannot change the state in every round for longer than its
rank and the work it brings allow. A countdown that certain events advance is over after as
many of them.
-/
namespace Scheduling
open EventRuns
variable {State Event : Type}

def Paid (step : State → Event → State) (rank : State → Nat) (work : Event → Nat) : Prop :=
  ∀ s e, step s e = s ∨ rank (step s e) < rank s + work e

def Quiet (step : State → Event → State) (s : State) (round : List Event) : Prop :=
  ∀ e ∈ round, step s e = s

def totalWork (work : Event → Nat) : List Event → Nat
  | [] => 0
  | e :: rest => work e + totalWork work rest

theorem totalWork_append (work : Event → Nat) (a b : List Event) :
    totalWork work (a ++ b) = totalWork work a + totalWork work b := by
  induction a with
  | nil => exact (Nat.zero_add _).symm
  | cons e rest ih => rw [List.cons_append, totalWork, totalWork, ih, Nat.add_assoc]

variable {step : State → Event → State} {rank : State → Nat} {work : Event → Nat}

theorem rank_run (paid : Paid step rank work) (events : List Event) : ∀ s,
    rank (run step s events) ≤ rank s + totalWork work events := by
  induction events with
  | nil => intro s; exact Nat.le_refl _
  | cons e rest ih =>
    intro s
    have after := ih (step s e)
    simp only [totalWork] at after ⊢
    rw [run_cons]
    rcases paid s e with same | lower
    · rw [same] at after ⊢
      omega
    · omega

theorem round_paid (paid : Paid step rank work) (round : List Event) : ∀ s,
    Quiet step s round ∨ rank (run step s round) < rank s + totalWork work round := by
  induction round with
  | nil =>
    intro s
    left
    intro e member
    cases member
  | cons e rest ih =>
    intro s
    rcases paid s e with same | lower
    · rcases ih s with quiet | pays
      · left
        intro x member
        rcases List.mem_cons.mp member with rfl | later
        · exact same
        · exact quiet x later
      · right
        simp only [totalWork] at pays ⊢
        rw [run_cons, same]
        omega
    · right
      have after := rank_run paid rest (step s e)
      simp only [totalWork] at after ⊢
      rw [run_cons]
      omega

/-- Among more rounds than the rank and the work account for, one finds nothing to do. -/
theorem quiet_round (paid : Paid step rank work) (rounds : List (List Event)) : ∀ s,
    rank s + totalWork work rounds.flatten < rounds.length →
    ∃ before round later, rounds = before ++ round :: later ∧
      Quiet step (run step s before.flatten) round := by
  induction rounds with
  | nil => intro s long; exact absurd long (Nat.not_lt_zero _)
  | cons round rest ih =>
    intro s long
    rw [List.flatten_cons, totalWork_append, List.length_cons] at long
    rcases round_paid paid round s with quiet | pays
    · exact ⟨[], round, rest, rfl, quiet⟩
    · obtain ⟨before, found, later, split, quiet⟩ := ih (run step s round) (by omega)
      refine ⟨round :: before, found, later, by rw [split]; rfl, ?_⟩
      rw [List.flatten_cons, run_append]
      exact quiet

structure Countdown (step : State → Event → State) (inv : State → Prop) (count : State → Nat)
    (turn : Event → Bool) : Prop where
  kept : ∀ s e, inv s → inv (step s e)
  falls : ∀ s e, inv s → count (step s e) ≤ count s - (turn e).toNat

theorem countdown_run {inv : State → Prop} {count : State → Nat} {turn : Event → Bool}
    (countdown : Countdown step inv count turn) (events : List Event) : ∀ s, inv s →
    count (run step s events) ≤ count s - events.countP turn := by
  induction events with
  | nil => intro s _; exact Nat.le_refl _
  | cons e rest ih =>
    intro s holds
    have first := countdown.falls s e holds
    have later := ih (step s e) (countdown.kept s e holds)
    rw [run_cons, List.countP_cons]
    cases advances : turn e <;> simp only [advances, Bool.toNat_false, Bool.toNat_true] at first <;>
      simp only [Bool.false_eq_true, if_true, if_false] <;> omega

end Scheduling
