import Mathlib.Logic.Function.Iterate

/-!
Loops that look at a state between the ticks of their surroundings: one waits as long as it
has to, one gives up after a number of looks.
-/
namespace Waiting
variable {State : Type} {ready : State → Bool} {tick : State → State}

/-- `while (!ready) tick;`, with `none` when the fuel does not suffice. -/
def waitUntil (ready : State → Bool) (tick : State → State) : Nat → State → Option State
  | 0, _ => none
  | fuel + 1, s => if ready s then some s else waitUntil ready tick fuel (tick s)

/-- At most `looks` times a tick and a look, the last of them when it finds the state ready. -/
def pollUntil (ready : State → Bool) (tick : State → State) : Nat → State → State
  | 0, s => s
  | looks + 1, s => if ready (tick s) then tick s else pollUntil ready tick looks (tick s)

theorem waitUntil_mono {fuel more : Nat} (enough : fuel ≤ more) {s t : State}
    (ends : waitUntil ready tick fuel s = some t) : waitUntil ready tick more s = some t := by
  induction fuel generalizing more s with
  | zero => exact absurd ends (by simp [waitUntil])
  | succ fuel ih =>
    obtain ⟨more, rfl⟩ : ∃ k, more = k + 1 := ⟨more - 1, by omega⟩
    rw [waitUntil] at ends ⊢
    by_cases done : ready s
    · rw [if_pos done] at ends ⊢
      exact ends
    · rw [if_neg done] at ends ⊢
      exact ih (Nat.le_of_succ_le_succ enough) ends

theorem waitUntil_ends {fuel : Nat} {s t : State} (ends : waitUntil ready tick fuel s = some t) :
    ready t = true ∧ ∃ n, t = tick^[n] s := by
  induction fuel generalizing s with
  | zero => exact absurd ends (by simp [waitUntil])
  | succ fuel ih =>
    rw [waitUntil] at ends
    by_cases done : ready s
    · rw [if_pos done] at ends
      obtain rfl := Option.some.inj ends
      exact ⟨done, 0, rfl⟩
    · rw [if_neg done] at ends
      obtain ⟨holds, n, reached⟩ := ih ends
      exact ⟨holds, n + 1, reached⟩

theorem waitUntil_of_ready (n : Nat) {s : State} (holds : ready (tick^[n] s) = true) :
    ∃ t, waitUntil ready tick (n + 1) s = some t := by
  induction n generalizing s with
  | zero => exact ⟨s, if_pos holds⟩
  | succ n ih =>
    by_cases done : ready s
    · exact ⟨s, if_pos done⟩
    · obtain ⟨t, ends⟩ := ih (s := tick s) holds
      exact ⟨t, (if_neg done).trans ends⟩

theorem waitUntil_ends_iff (ready : State → Bool) (tick : State → State) (s : State) :
    (∃ fuel t, waitUntil ready tick fuel s = some t) ↔ ∃ n, ready (tick^[n] s) = true := by
  constructor
  · rintro ⟨fuel, t, ends⟩
    obtain ⟨holds, n, rfl⟩ := waitUntil_ends ends
    exact ⟨n, holds⟩
  · rintro ⟨n, holds⟩
    exact ⟨n + 1, waitUntil_of_ready n holds⟩

theorem iterate_keeps (inv : State → Prop) (kept : ∀ s, inv s → inv (tick s)) {s : State}
    (start : inv s) (n : Nat) : inv (tick^[n] s) := by
  induction n generalizing s with
  | zero => exact start
  | succ n ih => exact ih (kept s start)

theorem waitUntil_keeps (inv : State → Prop) (kept : ∀ s, inv s → inv (tick s)) {fuel : Nat}
    {s t : State} (start : inv s) (ends : waitUntil ready tick fuel s = some t) : inv t := by
  obtain ⟨_, n, rfl⟩ := waitUntil_ends ends
  exact iterate_keeps inv kept start n

theorem pollUntil_ticks (ready : State → Bool) (tick : State → State) {looks : Nat}
    (some : 0 < looks) (s : State) :
    ∃ n, n < looks ∧ pollUntil ready tick looks s = tick^[n + 1] s := by
  induction looks generalizing s with
  | zero => exact absurd some (Nat.lt_irrefl 0)
  | succ looks ih =>
    rw [pollUntil]
    by_cases done : ready (tick s)
    · rw [if_pos done]
      exact ⟨0, Nat.succ_pos looks, rfl⟩
    · rw [if_neg done]
      cases looks with
      | zero => exact ⟨0, Nat.succ_pos 0, rfl⟩
      | succ looks =>
        obtain ⟨n, within, reached⟩ := ih (Nat.succ_pos looks) (tick s)
        exact ⟨n + 1, Nat.succ_lt_succ within, reached⟩

theorem pollUntil_keeps (inv : State → Prop) (kept : ∀ s, inv s → inv (tick s)) (looks : Nat)
    {s : State} (start : inv s) : inv (pollUntil ready tick looks s) := by
  cases looks with
  | zero => exact start
  | succ looks =>
    obtain ⟨n, _, reached⟩ := pollUntil_ticks ready tick (Nat.succ_pos looks) s
    rw [reached]
    exact iterate_keeps inv kept start (n + 1)

end Waiting
