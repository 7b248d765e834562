/-!
Forests by parent links: entries are numbered, and an entry has a parent of a lower number or none.
Climbing from an entry to the first marked one above it.
-/
namespace ParentLinks
variable {parent : Nat → Option Nat} {marked : Nat → Bool}

def Ordered (parent : Nat → Option Nat) : Prop := ∀ i p, parent i = some p → p < i

inductive Above (parent : Nat → Option Nat) : Nat → Nat → Prop where
  | self (i : Nat) : Above parent i i
  | up {i p j : Nat} (link : parent i = some p) (above : Above parent p j) : Above parent i j

/-- The first marked entry from `i` upwards, or the entry the climb has to stop at. -/
def climb (parent : Nat → Option Nat) (marked : Nat → Bool) : Nat → Nat → Nat
  | 0, i => i
  | fuel + 1, i =>
    if marked i then i
    else
      match parent i with
      | none => i
      | some p => climb parent marked fuel p

theorem above_le (ordered : Ordered parent) {i j : Nat} (above : Above parent i j) : j ≤ i := by
  induction above with
  | self i => exact Nat.le_refl i
  | up link _ ih => exact Nat.le_trans ih (Nat.le_of_lt (ordered _ _ link))

theorem above_parent {i j : Nat} (above : Above parent i j) (other : j ≠ i) :
    ∃ p, parent i = some p ∧ Above parent p j := by
  cases above with
  | self => exact absurd rfl other
  | up link above => exact ⟨_, link, above⟩

theorem above_line (ordered : Ordered parent) {a i j : Nat} (first : Above parent a i)
    (second : Above parent a j) (lower : j ≤ i) : Above parent i j := by
  induction first with
  | self i => exact second
  | @up a p i link above ih =>
    have inside := above_le ordered above
    have down := ordered a p link
    obtain ⟨q, same, rest⟩ := above_parent second (by omega)
    rw [link] at same
    obtain rfl := Option.some.inj same
    exact ih rest lower

theorem above_congr (ordered : Ordered parent) {links : Nat → Option Nat} {n : Nat}
    (same : ∀ k, k < n → links k = parent k) {i j : Nat} (above : Above parent i j)
    (inside : i < n) : Above links i j := by
  induction above with
  | self i => exact .self i
  | @up i p j link _ ih =>
    have lower := ordered i p link
    exact .up ((same i inside).trans link) (ih (Nat.lt_trans lower inside))

theorem climb_finds (ordered : Ordered parent) {j : Nat} (here : marked j = true)
    (highest : ∀ k, marked k = true → k ≤ j) {i : Nat} (above : Above parent i j) :
    ∀ {fuel : Nat}, i < fuel → climb parent marked fuel i = j := by
  induction above with
  | self i =>
    intro fuel enough
    obtain ⟨fuel, rfl⟩ : ∃ n, fuel = n + 1 := ⟨fuel - 1, by omega⟩
    exact if_pos here
  | @up i p j link above ih =>
    intro fuel enough
    obtain ⟨fuel, rfl⟩ : ∃ n, fuel = n + 1 := ⟨fuel - 1, by omega⟩
    have lower := ordered i p link
    have inside := above_le ordered above
    have unmarked : ¬ marked i = true := by
      intro marked
      have bound := highest i marked
      omega
    rw [climb, if_neg unmarked, link]
    exact ih here highest (by omega)

end ParentLinks
