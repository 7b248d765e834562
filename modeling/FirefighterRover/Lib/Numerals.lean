import FirefighterRover.Lib.CMemory

/-!
Decimal numerals as byte texts: what they denote, and the texts that print integers.
-/
namespace Numerals
open CMemory

def isDigit (c : UInt8) : Bool := 48 ≤ c ∧ c ≤ 57

def digitValue (c : UInt8) : Nat := c.toNat - 48

def digitsFrom (value : Nat) (text : List UInt8) : Nat :=
  text.foldl (fun v c => 10 * v + digitValue c) value

def digitsValue (text : List UInt8) : Nat := digitsFrom 0 text

structure Digits (text : List UInt8) : Prop where
  nonempty : text ≠ []
  digits : ∀ c ∈ text, isDigit c = true

/-- A text denotes an integer: digits, behind a minus sign for their negation. -/
inductive Denotes : List UInt8 → Int → Prop where
  | natural {text : List UInt8} : Digits text → Denotes text (digitsValue text)
  | negative {text : List UInt8} : Digits text → Denotes (chr '-' :: text) (-digitsValue text)

theorem digitsFrom_ge : ∀ (text : List UInt8) (value : Nat), value ≤ digitsFrom value text := by
  intro text
  induction text with
  | nil => intro value; exact Nat.le_refl value
  | cons c text ih =>
    intro value
    have grown : value ≤ 10 * value + digitValue c := by omega
    exact Nat.le_trans grown (ih (10 * value + digitValue c))

theorem digitsValue_ge (c d : UInt8) (text : List UInt8) :
    10 * digitValue c ≤ digitsValue (c :: d :: text) := by
  have grown : 10 * digitValue c ≤ 10 * (10 * 0 + digitValue c) + digitValue d := by omega
  exact Nat.le_trans grown (digitsFrom_ge text _)

theorem digit_range {c : UInt8} (digit : isDigit c = true) : 48 ≤ c.toNat ∧ c.toNat ≤ 57 := by
  simp only [isDigit, Bool.decide_and, Bool.and_eq_true, decide_eq_true_eq] at digit
  exact ⟨UInt8.le_iff_toNat_le.mp digit.1, UInt8.le_iff_toNat_le.mp digit.2⟩

theorem digitChar_toNat {c : Char} (digit : c.isDigit = true) :
    (chr c).toNat = c.toNat ∧ 48 ≤ c.toNat ∧ c.toNat ≤ 57 := by
  have range : 48 ≤ c.toNat ∧ c.toNat ≤ 57 := by
    simp only [Char.isDigit, Bool.and_eq_true, decide_eq_true_eq] at digit
    exact digit
  have small : (chr c).toNat = c.toNat := by
    rw [chr, UInt8.toNat_ofNat', Nat.mod_eq_of_lt]
    omega
  exact ⟨small, range⟩

theorem chr_isDigit {c : Char} (digit : c.isDigit = true) : isDigit (chr c) = true := by
  obtain ⟨small, range⟩ := digitChar_toNat digit
  simp only [isDigit, Bool.decide_and, Bool.and_eq_true, decide_eq_true_eq,
    UInt8.le_iff_toNat_le, small]
  exact range

theorem chr_zero {c : Char} (digit : c.isDigit = true) (zero : chr c = chr '0') : c = '0' := by
  have value := congrArg UInt8.toNat zero
  rw [(digitChar_toNat digit).1] at value
  exact Char.toNat_inj.mp value

def magnitude (n : Int) : List UInt8 := (Nat.toDigits 10 n.natAbs).map chr

theorem decimal_eq (n : Int) :
    decimal n = (if n < 0 then [chr '-'] else []) ++ magnitude n := rfl

theorem magnitude_digits (n : Int) : Digits (magnitude n) := by
  constructor
  · simp [magnitude]
  · intro c member
    obtain ⟨digit, listed, rfl⟩ := List.mem_map.mp member
    exact chr_isDigit (Nat.isDigit_of_mem_toDigits (by decide) (by decide) listed)

theorem decimal_bytes (n : Int) : ∀ c ∈ decimal n, c = chr '-' ∨ isDigit c = true := by
  intro c member
  rw [decimal_eq] at member
  rcases List.mem_append.mp member with member | member
  · left
    split at member
    · exact List.mem_singleton.mp member
    · cases member
  · exact Or.inr ((magnitude_digits n).digits c member)

theorem decimal_ne_nil (n : Int) : decimal n ≠ [] := by
  rw [decimal_eq]
  intro empty
  exact (magnitude_digits n).nonempty (List.append_eq_nil_iff.mp empty).2

theorem decimal_length {n : Int} (fits : IsInt32 n) : (decimal n).length ≤ 11 := by
  have small : n.natAbs < 10 ^ 10 := by
    simp only [IsInt32] at fits
    omega
  have digits : (magnitude n).length ≤ 10 := by
    rw [magnitude, List.length_map]
    exact (Nat.length_toDigits_le_iff (by decide) (by decide)).mpr small
  rw [decimal_eq, List.length_append]
  split
  · rw [List.length_singleton]
    omega
  · rw [List.length_nil]
    omega

theorem toDigits_head : ∀ {n : Nat}, 0 < n → (Nat.toDigits 10 n).head? ≠ some '0' := by
  intro n
  induction n using Nat.strongRecOn with
  | ind n ih =>
    intro positive
    by_cases single : n < 10
    · rw [Nat.toDigits_of_lt_base single]
      have known : n = 1 ∨ n = 2 ∨ n = 3 ∨ n = 4 ∨ n = 5 ∨ n = 6 ∨ n = 7 ∨ n = 8 ∨ n = 9 := by
        omega
      rcases known with rfl | rfl | rfl | rfl | rfl | rfl | rfl | rfl | rfl <;> decide
    · have rest := ih (n / 10) (by omega) (by omega)
      rw [Nat.toDigits_of_base_le (by decide) (by omega), List.head?_append_of_ne_nil _
        Nat.toDigits_ne_nil]
      exact rest

end Numerals
