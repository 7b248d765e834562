import Mathlib.Data.Nat.Notation

/-!
Machine words used as sets of flags: the shift-and-mask operations of C, and which bits
they read and change.
-/
namespace FlagWord
variable {w : Nat}

def setFlag (word : BitVec w) (bit : Nat) : BitVec w := word ||| (1#w <<< bit)

def clearFlag (word : BitVec w) (bit : Nat) : BitVec w := word &&& ~~~(1#w <<< bit)

def testFlag (word : BitVec w) (bit : Nat) : Bool := decide (word &&& (1#w <<< bit) ≠ 0#w)

theorem flag_bit (bit i : Nat) : (1#w <<< bit).getLsbD i = (decide (bit < w) && decide (bit = i)) :=
  BitVec.getLsbD_twoPow bit i

theorem testFlag_eq {bit : Nat} (inside : bit < w) (word : BitVec w) :
    testFlag word bit = word.getLsbD bit := by
  have one : (1#w <<< bit).getLsbD bit = true := by simp [inside]
  have flag : 1#w <<< bit ≠ 0#w := by
    intro none
    rw [none, BitVec.getLsbD_zero] at one
    exact absurd one Bool.false_ne_true
  have masked : word &&& (1#w <<< bit) = if word.getLsbD bit then 1#w <<< bit else 0#w :=
    BitVec.and_twoPow word bit
  rw [testFlag, masked]
  cases word.getLsbD bit with
  | true => exact decide_eq_true flag
  | false => exact decide_eq_false (fun apart => apart rfl)

theorem setFlag_bit {bit : Nat} (inside : bit < w) (word : BitVec w) (i : Nat) :
    (setFlag word bit).getLsbD i = if i = bit then true else word.getLsbD i := by
  rw [setFlag, BitVec.getLsbD_or, flag_bit]
  by_cases same : i = bit
  · simp [same, inside]
  · simp [same, Ne.symm same]

theorem clearFlag_bit (word : BitVec w) (bit i : Nat) :
    (clearFlag word bit).getLsbD i = if i = bit then false else word.getLsbD i := by
  rw [clearFlag, BitVec.getLsbD_and, BitVec.getLsbD_not, flag_bit]
  rcases Nat.lt_or_ge i w with inside | behind
  · by_cases same : i = bit
    · simp [← same, inside]
    · simp [same, Ne.symm same, inside]
  · simp [BitVec.getLsbD_of_ge word i behind]

end FlagWord
