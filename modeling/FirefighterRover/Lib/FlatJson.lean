import FirefighterRover.Lib.Numerals

/-!
Flat JSON objects as texts: any whitespace around the symbols, keys and strings without
escapes, bare values without separators. The parts carry what their bytes may be, so that
every value of these types has a text.
-/
namespace FlatJson
open CMemory Numerals

def isBlank (c : UInt8) : Bool := c = chr '\t' ∨ c = chr '\r' ∨ c = chr '\n' ∨ c = chr ' '

def isPlain (c : UInt8) : Bool := c ≠ 0 ∧ c ≠ chr '\"' ∧ c ≠ chr '\\'

def isBare (c : UInt8) : Bool :=
  32 < c ∧ c < 127 ∧ c ≠ chr ':' ∧ c ≠ chr ',' ∧ c ≠ chr ']' ∧ c ≠ chr '}'

structure Blank where
  text : List UInt8
  blank : ∀ c ∈ text, isBlank c = true

def Blank.none : Blank := ⟨[], by simp⟩

def Blank.ofAll (text : List UInt8) (all : text.all isBlank = true) : Blank :=
  ⟨text, List.all_eq_true.mp all⟩

def Blank.space : Blank := .ofAll [chr ' '] rfl

structure Plain where
  text : List UInt8
  plain : ∀ c ∈ text, isPlain c = true

def Plain.ofAll (text : List UInt8) (all : text.all isPlain = true) : Plain :=
  ⟨text, List.all_eq_true.mp all⟩

/-- A value without quotes: a number, a literal, or any other word. -/
structure Bare where
  text : List UInt8
  nonempty : text ≠ []
  bare : ∀ c ∈ text, isBare c = true
  starts : ∀ c ∈ text.head?, c ≠ chr '\"' ∧ c ≠ chr '{' ∧ c ≠ chr '['

inductive Scalar where
  | quoted (s : Plain)
  | bare (b : Bare)

def Scalar.text : Scalar → List UInt8
  | .quoted s => s.text
  | .bare b => b.text

def quote (text : List UInt8) : List UInt8 := chr '\"' :: (text ++ [chr '\"'])

def Scalar.bytes : Scalar → List UInt8
  | .quoted s => quote s.text
  | .bare b => b.text

structure Member where
  before : Blank
  key : Plain
  afterKey : Blank
  beforeValue : Blank
  value : Scalar
  after : Blank

def Member.bytes (m : Member) : List UInt8 :=
  m.before.text ++ (quote m.key.text ++ (m.afterKey.text ++
    (chr ':' :: (m.beforeValue.text ++ (m.value.bytes ++ m.after.text)))))

def membersBytes : List Member → List UInt8
  | [] => []
  | [m] => m.bytes
  | m :: n :: members => m.bytes ++ chr ',' :: membersBytes (n :: members)

/-- `inner` is the whitespace of an object without members. -/
structure FlatObject where
  lead : Blank
  inner : Blank
  members : List Member
  tail : Blank

def FlatObject.bytes (o : FlatObject) : List UInt8 :=
  o.lead.text ++ (chr '{' :: (o.inner.text ++ (membersBytes o.members ++
    (chr '}' :: o.tail.text))))

def IsIntegerPart (text : List UInt8) : Prop :=
  text = [chr '0'] ∨ (Digits text ∧ text.head? ≠ some (chr '0'))

inductive IsNumber : List UInt8 → Prop where
  | mk {sign integer fraction exponent : List UInt8} :
    sign = [] ∨ sign = [chr '-'] →
    IsIntegerPart integer →
    fraction = [] ∨ (∃ digits, fraction = chr '.' :: digits ∧ Digits digits) →
    exponent = [] ∨ (∃ e plus digits, exponent = e :: (plus ++ digits) ∧
      (e = chr 'e' ∨ e = chr 'E') ∧ (plus = [] ∨ plus = [chr '+'] ∨ plus = [chr '-']) ∧
      Digits digits) →
    IsNumber (sign ++ integer ++ fraction ++ exponent)

def IsLiteral (text : List UInt8) : Prop :=
  text = lit "true" ∨ text = lit "false" ∨ text = lit "null" ∨ IsNumber text

def Plain.Strict (s : Plain) : Prop := ∀ c ∈ s.text, 32 ≤ c

def Scalar.Strict : Scalar → Prop
  | .quoted s => s.Strict
  | .bare b => IsLiteral b.text

def Member.Strict (m : Member) : Prop := m.key.Strict ∧ m.value.Strict

def WellFormed (text : List UInt8) : Prop :=
  ∃ o : FlatObject, o.bytes = text ∧ ∀ m ∈ o.members, m.Strict

theorem numeral_byte {c : UInt8} (numeral : c = chr '-' ∨ isDigit c = true) :
    32 < c ∧ isPlain c = true ∧ isBare c = true ∧ c ≠ chr '\"' ∧ c ≠ chr '{' ∧ c ≠ chr '[' := by
  rcases numeral with rfl | digit
  · decide
  · have range := digit_range digit
    have other : ∀ d : UInt8, d.toNat < 48 ∨ 57 < d.toNat → c ≠ d := by
      rintro d outside rfl
      omega
    have low : 32 < c := UInt8.lt_iff_toNat_lt.mpr (Nat.lt_of_lt_of_le (by decide) range.1)
    have high : c < 127 := UInt8.lt_iff_toNat_lt.mpr (Nat.lt_of_le_of_lt range.2 (by decide))
    refine ⟨low, ?_, ?_, other _ (by decide), other _ (by decide), other _ (by decide)⟩
    · simp [isPlain, other 0 (by decide), other (chr '\"') (by decide),
        other (chr '\\') (by decide)]
    · simp [isBare, low, high, other (chr ':') (by decide), other (chr ',') (by decide),
        other (chr ']') (by decide), other (chr '}') (by decide)]

def Plain.ofInt (n : Int) : Plain :=
  ⟨decimal n, fun c member => (numeral_byte (decimal_bytes n c member)).2.1⟩

def Bare.ofInt (n : Int) : Bare :=
  ⟨decimal n, decimal_ne_nil n, fun c member => (numeral_byte (decimal_bytes n c member)).2.2.1,
    fun c first => (numeral_byte (decimal_bytes n c (List.mem_of_mem_head? first))).2.2.2⟩

theorem decimal_isNumber (n : Int) : IsNumber (decimal n) := by
  have integer : IsIntegerPart (magnitude n) := by
    by_cases zero : n = 0
    · left
      subst zero
      rfl
    · right
      refine ⟨magnitude_digits n, ?_⟩
      have positive : 0 < n.natAbs := Int.natAbs_pos.mpr zero
      intro head
      rw [magnitude, List.head?_map, Option.map_eq_some_iff] at head
      obtain ⟨digit, first, same⟩ := head
      have listed : digit ∈ Nat.toDigits 10 n.natAbs := List.mem_of_mem_head? first
      have zero := chr_zero (Nat.isDigit_of_mem_toDigits (by decide) (by decide) listed) same
      exact toDigits_head positive (zero ▸ first)
  have sign : (if n < 0 then [chr '-'] else []) = [] ∨
      (if n < 0 then [chr '-'] else []) = [chr '-'] := by
    split
    · exact Or.inr rfl
    · exact Or.inl rfl
  have number := IsNumber.mk sign integer (Or.inl rfl) (Or.inl rfl)
  rw [List.append_nil, List.append_nil] at number
  exact number

end FlatJson
