import FirefighterRover.Lib.CMemory

/-!
Lower-case hexadecimal texts: two characters for each byte, the high half first, and the
decoder that takes them back in pairs.
-/
namespace HexText
open CMemory

def hexChar (n : Nat) : UInt8 := if n < 10 then UInt8.ofNat (48 + n) else UInt8.ofNat (87 + n)

def isHexChar (c : UInt8) : Bool :=
  (chr '0' ≤ c ∧ c ≤ chr '9') ∨ (chr 'a' ≤ c ∧ c ≤ chr 'f')

def hexValue (c : UInt8) : Nat := if c ≤ chr '9' then c.toNat - 48 else c.toNat - 87

def pair (b : UInt8) : List UInt8 := [hexChar (b.toNat / 16), hexChar (b.toNat % 16)]

def encode (bytes : List UInt8) : List UInt8 := bytes.flatMap pair

/-- An odd character or one that is no digit makes the whole text no code. -/
def decode : List UInt8 → Option (List UInt8)
  | [] => some []
  | [_] => none
  | high :: low :: text =>
    if isHexChar high ∧ isHexChar low then
      (decode text).map (UInt8.ofNat (16 * hexValue high + hexValue low) :: ·)
    else none

theorem hexChar_isHexChar {n : Nat} (digit : n < 16) : isHexChar (hexChar n) = true := by
  have all : ∀ n ∈ List.range 16, isHexChar (hexChar n) = true := by decide
  exact all n (List.mem_range.mpr digit)

theorem hexValue_hexChar {n : Nat} (digit : n < 16) : hexValue (hexChar n) = n := by
  have all : ∀ n ∈ List.range 16, hexValue (hexChar n) = n := by decide
  exact all n (List.mem_range.mpr digit)

theorem halves (b : UInt8) : b.toNat / 16 < 16 ∧ b.toNat % 16 < 16 := by
  have byte := b.toNat_lt
  omega

theorem encode_append (bytes others : List UInt8) :
    encode (bytes ++ others) = encode bytes ++ encode others :=
  List.flatMap_append

theorem encode_length (bytes : List UInt8) : (encode bytes).length = 2 * bytes.length := by
  induction bytes with
  | nil => rfl
  | cons b bytes ih =>
    have step : encode (b :: bytes) = pair b ++ encode bytes := List.flatMap_cons
    rw [step, List.length_append, ih, List.length_cons]
    simp only [pair, List.length_cons, List.length_nil]
    omega

theorem encode_isHexChar (bytes : List UInt8) : ∀ c ∈ encode bytes, isHexChar c = true := by
  intro c member
  obtain ⟨b, _, placed⟩ := List.mem_flatMap.mp member
  obtain ⟨high, low⟩ := halves b
  simp only [pair, List.mem_cons, List.not_mem_nil, or_false] at placed
  rcases placed with rfl | rfl
  · exact hexChar_isHexChar high
  · exact hexChar_isHexChar low

theorem decode_encode (bytes : List UInt8) : decode (encode bytes) = some bytes := by
  induction bytes with
  | nil => rfl
  | cons b bytes ih =>
    obtain ⟨high, low⟩ := halves b
    have step : encode (b :: bytes) =
        hexChar (b.toNat / 16) :: hexChar (b.toNat % 16) :: encode bytes := rfl
    have whole : 16 * (b.toNat / 16) + b.toNat % 16 = b.toNat := Nat.div_add_mod b.toNat 16
    rw [step, decode, if_pos ⟨hexChar_isHexChar high, hexChar_isHexChar low⟩,
      hexValue_hexChar high, hexValue_hexChar low, whole, ih]
    simp

theorem encode_injective {bytes others : List UInt8} (same : encode bytes = encode others) :
    bytes = others := by
  have read := congrArg decode same
  rw [decode_encode, decode_encode] at read
  exact Option.some.inj read

theorem isHexChar_ne_zero {c : UInt8} (hex : isHexChar c = true) : c ≠ 0 := by
  rintro rfl
  exact absurd hex (by decide)

end HexText
