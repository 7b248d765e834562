import FirefighterRover.Lib.HexText

/-!
main_task.c: the client id a rover gives the broker, its MAC address in hexadecimal.
-/
namespace RoverClientId
open CMemory HexText

abbrev MacAddress := Vector UInt8 6

/-- The buffer of mainThread, `char clientId[13]`. -/
abbrev ClientId := Vector UInt8 13

structure MacReply where
  ret : Int
  macAddress : MacAddress

/-- One half of a byte as the branch on Client_Mac_Name[i] > 9 writes it. -/
def macNameChar (n : UInt8) : UInt8 := if n > 9 then n + chr 'a' - 10 else n + chr '0'

def macBytePass (macAddress : MacAddress) (index : Nat) (inside : index < 6) (id : ClientId) :
    ClientId :=
  (id.set (2 * index) (macNameChar ((macAddress[index] >>> 4) &&& 0xf))).set
    (2 * index + 1) (macNameChar (macAddress[index] &&& 0xf))

def macBytePasses (macAddress : MacAddress) (id : ClientId) : (k : Nat) → k ≤ 6 → ClientId
  | 0, _ => id
  | k + 1, inside =>
    macBytePass macAddress k inside (macBytePasses macAddress id k (Nat.le_of_succ_le inside))

def setClientIdNamefromMacAddress (reply : MacReply) (id : ClientId) : Int × ClientId :=
  (reply.ret,
    if id[0] = 0 then macBytePasses reply.macAddress id 6 (Nat.le_refl 6) else id)

def mainThreadClientId (reply : MacReply) : ClientId :=
  (setClientIdNamefromMacAddress reply (Vector.replicate 13 0)).2

theorem macNameChar_toNat {n : UInt8} (digit : n.toNat < 16) :
    macNameChar n = hexChar n.toNat := by
  have all : ∀ n ∈ List.range 16, macNameChar (UInt8.ofNat n) = hexChar n := by decide
  have read := all n.toNat (List.mem_range.mpr digit)
  rwa [UInt8.ofNat_toNat] at read

theorem high_half (b : UInt8) : ((b >>> 4) &&& 0xf).toNat = b.toNat / 16 := by
  have shifted : (b >>> 4).toNat = b.toNat / 16 := by
    rw [UInt8.toNat_shiftRight]
    exact Nat.shiftRight_eq_div_pow b.toNat 4
  have masked : ((b >>> 4) &&& 0xf).toNat = (b >>> 4).toNat % 16 := by
    rw [UInt8.toNat_and]
    exact Nat.and_two_pow_sub_one_eq_mod _ 4
  rw [masked, shifted, Nat.mod_eq_of_lt (halves b).1]

theorem low_half (b : UInt8) : (b &&& 0xf).toNat = b.toNat % 16 := by
  rw [UInt8.toNat_and]
  exact Nat.and_two_pow_sub_one_eq_mod _ 4

theorem pair_chars (b : UInt8) :
    [macNameChar ((b >>> 4) &&& 0xf), macNameChar (b &&& 0xf)] = pair b := by
  obtain ⟨high, low⟩ := halves b
  have first := macNameChar_toNat (n := (b >>> 4) &&& 0xf) (by rw [high_half]; exact high)
  have second := macNameChar_toNat (n := b &&& 0xf) (by rw [low_half]; exact low)
  rw [first, second, high_half, low_half, pair]

theorem set_two {α : Type} {xs : List α} {i : Nat} (within : i + 1 < xs.length) (a b : α) :
    (xs.set i a).set (i + 1) b = xs.take i ++ [a, b] ++ xs.drop (i + 2) := by
  have here : i < xs.length := Nat.lt_of_succ_lt within
  have start : (xs.take i).length = i := List.length_take_of_le (Nat.le_of_lt here)
  have split : xs.set i a = xs.take i ++ a :: xs.drop (i + 1) :=
    List.set_eq_take_append_cons_drop.trans (if_pos here)
  have rest : xs.drop (i + 1) = xs[i + 1] :: xs.drop (i + 2) := List.drop_eq_getElem_cons within
  rw [split, rest, List.set_append_right _ _ (by omega), start, Nat.add_sub_cancel_left,
    List.set_cons_succ, List.set_cons_zero, List.append_assoc]
  rfl

theorem pass_toList (macAddress : MacAddress) {k : Nat} (inside : k < 6) (id : ClientId) :
    (macBytePass macAddress k inside id).toList =
      id.toList.take (2 * k) ++ pair macAddress[k] ++ id.toList.drop (2 * (k + 1)) := by
  have within : 2 * k + 1 < id.toList.length := by
    rw [Vector.length_toList]
    omega
  rw [macBytePass, Vector.toList_set, Vector.toList_set, set_two within, pair_chars]
  rfl

theorem passes_toList (macAddress : MacAddress) (id : ClientId) : ∀ (k : Nat) (inside : k ≤ 6),
    (macBytePasses macAddress id k inside).toList =
      encode (macAddress.toList.take k) ++ id.toList.drop (2 * k) := by
  intro k
  induction k with
  | zero => intro _; rfl
  | succ k ih =>
    intro inside
    have before := ih (Nat.le_of_succ_le inside)
    have written : (encode (macAddress.toList.take k)).length = 2 * k := by
      rw [encode_length, List.length_take, Vector.length_toList]
      omega
    have next : macAddress.toList.take (k + 1) = macAddress.toList.take k ++ [macAddress[k]] := by
      rw [List.take_succ_eq_append_getElem (by rw [Vector.length_toList]; exact inside)]
      rfl
    have one : encode [macAddress[k]] = pair macAddress[k] := List.append_nil _
    rw [macBytePasses, pass_toList, before, next, encode_append, one]
    have front : (encode (macAddress.toList.take k) ++ id.toList.drop (2 * k)).take (2 * k) =
        encode (macAddress.toList.take k) := List.take_left' written
    have back : (encode (macAddress.toList.take k) ++ id.toList.drop (2 * k)).drop (2 * (k + 1)) =
        id.toList.drop (2 * (k + 1)) := by
      have reach : 2 * (k + 1) = (encode (macAddress.toList.take k)).length + 2 := by omega
      rw [reach, List.drop_length_add_append, List.drop_drop, written]
    rw [front, back]

theorem mainThreadClientId_toList (reply : MacReply) :
    (mainThreadClientId reply).toList = encode reply.macAddress.toList ++ [0] := by
  have whole : reply.macAddress.toList.take 6 = reply.macAddress.toList :=
    List.take_of_length_le (Nat.le_of_eq Vector.length_toList)
  have read := passes_toList reply.macAddress (Vector.replicate 13 0) 6 (Nat.le_refl 6)
  rw [whole] at read
  exact read

def ClientId.text (id : ClientId) : List UInt8 := strn (cstr id.toList) 13

theorem mainThreadClientId_text (reply : MacReply) :
    (mainThreadClientId reply).text = encode reply.macAddress.toList := by
  have twelve : (encode reply.macAddress.toList).length = 12 := by
    rw [encode_length, Vector.length_toList]
  have clean : ∀ c ∈ encode reply.macAddress.toList, c ≠ 0 := by
    intro c member
    exact isHexChar_ne_zero (encode_isHexChar reply.macAddress.toList c member)
  rw [ClientId.text, mainThreadClientId_toList, cstr_terminated]
  exact strn_text _ _ 13 (by omega) clean (fun _ _ => rfl)

/-- What a call with the reply `reply` has to do. -/
structure NamesRover (reply : MacReply) : Prop where
  returned : ∀ id, (setClientIdNamefromMacAddress reply id).1 = reply.ret
  kept : ∀ id : ClientId, id[0] ≠ 0 → (setClientIdNamefromMacAddress reply id).2 = id
  terminated : (mainThreadClientId reply).toList = (mainThreadClientId reply).text ++ [0]
  twelve : (mainThreadClientId reply).text.length = 12
  digits : ∀ c ∈ (mainThreadClientId reply).text, isHexChar c = true
  decoded : decode (mainThreadClientId reply).text = some reply.macAddress.toList
  apart : ∀ other : MacReply, other.macAddress ≠ reply.macAddress →
    (mainThreadClientId other).text ≠ (mainThreadClientId reply).text

theorem clientId_names_rover (reply : MacReply) : NamesRover reply := by
  have text := mainThreadClientId_text reply
  constructor
  case returned => intro id; rfl
  case kept => intro id named; exact if_neg named
  case terminated => rw [mainThreadClientId_toList, text]
  case twelve => rw [text, encode_length, Vector.length_toList]
  case digits =>
    rw [text]
    exact encode_isHexChar reply.macAddress.toList
  case decoded => rw [text, decode_encode]
  case apart =>
    intro other different same
    rw [text, mainThreadClientId_text other] at same
    exact different (Vector.toList_inj.mp (encode_injective same))

/-- A rover at the 9/a boundary in every byte. -/
example : (mainThreadClientId ⟨0, #v[0x09, 0x0a, 0x90, 0xa0, 0x9a, 0xa9]⟩).text =
    lit "090a90a09aa9" := by decide

end RoverClientId
