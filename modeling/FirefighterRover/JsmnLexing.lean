import FirefighterRover.Jsmn

/-!
The lexical side of jsmn_parse. A text is a sequence of pieces: a mark between tokens, a
bracket, a string or a bare value. Each pass of the parser's loop takes one piece off the
text that remains, and every text the parser accepts is such a sequence.
-/
namespace RoverLexing
open CMemory RoverJsmn

/-- What the parser still has before it: up to `len` or the first NUL. -/
def remaining (js : Ptr) (len pos : Nat) : List UInt8 := strn (js.add pos) (len - pos)

theorem remaining_zero (js : Ptr) (len : Nat) : remaining js len 0 = strn js len := by
  have whole : js.add 0 = js := by
    funext i
    simp [Ptr.add]
  rw [remaining, whole, Nat.sub_zero]

theorem remaining_step {js : Ptr} {len pos : Nat} (inside : pos < len ∧ js pos ≠ 0) :
    remaining js len pos = js pos :: remaining js len (pos + 1) := by
  obtain ⟨bound, nonzero⟩ := inside
  obtain ⟨rest, left⟩ : ∃ rest, len - pos = rest + 1 := ⟨len - pos - 1, by omega⟩
  have fewer : len - (pos + 1) = rest := by omega
  have here : (js.add pos) 0 = js pos := rfl
  have next : (js.add pos).add 1 = js.add (pos + 1) := by
    funext i
    simp [Ptr.add, Nat.add_assoc]
  rw [remaining, remaining, left, fewer, strn, here, if_neg nonzero, next]

theorem remaining_end {js : Ptr} {len pos : Nat} (outside : ¬(pos < len ∧ js pos ≠ 0)) :
    remaining js len pos = [] := by
  by_cases bound : pos < len
  · obtain ⟨rest, left⟩ : ∃ rest, len - pos = rest + 1 := ⟨len - pos - 1, by omega⟩
    have zero : (js.add pos) 0 = 0 := by simpa [bound, Ptr.add] using outside
    rw [remaining, left, strn, if_pos zero]
  · have none_left : len - pos = 0 := by omega
    rw [remaining, none_left, strn]

theorem remaining_cons {js : Ptr} {len pos : Nat} {c : UInt8} {tail : List UInt8}
    (text : remaining js len pos = c :: tail) :
    (pos < len ∧ js pos ≠ 0) ∧ js pos = c ∧ remaining js len (pos + 1) = tail := by
  by_cases inside : pos < len ∧ js pos ≠ 0
  · rw [remaining_step inside] at text
    injection text with first rest
    exact ⟨inside, first, rest⟩
  · rw [remaining_end inside] at text
    cases text

theorem remaining_nil {js : Ptr} {len pos : Nat} (text : remaining js len pos = []) :
    ¬(pos < len ∧ js pos ≠ 0) := by
  intro inside
  rw [remaining_step inside] at text
  cases text

theorem remaining_length_le (js : Ptr) (len pos : Nat) :
    (remaining js len pos).length ≤ len - pos := by
  unfold remaining
  generalize js.add pos = p
  generalize len - pos = n
  induction n generalizing p with
  | zero => simp [strn]
  | succ n ih =>
    rw [strn]
    split
    · simp
    · have rest := ih (p.add 1)
      simp only [List.length_cons]
      omega

theorem strn_length_le (js : Ptr) (len : Nat) : (strn js len).length ≤ len := by
  have bound := remaining_length_le js len 0
  rw [remaining_zero] at bound
  exact bound

theorem remaining_append {js : Ptr} {len : Nat} {read tail : List UInt8} : ∀ {pos : Nat},
    remaining js len pos = read ++ tail → remaining js len (pos + read.length) = tail := by
  induction read with
  | nil => intro pos text; exact text
  | cons c read ih =>
    intro pos text
    have rest := ih (remaining_cons text).2.2
    rw [List.length_cons, Nat.add_comm read.length 1, ← Nat.add_assoc]
    exact rest

theorem remaining_image {js : Ptr} {len : Nat} {read tail : List UInt8} : ∀ {pos : Nat},
    remaining js len pos = read ++ tail → (List.range read.length).map (js.add pos) = read := by
  induction read with
  | nil => intro pos _; rfl
  | cons c read ih =>
    intro pos text
    obtain ⟨_, first, rest⟩ := remaining_cons text
    have shifted : (List.range read.length).map (js.add pos ∘ Nat.succ) =
        (List.range read.length).map (js.add (pos + 1)) := by
      apply List.map_congr_left
      intro i _
      simp only [Function.comp_apply, Ptr.add, Nat.succ_eq_add_one]
      congr 1
      omega
    rw [List.length_cons, List.range_succ_eq_map, List.map_cons, List.map_map, shifted, ih rest]
    exact congrArg (· :: read) first

/-- The inside of a string: escapes are those of JSON, and no quote stands unescaped. -/
inductive StringBody : List UInt8 → Prop where
  | nil : StringBody []
  | plain (c : UInt8) {rest : List UInt8} : c ≠ 0 → c ≠ chr '\"' → c ≠ chr '\\' →
      StringBody rest → StringBody (c :: rest)
  | escape (c : UInt8) {rest : List UInt8} : isSimpleEscape c = true →
      StringBody rest → StringBody (chr '\\' :: c :: rest)
  | unicode (digits : List UInt8) {rest : List UInt8} : digits.length = 4 →
      (∀ c ∈ digits, isHexDigit c = true) → StringBody rest →
      StringBody (chr '\\' :: chr 'u' :: (digits ++ rest))

def isBareByte (c : UInt8) : Bool := 32 ≤ c ∧ c < 127 ∧ isPrimitiveEnd c = false

def isBareStart (c : UInt8) : Bool :=
  isBareByte c ∧ c ≠ chr '{' ∧ c ≠ chr '[' ∧ c ≠ chr '\"'

structure BareText (text : List UInt8) : Prop where
  bytes : ∀ c ∈ text, isBareByte c = true
  starts : ∃ c rest, text = c :: rest ∧ isBareStart c = true

theorem primitiveEnd_bare {js : Ptr} {len : Nat} {tail : List UInt8}
    (stop : ∀ c ∈ tail.head?, isPrimitiveEnd c = true) : ∀ {text : List UInt8} {fuel pos : Nat},
    remaining js len pos = text ++ tail → text.length ≤ fuel →
    (∀ c ∈ text, isBareByte c = true) →
    primitiveEnd js len fuel pos = .ok (pos + text.length) := by
  intro text
  induction text with
  | nil =>
    intro fuel pos text _ _
    cases fuel with
    | zero => rfl
    | succ fuel =>
      rw [primitiveEnd]
      split
      · rename_i inside
        have first : js pos ∈ tail.head? := by
          rw [List.nil_append] at text
          rw [← text, remaining_step inside]
          rfl
        rw [if_pos (stop _ first)]
        rfl
      · rfl
  | cons c text ih =>
    intro fuel pos read enough bare
    obtain ⟨inside, first, rest⟩ := remaining_cons read
    have head := bare c (by simp)
    simp only [isBareByte, Bool.decide_and, Bool.and_eq_true, decide_eq_true_eq] at head
    obtain ⟨low, high, going⟩ := head
    obtain ⟨fuel, rfl⟩ : ∃ n, fuel = n + 1 :=
      ⟨fuel - 1, by simp only [List.length_cons] at enough; omega⟩
    have printable : ¬(c < 32 ∨ c ≥ 127) := by
      rintro (below | above)
      · exact absurd low (UInt8.not_le.mpr below)
      · exact absurd above (UInt8.not_le.mpr high)
    have next := ih rest (by simpa using enough) (fun x hx => bare x (by simp [hx]))
    rw [primitiveEnd, if_pos inside, first, going, if_neg (by decide), if_neg printable, next,
      List.length_cons]
    congr 1
    omega

theorem primitiveEnd_ok {js : Ptr} {len : Nat} : ∀ {fuel pos e : Nat}, len - pos ≤ fuel →
    primitiveEnd js len fuel pos = .ok e → ∃ text tail, remaining js len pos = text ++ tail ∧
      e = pos + text.length ∧ (∀ c ∈ text, isBareByte c = true) ∧
      ∀ c ∈ tail.head?, isPrimitiveEnd c = true := by
  intro fuel
  induction fuel with
  | zero =>
    intro pos e room ended
    have outside : ¬(pos < len ∧ js pos ≠ 0) := by omega
    simp only [primitiveEnd, Except.ok.injEq] at ended
    exact ⟨[], [], remaining_end outside, by simp [ended], by simp, by simp⟩
  | succ fuel ih =>
    intro pos e room ended
    rw [primitiveEnd] at ended
    split at ended
    · rename_i inside
      split at ended
      · rename_i stop
        simp only [Except.ok.injEq] at ended
        refine ⟨[], _, remaining_step inside, by simp [ended], by simp, ?_⟩
        intro c first
        simp only [List.head?_cons, Option.mem_some_iff] at first
        rw [← first]
        exact stop
      · rename_i going
        split at ended
        · cases ended
        · rename_i printable
          obtain ⟨text, tail, rest, size, bare, stop⟩ := ih (by omega) ended
          refine ⟨js pos :: text, tail, ?_, ?_, ?_, stop⟩
          · rw [remaining_step inside, rest]
            rfl
          · rw [List.length_cons]
            omega
          · intro c member
            rcases List.mem_cons.mp member with rfl | member
            · simp only [not_or, UInt8.not_lt, ge_iff_le, UInt8.not_le] at printable
              simp [isBareByte, printable, going]
            · exact bare c member
    · rename_i outside
      simp only [Except.ok.injEq] at ended
      exact ⟨[], [], remaining_end outside, by simp [ended], by simp, by simp⟩

theorem hexDigits_digits {js : Ptr} {len : Nat} {tail : List UInt8} :
    ∀ {digits : List UInt8} {pos : Nat}, remaining js len pos = digits ++ tail →
    (∀ c ∈ digits, isHexDigit c = true) →
    hexDigits js len digits.length pos = .ok (pos + digits.length) := by
  intro digits
  induction digits with
  | nil => intro pos _ _; rfl
  | cons c digits ih =>
    intro pos read hex
    obtain ⟨inside, first, rest⟩ := remaining_cons read
    rw [List.length_cons, hexDigits, if_pos inside, first, if_pos (hex c (by simp)),
      ih rest (fun x hx => hex x (by simp [hx]))]
    congr 1
    omega

theorem hexDigits_ok {js : Ptr} {len : Nat} : ∀ {count pos e : Nat},
    hexDigits js len count pos = .ok e → remaining js len e = [] ∨
    ∃ digits tail, digits.length = count ∧ remaining js len pos = digits ++ tail ∧
      e = pos + count ∧ ∀ c ∈ digits, isHexDigit c = true := by
  intro count
  induction count with
  | zero =>
    intro pos e ended
    simp only [hexDigits, Except.ok.injEq] at ended
    exact Or.inr ⟨[], _, rfl, rfl, by omega, by simp⟩
  | succ count ih =>
    intro pos e ended
    rw [hexDigits] at ended
    split at ended
    · rename_i inside
      split at ended
      · rename_i hex
        rcases ih ended with stopped | ⟨digits, tail, size, rest, last, all⟩
        · exact Or.inl stopped
        · right
          refine ⟨js pos :: digits, tail, by rw [List.length_cons, size], ?_, by omega, ?_⟩
          · rw [remaining_step inside, rest]
            rfl
          · intro c member
            rcases List.mem_cons.mp member with rfl | member
            · exact hex
            · exact all c member
      · cases ended
    · rename_i outside
      simp only [Except.ok.injEq] at ended
      rw [← ended]
      exact Or.inl (remaining_end outside)

theorem simpleEscape_ne_zero {c : UInt8} (simple : isSimpleEscape c = true) : c ≠ 0 := by
  rintro rfl
  exact absurd simple (by decide)

theorem stringEnd_body {js : Ptr} {len : Nat} {tail body : List UInt8}
    (formed : StringBody body) : ∀ {fuel pos : Nat},
    remaining js len pos = body ++ chr '\"' :: tail → body.length < fuel →
    stringEnd js len fuel pos = .ok (pos + body.length) := by
  induction formed with
  | nil =>
    intro fuel pos read enough
    obtain ⟨inside, first, _⟩ := remaining_cons read
    obtain ⟨fuel, rfl⟩ : ∃ n, fuel = n + 1 := ⟨fuel - 1, by omega⟩
    rw [stringEnd, if_pos inside, if_pos first]
    rfl
  | plain c nonzero unquoted unescaped _ ih =>
    intro fuel pos read enough
    obtain ⟨inside, first, rest⟩ := remaining_cons read
    obtain ⟨fuel, rfl⟩ : ∃ n, fuel = n + 1 := ⟨fuel - 1, by omega⟩
    rw [List.length_cons] at enough
    rw [stringEnd, if_pos inside, first, if_neg unquoted, if_neg (fun h => unescaped h.1),
      ih rest (by omega), List.length_cons]
    congr 1
    omega
  | escape c simple _ ih =>
    intro fuel pos read enough
    obtain ⟨inside, first, rest⟩ := remaining_cons read
    obtain ⟨⟨bound, _⟩, second, rest⟩ := remaining_cons rest
    obtain ⟨fuel, rfl⟩ : ∃ n, fuel = n + 1 := ⟨fuel - 1, by omega⟩
    rw [List.length_cons, List.length_cons] at enough
    rw [stringEnd, if_pos inside, first, if_neg (by decide), if_pos ⟨rfl, bound⟩, second,
      if_pos simple, ih rest (by omega), List.length_cons, List.length_cons]
    congr 1
    omega
  | unicode digits four hex _ ih =>
    intro fuel pos read enough
    obtain ⟨inside, first, rest⟩ := remaining_cons read
    obtain ⟨⟨bound, _⟩, second, rest⟩ := remaining_cons rest
    rw [List.append_eq, List.append_assoc] at rest
    have scanned := hexDigits_digits rest hex
    have after := remaining_append rest
    rw [four] at scanned after
    obtain ⟨fuel, rfl⟩ : ∃ n, fuel = n + 1 := ⟨fuel - 1, by omega⟩
    simp only [List.length_cons, List.length_append, four] at enough ⊢
    rw [stringEnd, if_pos inside, first, if_neg (by decide), if_pos ⟨rfl, bound⟩, second,
      if_neg (by decide), if_pos rfl, scanned]
    refine (ih after (by omega)).trans ?_
    congr 1
    omega

theorem stringEnd_outside {js : Ptr} {len pos e : Nat} (outside : remaining js len pos = []) :
    ∀ {fuel : Nat}, stringEnd js len fuel pos ≠ .ok e := by
  intro fuel ended
  cases fuel with
  | zero => cases ended
  | succ fuel =>
    rw [stringEnd, if_neg (remaining_nil outside)] at ended
    cases ended

theorem stringEnd_ok {js : Ptr} {len : Nat} : ∀ {fuel pos e : Nat},
    stringEnd js len fuel pos = .ok e → ∃ body tail,
      remaining js len pos = body ++ chr '\"' :: tail ∧ StringBody body ∧
      e = pos + body.length := by
  intro fuel
  induction fuel with
  | zero => intro pos e ended; cases ended
  | succ fuel ih =>
    intro pos e ended
    rw [stringEnd] at ended
    split at ended
    case isFalse => cases ended
    rename_i inside
    split at ended
    · rename_i quote
      simp only [Except.ok.injEq] at ended
      refine ⟨[], remaining js len (pos + 1), ?_, .nil, by simp [ended]⟩
      rw [remaining_step inside, quote]
      rfl
    rename_i unquoted
    split at ended
    · rename_i escape
      obtain ⟨backslash, bound⟩ := escape
      split at ended
      · rename_i simple
        obtain ⟨body, tail, rest, formed, size⟩ := ih ended
        refine ⟨_, tail, ?_, .escape (js (pos + 1)) simple formed, ?_⟩
        · rw [remaining_step inside, remaining_step ⟨bound, simpleEscape_ne_zero simple⟩, rest,
            backslash]
          rfl
        · simp only [List.length_cons]
          omega
      split at ended
      · rename_i unicode
        cases digits : hexDigits js len 4 (pos + 2) with
        | error r => rw [digits] at ended; cases ended
        | ok next =>
          rw [digits] at ended
          rcases hexDigits_ok digits with stopped | ⟨hex, tail, four, read, last, all⟩
          · exact absurd ended (stringEnd_outside stopped)
          · obtain ⟨body, rear, rest, formed, size⟩ := ih ended
            have nonzero : js (pos + 1) ≠ 0 := by
              rw [unicode]
              decide
            refine ⟨_, rear, ?_, .unicode hex four all formed, ?_⟩
            · have same : tail = body ++ chr '\"' :: rear := by
                rw [← rest, last, ← four, remaining_append read]
              rw [remaining_step inside, remaining_step ⟨bound, nonzero⟩, read, backslash, unicode,
                same]
              simp
            · simp only [List.length_cons, List.length_append, four]
              omega
      · cases ended
    · rename_i unescaped
      obtain ⟨body, tail, rest, formed, size⟩ := ih ended
      have nonescape : js pos ≠ chr '\\' := by
        intro backslash
        -- a backslash at the very end leaves nothing for the quote
        have last : ¬(pos + 1 < len ∧ js (pos + 1) ≠ 0) := fun h => unescaped ⟨backslash, h.1⟩
        exact stringEnd_outside (remaining_end last) ended
      refine ⟨_, tail, ?_, .plain (js pos) inside.2 unquoted nonescape formed, ?_⟩
      · rw [remaining_step inside, rest]
        rfl
      · rw [List.length_cons]
        omega

inductive Bracket where
  | curly
  | square
  deriving DecidableEq, Repr

def Bracket.type : Bracket → JsmnType
  | .curly => .object
  | .square => .array

def Bracket.opening : Bracket → UInt8
  | .curly => chr '{'
  | .square => chr '['

def Bracket.closing : Bracket → UInt8
  | .curly => chr '}'
  | .square => chr ']'

def isMark (c : UInt8) : Bool :=
  c = chr '\t' ∨ c = chr '\r' ∨ c = chr '\n' ∨ c = chr ' ' ∨ c = chr ':' ∨ c = chr ','

inductive Piece where
  | mark (c : UInt8)
  | opens (b : Bracket)
  | closes (b : Bracket)
  | string (body : List UInt8)
  | bare (text : List UInt8)
  deriving DecidableEq, Repr

def Piece.bytes : Piece → List UInt8
  | .mark c => [c]
  | .opens b => [b.opening]
  | .closes b => [b.closing]
  | .string body => chr '\"' :: (body ++ [chr '\"'])
  | .bare text => text

def Piece.Formed : Piece → Prop
  | .mark c => isMark c = true
  | .opens _ => True
  | .closes _ => True
  | .string body => StringBody body
  | .bare text => BareText text

/-- A bare value is as long as it can be. -/
def Piece.Ends : Piece → List UInt8 → Prop
  | .bare _, tail => ∀ c ∈ tail.head?, isPrimitiveEnd c = true
  | _, _ => True

inductive Lexes : List UInt8 → List Piece → Prop where
  | nil : Lexes [] []
  | cons (piece : Piece) {tail : List UInt8} {pieces : List Piece} : piece.Formed →
      piece.Ends tail → Lexes tail pieces → Lexes (piece.bytes ++ tail) (piece :: pieces)

theorem Lexes.bytes {text : List UInt8} {pieces : List Piece} (lexed : Lexes text pieces) :
    text = pieces.flatMap Piece.bytes := by
  induction lexed with
  | nil => rfl
  | cons piece _ _ _ ih => rw [List.flatMap_cons, ← ih]

theorem Piece.bytes_ne_nil {piece : Piece} (formed : piece.Formed) : piece.bytes ≠ [] := by
  cases piece with
  | bare text =>
    obtain ⟨c, rest, same, _⟩ := BareText.starts formed
    rw [Piece.bytes, same]
    exact List.cons_ne_nil c rest
  | _ => exact List.cons_ne_nil _ _

theorem Piece.bytes_pos {piece : Piece} (formed : piece.Formed) : 0 < piece.bytes.length :=
  List.length_pos_iff.mpr (Piece.bytes_ne_nil formed)

theorem mark_kinds {c : UInt8} (mark : isMark c = true) :
    c = chr '\t' ∨ c = chr '\r' ∨ c = chr '\n' ∨ c = chr ' ' ∨ c = chr ':' ∨ c = chr ',' := by
  simpa [isMark] using mark

theorem piece_inside {js : Ptr} {len pos : Nat} {piece : Piece} {tail : List UInt8}
    (read : remaining js len pos = piece.bytes ++ tail) (formed : piece.Formed) :
    pos < len ∧ js pos ≠ 0 := by
  obtain ⟨c, rest, bytes⟩ := List.exists_cons_of_ne_nil (Piece.bytes_ne_nil formed)
  rw [bytes] at read
  exact (remaining_cons read).1

end RoverLexing
