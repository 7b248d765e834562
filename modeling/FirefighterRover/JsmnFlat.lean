import FirefighterRover.JsmnOutline
import FirefighterRover.JsonParser
import FirefighterRover.Lib.FlatJson

/-!
What the tokens of an accepted text spell, and the flat objects as texts jsmn_parse
accepts: one token for the object and two for each member, in order, spelling its key and
its value.
-/
namespace RoverFlat
open CMemory RoverJsmn RoverJson RoverLexing RoverOutline FlatJson

/-- The kind of a token, and the text of a string or a bare value. -/
abbrev Spelling := JsmnType × List UInt8

def spell (js : Ptr) (t : JsmnTok) : Spelling :=
  (t.type, if t.isContainer then [] else tokenBytes js t)

def pieceSpelling : Piece → List Spelling
  | .mark _ => []
  | .opens b => [(b.type, [])]
  | .closes _ => []
  | .string body => [(.string, body)]
  | .bare text => [(.primitive, text)]

theorem tokensAt_length : ∀ (off : Nat) (pieces : List Piece),
    (tokensAt off pieces).length = (pieces.flatMap pieceSpelling).length := by
  intro off pieces
  induction pieces generalizing off with
  | nil => rfl
  | cons piece pieces ih =>
    have one : (pieceToken off piece).length = (pieceSpelling piece).length := by
      cases piece <;> rfl
    rw [tokensAt, List.flatMap_cons, List.length_append, List.length_append, ih, one]

theorem spell_outline (js : Ptr) (t : JsmnTok) : spell js (outlineOf t) = spell js t := by
  unfold spell outlineOf
  by_cases container : t.isContainer = true
  · have kept : JsmnTok.isContainer ⟨t.type, t.start, -1, 0⟩ = true := container
    rw [if_pos container, if_pos container, if_pos kept]
  · have kept : ¬ JsmnTok.isContainer ⟨t.type, t.start, t.end_, 0⟩ = true := container
    rw [if_neg container, if_neg container, if_neg kept]
    rfl

theorem spell_scalar {js : Ptr} {t : JsmnTok} {type : JsmnType} {text : List UInt8}
    (spelled : spell js t = (type, text)) (scalar : type = .string ∨ type = .primitive) :
    t.type = type ∧ tokenBytes js t = text := by
  obtain ⟨same, bytes⟩ := Prod.mk.inj spelled
  have open_ended : ¬ t.isContainer = true := by
    rcases scalar with rfl | rfl
    · simp [JsmnTok.isContainer, same]
    · simp [JsmnTok.isContainer, same]
  rw [if_neg open_ended] at bytes
  exact ⟨same, bytes⟩

theorem spell_string (js : Ptr) {t : JsmnTok} (string : t.type = .string) :
    spell js t = (.string, tokenBytes js t) := by
  have scalar : ¬ t.isContainer = true := by simp [JsmnTok.isContainer, string]
  rw [spell, if_neg scalar, string]

theorem jsoneq_spell (js : Ptr) (t : JsmnTok) {key : List UInt8} (nonempty : key ≠ [])
    (clean : ∀ c ∈ key, c ≠ 0) : jsoneq js t key = 0 ↔ spell js t = (.string, key) := by
  rw [jsoneq_iff js t nonempty clean]
  constructor
  · rintro ⟨string, bytes⟩
    rw [spell_string js string, bytes]
  · intro spelled
    exact spell_scalar spelled (Or.inl rfl)

theorem span_bytes {js : Ptr} {len off : Nat} {text tail : List UInt8} (type : JsmnType)
    (read : remaining js len off = text ++ tail) :
    tokenBytes js (jsmnFillToken type off (off + text.length : Nat)) = text := by
  have size : ((off + text.length : Nat) - (off : Int)).toNat = text.length := by omega
  simp only [tokenBytes, tokenValue, jsmnFillToken, size, Int.toNat_natCast]
  exact remaining_image read

theorem pieceToken_spelling {js : Ptr} {len off : Nat} {piece : Piece} {tail : List UInt8}
    (read : remaining js len off = piece.bytes ++ tail) :
    (pieceToken off piece).map (spell js) = pieceSpelling piece := by
  cases piece with
  | mark c => rfl
  | closes b => rfl
  | opens b => cases b <;> rfl
  | string body =>
    have inner : remaining js len (off + 1) = body ++ (chr '\"' :: tail) := by
      rw [(remaining_cons read).2.2]
      simp
    have bytes := span_bytes .string inner
    simp only [pieceToken, pieceSpelling, List.map_cons, List.map_nil, spell]
    rw [if_neg (by simp [JsmnTok.isContainer, jsmnFillToken])]
    exact congrArg (fun text => [(JsmnType.string, text)]) bytes
  | bare text =>
    have bytes := span_bytes .primitive read
    simp only [pieceToken, pieceSpelling, List.map_cons, List.map_nil, spell]
    rw [if_neg (by simp [JsmnTok.isContainer, jsmnFillToken])]
    exact congrArg (fun text => [(JsmnType.primitive, text)]) bytes

theorem tokensAt_spelling {js : Ptr} {len : Nat} : ∀ {pieces : List Piece} {off : Nat},
    remaining js len off = pieces.flatMap Piece.bytes →
    (tokensAt off pieces).map (spell js) = pieces.flatMap pieceSpelling := by
  intro pieces
  induction pieces with
  | nil => intro off _; rfl
  | cons piece pieces ih =>
    intro off read
    rw [List.flatMap_cons] at read
    rw [tokensAt, List.map_append, List.flatMap_cons, pieceToken_spelling read,
      ih (remaining_append read)]

theorem jsmnParse_spelling {js : Ptr} {len : Nat} {toks : List JsmnTok} {pieces : List Piece}
    (lexed : Lexes (strn js len) pieces) (outlined : toks.map outlineOf = tokensAt 0 pieces) :
    toks.map (spell js) = pieces.flatMap pieceSpelling := by
  have whole : remaining js len 0 = pieces.flatMap Piece.bytes := by
    rw [remaining_zero]
    exact lexed.bytes
  have spelled := tokensAt_spelling whole
  rw [← outlined, List.map_map] at spelled
  rw [← spelled]
  apply List.map_congr_left
  intro t _
  exact (spell_outline js t).symm

theorem stringBody_clean {body : List UInt8} (formed : StringBody body) : ∀ c ∈ body, c ≠ 0 := by
  induction formed with
  | nil => simp
  | plain c nonzero _ _ _ ih =>
    intro x member
    rcases List.mem_cons.mp member with rfl | member
    · exact nonzero
    · exact ih x member
  | escape c simple _ ih =>
    intro x member
    rcases List.mem_cons.mp member with rfl | member
    · decide
    rcases List.mem_cons.mp member with rfl | member
    · exact simpleEscape_ne_zero simple
    · exact ih x member
  | unicode digits _ hex _ ih =>
    intro x member
    rcases List.mem_cons.mp member with rfl | member
    · decide
    rcases List.mem_cons.mp member with rfl | member
    · decide
    rcases List.mem_append.mp member with member | member
    · rintro rfl
      exact absurd (hex 0 member) (by decide)
    · exact ih x member

theorem piece_clean {piece : Piece} (formed : piece.Formed) : ∀ c ∈ piece.bytes, c ≠ 0 := by
  cases piece with
  | mark c =>
    intro x member
    rw [List.mem_singleton.mp member]
    rintro rfl
    have marked : isMark 0 = true := formed
    exact absurd marked (by decide)
  | opens b =>
    intro x member
    rw [List.mem_singleton.mp member]
    cases b <;> decide
  | closes b =>
    intro x member
    rw [List.mem_singleton.mp member]
    cases b <;> decide
  | string body =>
    intro x member
    rcases List.mem_cons.mp member with rfl | member
    · decide
    rcases List.mem_append.mp member with member | member
    · exact stringBody_clean formed x member
    · rw [List.mem_singleton.mp member]
      decide
  | bare text =>
    intro x member
    rintro rfl
    exact absurd (formed.bytes 0 member) (by decide)

theorem lexes_clean {text : List UInt8} {pieces : List Piece} (lexed : Lexes text pieces) :
    ∀ c ∈ text, c ≠ 0 := by
  induction lexed with
  | nil => simp
  | cons piece formed _ _ ih =>
    intro x member
    rcases List.mem_append.mp member with member | member
    · exact piece_clean formed x member
    · exact ih x member

theorem jsmnParse_text {js : Ptr} {numTokens : Nat} {text : List UInt8} {pieces : List Piece}
    (held : js.image text.length = text) (lexed : Lexes text pieces)
    (nests : nesting [] pieces = some [])
    (room : (pieces.flatMap pieceSpelling).length ≤ numTokens) :
    ∃ toks, jsmnParse js text.length numTokens = .ok (toks.length, toks) ∧
      toks.map (spell js) = pieces.flatMap pieceSpelling := by
  have whole : strn js text.length = text := by
    rw [strn_image, held]
    rw [held]
    exact lexes_clean lexed
  have lexed' : Lexes (strn js text.length) pieces := by
    rw [whole]
    exact lexed
  rw [← tokensAt_length 0] at room
  obtain ⟨toks, parsed, outlined⟩ := jsmnParse_accepts lexed' nests room
  exact ⟨toks, parsed, jsmnParse_spelling lexed' outlined⟩

def blankPieces (w : Blank) : List Piece := w.text.map .mark

def scalarPiece : Scalar → Piece
  | .quoted s => .string s.text
  | .bare b => .bare b.text

def memberPieces (m : Member) : List Piece :=
  blankPieces m.before ++ (.string m.key.text :: (blankPieces m.afterKey ++
    (.mark (chr ':') :: (blankPieces m.beforeValue ++
      (scalarPiece m.value :: blankPieces m.after)))))

def membersPieces : List Member → List Piece
  | [] => []
  | [m] => memberPieces m
  | m :: n :: members => memberPieces m ++ .mark (chr ',') :: membersPieces (n :: members)

def objectPieces (o : FlatObject) : List Piece :=
  blankPieces o.lead ++ (.opens .curly :: (blankPieces o.inner ++ (membersPieces o.members ++
    (.closes .curly :: blankPieces o.tail))))

def Stops (text : List UInt8) : Prop := ∀ c ∈ text.head?, isPrimitiveEnd c = true

theorem blank_kinds {c : UInt8} (blank : isBlank c = true) :
    c = chr '\t' ∨ c = chr '\r' ∨ c = chr '\n' ∨ c = chr ' ' := by
  simpa [isBlank] using blank

theorem blank_mark {c : UInt8} (blank : isBlank c = true) : isMark c = true := by
  rcases blank_kinds blank with rfl | rfl | rfl | rfl <;> decide

theorem stops_cons {c : UInt8} (stop : isPrimitiveEnd c = true) (text : List UInt8) :
    Stops (c :: text) := by
  intro x first
  rw [List.head?_cons, Option.mem_some_iff] at first
  rw [← first]
  exact stop

theorem stops_blank (w : Blank) {text : List UInt8} (stops : Stops text) :
    Stops (w.text ++ text) := by
  obtain ⟨bytes, blank⟩ := w
  cases bytes with
  | nil => exact stops
  | cons c bytes =>
    apply stops_cons
    rcases blank_kinds (blank c (by simp)) with rfl | rfl | rfl | rfl <;> decide

theorem lexes_blank (w : Blank) {text : List UInt8} {pieces : List Piece}
    (lexed : Lexes text pieces) : Lexes (w.text ++ text) (blankPieces w ++ pieces) := by
  obtain ⟨bytes, blank⟩ := w
  unfold blankPieces
  simp only
  induction bytes with
  | nil => exact lexed
  | cons c bytes ih =>
    have rest := ih fun x member => blank x (by simp [member])
    exact .cons (.mark c) (blank_mark (blank c (by simp))) trivial rest

theorem plain_body {text : List UInt8} (plain : ∀ c ∈ text, isPlain c = true) :
    StringBody text := by
  induction text with
  | nil => exact .nil
  | cons c text ih =>
    have byte := plain c (by simp)
    simp only [isPlain, ne_eq, Bool.decide_and, Bool.and_eq_true, decide_eq_true_eq] at byte
    exact .plain c byte.1 byte.2.1 byte.2.2 (ih fun x member => plain x (by simp [member]))

theorem lexes_quote (s : Plain) {text : List UInt8} {pieces : List Piece}
    (lexed : Lexes text pieces) : Lexes (quote s.text ++ text) (.string s.text :: pieces) :=
  .cons (.string s.text) (plain_body s.plain) trivial lexed

theorem bare_byte {c : UInt8} (bare : isBare c = true) : isBareByte c = true := by
  simp only [isBare, ne_eq, Bool.decide_and, Bool.and_eq_true, decide_eq_true_eq] at bare
  obtain ⟨low, high, colon, comma, square, curly⟩ := bare
  have low' : 32 ≤ c := UInt8.le_of_lt low
  have tab : c ≠ chr '\t' := by
    rintro rfl
    exact absurd low (by decide)
  have cr : c ≠ chr '\r' := by
    rintro rfl
    exact absurd low (by decide)
  have lf : c ≠ chr '\n' := by
    rintro rfl
    exact absurd low (by decide)
  have space : c ≠ chr ' ' := by
    rintro rfl
    exact absurd low (by decide)
  simp [isBareByte, isPrimitiveEnd, low', high, colon, comma, square, curly, tab, cr, lf, space]

theorem bare_text (b : Bare) : BareText b.text := by
  constructor
  · intro c member
    exact bare_byte (b.bare c member)
  · obtain ⟨c, rest, same⟩ := List.exists_cons_of_ne_nil b.nonempty
    have byte := bare_byte (b.bare c (by simp [same]))
    obtain ⟨unquoted, brace, bracket⟩ := b.starts c (by simp [same])
    refine ⟨c, rest, same, ?_⟩
    simp [isBareStart, byte, unquoted, brace, bracket]

theorem lexes_scalar (value : Scalar) {text : List UInt8} {pieces : List Piece}
    (stops : Stops text) (lexed : Lexes text pieces) :
    Lexes (value.bytes ++ text) (scalarPiece value :: pieces) := by
  cases value with
  | quoted s => exact lexes_quote s lexed
  | bare b => exact .cons (.bare b.text) (bare_text b) stops lexed

theorem lexes_member (m : Member) {text : List UInt8} {pieces : List Piece} (stops : Stops text)
    (lexed : Lexes text pieces) : Lexes (m.bytes ++ text) (memberPieces m ++ pieces) := by
  have value := lexes_scalar m.value (stops_blank m.after stops) (lexes_blank m.after lexed)
  have colon : Lexes (chr ':' :: (m.beforeValue.text ++ (m.value.bytes ++ (m.after.text ++ text))))
      (.mark (chr ':') :: (blankPieces m.beforeValue ++
        (scalarPiece m.value :: (blankPieces m.after ++ pieces)))) :=
    .cons (.mark (chr ':')) rfl trivial (lexes_blank m.beforeValue value)
  have whole := lexes_blank m.before (lexes_quote m.key (lexes_blank m.afterKey colon))
  simpa [Member.bytes, memberPieces, List.append_assoc] using whole

theorem lexes_members (members : List Member) {text : List UInt8} {pieces : List Piece}
    (stops : Stops text) (lexed : Lexes text pieces) :
    Lexes (membersBytes members ++ text) (membersPieces members ++ pieces) := by
  induction members with
  | nil => exact lexed
  | cons m members ih =>
    cases members with
    | nil => exact lexes_member m stops lexed
    | cons n members =>
      have comma : Lexes (chr ',' :: (membersBytes (n :: members) ++ text))
          (.mark (chr ',') :: (membersPieces (n :: members) ++ pieces)) :=
        .cons (.mark (chr ',')) rfl trivial ih
      have whole := lexes_member m (stops_cons (by decide) _) comma
      simpa [membersBytes, membersPieces, List.append_assoc] using whole

theorem lexes_object (o : FlatObject) : Lexes o.bytes (objectPieces o) := by
  have tail : Lexes o.tail.text (blankPieces o.tail) := by
    have blank := lexes_blank o.tail .nil
    rw [List.append_nil, List.append_nil] at blank
    exact blank
  have closed : Lexes (chr '}' :: o.tail.text) (.closes .curly :: blankPieces o.tail) :=
    .cons (.closes .curly) trivial trivial tail
  have members := lexes_members o.members (stops_cons (by decide) _) closed
  have opened : Lexes (chr '{' :: (o.inner.text ++ (membersBytes o.members ++
      (chr '}' :: o.tail.text)))) (.opens .curly :: (blankPieces o.inner ++
        (membersPieces o.members ++ (.closes .curly :: blankPieces o.tail)))) :=
    .cons (.opens .curly) trivial trivial (lexes_blank o.inner members)
  exact lexes_blank o.lead opened

def scalarSpelling (value : Scalar) : Spelling :=
  match value with
  | .quoted s => (.string, s.text)
  | .bare b => (.primitive, b.text)

def memberSpelling (m : Member) : List Spelling :=
  [(.string, m.key.text), scalarSpelling m.value]

theorem scalarSpelling_bytes {js : Ptr} {t : JsmnTok} {value : Scalar}
    (spelled : spell js t = scalarSpelling value) : tokenBytes js t = value.text := by
  cases value with
  | quoted s => exact (spell_scalar spelled (Or.inl rfl)).2
  | bare b => exact (spell_scalar spelled (Or.inr rfl)).2

theorem blank_spelling (w : Blank) : (blankPieces w).flatMap pieceSpelling = [] := by
  unfold blankPieces
  induction w.text with
  | nil => rfl
  | cons c bytes ih => exact ih

theorem scalar_spelling (value : Scalar) :
    pieceSpelling (scalarPiece value) = [scalarSpelling value] := by
  cases value <;> rfl

theorem member_spelling (m : Member) :
    (memberPieces m).flatMap pieceSpelling = memberSpelling m := by
  simp only [memberPieces, List.flatMap_append, List.flatMap_cons, blank_spelling,
    scalar_spelling]
  rfl

theorem members_spelling (members : List Member) :
    (membersPieces members).flatMap pieceSpelling = members.flatMap memberSpelling := by
  induction members with
  | nil => rfl
  | cons m members ih =>
    rw [List.flatMap_cons, ← ih]
    cases members with
    | nil =>
      exact (member_spelling m).trans (List.append_nil _).symm
    | cons n members =>
      rw [membersPieces, List.flatMap_append, member_spelling]
      rfl

theorem object_spelling (o : FlatObject) : (objectPieces o).flatMap pieceSpelling =
    (.object, []) :: o.members.flatMap memberSpelling := by
  simp only [objectPieces, List.flatMap_append, List.flatMap_cons, blank_spelling,
    members_spelling]
  simp [pieceSpelling, Bracket.type]

theorem nesting_append : ∀ (pieces others : List Piece) (stack : List Bracket),
    nesting stack (pieces ++ others) = (nesting stack pieces).bind fun s => nesting s others := by
  intro pieces others
  induction pieces with
  | nil => intro stack; rfl
  | cons piece pieces ih =>
    intro stack
    simp only [List.cons_append, nesting]
    cases nest piece stack with
    | none => rfl
    | some rest => exact ih rest

theorem nesting_flat (stack : List Bracket) : ∀ {pieces : List Piece},
    (∀ p ∈ pieces, nest p stack = some stack) → nesting stack pieces = some stack := by
  intro pieces
  induction pieces with
  | nil => intro _; rfl
  | cons piece pieces ih =>
    intro flat
    simp only [nesting, flat piece (by simp)]
    exact ih fun p member => flat p (by simp [member])

theorem nesting_blank (w : Blank) (stack : List Bracket) :
    nesting stack (blankPieces w) = some stack := by
  apply nesting_flat
  intro p member
  obtain ⟨c, _, rfl⟩ := List.mem_map.mp member
  rfl

theorem nesting_member (m : Member) (stack : List Bracket) :
    nesting stack (memberPieces m) = some stack := by
  obtain ⟨before, key, afterKey, beforeValue, value, after⟩ := m
  cases value <;> simp [memberPieces, nesting_append, nesting_blank, nesting, nest, scalarPiece]

theorem nesting_members (members : List Member) (stack : List Bracket) :
    nesting stack (membersPieces members) = some stack := by
  induction members with
  | nil => rfl
  | cons m members ih =>
    cases members with
    | nil => exact nesting_member m stack
    | cons n members =>
      rw [membersPieces, nesting_append, nesting_member]
      exact ih

theorem nesting_object (o : FlatObject) : nesting [] (objectPieces o) = some [] := by
  simp [objectPieces, nesting_append, nesting_blank, nesting_members, nesting, nest]

theorem members_spelling_length (members : List Member) :
    (members.flatMap memberSpelling).length = 2 * members.length := by
  induction members with
  | nil => rfl
  | cons m members ih =>
    have two : (memberSpelling m).length = 2 := rfl
    rw [List.flatMap_cons, List.length_append, ih, two, List.length_cons]
    omega

/-- A flat object with room for its tokens is accepted, and its tokens are the object and
    the keys and values of its members. -/
theorem jsmnParse_object (o : FlatObject) {js : Ptr} {numTokens : Nat}
    (held : js.image o.bytes.length = o.bytes) (room : 2 * o.members.length + 1 ≤ numTokens) :
    ∃ toks, jsmnParse js o.bytes.length numTokens = .ok (2 * o.members.length + 1, toks) ∧
      toks.map (spell js) = (.object, []) :: o.members.flatMap memberSpelling := by
  have size : ((objectPieces o).flatMap pieceSpelling).length = 2 * o.members.length + 1 := by
    rw [object_spelling, List.length_cons, members_spelling_length]
  obtain ⟨toks, parsed, spelled⟩ :=
    jsmnParse_text held (lexes_object o) (nesting_object o) (size ▸ room)
  have counted : toks.length = 2 * o.members.length + 1 := by
    rw [← size, ← spelled, List.length_map]
  rw [counted] at parsed
  rw [object_spelling] at spelled
  exact ⟨toks, parsed, spelled⟩

end RoverFlat
