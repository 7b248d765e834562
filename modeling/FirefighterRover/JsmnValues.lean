import FirefighterRover.JsmnMachine

/-!
The last value of a text. Behind it come only closing brackets and the marks between tokens,
and none of them touches its token again.
-/
namespace RoverValues
open CMemory RoverJsmn RoverLexing RoverMachine FlatJson

def isQuiet : Piece → Bool
  | .mark _ => true
  | .closes _ => true
  | .opens _ => false
  | .string _ => false
  | .bare _ => false

def closing : Piece → Option Bracket
  | .closes b => some b
  | _ => none

def closings (pieces : List Piece) : List Bracket := pieces.filterMap closing

def textLength (pieces : List Piece) : Nat := (pieces.flatMap Piece.bytes).length

theorem marks_of_quiet {pieces : List Piece} (quiet : ∀ p ∈ pieces, isQuiet p = true)
    (formed : ∀ p ∈ pieces, p.Formed) (closed : closings pieces = []) :
    ∀ c ∈ pieces.flatMap Piece.bytes, isMark c = true := by
  intro c member
  obtain ⟨p, listed, byte⟩ := List.mem_flatMap.mp member
  have hush := quiet p listed
  cases p with
  | opens b => cases hush
  | string body => cases hush
  | bare text => cases hush
  | mark d =>
    rw [List.mem_singleton.mp byte]
    exact formed _ listed
  | closes b =>
    have found : b ∈ closings pieces := List.mem_filterMap.mpr ⟨_, listed, rfl⟩
    rw [closed] at found
    cases found

/-- The token of a value at `off`: a string, a bare value or a container of marks. -/
inductive ValueAt (off : Nat) (tok : JsmnTok) : List UInt8 → Prop where
  | string {body : List UInt8} : StringBody body → tok.type = .string →
    tok.start = off + 1 → tok.end_ = off + 1 + body.length → ValueAt off tok (quote body)
  | bare {text : List UInt8} : BareText text → tok.type = .primitive →
    tok.start = off → tok.end_ = off + text.length → ValueAt off tok text
  | container {b : Bracket} {marks : List UInt8} : (∀ c ∈ marks, isMark c = true) →
    tok.type = b.type → tok.start = off → tok.end_ = off + marks.length + 2 →
    ValueAt off tok (b.opening :: (marks ++ [b.closing]))

inductive ValuePieces : List Piece → List UInt8 → Prop where
  | string {body : List UInt8} : StringBody body → ValuePieces [.string body] (quote body)
  | bare {text : List UInt8} : BareText text → ValuePieces [.bare text] text
  | container {b : Bracket} {marks : List Piece} : (∀ p ∈ marks, isQuiet p = true) →
    (∀ p ∈ marks, p.Formed) → closings marks = [] → ValuePieces
      (.opens b :: (marks ++ [.closes b])) (b.opening :: (marks.flatMap Piece.bytes ++ [b.closing]))

theorem valuePieces_bytes {inside : List Piece} {bytes : List UInt8}
    (value : ValuePieces inside bytes) : inside.flatMap Piece.bytes = bytes := by
  cases value with
  | string => exact List.append_nil _
  | bare => exact List.append_nil _
  | container => simp [Piece.bytes]

theorem takePieces_pos {numTokens : Nat} {next : JsmnParser} : ∀ {pieces : List Piece}
    {parser : JsmnParser}, takePieces numTokens parser pieces = .ok next →
    next.pos = parser.pos + textLength pieces := by
  intro pieces
  induction pieces with
  | nil =>
    intro parser taken
    obtain rfl := Except.ok.inj taken
    rfl
  | cons piece pieces ih =>
    intro parser taken
    obtain ⟨middle, first, rest⟩ := takes_cons taken
    rw [ih rest, takePiece_pos first, textLength, textLength, List.flatMap_cons,
      List.length_append, Nat.add_assoc]

theorem last_behind (before : List JsmnTok) (u : JsmnTok) (after : List JsmnTok) (v : JsmnTok) :
    (before ++ u :: (after ++ [v])).getLast? = some v := by
  rw [← List.cons_append, ← List.append_assoc, List.getLast?_concat]

section
variable {numTokens : Nat} {parser next : JsmnParser}

theorem takes_quiet {piece : Piece} (quiet : isQuiet piece = true)
    (taken : takePiece numTokens parser piece = .ok next) {t : JsmnTok}
    (last : parser.tokens.getLast? = some t) (shut : t.isOpen = false) :
    next.tokens.getLast? = some t := by
  cases piece with
  | opens b => cases quiet
  | string body => cases quiet
  | bare text => cases quiet
  | mark c =>
    rw [takes_mark taken]
    exact last
  | closes b =>
    obtain ⟨before, u, after, split, opened, _, _, rfl⟩ := takes_close taken
    rw [split] at last
    cases after using List.reverseRecOn with
    | nil =>
      -- the open token would be the last one
      obtain rfl : u = t := by simpa using last
      rw [opened] at shut
      cases shut
    | append_singleton after v _ =>
      rw [last_behind] at last ⊢
      exact last

theorem takePieces_quiet {pieces : List Piece} : (∀ p ∈ pieces, isQuiet p = true) →
    ∀ {parser : JsmnParser}, takePieces numTokens parser pieces = .ok next → ∀ {t : JsmnTok},
    parser.tokens.getLast? = some t → t.isOpen = false → next.tokens.getLast? = some t := by
  induction pieces with
  | nil =>
    intro _ parser taken t last _
    obtain rfl := Except.ok.inj taken
    exact last
  | cons piece pieces ih =>
    intro quiet parser taken t last shut
    obtain ⟨middle, first, rest⟩ := takes_cons taken
    have kept := takes_quiet (quiet piece (by simp)) first last shut
    exact ih (fun p member => quiet p (by simp [member])) rest kept shut

theorem takePieces_marks {marks : List Piece} : (∀ p ∈ marks, isQuiet p = true) →
    closings marks = [] → ∀ {parser : JsmnParser}, takePieces numTokens parser marks = .ok next →
    next.tokens = parser.tokens := by
  induction marks with
  | nil =>
    intro _ _ parser taken
    obtain rfl := Except.ok.inj taken
    rfl
  | cons piece marks ih =>
    intro quiet closed parser taken
    obtain ⟨middle, first, rest⟩ := takes_cons taken
    have hush := quiet piece (by simp)
    cases piece with
    | opens b => cases hush
    | string body => cases hush
    | bare text => cases hush
    | closes b => cases closed
    | mark c =>
      rw [ih (fun p member => quiet p (by simp [member])) closed rest]
      exact takes_mark first

theorem stored_last {n : Nat} {token : JsmnTok}
    (stored : (storeToken numTokens token parser).map (JsmnParser.advance n) = .ok next) :
    ∃ t, next.tokens.getLast? = some t ∧ shape t = shape token := by
  have last := congrArg List.getLast? (store_shapes stored)
  rw [List.getLast?_map, List.getLast?_concat] at last
  obtain ⟨t, here, same⟩ := Option.map_eq_some_iff.mp last
  exact ⟨t, here, same⟩

theorem value_last {inside : List Piece} {bytes : List UInt8} (value : ValuePieces inside bytes)
    (taken : takePieces numTokens parser inside = .ok next) :
    ∃ t, next.tokens.getLast? = some t ∧ t.isOpen = false ∧ ValueAt parser.pos t bytes := by
  cases value with
  | @string body formed =>
    obtain ⟨middle, first, rest⟩ := takes_cons taken
    obtain rfl := Except.ok.inj rest
    obtain ⟨t, last, same⟩ := stored_last first
    obtain ⟨type, start, stop⟩ := shape_same same
    simp only [jsmnFillToken] at type start stop
    exact ⟨t, last, ended_closed (by omega), .string formed type (by omega) (by omega)⟩
  | bare formed =>
    obtain ⟨middle, first, rest⟩ := takes_cons taken
    obtain rfl := Except.ok.inj rest
    obtain ⟨t, last, same⟩ := stored_last first
    obtain ⟨type, start, stop⟩ := shape_same same
    simp only [jsmnFillToken] at type start stop
    exact ⟨t, last, ended_closed (by omega), .bare formed type start (by omega)⟩
  | @container b marks quiet formed closed =>
    obtain ⟨opened, first, rest⟩ := takes_cons taken
    obtain ⟨filled, between, rest⟩ := takes_append rest
    obtain ⟨shut, ending, rest⟩ := takes_cons rest
    obtain rfl := Except.ok.inj rest
    have made := takes_open first
    have stays := takePieces_marks quiet closed between
    have moved := takePieces_pos between
    obtain ⟨before, u, after, split, _, _, none_open, rfl⟩ := takes_close ending
    rw [stays, made] at split
    -- the container is the last token, and so the one that closes
    cases after using List.reverseRecOn with
    | append_singleton after v _ =>
      have last := congrArg List.getLast? split
      rw [List.getLast?_concat, last_behind] at last
      have open_end := bracket_open b.type parser.pos
      rw [Option.some.inj last, none_open v (by simp)] at open_end
      cases open_end
    | nil =>
      obtain ⟨_, same⟩ := List.append_inj' split rfl
      obtain rfl := (List.cons.inj same).1
      rw [made] at moved
      refine ⟨_, List.getLast?_concat, ended_closed (Int.natCast_nonneg _), ?_⟩
      apply ValueAt.container (marks_of_quiet quiet formed closed) rfl rfl
      simp only [moved, textLength]
      omega

end

theorem value_at {js : Ptr} {len numTokens r : Nat} {front inside later : List Piece}
    {bytes : List UInt8} (lexed : Lexes (strn js len) (front ++ (inside ++ later)))
    (value : ValuePieces inside bytes) (quiet : ∀ p ∈ later, isQuiet p = true)
    {toks : List JsmnTok} (parsed : jsmnParse js len numTokens = .ok (r, toks)) {tok : JsmnTok}
    (last : toks.getLast? = some tok) : ValueAt (textLength front) tok bytes := by
  obtain ⟨parser, taken, _, _, rfl⟩ := jsmnParse_taken lexed parsed
  obtain ⟨here, before, rest⟩ := takes_append taken
  obtain ⟨behind, around, after⟩ := takes_append rest
  obtain ⟨t, made, shut, placed⟩ := value_last value around
  rw [takePieces_quiet quiet after made shut] at last
  rw [← Option.some.inj last]
  have moved := takePieces_pos before
  rw [moved] at placed
  simpa [jsmnInit] using placed

end RoverValues
