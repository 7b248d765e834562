import FirefighterRover.JsmnFlat
import Mathlib.Data.List.Induction

/-!
jsmn_parse over the pieces of its text, with its whole state: the super token, the member counts
and the ends of the containers. One pass of the parser's loop is one step of this machine, also
when it fails.
-/
namespace RoverMachine
open CMemory RoverJsmn RoverLexing RoverOutline RoverFlat FlatJson

def JsmnParser.advance (n : Nat) (parser : JsmnParser) : JsmnParser :=
  { parser with pos := parser.pos + n }

def markSuper (c : UInt8) (parser : JsmnParser) : JsmnParser :=
  if c = chr ':' then { parser with toksuper := (parser.toknext : Int) - 1 }
  else if c = chr ',' then endMember parser
  else parser

def storeToken (numTokens : Nat) (token : JsmnTok) (parser : JsmnParser) :
    Except JsmnErr JsmnParser :=
  (jsmnAllocToken parser numTokens token).map countMember

/-- The parser behind a piece that starts at its position. -/
def takePiece (numTokens : Nat) (parser : JsmnParser) : Piece → Except JsmnErr JsmnParser
  | .mark c => .ok (JsmnParser.advance 1 (markSuper c parser))
  | .opens b => (openContainer parser numTokens b.type).map (JsmnParser.advance 1)
  | .closes b => (closeContainer parser b.type).map (JsmnParser.advance 1)
  | .string body =>
    (storeToken numTokens
      (jsmnFillToken .string (parser.pos + 1 : Nat) (parser.pos + 1 + body.length : Nat))
      parser).map (JsmnParser.advance (body.length + 2))
  | .bare text =>
    (storeToken numTokens
      (jsmnFillToken .primitive parser.pos (parser.pos + text.length : Nat))
      parser).map (JsmnParser.advance text.length)

def takePieces (numTokens : Nat) (parser : JsmnParser) (pieces : List Piece) :
    Except JsmnErr JsmnParser :=
  pieces.foldlM (takePiece numTokens) parser

def pieceTokens (piece : Piece) : Nat := (pieceSpelling piece).length

def countTokens (pieces : List Piece) : Nat := (pieces.flatMap pieceSpelling).length

@[simp] theorem takePieces_nil (numTokens : Nat) (parser : JsmnParser) :
    takePieces numTokens parser [] = .ok parser := rfl

theorem takePieces_cons (numTokens : Nat) (parser : JsmnParser) (piece : Piece)
    (pieces : List Piece) : takePieces numTokens parser (piece :: pieces) =
      (takePiece numTokens parser piece).bind fun next => takePieces numTokens next pieces := rfl

theorem takePieces_append (numTokens : Nat) (parser : JsmnParser) (a b : List Piece) :
    takePieces numTokens parser (a ++ b) =
      (takePieces numTokens parser a).bind fun next => takePieces numTokens next b :=
  List.foldlM_append

theorem of_bind_ok {α β : Type} {x : Except JsmnErr α} {f : α → Except JsmnErr β} {b : β}
    (bound : x.bind f = .ok b) : ∃ a, x = .ok a ∧ f a = .ok b := by
  cases x with
  | error r => cases bound
  | ok a => exact ⟨a, rfl, bound⟩

theorem takes_append {numTokens : Nat} {parser next : JsmnParser} {a b : List Piece}
    (taken : takePieces numTokens parser (a ++ b) = .ok next) :
    ∃ middle, takePieces numTokens parser a = .ok middle ∧
      takePieces numTokens middle b = .ok next :=
  of_bind_ok ((takePieces_append numTokens parser a b).symm.trans taken)

theorem takes_cons {numTokens : Nat} {parser next : JsmnParser} {piece : Piece}
    {pieces : List Piece} (taken : takePieces numTokens parser (piece :: pieces) = .ok next) :
    ∃ middle, takePiece numTokens parser piece = .ok middle ∧
      takePieces numTokens middle pieces = .ok next :=
  of_bind_ok ((takePieces_cons numTokens parser piece pieces).symm.trans taken)

def passed (result : JsmnParser × Nat) : JsmnParser × Nat :=
  (JsmnParser.advance 1 result.1, result.2)

theorem countMember_at (parser : JsmnParser) (pos : Nat) :
    countMember { parser with pos := pos } = { countMember parser with pos := pos } := by
  unfold countMember
  split <;> rfl

theorem map_map {α β γ : Type} (x : Except JsmnErr α) (f : α → β) (g : β → γ) :
    (x.map f).map g = x.map fun a => g (f a) := by
  cases x <;> rfl

theorem store_moved (numTokens : Nat) (token : JsmnTok) (parser : JsmnParser) (pos n : Nat)
    (moved : pos + 1 = parser.pos + n) :
    (jsmnAllocToken parser numTokens token).map (fun next =>
        JsmnParser.advance 1 (countMember { next with pos := pos })) =
      (storeToken numTokens token parser).map (JsmnParser.advance n) := by
  unfold storeToken jsmnAllocToken
  split
  · rfl
  · have counted := countMember_at ⟨parser.pos, parser.toksuper, parser.tokens ++ [token]⟩ pos
    simp only [Except.map, counted, JsmnParser.advance, countMember_pos, moved]

theorem parseChar_take (numTokens : Nat) {js : Ptr} {len : Nat} {parser : JsmnParser} {piece : Piece}
    {tail : List UInt8} (read : remaining js len parser.pos = piece.bytes ++ tail)
    (formed : piece.Formed) (ends : piece.Ends tail) :
    (jsmnParseChar parser js len numTokens).map passed =
      (takePiece numTokens parser piece).map (·, pieceTokens piece) := by
  cases piece with
  | mark c =>
    obtain ⟨_, first, _⟩ := remaining_cons read
    simp only [jsmnParseChar, first]
    rcases mark_kinds formed with rfl | rfl | rfl | rfl | rfl | rfl <;> rfl
  | opens b =>
    obtain ⟨_, first, _⟩ := remaining_cons read
    rw [char_opens numTokens first, takePiece, map_map, map_map]
    rfl
  | closes b =>
    obtain ⟨_, first, _⟩ := remaining_cons read
    rw [char_closes numTokens first, takePiece, map_map, map_map]
    rfl
  | string body =>
    have stored := store_moved numTokens (jsmnFillToken .string (parser.pos + 1 : Nat)
      (parser.pos + 1 + body.length : Nat)) parser (parser.pos + 1 + body.length)
      (body.length + 2) (by omega)
    rw [char_string numTokens read formed, map_map, takePiece, ← stored, map_map]
    rfl
  | bare text =>
    have positive : 0 < text.length := Piece.bytes_pos formed
    have stored := store_moved numTokens (jsmnFillToken .primitive parser.pos
      (parser.pos + text.length : Nat)) parser (parser.pos + text.length - 1) text.length
      (by omega)
    rw [char_bare numTokens read formed ends, map_map, takePiece, ← stored, map_map]
    rfl

theorem char_taken {js : Ptr} {len numTokens : Nat} {parser : JsmnParser} {piece : Piece}
    {tail : List UInt8} {result : JsmnParser × Nat}
    (read : remaining js len parser.pos = piece.bytes ++ tail) (formed : piece.Formed)
    (ends : piece.Ends tail) (char : jsmnParseChar parser js len numTokens = .ok result) :
    takePiece numTokens parser piece = .ok (passed result).1 ∧ result.2 = pieceTokens piece := by
  have step := parseChar_take numTokens read formed ends
  rw [char] at step
  cases taken : takePiece numTokens parser piece with
  | error e =>
    rw [taken] at step
    cases step
  | ok next =>
    rw [taken] at step
    obtain ⟨same, count⟩ := Prod.mk.inj (Except.ok.inj step)
    exact ⟨congrArg Except.ok same.symm, count⟩

theorem parseChar_taken {js : Ptr} {len numTokens : Nat} {parser : JsmnParser}
    {result : JsmnParser × Nat} (inside : parser.pos < len ∧ js parser.pos ≠ 0)
    (char : jsmnParseChar parser js len numTokens = .ok result) :
    ∃ (piece : Piece) (tail : List UInt8), remaining js len parser.pos = piece.bytes ++ tail ∧
      piece.Formed ∧ piece.Ends tail ∧
      takePiece numTokens parser piece = .ok (passed result).1 ∧ result.2 = pieceTokens piece := by
  obtain ⟨piece, tail, read, formed, ends⟩ := parseChar_lexes inside char
  exact ⟨piece, tail, read, formed, ends, char_taken read formed ends char⟩

theorem parseLoop_pass {js : Ptr} {len numTokens fuel count : Nat} {parser : JsmnParser}
    (inside : parser.pos < len ∧ js parser.pos ≠ 0) :
    jsmnParseLoop js len numTokens (fuel + 1) parser count =
      ((jsmnParseChar parser js len numTokens).map passed).bind fun next =>
        jsmnParseLoop js len numTokens fuel next.1 (count + next.2) := by
  rw [jsmnParseLoop, if_pos inside]
  cases jsmnParseChar parser js len numTokens <;> rfl

theorem store_pos {numTokens n : Nat} {token : JsmnTok} {parser next : JsmnParser}
    (stored : (storeToken numTokens token parser).map (JsmnParser.advance n) = .ok next) :
    next.pos = parser.pos + n := by
  simp only [storeToken, jsmnAllocToken] at stored
  split at stored
  · cases stored
  · simp only [Except.map, Except.ok.injEq] at stored
    rw [← stored]
    simp [JsmnParser.advance]

theorem takePiece_pos {numTokens : Nat} {parser next : JsmnParser} {piece : Piece}
    (taken : takePiece numTokens parser piece = .ok next) :
    next.pos = parser.pos + piece.bytes.length := by
  cases piece with
  | mark c =>
    have stays : (markSuper c parser).pos = parser.pos := by
      unfold markSuper endMember
      repeat' split
      all_goals rfl
    simp only [takePiece, Except.ok.injEq] at taken
    rw [← taken]
    simp [JsmnParser.advance, stays, Piece.bytes]
  | opens b =>
    simp only [takePiece, openContainer, jsmnAllocToken] at taken
    split at taken
    · cases taken
    · simp only [bind, Except.bind, Except.map, Except.ok.injEq] at taken
      rw [← taken]
      simp [JsmnParser.advance, Piece.bytes]
  | closes b =>
    simp only [takePiece, closeContainer] at taken
    repeat' split at taken
    all_goals
      simp only [Except.map, Except.ok.injEq, reduceCtorEq] at taken
      try rw [← taken]; rfl
  | string body =>
    rw [store_pos taken]
    simp [Piece.bytes]
  | bare text => exact store_pos taken

theorem parseLoop_takes (numTokens : Nat) {js : Ptr} {len : Nat} {text : List UInt8} {pieces : List Piece}
    (lexed : Lexes text pieces) : ∀ (fuel count : Nat) (parser : JsmnParser),
    remaining js len parser.pos = text → text.length ≤ fuel →
    jsmnParseLoop js len numTokens fuel parser count =
      (takePieces numTokens parser pieces).map (·, count + countTokens pieces) := by
  induction lexed with
  | nil =>
    intro fuel count parser read _
    cases fuel with
    | zero => rfl
    | succ fuel => exact if_neg (remaining_nil read)
  | @cons piece tail pieces formed ends _ ih =>
    intro fuel count parser read enough
    have longer : 0 < piece.bytes.length := Piece.bytes_pos formed
    rw [List.length_append] at enough
    obtain ⟨fuel, rfl⟩ : ∃ n, fuel = n + 1 := ⟨fuel - 1, by omega⟩
    have inside : parser.pos < len ∧ js parser.pos ≠ 0 := piece_inside read formed
    have sum : countTokens (piece :: pieces) = pieceTokens piece + countTokens pieces := by
      rw [countTokens, List.flatMap_cons, List.length_append]
      rfl
    rw [parseLoop_pass inside, parseChar_take numTokens read formed ends, takePieces_cons]
    cases taken : takePiece numTokens parser piece with
    | error r => rfl
    | ok next =>
      have left : remaining js len next.pos = tail := by
        rw [takePiece_pos taken]
        exact remaining_append read
      have rest := ih fuel (count + pieceTokens piece) next left (by omega)
      rw [Nat.add_assoc, ← sum] at rest
      exact rest

theorem jsmnParse_takes {js : Ptr} {len numTokens : Nat} {pieces : List Piece}
    (lexed : Lexes (strn js len) pieces) : jsmnParse js len numTokens =
      (takePieces numTokens jsmnInit pieces).bind fun parser =>
        if (lastBelow JsmnTok.isOpen parser.tokens parser.toknext).isSome then .error .part
        else .ok (countTokens pieces, parser.tokens) := by
  have whole : remaining js len jsmnInit.pos = strn js len := remaining_zero js len
  have enough : (strn js len).length ≤ len := strn_length_le js len
  have looped := parseLoop_takes numTokens lexed len 0 jsmnInit whole enough
  rw [Nat.zero_add] at looped
  rw [jsmnParse, looped]
  cases takePieces numTokens jsmnInit pieces <;> rfl

theorem jsmnParse_taken {js : Ptr} {len numTokens r : Nat} {toks : List JsmnTok}
    {pieces : List Piece} (lexed : Lexes (strn js len) pieces)
    (parsed : jsmnParse js len numTokens = .ok (r, toks)) :
    ∃ next, takePieces numTokens jsmnInit pieces = .ok next ∧
      ¬ (lastBelow JsmnTok.isOpen next.tokens next.toknext).isSome ∧
      countTokens pieces = r ∧ next.tokens = toks := by
  obtain ⟨next, taken, ends⟩ := of_bind_ok ((jsmnParse_takes lexed).symm.trans parsed)
  split at ends
  · cases ends
  · rename_i closed
    obtain ⟨counted, tokens⟩ := Prod.mk.inj (Except.ok.inj ends)
    exact ⟨next, taken, closed, counted, tokens⟩

theorem lastBelow_left (p : JsmnTok → Bool) (left right : List JsmnTok) : ∀ {n : Nat},
    n ≤ left.length → lastBelow p (left ++ right) n = lastBelow p left n := by
  intro n
  induction n with
  | zero => intro _; rfl
  | succ n ih =>
    intro bound
    rw [lastBelow, lastBelow, List.getElem?_append_left (by omega), ih (by omega)]

theorem lastBelow_quiet {p : JsmnTok → Bool} (before : List JsmnTok) {closed : List JsmnTok}
    (quiet : ∀ u ∈ closed, p u = false) :
    lastBelow p (before ++ closed) (before ++ closed).length =
      lastBelow p before before.length := by
  induction closed using List.reverseRecOn with
  | nil => rw [List.append_nil]
  | append_singleton closed u ih =>
    have last : p u = false := quiet u (by simp)
    have entry : (before ++ (closed ++ [u]))[(before ++ closed).length]? = some u := by
      rw [← List.append_assoc, List.getElem?_append_right (Nat.le_refl _), Nat.sub_self]
      rfl
    have size : (before ++ (closed ++ [u])).length = (before ++ closed).length + 1 := by
      simp only [List.length_append, List.length_singleton]
      omega
    rw [size, lastBelow, entry, Option.any_some, last, ← List.append_assoc,
      lastBelow_left p _ _ (Nat.le_refl _)]
    exact ih fun x member => quiet x (by simp [member])

theorem lastBelow_split {p : JsmnTok → Bool} (before : List JsmnTok) {t : JsmnTok}
    {closed : List JsmnTok} (here : p t = true) (quiet : ∀ u ∈ closed, p u = false) :
    lastBelow p (before ++ t :: closed) (before ++ t :: closed).length = some before.length := by
  have shifted : before ++ t :: closed = (before ++ [t]) ++ closed := by simp
  have entry : (before ++ [t])[before.length]? = some t := by simp
  rw [shifted, lastBelow_quiet _ quiet, List.length_append, List.length_singleton, lastBelow, entry,
    Option.any_some, if_pos here]

theorem ended_closed {t : JsmnTok} (ended : 0 ≤ t.end_) : t.isOpen = false := by
  have known : t.end_ ≠ -1 := by omega
  simp [JsmnTok.isOpen, known]

/-- The super token behind a closing bracket: the container around it. -/
def enclosing (before : List JsmnTok) : Int :=
  match lastBelow JsmnTok.isOpen before before.length with
  | none => -1
  | some i => i

theorem open_split (tokens : List JsmnTok) :
    (lastBelow JsmnTok.isOpen tokens tokens.length = none ∧ ∀ t ∈ tokens, t.isOpen = false) ∨
    ∃ before t after, lastBelow JsmnTok.isOpen tokens tokens.length = some before.length ∧
      tokens = before ++ t :: after ∧ t.isOpen = true ∧ ∀ u ∈ after, u.isOpen = false := by
  have none_of {l : List JsmnTok} (filtered : l.filter JsmnTok.isOpen = []) :
      ∀ t ∈ l, t.isOpen = false := by
    intro t member
    have absent := List.filter_eq_nil_iff.mp filtered t member
    simpa using absent
  rcases lastBelow_all JsmnTok.isOpen tokens with
    ⟨search, filtered⟩ | ⟨before, t, after, found, split, opened, filtered⟩
  · exact Or.inl ⟨search, none_of filtered⟩
  · exact Or.inr ⟨before, t, after, found, split, opened, none_of filtered⟩

theorem closeContainer_at (pos : Nat) (super : Int) (before : List JsmnTok) {t : JsmnTok}
    {after : List JsmnTok} (opened : t.isOpen = true) (quiet : ∀ u ∈ after, u.isOpen = false)
    (type : JsmnType) : closeContainer ⟨pos, super, before ++ t :: after⟩ type =
      if t.type ≠ type then .error .inval
      else .ok ⟨pos, enclosing before,
        before ++ { t with end_ := (pos : Int) + 1 } :: after⟩ := by
  have entry : (before ++ t :: after).getD before.length ⟨.undefined, -1, -1, 0⟩ = t := by simp
  have shut : ({ t with end_ := (pos : Int) + 1 } : JsmnTok).isOpen = false :=
    ended_closed (by dsimp only; omega)
  have outer : lastBelow JsmnTok.isOpen
      (before ++ { t with end_ := (pos : Int) + 1 } :: after) (before.length + 1) =
        lastBelow JsmnTok.isOpen before before.length := by
    rw [lastBelow, List.getElem?_append_right (Nat.le_refl _), Nat.sub_self,
      List.getElem?_cons_zero, Option.any_some, shut,
      lastBelow_left _ _ _ (Nat.le_refl _)]
    rfl
  simp only [closeContainer, JsmnParser.toknext, lastBelow_split before opened quiet,
    JsmnParser.tok, Int.toNat_natCast, entry, modify_at, outer, enclosing]
  split
  · rfl
  · cases lastBelow JsmnTok.isOpen before before.length <;> rfl

theorem take_close (numTokens off : Nat) (super : Int) (before : List JsmnTok)
    {closed : List JsmnTok} {t : JsmnTok} {c : Bracket} (opened : t.isOpen = true) (type : t.type = c.type)
    (quiet : ∀ u ∈ closed, u.isOpen = false) :
    takePiece numTokens ⟨off, super, before ++ t :: closed⟩ (.closes c) =
      .ok ⟨off + 1, enclosing before, before ++ { t with end_ := (off : Int) + 1 } :: closed⟩ := by
  rw [takePiece, closeContainer_at off super before opened quiet, if_neg (not_not.mpr type)]
  rfl

theorem takes_close {numTokens : Nat} {parser next : JsmnParser} {c : Bracket}
    (taken : takePiece numTokens parser (.closes c) = .ok next) : ∃ before t after,
    parser.tokens = before ++ t :: after ∧ t.isOpen = true ∧ t.type = c.type ∧
      (∀ u ∈ after, u.isOpen = false) ∧
      next = ⟨parser.pos + 1, enclosing before,
        before ++ { t with end_ := (parser.pos : Int) + 1 } :: after⟩ := by
  obtain ⟨pos, super, tokens⟩ := parser
  rcases open_split tokens with
    ⟨none_open, _⟩ | ⟨before, t, after, _, rfl, opened, quiet⟩
  · simp only [takePiece, closeContainer, JsmnParser.toknext, none_open] at taken
    cases taken
  · by_cases type : t.type = c.type
    · rw [take_close numTokens pos super before opened type quiet] at taken
      exact ⟨before, t, after, rfl, opened, type, quiet, (Except.ok.inj taken).symm⟩
    · rw [takePiece, closeContainer_at pos super before opened quiet, if_pos type] at taken
      cases taken

/-- A token but for its member count. -/
def shape (t : JsmnTok) : JsmnTok := { t with size := 0 }

theorem shape_same {t u : JsmnTok} (same : shape t = shape u) :
    t.type = u.type ∧ t.start = u.start ∧ t.end_ = u.end_ := by
  simp only [shape, JsmnTok.mk.injEq, and_true] at same
  exact same

theorem shape_open {t u : JsmnTok} (same : shape t = shape u) : t.isOpen = u.isOpen := by
  obtain ⟨_, start, stop⟩ := shape_same same
  simp only [JsmnTok.isOpen, start, stop]

@[simp] theorem countMember_length (parser : JsmnParser) :
    (countMember parser).tokens.length = parser.tokens.length := by
  unfold countMember
  split <;> simp

theorem countMember_shapes (parser : JsmnParser) :
    (countMember parser).tokens.map shape = parser.tokens.map shape := by
  unfold countMember
  split
  · dsimp only
    rw [modify_map (fun t => by rfl)]
  · rfl

theorem lastBelow_shapes {tokens others : List JsmnTok}
    (same : tokens.map shape = others.map shape) : ∀ n,
    lastBelow JsmnTok.isOpen tokens n = lastBelow JsmnTok.isOpen others n := by
  intro n
  induction n with
  | zero => rfl
  | succ n ih =>
    have entry := congrArg (·[n]?) same
    simp only [List.getElem?_map] at entry
    have opened : (tokens[n]?).any JsmnTok.isOpen = (others[n]?).any JsmnTok.isOpen := by
      cases here : tokens[n]? with
      | none =>
        rw [here] at entry
        rw [Option.map_eq_none_iff.mp entry.symm]
      | some t =>
        rw [here] at entry
        obtain ⟨u, there, alike⟩ := Option.map_eq_some_iff.mp entry.symm
        rw [there, Option.any_some, Option.any_some, shape_open alike]
    rw [lastBelow, lastBelow, opened, ih]

theorem enclosing_shapes {a b : List JsmnTok} (same : a.map shape = b.map shape) :
    enclosing a = enclosing b := by
  have size := congrArg List.length same
  rw [List.length_map, List.length_map] at size
  rw [enclosing, enclosing, lastBelow_shapes same, size]

theorem enclosing_quiet (before : List JsmnTok) {after : List JsmnTok}
    (quiet : ∀ u ∈ after, u.isOpen = false) : enclosing (before ++ after) = enclosing before := by
  rw [enclosing, enclosing, lastBelow_quiet before quiet]

theorem enclosing_open (before : List JsmnTok) {t : JsmnTok} (opened : t.isOpen = true) :
    enclosing (before ++ [t]) = before.length := by
  rw [enclosing, @lastBelow_split JsmnTok.isOpen before t [] opened (by simp)]

theorem enclosing_cases (tokens : List JsmnTok) :
    (enclosing tokens = -1 ∧ ∀ t ∈ tokens, t.isOpen = false) ∨
    ∃ (i : Nat) (t : JsmnTok), enclosing tokens = i ∧ tokens[i]? = some t ∧ t.isOpen = true := by
  rcases open_split tokens with ⟨search, shut⟩ | ⟨before, t, after, found, split, opened, _⟩
  · left
    rw [enclosing, search]
    exact ⟨rfl, shut⟩
  · right
    refine ⟨before.length, t, ?_, ?_, opened⟩
    · rw [enclosing, found]
    · rw [split, List.getElem?_append_right (Nat.le_refl _), Nat.sub_self]
      rfl

theorem tok_at {parser : JsmnParser} {super : Int} {i : Nat} {t : JsmnTok} (here : super = i)
    (entry : parser.tokens[i]? = some t) : parser.tok super = t := by
  rw [JsmnParser.tok, here, Int.toNat_natCast, List.getD_eq_getElem?_getD, entry]
  rfl

theorem lastBelow_agree {p q : JsmnTok → Bool} {tokens : List JsmnTok}
    (same : ∀ t ∈ tokens, p t = q t) (n : Nat) : lastBelow p tokens n = lastBelow q tokens n := by
  induction n with
  | zero => rfl
  | succ n ih =>
    rw [lastBelow, lastBelow, ih]
    cases entry : tokens[n]? with
    | none => rfl
    | some t => rw [Option.any_some, Option.any_some, same t (List.mem_of_getElem? entry)]

theorem endMember_container {parser : JsmnParser}
    (boxes : ∀ t ∈ parser.tokens, t.isOpen = true → t.isContainer = true)
    (here : parser.toksuper = enclosing parser.tokens) :
    endMember parser = { parser with toksuper := enclosing parser.tokens } := by
  have container : ¬ (parser.toksuper ≠ -1 ∧ (parser.tok parser.toksuper).isContainer = false) := by
    rintro ⟨present, scalar⟩
    rcases enclosing_cases parser.tokens with ⟨none, _⟩ | ⟨i, t, found, entry, opened⟩
    · exact present (here.trans none)
    · have box := boxes t (List.mem_of_getElem? entry) opened
      rw [tok_at (here.trans found) entry, box] at scalar
      cases scalar
  unfold endMember
  rw [if_neg container, ← here]

theorem endMember_scalar {parser : JsmnParser}
    (boxes : ∀ t ∈ parser.tokens, t.isOpen = true → t.isContainer = true) {k : Nat} {t : JsmnTok}
    (here : parser.toksuper = k) (entry : parser.tokens[k]? = some t)
    (scalar : t.isContainer = false) (inside : enclosing parser.tokens ≠ -1) :
    endMember parser = { parser with toksuper := enclosing parser.tokens } := by
  have value : parser.toksuper ≠ -1 ∧ (parser.tok parser.toksuper).isContainer = false := by
    rw [tok_at here entry]
    exact ⟨by omega, scalar⟩
  have both : ∀ t ∈ parser.tokens, (t.isContainer && t.isOpen) = t.isOpen := by
    intro u member
    cases opened : u.isOpen with
    | false => simp
    | true => simp [boxes u member opened]
  unfold endMember
  rw [if_pos value, JsmnParser.toknext, lastBelow_agree both]
  unfold enclosing at inside ⊢
  cases search : lastBelow JsmnTok.isOpen parser.tokens parser.tokens.length with
  | none =>
    rw [search] at inside
    exact absurd rfl inside
  | some i => rfl

theorem bracket_open (type : JsmnType) (pos : Nat) :
    JsmnTok.isOpen ⟨type, pos, -1, 0⟩ = true := by
  have placed : (pos : Int) ≠ -1 := by omega
  simp [JsmnTok.isOpen, placed]

theorem bracket_container {type : JsmnType} (pos : Nat) (box : type = .object ∨ type = .array) :
    JsmnTok.isContainer ⟨type, pos, -1, 0⟩ = true := by
  rcases box with rfl | rfl <;> rfl

theorem takes_open {numTokens : Nat} {parser next : JsmnParser} {b : Bracket}
    (taken : takePiece numTokens parser (.opens b) = .ok next) :
    next = ⟨parser.pos + 1, parser.tokens.length,
      (countMember parser).tokens ++ [⟨b.type, parser.pos, -1, 0⟩]⟩ := by
  simp only [takePiece, openContainer, jsmnAllocToken] at taken
  split at taken
  · cases taken
  · obtain rfl := Except.ok.inj taken
    simp [JsmnParser.advance, JsmnParser.toknext]

theorem takes_store {numTokens n : Nat} {parser next : JsmnParser} {token : JsmnTok}
    (stored : (storeToken numTokens token parser).map (JsmnParser.advance n) = .ok next) :
    next = JsmnParser.advance n
      (countMember { parser with tokens := parser.tokens ++ [token] }) := by
  simp only [storeToken, jsmnAllocToken] at stored
  split at stored
  · cases stored
  · exact (Except.ok.inj stored).symm

theorem store_shapes {numTokens n : Nat} {parser next : JsmnParser} {token : JsmnTok}
    (stored : (storeToken numTokens token parser).map (JsmnParser.advance n) = .ok next) :
    next.tokens.map shape = parser.tokens.map shape ++ [shape token] := by
  rw [takes_store stored]
  have counted := countMember_shapes { parser with tokens := parser.tokens ++ [token] }
  rw [List.map_append] at counted
  exact counted

theorem alloc_capacity (fewer : Nat) {more : Nat} {parser next : JsmnParser} {token : JsmnTok}
    (made : jsmnAllocToken parser more token = .ok next) :
    next.tokens.length = parser.tokens.length + 1 ∧
    jsmnAllocToken parser fewer token =
      if next.tokens.length ≤ fewer then .ok next else .error .nomem := by
  unfold jsmnAllocToken JsmnParser.toknext at *
  by_cases full : parser.tokens.length ≥ more
  · rw [if_pos full] at made
    cases made
  · rw [if_neg full] at made
    obtain rfl := Except.ok.inj made
    have grown : (parser.tokens ++ [token]).length = parser.tokens.length + 1 := by simp
    refine ⟨grown, ?_⟩
    by_cases room : parser.tokens.length + 1 ≤ fewer
    · rw [if_neg (by omega), if_pos (by simp only [grown]; exact room)]
    · rw [if_pos (by omega), if_neg (by simp only [grown]; exact room)]

theorem endMember_tokens (parser : JsmnParser) : (endMember parser).tokens = parser.tokens := by
  unfold endMember
  repeat' split
  all_goals rfl

theorem markSuper_tokens (c : UInt8) (parser : JsmnParser) :
    (markSuper c parser).tokens = parser.tokens := by
  unfold markSuper
  split
  · rfl
  · split
    · exact endMember_tokens parser
    · rfl

theorem takes_mark {numTokens : Nat} {parser next : JsmnParser} {c : UInt8}
    (taken : takePiece numTokens parser (.mark c) = .ok next) : next.tokens = parser.tokens := by
  obtain rfl := Except.ok.inj taken
  exact markSuper_tokens c parser

theorem store_capacity {more fewer n : Nat} {parser next : JsmnParser} {token : JsmnTok}
    (stored : (storeToken more token parser).map (JsmnParser.advance n) = .ok next) :
    parser.tokens.length ≤ next.tokens.length ∧
    (storeToken fewer token parser).map (JsmnParser.advance n) =
      if next.tokens.length ≤ fewer then .ok next else .error .nomem := by
  unfold storeToken at *
  cases made : jsmnAllocToken parser more token with
  | error r =>
    rw [made] at stored
    cases stored
  | ok wider =>
    rw [made] at stored
    obtain ⟨grown, again⟩ := alloc_capacity fewer made
    obtain rfl := Except.ok.inj stored
    have same : (JsmnParser.advance n (countMember wider)).tokens.length = wider.tokens.length :=
      countMember_length wider
    rw [again, same]
    refine ⟨by omega, ?_⟩
    split <;> rfl

theorem takePiece_capacity (fewer : Nat) {more : Nat} {parser next : JsmnParser} {piece : Piece}
    (taken : takePiece more parser piece = .ok next) (fits : parser.tokens.length ≤ fewer) :
    parser.tokens.length ≤ next.tokens.length ∧
    takePiece fewer parser piece =
      if next.tokens.length ≤ fewer then .ok next else .error .nomem := by
  cases piece with
  | mark c =>
    rw [takes_mark taken, if_pos fits]
    exact ⟨Nat.le_refl _, taken⟩
  | opens b =>
    simp only [takePiece, openContainer] at taken ⊢
    cases made : jsmnAllocToken (countMember parser) more ⟨b.type, parser.pos, -1, 0⟩ with
    | error r =>
      rw [made] at taken
      cases taken
    | ok wider =>
      rw [made] at taken
      obtain ⟨grown, again⟩ := alloc_capacity fewer made
      rw [countMember_length] at grown
      obtain rfl := Except.ok.inj taken
      have same : (JsmnParser.advance 1
          { wider with toksuper := (wider.toknext : Int) - 1 }).tokens = wider.tokens := rfl
      rw [again, same]
      refine ⟨by omega, ?_⟩
      split <;> rfl
  | closes b =>
    have same : next.tokens.length = parser.tokens.length := by
      simp only [takePiece, closeContainer] at taken
      repeat' split at taken
      all_goals simp only [Except.map, Except.ok.injEq, reduceCtorEq] at taken
      all_goals
        rw [← taken]
        simp [JsmnParser.advance]
    rw [same, if_pos fits]
    exact ⟨Nat.le_refl _, taken⟩
  | string body => exact store_capacity taken
  | bare text => exact store_capacity taken

theorem takePieces_grows {numTokens : Nat} {next : JsmnParser} : ∀ {pieces : List Piece}
    {parser : JsmnParser}, takePieces numTokens parser pieces = .ok next →
    parser.tokens.length ≤ next.tokens.length := by
  intro pieces
  induction pieces with
  | nil =>
    intro parser taken
    obtain rfl := Except.ok.inj taken
    exact Nat.le_refl _
  | cons piece pieces ih =>
    intro parser taken
    obtain ⟨middle, first, rest⟩ := takes_cons taken
    exact Nat.le_trans (takePiece_capacity parser.tokens.length first (Nat.le_refl _)).1 (ih rest)

theorem takePieces_capacity (fewer : Nat) {more : Nat} {next : JsmnParser} : ∀ {pieces : List Piece}
    {parser : JsmnParser}, takePieces more parser pieces = .ok next →
    parser.tokens.length ≤ fewer → takePieces fewer parser pieces =
      if next.tokens.length ≤ fewer then .ok next else .error .nomem := by
  intro pieces
  induction pieces with
  | nil =>
    intro parser taken fits
    obtain rfl := Except.ok.inj taken
    exact (if_pos fits).symm
  | cons piece pieces ih =>
    intro parser taken fits
    obtain ⟨middle, first, rest⟩ := takes_cons taken
    rw [takePieces_cons, (takePiece_capacity fewer first fits).2]
    by_cases room : middle.tokens.length ≤ fewer
    · rw [if_pos room]
      exact ih rest room
    · have longer : middle.tokens.length ≤ next.tokens.length :=
        takePieces_grows rest
      rw [if_neg room, if_neg (by omega)]
      rfl

/-- A text that is accepted is accepted with exactly the entries it needs or more, with the same
    tokens, and with fewer it runs out of them: the result does not depend on the rest of the
    array. -/
theorem jsmnParse_capacity {js : Ptr} {len more r : Nat} {toks : List JsmnTok}
    (parsed : jsmnParse js len more = .ok (r, toks)) (fewer : Nat) :
    jsmnParse js len fewer = if r ≤ fewer then .ok (r, toks) else .error .nomem := by
  obtain ⟨pieces, lexed, _, _, size, _⟩ := jsmnParse_sound parsed
  obtain ⟨next, taken, closed, counted, rfl⟩ := jsmnParse_taken lexed parsed
  rw [jsmnParse_takes lexed, takePieces_capacity fewer taken (Nat.zero_le _), ← size]
  by_cases room : r ≤ fewer
  · rw [if_pos room, if_pos room]
    simp only [Except.bind, if_neg closed, counted]
  · rw [if_neg room, if_neg room]
    rfl

theorem jsmnParse_capacity_speed :
    jsmnParse (cstr (lit "\x7b\"speed\": 3\x7d")) 12 2 = .error .nomem :=
  (jsmnParse_capacity (by decide : jsmnParse (cstr (lit "\x7b\"speed\": 3\x7d")) 12 4 =
    .ok (3, [⟨.object, 0, 12, 1⟩, ⟨.string, 2, 7, 1⟩, ⟨.primitive, 10, 11, 0⟩])) 2).trans (by decide)

end RoverMachine
