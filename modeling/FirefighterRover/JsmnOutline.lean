import FirefighterRover.JsmnLexing

/-!
jsmn_parse as a machine over the pieces of its text: every opening bracket, string and
bare value appends one token, and brackets nest. The parser's own state refines it; the
super token and the sizes it maintains do not show in what this machine says.
-/
namespace RoverOutline
open CMemory RoverJsmn RoverLexing

def pieceToken (off : Nat) : Piece → List JsmnTok
  | .mark _ => []
  | .opens b => [⟨b.type, off, -1, 0⟩]
  | .closes _ => []
  | .string body => [jsmnFillToken .string (off + 1) (off + 1 + body.length)]
  | .bare text => [jsmnFillToken .primitive off (off + text.length)]

def tokensAt : Nat → List Piece → List JsmnTok
  | _, [] => []
  | off, piece :: pieces => pieceToken off piece ++ tokensAt (off + piece.bytes.length) pieces

def nest : Piece → List Bracket → Option (List Bracket)
  | .opens b, stack => some (b :: stack)
  | .closes _, [] => none
  | .closes b, top :: stack => if top = b then some stack else none
  | .mark _, stack => some stack
  | .string _, stack => some stack
  | .bare _, stack => some stack

def nesting : List Bracket → List Piece → Option (List Bracket)
  | stack, [] => some stack
  | stack, piece :: pieces =>
    match nest piece stack with
    | none => none
    | some stack => nesting stack pieces

/-- A token without what the parser fills in later. -/
def outlineOf (t : JsmnTok) : JsmnTok :=
  if t.isContainer then ⟨t.type, t.start, -1, 0⟩ else ⟨t.type, t.start, t.end_, 0⟩

def openTypes (tokens : List JsmnTok) : List JsmnType := (tokens.filter JsmnTok.isOpen).map JsmnTok.type

/-- The parser has allocated `tokens`, and `stack` is what it has left open. -/
structure Outline (numTokens : Nat) (parser : JsmnParser) (tokens : List JsmnTok)
    (stack : List Bracket) : Prop where
  outlined : parser.tokens.map outlineOf = tokens
  nested : openTypes parser.tokens = (stack.map Bracket.type).reverse
  fits : tokens.length ≤ numTokens

theorem Outline.length {numTokens : Nat} {parser : JsmnParser} {tokens : List JsmnTok}
    {stack : List Bracket} (view : Outline numTokens parser tokens stack) :
    parser.tokens.length = tokens.length := by
  rw [← view.outlined, List.length_map]

theorem lastBelow_take (p : JsmnTok → Bool) (tokens : List JsmnTok) : ∀ {n : Nat},
    n ≤ tokens.length → (lastBelow p tokens n = none ∧ (tokens.take n).filter p = []) ∨
    ∃ before t after, lastBelow p tokens n = some before.length ∧
      tokens.take n = before ++ t :: after ∧ p t = true ∧ after.filter p = [] := by
  intro n
  induction n with
  | zero => intro _; exact Or.inl ⟨rfl, rfl⟩
  | succ n ih =>
    intro bound
    obtain ⟨t, at_n⟩ : ∃ t, tokens[n]? = some t := ⟨_, List.getElem?_eq_getElem (by omega)⟩
    have grown : tokens.take (n + 1) = tokens.take n ++ [t] := by
      rw [List.take_add_one, at_n]
      rfl
    rw [lastBelow, at_n, grown]
    by_cases here : p t = true
    · right
      refine ⟨tokens.take n, t, [], ?_, by simp, here, rfl⟩
      rw [Option.any_some, if_pos here, List.length_take, Nat.min_eq_left (by omega)]
    · rw [Option.any_some, if_neg here]
      rcases ih (by omega) with ⟨none_below, quiet⟩ | ⟨before, u, after, found, split, last, quiet⟩
      · left
        refine ⟨none_below, ?_⟩
        rw [List.filter_append, quiet]
        simp [here]
      · right
        refine ⟨before, u, after ++ [t], found, ?_, last, ?_⟩
        · rw [split]
          simp
        · rw [List.filter_append, quiet]
          simp [here]

theorem lastBelow_all (p : JsmnTok → Bool) (tokens : List JsmnTok) :
    (lastBelow p tokens tokens.length = none ∧ tokens.filter p = []) ∨
    ∃ before t after, lastBelow p tokens tokens.length = some before.length ∧
      tokens = before ++ t :: after ∧ p t = true ∧ after.filter p = [] := by
  have search := lastBelow_take p tokens (Nat.le_refl tokens.length)
  rw [List.take_length] at search
  exact search

theorem modify_map {α β : Type} {f : α → α} {g : α → β} (same : ∀ a, g (f a) = g a) :
    ∀ (l : List α) (i : Nat), (l.modify i f).map g = l.map g := by
  intro l
  induction l with
  | nil => intro i; simp
  | cons a l ih =>
    intro i
    cases i with
    | zero => simp [same]
    | succ i => simp [ih]

theorem openTypes_modify {f : JsmnTok → JsmnTok} (opened : ∀ t, (f t).isOpen = t.isOpen)
    (type : ∀ t, (f t).type = t.type) : ∀ (tokens : List JsmnTok) (i : Nat),
    openTypes (tokens.modify i f) = openTypes tokens := by
  intro tokens
  induction tokens with
  | nil => intro i; simp
  | cons t tokens ih =>
    intro i
    unfold openTypes at *
    cases i with
    | zero =>
      rw [List.modify_zero_cons, List.filter_cons, List.filter_cons, opened]
      split
      · rw [List.map_cons, List.map_cons, type]
      · rfl
    | succ i =>
      rw [List.modify_succ_cons, List.filter_cons, List.filter_cons]
      split
      · rw [List.map_cons, List.map_cons, ih]
      · exact ih i

theorem openTypes_append (tokens others : List JsmnTok) :
    openTypes (tokens ++ others) = openTypes tokens ++ openTypes others := by
  simp [openTypes]

@[simp] theorem countMember_pos (parser : JsmnParser) : (countMember parser).pos = parser.pos := by
  unfold countMember
  split <;> rfl

theorem countMember_outline {numTokens : Nat} {parser : JsmnParser} {tokens : List JsmnTok}
    {stack : List Bracket} (view : Outline numTokens parser tokens stack) :
    Outline numTokens (countMember parser) tokens stack := by
  obtain ⟨outlined, nested, fits⟩ := view
  unfold countMember
  split
  · constructor
    · rw [modify_map (fun t => by rfl), outlined]
    · rw [openTypes_modify (fun t => by rfl) (fun t => by rfl), nested]
    · exact fits
  · exact ⟨outlined, nested, fits⟩

theorem append_closed {numTokens : Nat} {parser : JsmnParser} {tokens : List JsmnTok}
    {stack : List Bracket} (view : Outline numTokens parser tokens stack) {t : JsmnTok}
    (room : tokens.length < numTokens) (closed : t.isOpen = false) :
    Outline numTokens { parser with tokens := parser.tokens ++ [t] } (tokens ++ [outlineOf t])
      stack := by
  constructor
  · rw [List.map_append, view.outlined]
    rfl
  · have none_open : openTypes [t] = [] := by simp [openTypes, closed]
    rw [openTypes_append, none_open, List.append_nil, view.nested]
  · rw [List.length_append, List.length_singleton]
    exact room

theorem append_open {numTokens : Nat} {parser : JsmnParser} {tokens : List JsmnTok}
    {stack : List Bracket} (view : Outline numTokens parser tokens stack) {t : JsmnTok}
    (room : tokens.length < numTokens) (opened : t.isOpen = true) {b : Bracket}
    (type : t.type = b.type) :
    Outline numTokens { parser with tokens := parser.tokens ++ [t] } (tokens ++ [outlineOf t])
      (b :: stack) := by
  constructor
  · rw [List.map_append, view.outlined]
    rfl
  · have one_open : openTypes [t] = [b.type] := by simp [openTypes, opened, type]
    rw [openTypes_append, one_open, view.nested, List.map_cons, List.reverse_cons]
  · rw [List.length_append, List.length_singleton]
    exact room

theorem outline_toksuper {numTokens : Nat} {parser : JsmnParser} {tokens : List JsmnTok}
    {stack : List Bracket} (view : Outline numTokens parser tokens stack) (pos : Nat) (super : Int) :
    Outline numTokens ⟨pos, super, parser.tokens⟩ tokens stack :=
  ⟨view.outlined, view.nested, view.fits⟩

theorem endMember_outline {numTokens : Nat} {parser : JsmnParser} {tokens : List JsmnTok}
    {stack : List Bracket} (view : Outline numTokens parser tokens stack) :
    Outline numTokens (endMember parser) tokens stack ∧ (endMember parser).pos = parser.pos := by
  unfold endMember
  split
  · split
    · exact ⟨view, rfl⟩
    · exact ⟨outline_toksuper view _ _, rfl⟩
  · exact ⟨view, rfl⟩

theorem alloc_full {numTokens : Nat} {parser : JsmnParser} {tokens : List JsmnTok}
    {stack : List Bracket} (view : Outline numTokens parser tokens stack) (t : JsmnTok)
    (full : numTokens ≤ tokens.length) :
    jsmnAllocToken parser numTokens t = .error .nomem := by
  rw [jsmnAllocToken, JsmnParser.toknext, view.length]
  exact if_pos full

theorem alloc_room {numTokens : Nat} {parser : JsmnParser} {tokens : List JsmnTok}
    {stack : List Bracket} (view : Outline numTokens parser tokens stack) (t : JsmnTok)
    (room : tokens.length < numTokens) :
    jsmnAllocToken parser numTokens t = .ok { parser with tokens := parser.tokens ++ [t] } := by
  rw [jsmnAllocToken, JsmnParser.toknext, view.length]
  exact if_neg (Nat.not_le.mpr room)

theorem bracket_type_inj {b c : Bracket} (same : b.type = c.type) : b = c := by
  cases b <;> cases c <;> first | rfl | cases same

theorem modify_at (before : List JsmnTok) (t : JsmnTok) (after : List JsmnTok)
    (f : JsmnTok → JsmnTok) :
    (before ++ t :: after).modify before.length f = before ++ f t :: after := by
  induction before with
  | nil => exact List.modify_zero_cons f t after
  | cons a before ih =>
    rw [List.cons_append, List.length_cons, List.modify_succ_cons, ih]
    rfl

theorem closeContainer_outline {numTokens : Nat} {parser : JsmnParser} {tokens : List JsmnTok}
    {stack : List Bracket} (view : Outline numTokens parser tokens stack) (b : Bracket) :
    (nest (.closes b) stack = none ∧ closeContainer parser b.type = .error .inval) ∨
    ∃ rest closed, nest (.closes b) stack = some rest ∧
      closeContainer parser b.type = .ok closed ∧ closed.pos = parser.pos ∧
      Outline numTokens closed tokens rest := by
  have search := lastBelow_all JsmnTok.isOpen parser.tokens
  unfold closeContainer JsmnParser.toknext
  rcases search with ⟨none_open, filtered⟩ | ⟨before, t, after, found, split, opened, quiet⟩
  · have empty : stack = [] := by
      have nested := view.nested
      rw [openTypes, filtered] at nested
      simpa using nested.symm
    left
    rw [none_open, empty]
    exact ⟨rfl, rfl⟩
  · have types : openTypes parser.tokens = openTypes before ++ [t.type] := by
      rw [split, openTypes_append]
      simp [openTypes, opened, quiet]
    have entry : parser.tok (before.length : Int) = t := by
      simp [JsmnParser.tok, split]
    cases stack with
    | nil =>
      have nested := view.nested
      rw [types] at nested
      simp at nested
    | cons top rest =>
      have nested := view.nested
      rw [types, List.map_cons, List.reverse_cons] at nested
      obtain ⟨outer, inner⟩ := List.append_inj' nested rfl
      have inner : t.type = top.type := by simpa using inner
      simp only [found, entry, inner]
      by_cases same : top = b
      · right
        subst same
        rw [if_neg (fun h => h rfl)]
        have container : t.isContainer = true := by
          unfold JsmnTok.isContainer
          rw [inner]
          cases top <;> rfl
        have view' : Outline numTokens ⟨parser.pos, parser.toksuper, parser.tokens.modify
            before.length fun t => { t with end_ := (parser.pos : Int) + 1 }⟩ tokens rest := by
          constructor
          · rw [← view.outlined, split, modify_at]
            have whole : outlineOf { t with end_ := (parser.pos : Int) + 1 } = outlineOf t := by
              have kept : ({ t with end_ := (parser.pos : Int) + 1 } : JsmnTok).isContainer = true :=
                container
              rw [outlineOf, if_pos kept, outlineOf, if_pos container]
            simp [whole]
          · have shut : ({ t with end_ := (parser.pos : Int) + 1 } : JsmnTok).isOpen = false := by
              have ended : (parser.pos : Int) + 1 ≠ -1 := by omega
              simp [JsmnTok.isOpen, ended]
            have rear : openTypes ({ t with end_ := (parser.pos : Int) + 1 } :: after) = [] := by
              simp [openTypes, shut, quiet]
            rw [split, modify_at, openTypes_append, rear, List.append_nil, outer]
          · exact view.fits
        refine ⟨rest, ?_⟩
        cases lastBelow JsmnTok.isOpen (parser.tokens.modify before.length
            fun t => { t with end_ := (parser.pos : Int) + 1 }) (before.length + 1) with
        | none => exact ⟨_, if_pos rfl, rfl, rfl, outline_toksuper view' _ _⟩
        | some j => exact ⟨_, if_pos rfl, rfl, rfl, outline_toksuper view' _ _⟩
      · left
        have other : top.type ≠ b.type := fun h => same (bracket_type_inj h)
        rw [if_pos other]
        exact ⟨if_neg same, rfl⟩

theorem openContainer_outline {numTokens : Nat} {parser : JsmnParser} {tokens : List JsmnTok}
    {stack : List Bracket} (view : Outline numTokens parser tokens stack) (b : Bracket) :
    (numTokens < tokens.length + 1 ∧ openContainer parser numTokens b.type = .error .nomem) ∨
    ∃ opened, openContainer parser numTokens b.type = .ok opened ∧ opened.pos = parser.pos ∧
      Outline numTokens opened (tokens ++ [⟨b.type, parser.pos, -1, 0⟩]) (b :: stack) := by
  have counted := countMember_outline view
  unfold openContainer
  by_cases room : tokens.length < numTokens
  · right
    rw [alloc_room counted _ room]
    refine ⟨_, rfl, countMember_pos parser, ?_⟩
    have fresh : outlineOf ⟨b.type, parser.pos, -1, 0⟩ = ⟨b.type, parser.pos, -1, 0⟩ :=
      by
      cases b <;> rfl
    have opened : JsmnTok.isOpen ⟨b.type, parser.pos, -1, 0⟩ = true := by
      have placed : (parser.pos : Int) ≠ -1 := by omega
      simp [JsmnTok.isOpen, placed]
    have view' := append_open counted room opened (b := b) rfl
    rw [fresh] at view'
    exact outline_toksuper view' _ _
  · left
    rw [alloc_full counted _ (by omega)]
    exact ⟨by omega, rfl⟩

theorem store_outline {numTokens : Nat} {parser : JsmnParser} {tokens : List JsmnTok}
    {stack : List Bracket} (view : Outline numTokens parser tokens stack) {t : JsmnTok}
    (ended : 0 ≤ t.end_) (scalar : outlineOf t = t) (pos : Nat)
    (room : tokens.length < numTokens) :
    Outline numTokens (countMember ⟨pos, parser.toksuper, parser.tokens ++ [t]⟩) (tokens ++ [t])
      stack := by
  have closed : t.isOpen = false := by
    have other : t.end_ ≠ -1 := by omega
    simp [JsmnTok.isOpen, other]
  have view' := append_closed view room closed
  rw [scalar] at view'
  exact countMember_outline (outline_toksuper view' pos parser.toksuper)

theorem bind_ok {α β : Type} (x : Except JsmnErr α) (f : α → β) :
    (x >>= fun a => Except.ok (f a)) = x.map f := by
  cases x <;> rfl

theorem bareStart_default {c : UInt8} (start : isBareStart c = true) :
    ¬(c = chr '{' ∨ c = chr '[') ∧ ¬(c = chr '}' ∨ c = chr ']') ∧ c ≠ chr '\"' ∧
      ¬(c = chr '\t' ∨ c = chr '\r' ∨ c = chr '\n' ∨ c = chr ' ') ∧ c ≠ chr ':' ∧ c ≠ chr ',' := by
  simp only [isBareStart, isBareByte, isPrimitiveEnd, decide_eq_true_eq, decide_eq_false_iff_not,
    not_or, Bool.decide_and, Bool.and_eq_true] at start
  obtain ⟨⟨_, _, colon, tab, cr, lf, space, comma, square, curly⟩, brace, bracket, quote⟩ := start
  exact ⟨by simp [brace, bracket], by simp [square, curly], quote, by simp [tab, cr, lf, space],
    colon, comma⟩

section
variable {js : Ptr} {len : Nat} {parser : JsmnParser} {tail : List UInt8}

theorem char_opens (numTokens : Nat) {b : Bracket} (first : js parser.pos = b.opening) :
    jsmnParseChar parser js len numTokens =
      (openContainer parser numTokens b.type).map (·, 1) := by
  simp only [jsmnParseChar, first]
  cases b
  · exact bind_ok (openContainer parser numTokens .object) _
  · exact bind_ok (openContainer parser numTokens .array) _

theorem char_closes (numTokens : Nat) {b : Bracket} (first : js parser.pos = b.closing) :
    jsmnParseChar parser js len numTokens = (closeContainer parser b.type).map (·, 0) := by
  simp only [jsmnParseChar, first]
  cases b
  · exact bind_ok (closeContainer parser .object) _
  · exact bind_ok (closeContainer parser .array) _

theorem char_string (numTokens : Nat) {body : List UInt8}
    (read : remaining js len parser.pos = (Piece.string body).bytes ++ tail)
    (formed : StringBody body) : jsmnParseChar parser js len numTokens =
      (jsmnAllocToken parser numTokens (jsmnFillToken .string (parser.pos + 1 : Nat)
        (parser.pos + 1 + body.length : Nat))).map fun next =>
          (countMember { next with pos := parser.pos + 1 + body.length }, 1) := by
  obtain ⟨_, first, rest⟩ := remaining_cons read
  have inner : remaining js len (parser.pos + 1) = body ++ chr '\"' :: tail := by
    rw [rest]
    simp
  have size : body.length < len - parser.pos := by
    have bound := remaining_length_le js len parser.pos
    rw [read, Piece.bytes] at bound
    simp only [List.cons_append, List.length_cons, List.length_append] at bound
    omega
  have scanned : stringEnd js len (len - parser.pos) (parser.pos + 1) =
      .ok (parser.pos + 1 + body.length) := stringEnd_body formed inner size
  have char : jsmnParseChar parser js len numTokens =
      (jsmnParseString parser js len numTokens).map (countMember ·, 1) := by
    simp only [jsmnParseChar, first]
    exact bind_ok (jsmnParseString parser js len numTokens) _
  have string : jsmnParseString parser js len numTokens =
      (jsmnAllocToken parser numTokens (jsmnFillToken .string (parser.pos + 1 : Nat)
        (parser.pos + 1 + body.length : Nat))).map fun next =>
          { next with pos := parser.pos + 1 + body.length } := by
    rw [jsmnParseString, scanned]
    exact bind_ok _ _
  rw [char, string]
  cases jsmnAllocToken parser numTokens _ <;> rfl

theorem char_bare (numTokens : Nat) {text : List UInt8}
    (read : remaining js len parser.pos = text ++ tail) (formed : BareText text)
    (ends : (Piece.bare text).Ends tail) : jsmnParseChar parser js len numTokens =
      (jsmnAllocToken parser numTokens (jsmnFillToken .primitive parser.pos
        (parser.pos + text.length : Nat))).map fun next =>
          (countMember { next with pos := parser.pos + text.length - 1 }, 1) := by
  obtain ⟨c, rest, same, start⟩ := BareText.starts formed
  have first : js parser.pos = c := by
    rw [same] at read
    exact (remaining_cons read).2.1
  have size : text.length ≤ len - parser.pos := by
    have bound := remaining_length_le js len parser.pos
    rw [read, List.length_append] at bound
    omega
  have scanned : primitiveEnd js len (len - parser.pos) parser.pos =
      .ok (parser.pos + text.length) := primitiveEnd_bare ends read size formed.bytes
  obtain ⟨opening, closing, quote, blank, colon, comma⟩ := bareStart_default start
  have char : jsmnParseChar parser js len numTokens =
      (jsmnParsePrimitive parser js len numTokens).map (countMember ·, 1) := by
    simp only [jsmnParseChar, first]
    rw [if_neg opening, if_neg closing, if_neg quote, if_neg blank, if_neg colon, if_neg comma]
    exact bind_ok (jsmnParsePrimitive parser js len numTokens) _
  have primitive : jsmnParsePrimitive parser js len numTokens =
      (jsmnAllocToken parser numTokens (jsmnFillToken .primitive parser.pos
        (parser.pos + text.length : Nat))).map fun next =>
          { next with pos := parser.pos + text.length - 1 } := by
    rw [jsmnParsePrimitive, scanned]
    exact bind_ok _ _
  rw [char, primitive]
  cases jsmnAllocToken parser numTokens _ <;> rfl

end

theorem parseChar_piece {js : Ptr} {len numTokens : Nat} {parser : JsmnParser}
    {tokens : List JsmnTok} {stack : List Bracket} {piece : Piece} {tail : List UInt8}
    (read : remaining js len parser.pos = piece.bytes ++ tail) (formed : piece.Formed)
    (ends : piece.Ends tail) (view : Outline numTokens parser tokens stack) :
    ((nest piece stack = none ∨
        numTokens < tokens.length + (pieceToken parser.pos piece).length) ∧
      ∃ r, jsmnParseChar parser js len numTokens = .error r) ∨
    ∃ next rest, jsmnParseChar parser js len numTokens =
        .ok (next, (pieceToken parser.pos piece).length) ∧
      nest piece stack = some rest ∧ next.pos + 1 = parser.pos + piece.bytes.length ∧
      Outline numTokens next (tokens ++ pieceToken parser.pos piece) rest := by
  cases piece with
  | mark c =>
    right
    obtain ⟨_, first, _⟩ := remaining_cons read
    have kept : Outline numTokens parser (tokens ++ []) stack := by
      rw [List.append_nil]
      exact view
    simp only [jsmnParseChar, first, pieceToken, List.length_nil, nest, Piece.bytes]
    rcases mark_kinds formed with rfl | rfl | rfl | rfl | rfl | rfl
    · exact ⟨parser, stack, rfl, rfl, rfl, kept⟩
    · exact ⟨parser, stack, rfl, rfl, rfl, kept⟩
    · exact ⟨parser, stack, rfl, rfl, rfl, kept⟩
    · exact ⟨parser, stack, rfl, rfl, rfl, kept⟩
    · exact ⟨_, stack, rfl, rfl, rfl, outline_toksuper kept _ _⟩
    · obtain ⟨ended, stays⟩ := endMember_outline kept
      exact ⟨_, stack, rfl, rfl, congrArg (· + 1) stays, ended⟩
  | opens b =>
    obtain ⟨_, first, _⟩ := remaining_cons read
    rw [char_opens numTokens first]
    rcases openContainer_outline view b with ⟨full, failed⟩ | ⟨opened, made, stays, view'⟩
    · left
      rw [failed]
      exact ⟨Or.inr full, _, rfl⟩
    · right
      rw [made]
      exact ⟨opened, b :: stack, rfl, rfl, congrArg (· + 1) stays, view'⟩
  | closes b =>
    obtain ⟨_, first, _⟩ := remaining_cons read
    rw [char_closes numTokens first]
    rcases closeContainer_outline view b with
      ⟨mismatch, failed⟩ | ⟨rest, closed, matched, made, stays, view'⟩
    · left
      rw [failed]
      exact ⟨Or.inl mismatch, _, rfl⟩
    · right
      rw [made]
      refine ⟨closed, rest, rfl, matched, congrArg (· + 1) stays, ?_⟩
      rw [pieceToken, List.append_nil]
      exact view'
  | string body =>
    rw [char_string numTokens read formed]
    by_cases room : tokens.length < numTokens
    · right
      rw [alloc_room view _ room]
      have stored := store_outline view (t := jsmnFillToken .string (parser.pos + 1 : Nat)
        (parser.pos + 1 + body.length : Nat)) (Int.natCast_nonneg _) rfl
        (parser.pos + 1 + body.length) room
      refine ⟨_, stack, rfl, rfl, ?_, stored⟩
      simp only [countMember_pos, Piece.bytes, List.length_cons, List.length_append,
        List.length_nil]
      omega
    · left
      rw [alloc_full view _ (Nat.not_lt.mp room)]
      refine ⟨Or.inr ?_, .nomem, rfl⟩
      simp only [pieceToken, List.length_singleton]
      omega
  | bare text =>
    have positive : 0 < text.length := Piece.bytes_pos formed
    rw [char_bare numTokens read formed ends]
    by_cases room : tokens.length < numTokens
    · right
      rw [alloc_room view _ room]
      have stored := store_outline view (t := jsmnFillToken .primitive parser.pos
        (parser.pos + text.length : Nat)) (Int.natCast_nonneg _) rfl
        (parser.pos + text.length - 1) room
      refine ⟨_, stack, rfl, rfl, ?_, stored⟩
      simp only [countMember_pos, Piece.bytes]
      omega
    · left
      rw [alloc_full view _ (Nat.not_lt.mp room)]
      refine ⟨Or.inr ?_, .nomem, rfl⟩
      simp only [pieceToken, List.length_singleton]
      omega

theorem parseChar_lexes {js : Ptr} {len numTokens : Nat} {parser : JsmnParser}
    {result : JsmnParser × Nat} (inside : parser.pos < len ∧ js parser.pos ≠ 0)
    (passed : jsmnParseChar parser js len numTokens = .ok result) :
    ∃ (piece : Piece) (tail : List UInt8), remaining js len parser.pos = piece.bytes ++ tail ∧
      piece.Formed ∧ piece.Ends tail := by
  have read := remaining_step inside
  simp only [jsmnParseChar] at passed
  split at passed
  · rename_i opening
    rcases opening with brace | bracket
    · exact ⟨.opens .curly, _, by rw [read, brace]; rfl, trivial, trivial⟩
    · exact ⟨.opens .square, _, by rw [read, bracket]; rfl, trivial, trivial⟩
  rename_i opening
  split at passed
  · rename_i closing
    rcases closing with brace | bracket
    · exact ⟨.closes .curly, _, by rw [read, brace]; rfl, trivial, trivial⟩
    · exact ⟨.closes .square, _, by rw [read, bracket]; rfl, trivial, trivial⟩
  rename_i closing
  split at passed
  · rename_i quote
    cases scanned : stringEnd js len (len - parser.pos) (parser.pos + 1) with
    | error r =>
      simp only [jsmnParseString, scanned] at passed
      cases passed
    | ok e =>
      obtain ⟨body, tail, rest, formed, _⟩ := stringEnd_ok scanned
      refine ⟨.string body, tail, ?_, formed, trivial⟩
      rw [read, quote, rest]
      simp [Piece.bytes]
  rename_i quote
  split at passed
  · rename_i blank
    refine ⟨.mark (js parser.pos), _, read, ?_, trivial⟩
    rcases blank with tab | cr | lf | space
    · simp [Piece.Formed, isMark, tab]
    · simp [Piece.Formed, isMark, cr]
    · simp [Piece.Formed, isMark, lf]
    · simp [Piece.Formed, isMark, space]
  rename_i blank
  split at passed
  · rename_i colon
    exact ⟨.mark (js parser.pos), _, read, by simp [Piece.Formed, isMark, colon], trivial⟩
  rename_i colon
  split at passed
  · rename_i comma
    exact ⟨.mark (js parser.pos), _, read, by simp [Piece.Formed, isMark, comma], trivial⟩
  rename_i comma
  cases scanned : primitiveEnd js len (len - parser.pos) parser.pos with
  | error r =>
    simp only [jsmnParsePrimitive, scanned] at passed
    cases passed
  | ok e =>
    obtain ⟨text, tail, rest, _, bare, stop⟩ := primitiveEnd_ok (Nat.le_refl _) scanned
    simp only [not_or] at opening closing blank
    have going : isPrimitiveEnd (js parser.pos) = false := by
      simp [isPrimitiveEnd, closing, blank, colon, comma]
    refine ⟨.bare text, tail, rest, ⟨bare, ?_⟩, stop⟩
    rw [read] at rest
    cases text with
    | nil =>
      have ended : isPrimitiveEnd (js parser.pos) = true := by
        apply stop
        rw [List.nil_append] at rest
        rw [← rest]
        rfl
      rw [going] at ended
      cases ended
    | cons c text =>
      injection rest with first _
      have byte := bare c (by simp)
      refine ⟨c, text, rfl, ?_⟩
      rw [← first] at byte ⊢
      simp [isBareStart, byte, opening, quote]

theorem parseLoop_accepts {js : Ptr} {len numTokens : Nat} {text : List UInt8}
    {pieces : List Piece} (lexed : Lexes text pieces) : ∀ (fuel count : Nat) (parser : JsmnParser)
    {tokens : List JsmnTok} {stack final : List Bracket},
    remaining js len parser.pos = text → text.length ≤ fuel →
    Outline numTokens parser tokens stack → nesting stack pieces = some final →
    tokens.length + (tokensAt parser.pos pieces).length ≤ numTokens →
    ∃ next, jsmnParseLoop js len numTokens fuel parser count =
        .ok (next, count + (tokensAt parser.pos pieces).length) ∧
      Outline numTokens next (tokens ++ tokensAt parser.pos pieces) final := by
  induction lexed with
  | nil =>
    intro fuel count parser tokens stack final read _ view nests _
    have same : stack = final := Option.some.inj nests
    rw [tokensAt, List.append_nil]
    refine ⟨parser, ?_, same ▸ view⟩
    cases fuel with
    | zero => rfl
    | succ fuel => exact if_neg (remaining_nil read)
  | @cons piece tail pieces formed ends _ ih =>
    intro fuel count parser tokens stack final read enough view nests room
    have longer : 0 < piece.bytes.length := Piece.bytes_pos formed
    rw [List.length_append] at enough
    obtain ⟨fuel, rfl⟩ : ∃ n, fuel = n + 1 := ⟨fuel - 1, by omega⟩
    have inside : parser.pos < len ∧ js parser.pos ≠ 0 := piece_inside read formed
    rw [tokensAt, List.length_append] at room
    simp only [nesting] at nests
    rcases parseChar_piece read formed ends view with
      ⟨mismatch | full, _⟩ | ⟨next, rest, passed, nested, moved, view'⟩
    · rw [mismatch] at nests
      cases nests
    · omega
    · rw [nested] at nests
      have fits : (tokens ++ pieceToken parser.pos piece).length +
          (tokensAt (next.pos + 1) pieces).length ≤ numTokens := by
        rw [List.length_append, moved]
        omega
      have left : remaining js len (next.pos + 1) = tail := by
        rw [moved]
        exact remaining_append read
      obtain ⟨last, looped, view''⟩ := ih fuel
        (count + (pieceToken parser.pos piece).length) { next with pos := next.pos + 1 } left
        (by omega) (outline_toksuper view' _ _) nests fits
      refine ⟨last, ?_, ?_⟩
      · rw [jsmnParseLoop, if_pos inside, passed]
        refine looped.trans ?_
        rw [tokensAt, List.length_append, moved, Nat.add_assoc]
      · rw [tokensAt, ← moved, ← List.append_assoc]
        exact view''

theorem parseLoop_sound {js : Ptr} {len numTokens total : Nat} {next : JsmnParser} :
    ∀ (fuel count : Nat) (parser : JsmnParser) {tokens : List JsmnTok} {stack : List Bracket},
    jsmnParseLoop js len numTokens fuel parser count = .ok (next, total) →
    len - parser.pos ≤ fuel → Outline numTokens parser tokens stack →
    ∃ pieces final, Lexes (remaining js len parser.pos) pieces ∧
      nesting stack pieces = some final ∧
      total = count + (tokensAt parser.pos pieces).length ∧
      Outline numTokens next (tokens ++ tokensAt parser.pos pieces) final := by
  intro fuel
  induction fuel with
  | zero =>
    intro count parser tokens stack looped enough view
    simp only [jsmnParseLoop, Except.ok.injEq, Prod.mk.injEq] at looped
    obtain ⟨rfl, rfl⟩ := looped
    have ended : remaining js len parser.pos = [] := remaining_end (by omega)
    rw [ended]
    refine ⟨[], stack, .nil, rfl, rfl, ?_⟩
    rw [tokensAt, List.append_nil]
    exact view
  | succ fuel ih =>
    intro count parser tokens stack looped enough view
    rw [jsmnParseLoop] at looped
    split at looped
    · rename_i inside
      cases passed : jsmnParseChar parser js len numTokens with
      | error r =>
        rw [passed] at looped
        cases looped
      | ok result =>
        obtain ⟨middle, added⟩ := result
        rw [passed] at looped
        obtain ⟨piece, tail, read, formed, ends⟩ := parseChar_lexes inside passed
        rcases parseChar_piece read formed ends view with
          ⟨_, r, failed⟩ | ⟨middle', rest, again, nested, moved, view'⟩
        · rw [failed] at passed
          cases passed
        · rw [passed] at again
          simp only [Except.ok.injEq, Prod.mk.injEq] at again
          obtain ⟨rfl, rfl⟩ := again
          have left : remaining js len (middle.pos + 1) = tail := by
            rw [moved]
            exact remaining_append read
          have longer : 0 < piece.bytes.length := Piece.bytes_pos formed
          obtain ⟨pieces, final, lexed, nests, summed, view''⟩ :=
            ih _ { middle with pos := middle.pos + 1 } looped (by simp only; omega)
              (outline_toksuper view' _ _)
          simp only [left] at lexed
          simp only [moved] at summed view''
          refine ⟨piece :: pieces, final, ?_, ?_, ?_, ?_⟩
          · rw [read]
            exact .cons piece formed ends lexed
          · simp only [nesting, nested]
            exact nests
          · rw [tokensAt, List.length_append, ← Nat.add_assoc]
            exact summed
          · rw [tokensAt, ← List.append_assoc]
            exact view''
    · rename_i outside
      simp only [Except.ok.injEq, Prod.mk.injEq] at looped
      obtain ⟨rfl, rfl⟩ := looped
      rw [remaining_end outside]
      refine ⟨[], stack, .nil, rfl, rfl, ?_⟩
      rw [tokensAt, List.append_nil]
      exact view

theorem init_outline (numTokens : Nat) : Outline numTokens jsmnInit [] [] :=
  ⟨rfl, rfl, Nat.zero_le _⟩

theorem open_none_iff {numTokens : Nat} {parser : JsmnParser} {tokens : List JsmnTok}
    {stack : List Bracket} (view : Outline numTokens parser tokens stack) :
    (lastBelow JsmnTok.isOpen parser.tokens parser.toknext).isSome = false ↔ stack = [] := by
  have nested := view.nested
  rcases lastBelow_all JsmnTok.isOpen parser.tokens with
    ⟨none_open, filtered⟩ | ⟨before, t, after, found, split, opened, _⟩
  · rw [openTypes, filtered] at nested
    have empty : stack = [] := by simpa using nested.symm
    rw [JsmnParser.toknext, none_open]
    exact iff_of_true rfl empty
  · rw [JsmnParser.toknext, found]
    refine iff_of_false (by simp) ?_
    rintro rfl
    rw [split, openTypes_append] at nested
    simp [openTypes, opened] at nested

theorem jsmnParse_accepts {js : Ptr} {len numTokens : Nat} {pieces : List Piece}
    (lexed : Lexes (strn js len) pieces) (nests : nesting [] pieces = some [])
    (room : (tokensAt 0 pieces).length ≤ numTokens) :
    ∃ toks, jsmnParse js len numTokens = .ok (toks.length, toks) ∧
      toks.map outlineOf = tokensAt 0 pieces := by
  have whole : remaining js len jsmnInit.pos = strn js len := remaining_zero js len
  have enough : (strn js len).length ≤ len := strn_length_le js len
  have fits : ([] : List JsmnTok).length + (tokensAt jsmnInit.pos pieces).length ≤ numTokens := by
    rw [List.length_nil, Nat.zero_add]
    exact room
  obtain ⟨next, looped, view⟩ := parseLoop_accepts lexed len 0 jsmnInit whole enough
    (init_outline numTokens) nests fits
  have closed := (open_none_iff view).mpr rfl
  have outlined : next.tokens.map outlineOf = tokensAt 0 pieces := view.outlined
  have counted : 0 + (tokensAt jsmnInit.pos pieces).length = next.tokens.length := by
    have size := congrArg List.length outlined
    rw [List.length_map] at size
    rw [Nat.zero_add, size]
    rfl
  refine ⟨next.tokens, ?_, outlined⟩
  rw [jsmnParse, looped, counted]
  simp only [bind, Except.bind, closed]
  rfl

/-- What jsmn_parse accepts is a text of nested pieces, and its tokens are theirs. -/
theorem jsmnParse_sound {js : Ptr} {len numTokens r : Nat} {toks : List JsmnTok}
    (parsed : jsmnParse js len numTokens = .ok (r, toks)) :
    ∃ pieces, Lexes (strn js len) pieces ∧ nesting [] pieces = some [] ∧
      toks.map outlineOf = tokensAt 0 pieces ∧ r = toks.length ∧ r ≤ numTokens := by
  rw [jsmnParse] at parsed
  cases looped : jsmnParseLoop js len numTokens len jsmnInit 0 with
  | error e =>
    rw [looped] at parsed
    cases parsed
  | ok result =>
    obtain ⟨next, total⟩ := result
    rw [looped] at parsed
    simp only [bind, Except.bind] at parsed
    obtain ⟨pieces, final, lexed, nests, summed, view⟩ :=
      parseLoop_sound len 0 jsmnInit looped (Nat.sub_le len _) (init_outline numTokens)
    split at parsed
    · cases parsed
    · rename_i closed
      simp only [Except.ok.injEq, Prod.mk.injEq] at parsed
      obtain ⟨rfl, rfl⟩ := parsed
      have empty : final = [] := (open_none_iff view).mp (by simpa using closed)
      have outlined : next.tokens.map outlineOf = tokensAt 0 pieces := view.outlined
      have size := congrArg List.length outlined
      rw [List.length_map] at size
      have counted : total = next.tokens.length := by
        rw [summed, Nat.zero_add, size]
        rfl
      have fits : (tokensAt 0 pieces).length ≤ numTokens := view.fits
      have whole : remaining js len jsmnInit.pos = strn js len := remaining_zero js len
      rw [whole] at lexed
      rw [empty] at nests
      exact ⟨pieces, lexed, nests, outlined, counted, by omega⟩

end RoverOutline
