import FirefighterRover.JsmnMachine

/-!
JSON documents of any depth, as texts and as the tokens they stand for: every value in the order
of the text, with its type, where it starts and ends, and how many members it has. jsmn_parse
gives back exactly these tokens.
-/
namespace RoverDocuments
open CMemory RoverJsmn RoverLexing RoverOutline RoverFlat RoverMachine FlatJson

inductive Leaf where
  | string (body : List UInt8) (formed : StringBody body)
  | bare (text : List UInt8) (formed : BareText text)

inductive Head : Bracket → Type where
  | item (before : Blank) : Head .square
  | member (before : Blank) (key : List UInt8) (formed : StringBody key) (afterKey : Blank)
    (beforeValue : Blank) : Head .curly

/-- The elements of an array or an object. `space` is the whitespace before a closing bracket,
    `after` that behind a value. -/
inductive Elements : Bracket → Type where
  | nil {b : Bracket} : Elements b
  | leaf {b : Bracket} (head : Head b) (value : Leaf) (after : Blank) (rest : Elements b) :
    Elements b
  | container {b c : Bracket} (head : Head b) (inner : Elements c) (space : Blank) (after : Blank)
    (rest : Elements b) : Elements b

inductive Root where
  | leaf (value : Leaf)
  | container {c : Bracket} (inner : Elements c) (space : Blank)

structure Document where
  lead : Blank
  root : Root
  tail : Blank

def Leaf.piece : Leaf → Piece
  | .string body _ => .string body
  | .bare text _ => .bare text

def Head.pieces {b : Bracket} : Head b → List Piece
  | .item before => blankPieces before
  | .member before key _ afterKey beforeValue =>
    blankPieces before ++ (.string key :: (blankPieces afterKey ++
      (.mark (chr ':') :: blankPieces beforeValue)))

def Elements.listed {b : Bracket} : Elements b → List Piece
  | .nil => []
  | .leaf head value after rest =>
    .mark (chr ',') :: (head.pieces ++ (value.piece :: (blankPieces after ++ rest.listed)))
  | .container (c := c) head inner space after rest =>
    .mark (chr ',') :: (head.pieces ++ (.opens c :: (inner.listed.tail ++ (blankPieces space ++
      (.closes c :: (blankPieces after ++ rest.listed))))))

def Elements.pieces {b : Bracket} (e : Elements b) : List Piece := e.listed.tail

def Root.pieces : Root → List Piece
  | .leaf value => [value.piece]
  | .container (c := c) inner space =>
    .opens c :: (inner.pieces ++ (blankPieces space ++ [.closes c]))

def Document.pieces (d : Document) : List Piece :=
  blankPieces d.lead ++ (d.root.pieces ++ blankPieces d.tail)

def textOf (pieces : List Piece) : List UInt8 := pieces.flatMap Piece.bytes

def Document.text (d : Document) : List UInt8 := textOf d.pieces

def width (pieces : List Piece) : Nat := (textOf pieces).length

def Leaf.token (off : Nat) : Leaf → JsmnTok
  | .string body _ => ⟨.string, (off + 1 : Nat), (off + 1 + body.length : Nat), 0⟩
  | .bare text _ => ⟨.primitive, off, (off + text.length : Nat), 0⟩

def Head.tokens {b : Bracket} (off : Nat) : Head b → List JsmnTok
  | .item _ => []
  | .member before key _ _ _ =>
    [⟨.string, (off + before.text.length + 1 : Nat),
      (off + before.text.length + 1 + key.length : Nat), 1⟩]

def Elements.count {b : Bracket} : Elements b → Nat
  | .nil => 0
  | .leaf _ _ _ rest => rest.count + 1
  | .container _ _ _ _ rest => rest.count + 1

def containerToken {c : Bracket} (off : Nat) (inner : Elements c) (space : Blank) : JsmnTok :=
  ⟨c.type, off, (off + width (Root.container inner space).pieces : Nat), inner.count⟩

def Elements.tokens {b : Bracket} : Nat → Elements b → List JsmnTok
  | _, .nil => []
  | off, .leaf head value after rest =>
    let start := off + width head.pieces
    head.tokens off ++ (value.token start ::
      rest.tokens (start + value.piece.bytes.length + after.text.length + 1))
  | off, .container head inner space after rest =>
    let start := off + width head.pieces
    let stop := start + width (Root.container inner space).pieces
    head.tokens off ++ (containerToken start inner space ::
      (inner.tokens (start + 1) ++ rest.tokens (stop + after.text.length + 1)))

def Root.tokens (off : Nat) : Root → List JsmnTok
  | .leaf value => [value.token off]
  | .container inner space => containerToken off inner space :: inner.tokens (off + 1)

def Document.tokens (d : Document) : List JsmnTok := d.root.tokens d.lead.text.length

def Lexed (pieces : List Piece) : Prop := Lexes (textOf pieces) pieces

theorem lexed_cons {piece : Piece} {pieces : List Piece} (formed : piece.Formed)
    (ends : piece.Ends (textOf pieces)) (lexed : Lexed pieces) : Lexed (piece :: pieces) :=
  .cons piece formed ends lexed

theorem textOf_append (a b : List Piece) : textOf (a ++ b) = textOf a ++ textOf b :=
  List.flatMap_append

theorem textOf_blank (w : Blank) : textOf (blankPieces w) = w.text := by
  unfold blankPieces
  induction w.text with
  | nil => rfl
  | cons c bytes ih => exact congrArg (c :: ·) ih

theorem lexed_blank (w : Blank) {pieces : List Piece} (lexed : Lexed pieces) :
    Lexed (blankPieces w ++ pieces) := by
  rw [Lexed, textOf_append, textOf_blank]
  exact lexes_blank w lexed

def StopsAt (pieces : List Piece) : Prop := Stops (textOf pieces)

theorem stopsAt_blank (w : Blank) {pieces : List Piece} (stops : StopsAt pieces) :
    StopsAt (blankPieces w ++ pieces) := by
  rw [StopsAt, textOf_append, textOf_blank]
  exact stops_blank w stops

theorem stopsAt_listed {b : Bracket} (e : Elements b) {pieces : List Piece}
    (stops : StopsAt pieces) : StopsAt (e.listed ++ pieces) := by
  cases e with
  | nil => exact stops
  | leaf => exact stops_cons (by decide) _
  | container => exact stops_cons (by decide) _

theorem lexed_leaf (value : Leaf) {pieces : List Piece} (stops : StopsAt pieces)
    (lexed : Lexed pieces) : Lexed (value.piece :: pieces) := by
  cases value with
  | string body formed => exact lexed_cons formed trivial lexed
  | bare text formed => exact lexed_cons formed stops lexed

theorem lexed_head {b : Bracket} (head : Head b) {pieces : List Piece} (lexed : Lexed pieces) :
    Lexed (head.pieces ++ pieces) := by
  cases head with
  | item before => exact lexed_blank before lexed
  | member before key formed afterKey beforeValue =>
    have colon : Lexed (.mark (chr ':') :: (blankPieces beforeValue ++ pieces)) :=
      lexed_cons rfl trivial (lexed_blank beforeValue lexed)
    have named : Lexed (.string key :: (blankPieces afterKey ++
        (.mark (chr ':') :: (blankPieces beforeValue ++ pieces)))) :=
      lexed_cons formed trivial (lexed_blank afterKey colon)
    have whole := lexed_blank before named
    simpa [Head.pieces] using whole

theorem lexed_elements {b : Bracket} (e : Elements b) : ∀ {pieces : List Piece}, StopsAt pieces →
    Lexed pieces → Lexed (e.listed ++ pieces) ∧ Lexed (e.pieces ++ pieces) := by
  induction e with
  | nil => intro pieces _ lexed; exact ⟨lexed, lexed⟩
  | leaf head value after rest ih =>
    intro pieces stops lexed
    have behind := lexed_blank after (ih stops lexed).1
    have value_ := lexed_leaf value (stopsAt_blank after (stopsAt_listed rest stops)) behind
    have written := lexed_head head value_
    have listed : Lexed (.mark (chr ',') :: (head.pieces ++ (value.piece :: (blankPieces after ++
        (rest.listed ++ pieces))))) := lexed_cons rfl trivial written
    constructor
    · simpa [Elements.listed] using listed
    · simpa [Elements.pieces, Elements.listed] using written
  | @container b c head inner space after rest inner_ih ih =>
    intro pieces stops lexed
    have behind := lexed_blank after (ih stops lexed).1
    have closed : Lexed (.closes c :: (blankPieces after ++ (rest.listed ++ pieces))) :=
      lexed_cons trivial trivial behind
    have ends : StopsAt (.closes c :: (blankPieces after ++ (rest.listed ++ pieces))) := by
      cases c <;> exact stops_cons (by decide) _
    have filled := (inner_ih (stopsAt_blank space ends) (lexed_blank space closed)).2
    have opened : Lexed (.opens c :: (inner.pieces ++ (blankPieces space ++
        (.closes c :: (blankPieces after ++ (rest.listed ++ pieces)))))) :=
      lexed_cons trivial trivial filled
    have written := lexed_head head opened
    have listed : Lexed (.mark (chr ',') :: (head.pieces ++ (.opens c :: (inner.pieces ++
        (blankPieces space ++ (.closes c :: (blankPieces after ++ (rest.listed ++ pieces)))))))) :=
      lexed_cons rfl trivial written
    constructor
    · simpa [Elements.listed, Elements.pieces] using listed
    · simpa [Elements.listed, Elements.pieces] using written

theorem lexed_root (root : Root) {pieces : List Piece} (stops : StopsAt pieces)
    (lexed : Lexed pieces) : Lexed (root.pieces ++ pieces) := by
  cases root with
  | leaf value => exact lexed_leaf value stops lexed
  | @container c inner space =>
    have closed : Lexed (.closes c :: pieces) := lexed_cons trivial trivial lexed
    have ends : StopsAt (.closes c :: pieces) := by
      cases c <;> exact stops_cons (by decide) _
    have filled := (lexed_elements inner (stopsAt_blank space ends) (lexed_blank space closed)).2
    have opened : Lexed (.opens c :: (inner.pieces ++ (blankPieces space ++
        (.closes c :: pieces)))) := lexed_cons trivial trivial filled
    simpa [Root.pieces] using opened

theorem lexed_document (d : Document) : Lexed d.pieces := by
  have nothing : Lexed [] := .nil
  have none_left : StopsAt [] := by
    intro c first
    cases first
  have tail := lexed_blank d.tail nothing
  rw [List.append_nil] at tail
  have ends := stopsAt_blank d.tail none_left
  rw [List.append_nil] at ends
  exact lexed_blank d.lead (lexed_root d.root ends tail)

def grown (u : JsmnTok) : JsmnTok := { u with size := u.size + 1 }

theorem countMember_at_holder (pos : Nat) (A : List JsmnTok) (u : JsmnTok) (B : List JsmnTok) :
    countMember ⟨pos, A.length, A ++ u :: B⟩ = ⟨pos, A.length, A ++ grown u :: B⟩ := by
  have present : (A.length : Int) ≠ -1 := by omega
  simp only [countMember, if_pos present, Int.toNat_natCast, modify_at]
  rfl

section
variable {numTokens off : Nat} {A B : List JsmnTok} {u : JsmnTok}

theorem store_counted {v : JsmnTok} (room : A.length + B.length + 1 < numTokens) :
    storeToken numTokens v ⟨off, A.length, A ++ u :: B⟩ =
      .ok ⟨off, A.length, A ++ grown u :: (B ++ [v])⟩ := by
  have free : ¬ (A ++ u :: B).length ≥ numTokens := by
    simp only [List.length_append, List.length_cons]
    omega
  have whole : (A ++ u :: B) ++ [v] = A ++ u :: (B ++ [v]) := by simp
  simp only [storeToken, jsmnAllocToken, JsmnParser.toknext, if_neg free, Except.map, whole,
    countMember_at_holder]

theorem take_leaf (off : Nat) (u : JsmnTok) (value : Leaf) (room : A.length + B.length + 1 < numTokens) :
    takePiece numTokens ⟨off, A.length, A ++ u :: B⟩ value.piece =
      .ok ⟨off + value.piece.bytes.length, A.length, A ++ grown u :: (B ++ [value.token off])⟩ := by
  cases value with
  | string body formed =>
    simp only [Leaf.piece, takePiece, store_counted room, Except.map, JsmnParser.advance, Piece.bytes]
    congr 2
    simp
  | bare text formed =>
    simp only [Leaf.piece, takePiece, store_counted room, Except.map, JsmnParser.advance, Piece.bytes]
    rfl

theorem take_open (off : Nat) (u : JsmnTok) (c : Bracket) (room : A.length + B.length + 1 < numTokens) :
    takePiece numTokens ⟨off, A.length, A ++ u :: B⟩ (.opens c) =
      .ok ⟨off + 1, (A ++ grown u :: B).length, (A ++ grown u :: B) ++ [⟨c.type, off, -1, 0⟩]⟩ := by
  have free : ¬ (A ++ grown u :: B).length ≥ numTokens := by
    simp only [List.length_append, List.length_cons]
    omega
  have made : jsmnAllocToken ⟨off, A.length, A ++ grown u :: B⟩ numTokens ⟨c.type, off, -1, 0⟩ =
      .ok ⟨off, A.length, (A ++ grown u :: B) ++ [⟨c.type, off, -1, 0⟩]⟩ := if_neg free
  have last : (((A ++ grown u :: B) ++ [⟨c.type, off, -1, 0⟩] : List JsmnTok).length : Int) - 1 =
      (A ++ grown u :: B).length := by
    simp only [List.length_append, List.length_singleton]
    omega
  simp only [takePiece, openContainer, countMember_at_holder, made, ← last]
  rfl

end

section
variable {before closed : List JsmnTok} {t : JsmnTok}

theorem take_comma (numTokens off : Nat) {super : Nat} (opened : t.isOpen = true) (container : t.isContainer = true)
    (quiet : ∀ u ∈ closed, u.isOpen = false)
    (rests : super = before.length ∨ ∃ u, (before ++ t :: closed)[super]? = some u ∧
      u.isContainer = false) :
    takePiece numTokens ⟨off, super, before ++ t :: closed⟩ (.mark (chr ',')) =
      .ok ⟨off + 1, before.length, before ++ t :: closed⟩ := by
  have present : (super : Int) ≠ -1 := by omega
  have ended : endMember ⟨off, super, before ++ t :: closed⟩ =
      ⟨off, before.length, before ++ t :: closed⟩ := by
    rcases rests with rfl | ⟨u, entry, scalar⟩
    · simp [endMember, JsmnParser.tok, container]
    · have entry' : (before ++ t :: closed).getD super ⟨.undefined, -1, -1, 0⟩ = u := by
        rw [List.getD_eq_getElem?_getD, entry]
        rfl
      have found : lastBelow (fun t => t.isContainer && t.isOpen) (before ++ t :: closed)
          (before ++ t :: closed).length = some before.length := by
        apply lastBelow_split
        · simp [container, opened]
        · intro x member
          simp [quiet x member]
      simp only [endMember, JsmnParser.tok, Int.toNat_natCast, entry', scalar, present, ne_eq,
        not_false_eq_true, and_self, if_true, JsmnParser.toknext, found]
  have comma : markSuper (chr ',') ⟨off, super, before ++ t :: closed⟩ =
      endMember ⟨off, super, before ++ t :: closed⟩ := rfl
  rw [takePiece, comma, ended]
  rfl

end

theorem takes_blank (numTokens : Nat) (w : Blank) (pieces : List Piece) : ∀ parser : JsmnParser,
    takePieces numTokens parser (blankPieces w ++ pieces) =
      takePieces numTokens (JsmnParser.advance w.text.length parser) pieces := by
  obtain ⟨bytes, blank⟩ := w
  unfold blankPieces
  simp only
  induction bytes with
  | nil => intro parser; rfl
  | cons c bytes ih =>
    intro parser
    have idle : markSuper c parser = parser := by
      rcases blank_kinds (blank c (by simp)) with rfl | rfl | rfl | rfl <;> rfl
    have rest := ih (fun x member => blank x (by simp [member])) (JsmnParser.advance 1 parser)
    rw [List.map_cons, List.cons_append, takePieces_cons, takePiece, idle]
    refine rest.trans ?_
    simp only [JsmnParser.advance, List.length_cons]
    congr 2
    omega

theorem width_append (a b : List Piece) : width (a ++ b) = width a + width b := by
  rw [width, textOf_append, List.length_append]
  rfl

theorem width_cons (piece : Piece) (pieces : List Piece) :
    width (piece :: pieces) = piece.bytes.length + width pieces := by
  rw [width, textOf, List.flatMap_cons, List.length_append]
  rfl

@[simp] theorem width_blank (w : Blank) : width (blankPieces w) = w.text.length := by
  rw [width, textOf_blank]

theorem leaf_closed (off : Nat) (value : Leaf) : (value.token off).isOpen = false := by
  cases value <;> exact ended_closed (Int.natCast_nonneg _)

theorem head_closed {b : Bracket} (off : Nat) (head : Head b) :
    ∀ u ∈ head.tokens off, u.isOpen = false := by
  intro u member
  cases head with
  | item before => cases member
  | member before key formed afterKey beforeValue =>
    rw [List.mem_singleton.mp member]
    exact ended_closed (Int.natCast_nonneg _)

theorem elements_closed {b : Bracket} (e : Elements b) : ∀ (off : Nat),
    ∀ u ∈ e.tokens off, u.isOpen = false := by
  induction e with
  | nil => intro off u member; cases member
  | leaf head value after rest ih =>
    intro off u member
    simp only [Elements.tokens, List.mem_append, List.mem_cons] at member
    rcases member with named | rfl | later
    · exact head_closed off head u named
    · exact leaf_closed _ value
    · exact ih _ u later
  | container head inner space after rest inner_ih ih =>
    intro off u member
    simp only [Elements.tokens, List.mem_append, List.mem_cons] at member
    rcases member with named | rfl | inside | later
    · exact head_closed off head u named
    · exact ended_closed (Int.natCast_nonneg _)
    · exact inner_ih _ u inside
    · exact ih _ u later

/-- What the parser does with the elements of an open container `t`, from any place in it. -/
def Reads (numTokens : Nat) {b : Bracket} (e : Elements b) (before : List JsmnTok) (off : Nat)
    (t : JsmnTok) (closed : List JsmnTok) : Prop :=
  ∃ last, takePieces numTokens ⟨off, before.length, before ++ t :: closed⟩ e.pieces =
    .ok ⟨off + width e.pieces, last,
      before ++ { t with size := t.size + e.count } :: (closed ++ e.tokens off)⟩

theorem takes_head {numTokens : Nat} {b : Bracket} (head : Head b) (before : List JsmnTok)
    (off : Nat) (t : JsmnTok) (closed : List JsmnTok)
    (room : before.length + 1 + closed.length + (head.tokens off).length ≤ numTokens) :
    ∃ A u B, takePieces numTokens ⟨off, before.length, before ++ t :: closed⟩ head.pieces =
        .ok ⟨off + width head.pieces, A.length, A ++ u :: B⟩ ∧
      A ++ grown u :: B = before ++ grown t :: (closed ++ head.tokens off) ∧
      (A.length = before.length ∨ u.isContainer = false) := by
  cases head with
  | item blank =>
    refine ⟨before, t, closed, ?_, by simp [Head.tokens], Or.inl rfl⟩
    have moved := takes_blank numTokens blank [] ⟨off, before.length, before ++ t :: closed⟩
    rw [List.append_nil] at moved
    rw [Head.pieces, moved, width_blank]
    rfl
  | member blank key formed afterKey beforeValue =>
    let name : JsmnTok := ⟨.string, (off + blank.text.length + 1 : Nat),
      (off + blank.text.length + 1 + key.length : Nat), 0⟩
    refine ⟨before ++ grown t :: closed, name, [], ?_, ?_, Or.inr rfl⟩
    · have free : before.length + closed.length + 1 < numTokens := by
        simp only [Head.tokens, List.length_singleton] at room
        omega
      have whole : before ++ grown t :: (closed ++ [name]) =
          (before ++ grown t :: closed) ++ name :: [] := by simp
      have size : ((before ++ grown t :: (closed ++ [name])).length : Int) - 1 =
          (before ++ grown t :: closed).length := by
        simp only [List.length_append, List.length_cons, List.length_nil]
        omega
      have named : takePiece numTokens (JsmnParser.advance blank.text.length
          ⟨off, before.length, before ++ t :: closed⟩) (.string key) =
          .ok ⟨off + blank.text.length + (key.length + 2), before.length,
            before ++ grown t :: (closed ++ [name])⟩ := by
        simp only [JsmnParser.advance, takePiece, store_counted free]
        rfl
      have colon : takePiece numTokens (JsmnParser.advance afterKey.text.length
          ⟨off + blank.text.length + (key.length + 2), before.length,
            before ++ grown t :: (closed ++ [name])⟩) (.mark (chr ':')) =
          .ok ⟨off + blank.text.length + (key.length + 2) + afterKey.text.length + 1,
            (before ++ grown t :: closed).length,
            (before ++ grown t :: closed) ++ name :: []⟩ := by
        rw [← size, ← whole]
        rfl
      have rest := takes_blank numTokens beforeValue [] ⟨off + blank.text.length +
        (key.length + 2) + afterKey.text.length + 1, (before ++ grown t :: closed).length,
        (before ++ grown t :: closed) ++ name :: []⟩
      rw [List.append_nil] at rest
      rw [Head.pieces, takes_blank, takePieces_cons, named, Except.bind, takes_blank,
        takePieces_cons, colon, Except.bind, rest, width_append, width_blank, width_cons,
        width_append, width_blank, width_cons, width_blank]
      simp only [JsmnParser.advance, takePieces_nil, Piece.bytes, List.length_cons,
        List.length_append, List.length_nil]
      congr 2
      omega
    · simp [Head.tokens, grown, name]

def Between (before : List JsmnTok) (t : JsmnTok) (closed : List JsmnTok) (super : Nat) : Prop :=
  super = before.length ∨ ∃ u, (before ++ t :: closed)[super]? = some u ∧ u.isContainer = false

theorem takes_listed {numTokens : Nat} {before : List JsmnTok} {b : Bracket} {e : Elements b}
    {t : JsmnTok} {closed : List JsmnTok} (opened : t.isOpen = true) (container : t.isContainer = true)
    (quiet : ∀ u ∈ closed, u.isOpen = false) {super off : Nat}
    (between : Between before t closed super)
    (reads : Reads numTokens e before (off + 1) t closed) :
    ∃ last, takePieces numTokens ⟨off, super, before ++ t :: closed⟩ e.listed =
      .ok ⟨off + width e.listed, last,
        before ++ { t with size := t.size + e.count } :: (closed ++ e.tokens (off + 1))⟩ := by
  obtain ⟨last, taken⟩ := reads
  have comma := take_comma numTokens off opened container quiet between
  cases e with
  | nil =>
    refine ⟨super, ?_⟩
    simp [Elements.listed, Elements.count, Elements.tokens, width, textOf]
  | leaf head value after rest =>
    refine ⟨last, ?_⟩
    have listed : (Elements.leaf head value after rest).listed =
      .mark (chr ',') :: (Elements.leaf head value after rest).pieces := rfl
    rw [listed, takePieces_cons, comma, width_cons, Piece.bytes, List.length_singleton,
      ← Nat.add_assoc]
    exact taken
  | container head inner space after rest =>
    refine ⟨last, ?_⟩
    have listed : (Elements.container head inner space after rest).listed =
      .mark (chr ',') :: (Elements.container head inner space after rest).pieces := rfl
    rw [listed, takePieces_cons, comma, width_cons, Piece.bytes, List.length_singleton,
      ← Nat.add_assoc]
    exact taken

theorem width_container {c : Bracket} (inner : Elements c) (space : Blank) :
    width (Root.container inner space).pieces =
      width inner.pieces + space.text.length + 2 := by
  rw [Root.pieces, width_cons, width_append, width_append, width_blank, width_cons]
  simp only [Piece.bytes, List.length_singleton, width, textOf, List.flatMap_nil, List.length_nil]
  omega

theorem takes_inside {numTokens start : Nat} {c : Bracket} (inner : Elements c) (space : Blank)
    (outer : List JsmnTok) (pieces : List Piece)
    (reads : Reads numTokens inner outer (start + 1) ⟨c.type, start, -1, 0⟩ []) :
    takePieces numTokens ⟨start + 1, outer.length, outer ++ [⟨c.type, start, -1, 0⟩]⟩
        (inner.pieces ++ (blankPieces space ++ (.closes c :: pieces))) =
      takePieces numTokens ⟨start + width (Root.container inner space).pieces, enclosing outer,
        outer ++ containerToken start inner space :: inner.tokens (start + 1)⟩ pieces := by
  obtain ⟨last, filled⟩ := reads
  have fresh : JsmnTok.isOpen ⟨c.type, start, -1, 0 + (inner.count : Int)⟩ = true := by
    have placed : (start : Int) ≠ -1 := by omega
    simp [JsmnTok.isOpen, placed]
  let stop := start + 1 + width inner.pieces + space.text.length
  have closes := take_close numTokens stop last outer fresh (c := c) rfl
    (elements_closed inner (start + 1))
  have ended : stop + 1 = start + width (Root.container inner space).pieces := by
    rw [width_container]
    omega
  have whole : (⟨c.type, start, (stop : Int) + 1, 0 + (inner.count : Int)⟩ : JsmnTok) =
      containerToken start inner space := by
    rw [containerToken, ← ended, Int.zero_add]
    rfl
  rw [whole] at closes
  rw [takePieces_append, filled, Except.bind, takes_blank, takePieces_cons]
  rw [← ended]
  exact congrArg (fun result => Except.bind result fun next => takePieces numTokens next pieces)
    closes

theorem reads_elements {numTokens : Nat} {b : Bracket} (e : Elements b) :
    ∀ (before : List JsmnTok) {off : Nat} (t : JsmnTok) (closed : List JsmnTok),
    t.isOpen = true → t.isContainer = true → (∀ u ∈ closed, u.isOpen = false) →
    before.length + 1 + closed.length + (e.tokens off).length ≤ numTokens →
    Reads numTokens e before off t closed := by
  induction e with
  | nil =>
    intro before off t closed _ _ _ _
    refine ⟨before.length, ?_⟩
    simp [Elements.pieces, Elements.listed, Elements.count, Elements.tokens, width, textOf]
  | leaf head value after rest ih =>
    intro before off t closed opened container quiet room
    simp only [Elements.tokens, List.length_append, List.length_cons] at room
    have headRoom : before.length + 1 + closed.length + (head.tokens off).length ≤ numTokens := by
      omega
    obtain ⟨A, u, B, headed, held, place⟩ := takes_head head before off t closed headRoom
    have size := congrArg List.length held
    simp only [List.length_append, List.length_cons] at size
    let start := off + width head.pieces
    have valueRoom : A.length + B.length + 1 < numTokens := by omega
    have valued := take_leaf start u value valueRoom
    let inside := (closed ++ head.tokens off) ++ [value.token start]
    have stored : A ++ grown u :: (B ++ [value.token start]) = before ++ grown t :: inside := by
      have longer := congrArg (· ++ [value.token start]) held
      simpa [inside] using longer
    have shut : ∀ x ∈ inside, x.isOpen = false := by
      intro x member
      simp only [inside, List.mem_append, List.mem_singleton] at member
      rcases member with (old | named) | rfl
      · exact quiet x old
      · exact head_closed off head x named
      · exact leaf_closed _ value
    have between : Between before (grown t) inside A.length := by
      rcases place with same | scalar
      · exact Or.inl same
      · refine Or.inr ⟨grown u, ?_, scalar⟩
        rw [← stored, List.getElem?_append_right (Nat.le_refl _), Nat.sub_self]
        rfl
    have fits : before.length + 1 + inside.length +
        (rest.tokens (start + value.piece.bytes.length + after.text.length + 1)).length ≤
          numTokens := by
      simp only [start, inside, List.length_append, List.length_singleton]
      omega
    obtain ⟨last, taken⟩ := takes_listed (t := grown t) opened container shut between
      (ih before (grown t) inside opened container shut fits)
    refine ⟨last, ?_⟩
    have written : (Elements.leaf head value after rest).pieces = head.pieces ++
        (value.piece :: (blankPieces after ++ rest.listed)) := rfl
    rw [written, takePieces_append, headed, Except.bind, takePieces_cons, valued, Except.bind,
      takes_blank, stored]
    refine taken.trans ?_
    simp only [width_append, width_cons, width_blank, grown, Elements.count, Elements.tokens]
    congr 2
    · omega
    · simp only [inside, List.append_assoc, List.singleton_append]
      congr 3
      omega
  | @container b c head inner space after rest inner_ih ih =>
    intro before off t closed opened container quiet room
    simp only [Elements.tokens, List.length_append, List.length_cons] at room
    have headRoom : before.length + 1 + closed.length + (head.tokens off).length ≤ numTokens := by
      omega
    obtain ⟨A, u, B, headed, held, place⟩ := takes_head head before off t closed headRoom
    have size := congrArg List.length held
    simp only [List.length_append, List.length_cons] at size
    let start := off + width head.pieces
    have openRoom : A.length + B.length + 1 < numTokens := by omega
    have opens := take_open start u c openRoom
    let outer := before ++ grown t :: (closed ++ head.tokens off)
    rw [held] at opens
    have around : enclosing outer = before.length := by
      rw [enclosing, lastBelow_split before (t := grown t) opened]
      intro x member
      rcases List.mem_append.mp member with old | named
      · exact quiet x old
      · exact head_closed off head x named
    have fresh : JsmnTok.isOpen ⟨c.type, start, -1, 0⟩ = true := by
      have placed : (start : Int) ≠ -1 := by omega
      simp [JsmnTok.isOpen, placed]
    have box : JsmnTok.isContainer ⟨c.type, start, -1, 0⟩ = true := by
      cases c <;> rfl
    have innerFits : outer.length + 1 + ([] : List JsmnTok).length +
        (inner.tokens (start + 1)).length ≤ numTokens := by
      simp only [start, outer, List.length_append, List.length_cons, List.length_nil]
      omega
    have filled := takes_inside inner space outer (blankPieces after ++ rest.listed)
      (inner_ih outer _ [] fresh box (by simp) innerFits)
    let inside := (closed ++ head.tokens off) ++
      (containerToken start inner space :: inner.tokens (start + 1))
    have stored : outer ++ containerToken start inner space :: inner.tokens (start + 1) =
        before ++ grown t :: inside := by simp [outer, inside]
    have shut : ∀ x ∈ inside, x.isOpen = false := by
      intro x member
      simp only [inside, List.mem_append, List.mem_cons] at member
      rcases member with (old | named) | rfl | within
      · exact quiet x old
      · exact head_closed off head x named
      · exact ended_closed (Int.natCast_nonneg _)
      · exact elements_closed inner _ x within
    have fits : before.length + 1 + inside.length + (rest.tokens (start +
        width (Root.container inner space).pieces + after.text.length + 1)).length ≤ numTokens := by
      simp only [start, inside, List.length_append, List.length_cons]
      omega
    obtain ⟨last, taken⟩ := takes_listed (t := grown t) opened container shut (Or.inl rfl)
      (ih before (grown t) inside opened container shut fits)
    refine ⟨last, ?_⟩
    have written : (Elements.container head inner space after rest).pieces = head.pieces ++
        (.opens c :: (inner.pieces ++ (blankPieces space ++
          (.closes c :: (blankPieces after ++ rest.listed))))) := rfl
    rw [written, takePieces_append, headed, Except.bind, takePieces_cons, opens, Except.bind]
    refine (filled.trans ?_).trans (taken.trans ?_)
    · rw [takes_blank, around, stored]
      rfl
    · have wide := width_container inner space
      simp only [width_append, width_cons, width_blank, Piece.bytes, List.length_singleton, grown,
        Elements.count, Elements.tokens]
      congr 2
      · omega
      · simp only [inside, List.append_assoc, List.cons_append]
        congr 3
        omega

theorem root_closed (off : Nat) (root : Root) : ∀ u ∈ root.tokens off, u.isOpen = false := by
  intro u member
  cases root with
  | leaf value =>
    rw [List.mem_singleton.mp member]
    exact leaf_closed off value
  | container inner space =>
    rcases List.mem_cons.mp member with rfl | inside
    · exact ended_closed (Int.natCast_nonneg _)
    · exact elements_closed inner _ u inside

theorem alloc_first {numTokens : Nat} (room : 0 < numTokens) (off : Nat) (t : JsmnTok) :
    jsmnAllocToken ⟨off, -1, []⟩ numTokens t = .ok ⟨off, -1, [t]⟩ :=
  if_neg (Nat.not_le.mpr room)

theorem take_only {numTokens : Nat} (room : 0 < numTokens) (off : Nat) (value : Leaf) :
    takePiece numTokens ⟨off, -1, []⟩ value.piece =
      .ok ⟨off + value.piece.bytes.length, -1, [value.token off]⟩ := by
  cases value with
  | string body formed =>
    simp only [Leaf.piece, takePiece, storeToken, alloc_first room, Except.map, countMember,
      ne_eq, not_true_eq_false, if_false, JsmnParser.advance, Piece.bytes, List.length_cons,
      List.length_append, List.length_nil]
    rfl
  | bare text formed =>
    simp only [Leaf.piece, takePiece, storeToken, alloc_first room]
    rfl

theorem takes_root (root : Root) {numTokens off : Nat} (pieces : List Piece)
    (room : (root.tokens off).length ≤ numTokens) :
    takePieces numTokens ⟨off, -1, []⟩ (root.pieces ++ pieces) =
      takePieces numTokens ⟨off + width root.pieces, -1, root.tokens off⟩ pieces := by
  cases root with
  | leaf value =>
    have alone : width (Root.leaf value).pieces = value.piece.bytes.length := by
      rw [Root.pieces, width_cons]
      rfl
    rw [alone, Root.pieces, List.singleton_append, takePieces_cons, take_only room, Except.bind]
    rfl
  | @container c inner space =>
    simp only [Root.tokens, List.length_cons] at room
    have opens : takePiece numTokens ⟨off, -1, []⟩ (.opens c) =
        .ok ⟨off + 1, 0, [⟨c.type, off, -1, 0⟩]⟩ := by
      have idle : countMember ⟨off, -1, []⟩ = ⟨off, -1, []⟩ := rfl
      simp only [takePiece, openContainer, idle, alloc_first (Nat.zero_lt_of_lt room)]
      rfl
    have fresh : JsmnTok.isOpen ⟨c.type, off, -1, 0⟩ = true := by
      have placed : (off : Int) ≠ -1 := by omega
      simp [JsmnTok.isOpen, placed]
    have box : JsmnTok.isContainer ⟨c.type, off, -1, 0⟩ = true := by
      cases c <;> rfl
    have fits : ([] : List JsmnTok).length + 1 + ([] : List JsmnTok).length +
        (inner.tokens (off + 1)).length ≤ numTokens := by
      simp only [List.length_nil]
      omega
    have filled := takes_inside inner space [] pieces
      (reads_elements inner [] _ [] fresh box (by simp) fits)
    have written : (Root.container inner space).pieces ++ pieces =
        .opens c :: (inner.pieces ++ (blankPieces space ++ (.closes c :: pieces))) := by
      simp [Root.pieces]
    rw [written, takePieces_cons, opens, Except.bind]
    exact filled

theorem document_lexes (d : Document) {js : Ptr} (held : js.image d.text.length = d.text) :
    Lexes (strn js d.text.length) d.pieces := by
  have whole : strn js d.text.length = d.text := by
    rw [strn_image, held]
    rw [held]
    exact lexes_clean (lexed_document d)
  rw [whole]
  exact lexed_document d

/-- jsmn_parse on a JSON document: the tokens of the document when they fit, and no other
    outcome than running out of entries when they do not. -/
theorem jsmnParse_document (d : Document) {js : Ptr} (held : js.image d.text.length = d.text)
    (numTokens : Nat) : jsmnParse js d.text.length numTokens =
      if d.tokens.length ≤ numTokens then .ok (d.tokens.length, d.tokens) else .error .nomem := by
  have lexed := document_lexes d held
  have enough : jsmnParse js d.text.length d.tokens.length =
      .ok (countTokens d.pieces, d.tokens) := by
    have tail := takes_blank d.tokens.length d.tail []
    simp only [List.append_nil] at tail
    have start : JsmnParser.advance d.lead.text.length jsmnInit = ⟨d.lead.text.length, -1, []⟩ := by
      rw [jsmnInit, JsmnParser.advance, Nat.zero_add]
    have quiet : lastBelow JsmnTok.isOpen d.tokens d.tokens.length = none :=
      lastBelow_quiet [] (root_closed d.lead.text.length d.root)
    rw [jsmnParse_takes lexed, Document.pieces, takes_blank, start,
      takes_root d.root _ (Nat.le_refl d.tokens.length), tail, takePieces_nil, Except.bind]
    have closed : ¬ (lastBelow JsmnTok.isOpen d.tokens d.tokens.length).isSome = true := by
      rw [quiet]
      decide
    exact if_neg closed
  obtain ⟨_, _, _, _, size, _⟩ := jsmnParse_sound enough
  rw [size] at enough
  exact jsmnParse_capacity enough numTokens

def trueLeaf : Leaf := .bare (lit "true") ⟨fun c member =>
    List.all_eq_true.mp (by decide : (lit "true").all isBareByte = true) c member,
  chr 't', lit "rue", rfl, by decide⟩

def nestedDocument : Document where
  lead := .none
  root := .container (c := .curly) (.container (c := .square)
    (.member .none (lit "a") (.plain (chr 'a') (by decide) (by decide) (by decide) .nil) .none .space)
    (.leaf (.item .none) trueLeaf .none (.container (c := .curly) (.item .space) .nil .none .none .nil))
    .none .none .nil) .none
  tail := .space

theorem jsmnParse_document_nested :
    jsmnParse (cstr nestedDocument.text) nestedDocument.text.length 8 =
      .ok (5, [⟨.object, 0, 17, 1⟩, ⟨.string, 2, 3, 1⟩, ⟨.array, 6, 16, 2⟩,
        ⟨.primitive, 7, 11, 0⟩, ⟨.object, 13, 15, 0⟩]) :=
  (jsmnParse_document nestedDocument (cstr_image _) 8).trans (by decide)

end RoverDocuments
