import FirefighterRover.JsmnPlaces
import FirefighterRover.JsmnStrict

/-!
JSON documents, which are the same to jsmn.h built with and without JSMN_STRICT: the super token of
a value is an array or a key without a value.
-/
namespace RoverStrictDocuments
open CMemory RoverJsmn RoverLexing RoverOutline RoverFlat RoverMachine RoverDocuments RoverPlaces RoverStrict

def KeyAt (tokens : List JsmnTok) (super : Int) : Prop :=
  ∃ (k : Nat) (key : JsmnTok), super = k ∧ tokens[k]? = some key ∧ key.type = .string

def FreshKeyAt (tokens : List JsmnTok) (super : Int) : Prop :=
  ∃ (k : Nat) (key : JsmnTok), super = k ∧ tokens[k]? = some key ∧ key.type = .string ∧
    key.size = 0

def Stands (place : Place) (parser : JsmnParser) : Prop :=
  match place.mode with
  | .ready | .shut | .done => parser.toksuper = enclosing parser.tokens
  | .named => parser.toksuper = enclosing parser.tokens ∧ place.stack ≠ [] ∧
      FreshKeyAt parser.tokens ((parser.tokens.length : Int) - 1)
  | .held => place.stack ≠ [] ∧ FreshKeyAt parser.tokens parser.toksuper
  | .given => place.stack ≠ [] ∧ KeyAt parser.tokens parser.toksuper

structure Standing (place : Place) (parser : JsmnParser) : Prop where
  boxes : ∀ t ∈ parser.tokens, t.isOpen = true → t.isContainer = true
  nested : openTypes parser.tokens = (place.stack.map Bracket.type).reverse
  stands : Stands place parser

theorem init_standing : Standing .start jsmnInit :=
  ⟨by simp [jsmnInit], rfl, rfl⟩

theorem openTypes_quiet {tokens : List JsmnTok} (quiet : ∀ t ∈ tokens, t.isOpen = false) :
    openTypes tokens = [] := by
  rw [openTypes, List.map_eq_nil_iff, List.filter_eq_nil_iff]
  intro t member
  simp [quiet t member]

theorem openTypes_split (before : List JsmnTok) (t : JsmnTok) {after : List JsmnTok}
    (quiet : ∀ u ∈ after, u.isOpen = false) :
    openTypes (before ++ t :: after) = openTypes before ++ if t.isOpen then [t.type] else [] := by
  have parts : before ++ t :: after = before ++ ([t] ++ after) := rfl
  rw [parts, openTypes_append, openTypes_append, openTypes_quiet quiet, List.append_nil]
  cases opened : t.isOpen <;> simp [openTypes, opened]

section
variable {place next : Place} {parser : JsmnParser}

theorem standing_innermost (standing : Standing place parser) :
    (place.stack = [] ∧ enclosing parser.tokens = -1) ∨ ∃ (b : Bracket) (stack : List Bracket)
      (i : Nat) (t : JsmnTok), place.stack = b :: stack ∧ enclosing parser.tokens = i ∧
        parser.tokens[i]? = some t ∧ t.type = b.type := by
  have nested := standing.nested
  rcases open_split parser.tokens with ⟨search, shut⟩ | ⟨before, t, after, found, split, opened, quiet⟩
  · left
    rw [openTypes_quiet shut] at nested
    refine ⟨by simpa using nested.symm, ?_⟩
    rw [enclosing, search]
  · right
    rw [split, openTypes_split before t quiet, if_pos opened] at nested
    cases deep : place.stack with
    | nil =>
      rw [deep] at nested
      simp at nested
    | cons b stack =>
      rw [deep, List.map_cons, List.reverse_cons] at nested
      have top := congrArg List.getLast? nested
      rw [List.getLast?_concat, List.getLast?_concat] at top
      refine ⟨b, stack, before.length, t, rfl, ?_, ?_, Option.some.inj top⟩
      · rw [enclosing, found]
      · rw [split, List.getElem?_append_right (Nat.le_refl _), Nat.sub_self]
        rfl

theorem standing_inside (standing : Standing place parser) (deep : place.stack ≠ []) :
    enclosing parser.tokens ≠ -1 := by
  rcases standing_innermost standing with ⟨none, _⟩ | ⟨_, _, i, _, _, here, _⟩
  · exact absurd none deep
  · omega

theorem standing_takes (standing : Standing place parser) (takes : place.Takes) :
    inObject parser = false ∧ behindValue parser = false := by
  have stands := standing.stands
  rcases takes with ⟨ready, outside⟩ | held
  · simp only [Stands, ready] at stands
    rcases standing_innermost standing with ⟨_, none⟩ | ⟨b, stack, i, t, deep, here, entry, type⟩
    · rw [none] at stands
      simp [inObject, behindValue, stands]
    · have array : b = .square := by
        cases b with
        | square => rfl
        | curly => simp [Place.inObject, deep] at outside
      have token := tok_at (stands.trans here) entry
      rw [array] at type
      simp [inObject, behindValue, token, type, Bracket.type]
  · simp only [Stands, held] at stands
    obtain ⟨_, k, key, here, entry, type, size⟩ := stands
    have token := tok_at here entry
    simp [inObject, behindValue, token, type, size]

end

theorem boxes_shapes {a b : List JsmnTok} (same : a.map shape = b.map shape)
    (boxes : ∀ t ∈ b, t.isOpen = true → t.isContainer = true) :
    ∀ t ∈ a, t.isOpen = true → t.isContainer = true := by
  intro t member opened
  have kept : shape t ∈ b.map shape := by
    rw [← same]
    exact List.mem_map_of_mem member
  obtain ⟨u, there, alike⟩ := List.mem_map.mp kept
  have box := boxes u there ((shape_open alike).trans opened)
  obtain ⟨type, _, _⟩ := shape_same alike
  simpa only [JsmnTok.isContainer, type] using box

theorem openTypes_shapes {a b : List JsmnTok} (same : a.map shape = b.map shape) :
    openTypes a = openTypes b := by
  have up (l : List JsmnTok) : openTypes (l.map shape) = openTypes l := by
    unfold openTypes
    rw [List.filter_map, List.map_map]
    rfl
  rw [← up a, same, up b]

theorem keyAt_shapes {a b : List JsmnTok} (same : a.map shape = b.map shape) {super : Int}
    (key : KeyAt b super) : KeyAt a super := by
  obtain ⟨k, t, here, entry, type⟩ := key
  have both := congrArg (·[k]?) same
  simp only [List.getElem?_map, entry, Option.map_some] at both
  obtain ⟨u, there, alike⟩ := Option.map_eq_some_iff.mp both
  exact ⟨k, u, here, there, (shape_same alike).1.trans type⟩

theorem countMember_entry {parser : JsmnParser} (low : -1 ≤ parser.toksuper) {i : Nat}
    (other : parser.toksuper ≠ i) : (countMember parser).tokens[i]? = parser.tokens[i]? := by
  unfold countMember
  split
  · rename_i present
    have apart : ¬ parser.toksuper.toNat = i := by omega
    simp only [List.getElem?_modify, if_neg apart]
    cases parser.tokens[i]? <;> rfl
  · rfl

theorem enclosing_range (tokens : List JsmnTok) :
    -1 ≤ enclosing tokens ∧ enclosing tokens < tokens.length := by
  rcases enclosing_cases tokens with ⟨none, _⟩ | ⟨i, t, here, entry, _⟩
  · omega
  · have inside := (List.getElem?_eq_some_iff.mp entry).1
    omega

section
variable {place next : Place} {parser after : JsmnParser} {numTokens : Nat}

theorem standing_store (standing : Standing place parser) (stores : Stores place next) {n : Nat}
    {t : JsmnTok} (closed : t.isOpen = false)
    (key : next.mode = .named → t.type = .string ∧ t.size = 0)
    (made : (storeToken numTokens t parser).map (JsmnParser.advance n) = .ok after) :
    Standing next after := by
  have shapes : after.tokens.map shape = (parser.tokens ++ [t]).map shape := by
    rw [store_shapes made, List.map_append, List.map_singleton]
  have quiet : ∀ u ∈ [t], u.isOpen = false := by simp [closed]
  have super : after.toksuper = parser.toksuper := by
    rw [takes_store made]
    unfold countMember
    split <;> rfl
  have innermost : enclosing after.tokens = enclosing parser.tokens :=
    (enclosing_shapes shapes).trans (enclosing_quiet parser.tokens quiet)
  have stack : next.stack = place.stack := by cases stores <;> rfl
  constructor
  case boxes =>
    apply boxes_shapes shapes
    intro u member opened
    rcases List.mem_append.mp member with old | new
    · exact standing.boxes u old opened
    · rw [quiet u new] at opened
      cases opened
  case nested =>
    rw [openTypes_shapes shapes, openTypes_split _ t (by simp), closed, stack, ← standing.nested]
    exact List.append_nil _
  case stands =>
    have stands := standing.stands
    cases stores with
    | key ready object =>
      simp only [Stands, ready] at stands
      have deep : place.stack ≠ [] := by
        intro none
        simp [Place.inObject, none] at object
      obtain ⟨type, size⟩ := key rfl
      obtain ⟨low, high⟩ := enclosing_range parser.tokens
      have length : after.tokens.length = parser.tokens.length + 1 := by
        have sizes := congrArg List.length shapes
        simpa using sizes
      have entry : after.tokens[parser.tokens.length]? = some t := by
        rw [takes_store made]
        have other := @countMember_entry { parser with tokens := parser.tokens ++ [t] }
          (by dsimp only; omega) parser.tokens.length (by dsimp only; omega)
        rw [List.getElem?_concat_length] at other
        exact other
      exact ⟨(super.trans stands).trans innermost.symm, deep, parser.tokens.length, t, by omega,
        entry, type, size⟩
    | element ready =>
      simp only [Stands, ready] at stands
      exact (super.trans stands).trans innermost.symm
    | value held =>
      simp only [Stands, held] at stands
      obtain ⟨deep, k, held, here, entry, type, _⟩ := stands
      refine ⟨deep, ?_⟩
      rw [super]
      apply keyAt_shapes shapes
      refine ⟨k, held, here, ?_, type⟩
      rw [List.getElem?_append_left (List.getElem?_eq_some_iff.mp entry).1]
      exact entry

theorem standing_open (standing : Standing place parser) {b : Bracket}
    (taken : takePiece numTokens parser (.opens b) = .ok after) :
    Standing ⟨.ready, b :: place.stack⟩ after := by
  have made := takes_open taken
  have opened := bracket_open b.type parser.pos
  have container := bracket_container parser.pos (by cases b <;> simp [Bracket.type] :
    b.type = .object ∨ b.type = .array)
  have counted := countMember_shapes parser
  subst made
  constructor
  case boxes =>
    intro u member isOpen
    rcases List.mem_append.mp member with old | new
    · exact boxes_shapes counted standing.boxes u old isOpen
    · rw [List.mem_singleton.mp new]
      exact container
  case nested =>
    dsimp only
    rw [openTypes_split _ _ (by simp), if_pos opened, openTypes_shapes counted, standing.nested,
      List.map_cons, List.reverse_cons]
  case stands =>
    have innermost := enclosing_open (countMember parser).tokens opened
    rw [countMember_length] at innermost
    exact innermost.symm

theorem standing_close (standing : Standing place parser) {b c : Bracket} {stack : List Bracket}
    (deep : place.stack = c :: stack)
    (taken : takePiece numTokens parser (.closes b) = .ok after) : Standing ⟨.shut, stack⟩ after := by
  obtain ⟨before, t, later, tokens, opened, _, quiet, rfl⟩ := takes_close taken
  have shut : ({ t with end_ := (parser.pos : Int) + 1 } : JsmnTok).isOpen = false :=
    ended_closed (by dsimp only; omega)
  have quieter : ∀ u ∈ { t with end_ := (parser.pos : Int) + 1 } :: later, u.isOpen = false := by
    intro u member
    rcases List.mem_cons.mp member with rfl | rest
    · exact shut
    · exact quiet u rest
  have nested := standing.nested
  rw [tokens, openTypes_split before t quiet, if_pos opened, deep, List.map_cons,
    List.reverse_cons] at nested
  constructor
  case boxes =>
    intro u member isOpen
    rcases List.mem_append.mp member with old | new
    · exact standing.boxes u (by rw [tokens]; exact List.mem_append_left _ old) isOpen
    · rw [quieter u new] at isOpen
      cases isOpen
  case nested =>
    dsimp only
    rw [openTypes_append, openTypes_quiet quieter, List.append_nil]
    exact (List.append_inj' nested rfl).1
  case stands => exact (enclosing_quiet before quieter).symm

theorem standing_colon (standing : Standing place parser) (named : place.mode = .named) :
    Standing ⟨.held, place.stack⟩ { parser with toksuper := (parser.toknext : Int) - 1 } := by
  have stands := standing.stands
  simp only [Stands, named] at stands
  exact ⟨standing.boxes, standing.nested, stands.2⟩

theorem standing_comma (standing : Standing place parser) :
    Standing ⟨.ready, place.stack⟩ (endMember parser) := by
  have back : endMember parser = { parser with toksuper := enclosing parser.tokens } := by
    have scalar (deep : place.stack ≠ []) (key : KeyAt parser.tokens parser.toksuper) :
        endMember parser = { parser with toksuper := enclosing parser.tokens } := by
      obtain ⟨k, t, here, entry, type⟩ := key
      exact endMember_scalar standing.boxes here entry (by simp [JsmnTok.isContainer, type])
        (standing_inside standing deep)
    have stands := standing.stands
    obtain ⟨mode, stack⟩ := place
    cases mode with
    | ready => exact endMember_container standing.boxes stands
    | shut => exact endMember_container standing.boxes stands
    | done => exact endMember_container standing.boxes stands
    | named => exact endMember_container standing.boxes stands.1
    | given => exact scalar stands.1 stands.2
    | held =>
      obtain ⟨deep, k, t, here, entry, type, _⟩ := stands
      exact scalar deep ⟨k, t, here, entry, type⟩
  rw [back]
  exact ⟨standing.boxes, standing.nested, rfl⟩

theorem standing_take (standing : Standing place parser) {piece : Piece} (formed : piece.Formed)
    (step : place.next piece = some next)
    (taken : takePiece numTokens parser piece = .ok after) : Standing next after := by
  cases piece with
  | mark c =>
    obtain rfl := Except.ok.inj taken
    rcases mark_kinds formed with rfl | rfl | rfl | rfl | rfl | rfl
    case inr.inr.inr.inr.inl =>
      obtain ⟨named, rfl⟩ := colon_some step
      have moved := standing_colon standing named
      exact ⟨moved.boxes, moved.nested, moved.stands⟩
    case inr.inr.inr.inr.inr =>
      obtain rfl := Option.some.inj step
      have moved := standing_comma standing
      exact ⟨moved.boxes, moved.nested, moved.stands⟩
    all_goals
      obtain rfl := Option.some.inj step
      exact ⟨standing.boxes, standing.nested, standing.stands⟩
  | opens b =>
    obtain ⟨rfl, _⟩ := value_some step
    exact standing_open standing taken
  | closes b =>
    obtain ⟨c, stack, deep, rfl⟩ := closes_some step
    exact standing_close standing deep taken
  | string body =>
    exact standing_store standing (stores_string step) (ended_closed (Int.natCast_nonneg _))
      (fun _ => ⟨rfl, rfl⟩) taken
  | bare text =>
    obtain ⟨stores, takes⟩ := stores_leaf step
    refine standing_store standing stores (ended_closed (Int.natCast_nonneg _)) ?_ taken
    intro named
    obtain ⟨rfl, _⟩ := value_some step
    exfalso
    unfold Place.behindLeaf at named
    dsimp only at named
    split at named <;> cases named

theorem primitiveEndStrict_ended {js : Ptr} {len e : Nat}
    (inside : e < len ∧ js e ≠ 0) (ends : isPrimitiveEndStrict (js e) = true) :
    ∀ {fuel pos : Nat}, len - pos ≤ fuel → primitiveEnd js len fuel pos = .ok e →
      primitiveEndStrict js len fuel pos = .ok e := by
  have plain (c : UInt8) (strict : isPrimitiveEndStrict c = true) : isPrimitiveEnd c = true := by
    simp only [isPrimitiveEndStrict, isPrimitiveEnd, decide_eq_true_eq] at strict ⊢
    exact Or.inr strict
  intro fuel
  induction fuel with
  | zero =>
    intro pos room scanned
    obtain rfl := Except.ok.inj scanned
    omega
  | succ fuel ih =>
    intro pos room scanned
    rw [primitiveEnd] at scanned
    rw [primitiveEndStrict]
    by_cases here : pos < len ∧ js pos ≠ 0
    · rw [if_pos here] at scanned ⊢
      by_cases stops : isPrimitiveEnd (js pos) = true
      · rw [if_pos stops] at scanned
        obtain rfl := Except.ok.inj scanned
        rw [if_pos ends]
      · have goes : ¬ isPrimitiveEndStrict (js pos) = true := fun strict => stops (plain _ strict)
        rw [if_neg stops] at scanned
        rw [if_neg goes]
        by_cases control : js pos < 32 ∨ js pos ≥ 127
        · rw [if_pos control] at scanned
          cases scanned
        · rw [if_neg control] at scanned ⊢
          exact ih (by omega) scanned
    · rw [if_neg here] at scanned
      obtain rfl := Except.ok.inj scanned
      exact absurd inside here

theorem ends_strict {place last : Place} {tail : List UInt8} {pieces : List Piece}
    (lexed : Lexes tail pieces) (ends : ∀ c ∈ tail.head?, isPrimitiveEnd c = true)
    (more : pieces ≠ []) (walked : walk place pieces = some last) (free : place.mode ≠ .named) :
    ∃ c rest, tail = c :: rest ∧ isPrimitiveEndStrict c = true := by
  cases lexed with
  | nil => exact absurd rfl more
  | @cons piece tail pieces formed _ _ =>
    obtain ⟨c, rest, bytes⟩ := List.exists_cons_of_ne_nil (Piece.bytes_ne_nil formed)
    have stops : isPrimitiveEnd c = true := ends c (by rw [bytes]; rfl)
    have other : c ≠ chr ':' := by
      rintro rfl
      cases piece with
      | mark c =>
        obtain rfl : c = chr ':' := (List.cons.inj bytes).1
        rw [walk] at walked
        obtain ⟨next, step, _⟩ := Option.bind_eq_some_iff.mp walked
        exact free (colon_some step).1
      | opens b => cases b <;> exact absurd (List.cons.inj bytes).1 (by decide)
      | closes b => cases b <;> exact absurd (List.cons.inj bytes).1 (by decide)
      | string body => exact absurd (List.cons.inj bytes).1 (by decide)
      | bare text =>
        have byte := formed.bytes (chr ':') (by
          have whole : text = chr ':' :: rest := bytes
          rw [whole]
          exact List.mem_cons_self)
        exact absurd byte (by decide)
    refine ⟨c, rest ++ tail, by rw [bytes, List.cons_append], ?_⟩
    simp only [isPrimitiveEnd, isPrimitiveEndStrict, decide_eq_true_eq] at stops ⊢
    exact stops.resolve_left other

def isLiteralPiece : Piece → Bool
  | .bare text => text.head?.all isPrimitiveStart
  | _ => true

def isBarePiece : Piece → Bool
  | .bare _ => true
  | _ => false

theorem charStrict_same (standing : Standing place parser) {piece : Piece}
    (step : place.next piece = some next) {js : Ptr} {len : Nat} {tail : List UInt8}
    (read : remaining js len parser.pos = piece.bytes ++ tail) (formed : piece.Formed)
    (ends : piece.Ends tail)
    (literal : isLiteralPiece piece = true) (stops : isBarePiece piece = true →
      ∃ c rest, tail = c :: rest ∧ isPrimitiveEndStrict c = true) :
    jsmnParseCharStrict parser js len numTokens = jsmnParseChar parser js len numTokens := by
  cases piece with
  | mark c =>
    obtain ⟨_, first, _⟩ := remaining_cons read
    simp only [jsmnParseCharStrict, jsmnParseChar, first]
    rcases mark_kinds formed with rfl | rfl | rfl | rfl | rfl | rfl <;> rfl
  | opens b =>
    obtain ⟨_, first, _⟩ := remaining_cons read
    obtain ⟨_, takes⟩ := value_some step
    have same (type : JsmnType) :
        openContainerStrict parser numTokens type = openContainer parser numTokens type := by
      unfold openContainerStrict
      rw [(standing_takes standing takes).1]
      cases openContainer parser numTokens type <;> rfl
    simp only [jsmnParseCharStrict, jsmnParseChar, first, same]
    cases b <;> rfl
  | closes b =>
    obtain ⟨_, first, _⟩ := remaining_cons read
    simp only [jsmnParseCharStrict, jsmnParseChar, first]
    cases b <;> rfl
  | string body =>
    obtain ⟨_, first, _⟩ := remaining_cons read
    simp only [jsmnParseCharStrict, jsmnParseChar, first]
    rfl
  | bare text =>
    obtain ⟨stop, rest, rfl, strict⟩ := stops rfl
    obtain ⟨c, more, rfl, start⟩ := BareText.starts formed
    have scanned : primitiveEnd js len (len - parser.pos) parser.pos =
        .ok (parser.pos + (c :: more).length) := by
      apply primitiveEnd_bare ends read _ formed.bytes
      have size := remaining_length_le js len parser.pos
      rw [read, List.length_append] at size
      have whole : (Piece.bare (c :: more)).bytes.length = (c :: more).length := rfl
      omega
    obtain ⟨inside, last, _⟩ := remaining_cons (remaining_append read)
    have alike : primitiveEndStrict js len (len - parser.pos) parser.pos =
        .ok (parser.pos + (c :: more).length) :=
      primitiveEndStrict_ended inside (last.symm ▸ strict) (Nat.le_refl _) scanned
    have primitive : jsmnParsePrimitiveStrict parser js len numTokens =
        jsmnParsePrimitive parser js len numTokens := by
      unfold jsmnParsePrimitiveStrict jsmnParsePrimitive
      dsimp only
      rw [scanned, alike]
    obtain ⟨_, first, _⟩ := remaining_cons read
    obtain ⟨opening, closing, quote, blank, colon, comma⟩ := bareStart_default start
    obtain ⟨_, takes⟩ := value_some step
    obtain ⟨object, second⟩ := standing_takes standing takes
    have begun : isPrimitiveStart c = true := literal
    have allowed : ¬ (inObject parser = true ∨ behindValue parser = true) := by
      simp [object, second]
    simp only [jsmnParseCharStrict, jsmnParseChar, first]
    rw [if_neg opening, if_neg closing, if_neg quote, if_neg blank, if_neg colon, if_neg comma,
      if_pos begun, if_neg allowed, if_neg opening, if_neg closing, if_neg quote, if_neg blank,
      if_neg colon, if_neg comma, primitive]

end

/-- The bare values begin as numbers, true, false and null do, and none of them ends the text. -/
structure Literal (pieces : List Piece) : Prop where
  begins : ∀ piece ∈ pieces, isLiteralPiece piece = true
  ends : pieces.getLast?.any isBarePiece = false

theorem literal_tail {piece : Piece} {pieces : List Piece} (literal : Literal (piece :: pieces)) :
    Literal pieces := by
  refine ⟨fun piece member => literal.begins piece (List.mem_cons_of_mem _ member), ?_⟩
  cases pieces with
  | nil => rfl
  | cons next pieces => simpa [List.getLast?_cons_cons] using literal.ends

theorem loopStrict_same (numTokens : Nat) {js : Ptr} {len : Nat} {text : List UInt8}
    {pieces : List Piece} (lexed : Lexes text pieces) : ∀ (fuel count : Nat) {place last : Place}
    {parser : JsmnParser}, Standing place parser → walk place pieces = some last →
    Literal pieces → remaining js len parser.pos = text →
    jsmnParseLoopStrict js len numTokens fuel parser count =
      jsmnParseLoop js len numTokens fuel parser count := by
  induction lexed with
  | nil =>
    intro fuel count place last parser _ _ _ read
    cases fuel with
    | zero => rfl
    | succ fuel =>
      have outside := remaining_nil read
      rw [jsmnParseLoop, jsmnParseLoopStrict, if_neg outside, if_neg outside]
  | @cons piece tail pieces formed ends lexed ih =>
    intro fuel count place last parser standing walked literal read
    cases fuel with
    | zero => rfl
    | succ fuel =>
      rw [jsmnParseLoop, jsmnParseLoopStrict]
      by_cases inside : parser.pos < len ∧ js parser.pos ≠ 0
      · rw [if_pos inside, if_pos inside]
        rw [walk] at walked
        obtain ⟨next, step, onwards⟩ := Option.bind_eq_some_iff.mp walked
        have stops : isBarePiece piece = true →
            ∃ c rest, tail = c :: rest ∧ isPrimitiveEndStrict c = true := by
          intro bare
          cases piece with
          | bare text =>
            have more : pieces ≠ [] := by
              rintro rfl
              have ended : true = false := literal.ends
              cases ended
            have free : next.mode ≠ .named := by
              obtain ⟨rfl, _⟩ := value_some step
              unfold Place.behindLeaf
              dsimp only
              split <;> simp
            exact ends_strict lexed ends more onwards free
          | _ => cases bare
        rw [charStrict_same standing step read formed ends
          (literal.begins piece List.mem_cons_self) stops]
        cases char : jsmnParseChar parser js len numTokens with
        | error e => rfl
        | ok result =>
          obtain ⟨taken, _⟩ := char_taken read formed ends char
          have left : remaining js len (passed result).1.pos = tail := by
            rw [takePiece_pos taken]
            exact remaining_append read
          exact ih fuel (count + result.2) (standing_take standing formed step taken) onwards
            (literal_tail literal) left
      · rw [if_neg inside, if_neg inside]

/-- JSON documents whose bare values begin as numbers, true, false and null do are the same to the
    strict build, with any number of entries, unless a bare value ends the text. -/
theorem jsmnParseStrict_document (d : Document) {js : Ptr}
    (held : js.image d.text.length = d.text) (literal : Literal d.pieces) (numTokens : Nat) :
    jsmnParseStrict js d.text.length numTokens = jsmnParse js d.text.length numTokens := by
  have lexed := document_lexes d held
  obtain ⟨last, walked⟩ := walk_document d
  have looped := loopStrict_same numTokens lexed d.text.length 0 init_standing walked literal
    (remaining_zero js d.text.length)
  unfold jsmnParseStrict jsmnParse
  rw [looped]

theorem jsmnParseStrict_document_nested :
    jsmnParseStrict (cstr nestedDocument.text) nestedDocument.text.length 8 =
      .ok (5, [⟨.object, 0, 17, 1⟩, ⟨.string, 2, 3, 1⟩, ⟨.array, 6, 16, 2⟩,
        ⟨.primitive, 7, 11, 0⟩, ⟨.object, 13, 15, 0⟩]) := by
  have literal : Literal nestedDocument.pieces := ⟨by decide, by decide⟩
  exact (jsmnParseStrict_document nestedDocument (cstr_image _) literal 8).trans (by decide)

end RoverStrictDocuments
