import FirefighterRover.JsmnLinks
import FirefighterRover.JsmnPlaces

/-!
JSON documents, on which the two builds of jsmn.h agree altogether, sizes included: a colon makes a
key of the string before it, inside an object, and a closed container is followed by a comma or by
another closing bracket.
-/
namespace RoverLinkedDocuments
open CMemory RoverJsmn RoverLexing RoverOutline RoverFlat RoverMachine RoverDocuments RoverLinks RoverPlaces FlatJson

def plainOf (tokens : List LinkTok) : List JsmnTok := tokens.map LinkTok.toJsmnTok

def inner (tokens : List LinkTok) : Int := enclosing (plainOf tokens)

def sizeless (t : LinkTok) : JsmnTok × Int := (shape t.toJsmnTok, t.parent)

theorem sizeless_same {t u : LinkTok} (same : sizeless t = sizeless u) :
    t.isOpen = u.isOpen ∧ t.isContainer = u.isContainer ∧ t.parent = u.parent := by
  simp only [sizeless, Prod.mk.injEq] at same
  obtain ⟨type, start, stop⟩ := shape_same same.1
  have link := same.2
  simp only [JsmnTok.isOpen, JsmnTok.isContainer, type, start, stop, link, and_self]

theorem sizeless_shapes {a b : List LinkTok} (same : a.map sizeless = b.map sizeless) :
    (plainOf a).map shape = (plainOf b).map shape := by
  have shapes := congrArg (List.map Prod.fst) same
  rw [List.map_map, List.map_map] at shapes
  rw [plainOf, plainOf, List.map_map, List.map_map]
  exact shapes

theorem sizeless_entry {a b : List LinkTok} (same : a.map sizeless = b.map sizeless) {i : Nat}
    {u : LinkTok} (entry : b[i]? = some u) : ∃ t, a[i]? = some t ∧ sizeless t = sizeless u := by
  have both := congrArg (·[i]?) same
  simp only [List.getElem?_map, entry, Option.map_some] at both
  exact Option.map_eq_some_iff.mp both

theorem inner_sizeless {a b : List LinkTok} (same : a.map sizeless = b.map sizeless) :
    inner a = inner b :=
  enclosing_shapes (sizeless_shapes same)

theorem inner_quiet (before : List LinkTok) {after : List LinkTok}
    (quiet : ∀ u ∈ after, u.isOpen = false) : inner (before ++ after) = inner before := by
  rw [inner, plainOf, List.map_append]
  apply enclosing_quiet
  intro t member
  obtain ⟨u, there, rfl⟩ := List.mem_map.mp member
  exact quiet u there

theorem inner_open (before : List LinkTok) {t : LinkTok} (opened : t.isOpen = true) :
    inner (before ++ [t]) = before.length := by
  rw [inner, plainOf, List.map_append, List.map_singleton, enclosing_open _ opened,
    List.length_map]

/-- `super` is a value in the innermost container. -/
def Within (tokens : List LinkTok) (super : Int) : Prop :=
  ∃ (k : Nat) (t : LinkTok), super = k ∧ tokens[k]? = some t ∧ t.isContainer = false ∧
    t.parent = inner tokens

def Direct (tokens : List LinkTok) (super : Int) : Prop :=
  super = inner tokens ∨ Within tokens super

theorem within_sizeless {a b : List LinkTok} (same : a.map sizeless = b.map sizeless) {super : Int}
    (within : Within b super) : Within a super := by
  obtain ⟨k, u, place, entry, scalar, link⟩ := within
  obtain ⟨t, there, alike⟩ := sizeless_entry same entry
  obtain ⟨_, container, parent⟩ := sizeless_same alike
  exact ⟨k, t, place, there, container.trans scalar,
    (parent.trans link).trans (inner_sizeless same).symm⟩

theorem direct_sizeless {a b : List LinkTok} (same : a.map sizeless = b.map sizeless) {super : Int}
    (direct : Direct b super) : Direct a super := by
  rcases direct with here | within
  · exact Or.inl (here.trans (inner_sizeless same).symm)
  · exact Or.inr (within_sizeless same within)

theorem within_quiet {before after : List LinkTok} (quiet : ∀ u ∈ after, u.isOpen = false)
    {super : Int} (within : Within before super) : Within (before ++ after) super := by
  obtain ⟨k, t, place, entry, scalar, link⟩ := within
  have inside := (List.getElem?_eq_some_iff.mp entry).1
  refine ⟨k, t, place, ?_, scalar, link.trans (inner_quiet before quiet).symm⟩
  rw [List.getElem?_append_left inside]
  exact entry

theorem direct_quiet {before after : List LinkTok} (quiet : ∀ u ∈ after, u.isOpen = false)
    {super : Int} (direct : Direct before super) : Direct (before ++ after) super := by
  rcases direct with here | within
  · exact Or.inl (here.trans (inner_quiet before quiet).symm)
  · exact Or.inr (within_quiet quiet within)

/-- Every open container was opened in the container around it, or by a value in that one. -/
def Nested (tokens : List LinkTok) : Prop :=
  ∀ (i : Nat) t, tokens[i]? = some t → t.isOpen = true → Direct (tokens.take i) t.parent

theorem nested_sizeless {a b : List LinkTok} (same : a.map sizeless = b.map sizeless)
    (nested : Nested b) : Nested a := by
  intro i t entry opened
  obtain ⟨u, there, alike⟩ := sizeless_entry same.symm entry
  obtain ⟨open_, _, link⟩ := sizeless_same alike
  have prefixes : (a.take i).map sizeless = (b.take i).map sizeless := by
    rw [List.map_take, List.map_take, same]
  have before := nested i u there (open_.trans opened)
  rw [link] at before
  exact direct_sizeless prefixes before

theorem nested_append {tokens : List LinkTok} (nested : Nested tokens) {t : LinkTok}
    (direct : t.isOpen = true → Direct tokens t.parent) : Nested (tokens ++ [t]) := by
  intro i u entry opened
  rcases Nat.lt_or_ge i tokens.length with old | new
  · rw [List.getElem?_append_left old] at entry
    rw [List.take_append_of_le_length (Nat.le_of_lt old)]
    exact nested i u entry opened
  · have inside := (List.getElem?_eq_some_iff.mp entry).1
    rw [List.length_append, List.length_singleton] at inside
    obtain rfl : i = tokens.length := by omega
    rw [List.getElem?_concat_length] at entry
    obtain rfl := Option.some.inj entry
    rw [List.take_left]
    exact direct opened

theorem closeAt_split (before : List LinkTok) (t : LinkTok) (after : List LinkTok) (stop : Int) :
    closeAt before.length stop (before ++ t :: after) =
      before ++ { t with end_ := stop } :: after := by
  unfold closeAt
  induction before with
  | nil => exact List.modify_zero_cons _ t after
  | cons u before ih =>
    rw [List.cons_append, List.length_cons, List.modify_succ_cons, ih]
    rfl

theorem nested_close {before : List LinkTok} {t : LinkTok} {after : List LinkTok} {stop : Int}
    (ended : 0 ≤ stop) (quiet : ∀ u ∈ after, u.isOpen = false)
    (nested : Nested (before ++ t :: after)) :
    Nested (before ++ { t with end_ := stop } :: after) := by
  intro i u entry opened
  rcases Nat.lt_or_ge i before.length with old | new
  · rw [List.getElem?_append_left old] at entry
    rw [List.take_append_of_le_length (Nat.le_of_lt old)]
    have direct := nested i u (by rw [List.getElem?_append_left old]; exact entry) opened
    rw [List.take_append_of_le_length (Nat.le_of_lt old)] at direct
    exact direct
  · rw [List.getElem?_append_right new] at entry
    rcases List.mem_cons.mp (List.mem_of_getElem? entry) with rfl | later
    · rw [ended_closed ended] at opened
      cases opened
    · rw [quiet u later] at opened
      cases opened

theorem grow_sizeless (super : Int) (tokens : List LinkTok) :
    (grow super tokens).map sizeless = tokens.map sizeless := by
  unfold grow
  split
  · exact modify_map (f := fun t : LinkTok => { t with size := t.size + 1 }) (g := sizeless)
      (fun _ => rfl) tokens _
  · rfl

theorem plainOf_grow (pos : Nat) (super : Int) (tokens : List LinkTok) :
    (countMember ⟨pos, super, plainOf tokens⟩).tokens = plainOf (grow super tokens) := by
  unfold countMember grow
  by_cases present : super ≠ -1
  · rw [if_pos present, if_pos present]
    apply List.ext_getElem?
    intro i
    simp only [plainOf, List.getElem?_modify, List.getElem?_map]
    cases tokens[i]? with
    | none => rfl
    | some t =>
      by_cases here : super.toNat = i
      · simp [here]
      · simp [here]
  · rw [if_neg present, if_neg present]

def openCount (tokens : List LinkTok) : Nat := (plainOf tokens).countP JsmnTok.isOpen

theorem openCount_sizeless {a b : List LinkTok} (same : a.map sizeless = b.map sizeless) :
    openCount a = openCount b := by
  have opens : (plainOf a).map JsmnTok.isOpen = (plainOf b).map JsmnTok.isOpen := by
    apply List.ext_getElem?
    intro i
    have entry := congrArg (·[i]?) same
    simp only [List.getElem?_map] at entry
    simp only [plainOf, List.getElem?_map]
    cases here : b[i]? with
    | none =>
      rw [here] at entry
      rw [Option.map_eq_none_iff.mp entry]
    | some u =>
      rw [here] at entry
      obtain ⟨t, there, alike⟩ := Option.map_eq_some_iff.mp entry
      rw [there]
      exact congrArg some (sizeless_same alike).1
  have count := congrArg (List.countP id) opens
  rw [List.countP_map, List.countP_map] at count
  exact count

theorem openCount_append (tokens : List LinkTok) (t : LinkTok) :
    openCount (tokens ++ [t]) = openCount tokens + if t.isOpen then 1 else 0 := by
  rw [openCount, plainOf, List.map_append, List.countP_append, List.map_singleton,
    List.countP_singleton]
  rfl

theorem openCount_split (before : List LinkTok) (t : LinkTok) {after : List LinkTok}
    (quiet : ∀ u ∈ after, u.isOpen = false) :
    openCount (before ++ t :: after) = openCount before + if t.isOpen then 1 else 0 := by
  have none : (plainOf after).countP JsmnTok.isOpen = 0 := by
    apply List.countP_eq_zero.mpr
    intro u member
    obtain ⟨v, there, rfl⟩ := List.mem_map.mp member
    simp [quiet v there]
  rw [openCount, plainOf, List.map_append, List.countP_append, List.map_cons, List.countP_cons]
  rw [plainOf] at none
  rw [none, Nat.zero_add]
  rfl

theorem inner_cases (tokens : List LinkTok) : (inner tokens = -1 ∧ openCount tokens = 0) ∨
    ∃ (i : Nat) (t : LinkTok), inner tokens = i ∧ tokens[i]? = some t ∧ t.isOpen = true ∧
      0 < openCount tokens := by
  rcases enclosing_cases (plainOf tokens) with ⟨none, shut⟩ | ⟨i, t, here, entry, opened⟩
  · exact Or.inl ⟨none, List.countP_eq_zero.mpr fun t member => by simp [shut t member]⟩
  · rw [plainOf, List.getElem?_map] at entry
    obtain ⟨u, there, rfl⟩ := Option.map_eq_some_iff.mp entry
    refine Or.inr ⟨i, u, here, there, opened, ?_⟩
    exact List.countP_pos_iff.mpr
      ⟨u.toJsmnTok, List.mem_map_of_mem (List.mem_of_getElem? there), opened⟩

theorem tok_entry {L : LinkParser} {super : Int} {i : Nat} {t : LinkTok} (here : super = i)
    (entry : L.tokens[i]? = some t) : L.tok super = t := by
  rw [LinkParser.tok, here, Int.toNat_natCast, List.getD_eq_getElem?_getD, entry]
  rfl

theorem last_open {tokens : List LinkTok} (some : 0 < openCount tokens) : ∃ before t after,
    tokens = before ++ t :: after ∧ t.isOpen = true ∧ ∀ u ∈ after, u.isOpen = false := by
  rcases open_split (plainOf tokens) with ⟨_, shut⟩ | ⟨before, t, after, _, split, opened, quiet⟩
  · have none : openCount tokens = 0 := List.countP_eq_zero.mpr fun t member => by
      simp [shut t member]
    omega
  · obtain ⟨left, rest, rfl, _, mapped⟩ := List.map_eq_append_iff.mp split
    obtain ⟨u, right, rfl, rfl, rfl⟩ := List.map_eq_cons_iff.mp mapped
    exact ⟨left, u, right, rfl, opened, fun v member => quiet v.toJsmnTok (List.mem_map_of_mem member)⟩

def Stands (mode : Mode) (tokens : List LinkTok) (plain linked : Int) : Prop :=
  match mode with
  | .ready | .done => plain = inner tokens ∧ linked = inner tokens
  | .named => plain = inner tokens ∧ linked = inner tokens ∧ inner tokens ≠ -1 ∧
      Within tokens ((tokens.length : Int) - 1)
  | .held | .given => plain = linked ∧ inner tokens ≠ -1 ∧ Within tokens linked
  | .shut => plain = inner tokens ∧ Direct tokens linked

/-- The two parsers have the same tokens, at a place of a document. -/
structure Tied (place : Place) (P : JsmnParser) (L : LinkParser) : Prop where
  pos : P.pos = L.pos
  tokens : P.tokens = plainOf L.tokens
  linked : Linked L.toksuper L.tokens
  nested : Nested L.tokens
  depth : openCount L.tokens = place.stack.length
  stands : Stands place.mode L.tokens P.toksuper L.toksuper

theorem init_tied : Tied .start jsmnInit jsmnInitLinked :=
  ⟨rfl, rfl, init_linked, by simp [Nested, jsmnInitLinked], rfl, rfl, rfl⟩

theorem stands_level {mode : Mode} {tokens : List LinkTok} {plain linked : Int}
    (stands : Stands mode tokens plain linked) (free : mode = .ready ∨ mode = .held) :
    plain = linked := by
  rcases free with rfl | rfl
  · exact stands.1.trans stands.2.symm
  · exact stands.1

theorem stands_direct {mode : Mode} {tokens : List LinkTok} {plain linked : Int}
    (stands : Stands mode tokens plain linked) : Direct tokens linked := by
  cases mode with
  | ready => exact Or.inl stands.2
  | named => exact Or.inl stands.2.1
  | held => exact Or.inr stands.2.2
  | given => exact Or.inr stands.2.2
  | shut => exact stands.2
  | done => exact Or.inl stands.2

section
variable {place next : Place} {P p : JsmnParser} {L q : LinkParser}

theorem tied_length (tied : Tied place P L) : P.tokens.length = L.tokens.length := by
  rw [tied.tokens, plainOf, List.length_map]

theorem tied_inside (tied : Tied place P L) (deep : place.stack ≠ []) : inner L.tokens ≠ -1 := by
  have depth := tied.depth
  have some := List.length_pos_iff.mpr deep
  rcases inner_cases L.tokens with ⟨_, none⟩ | ⟨i, _, here, _⟩ <;> omega

theorem value_tied (tied : Tied place P L) (stores : Stores place next)
    (same : SameToken P L p q) : Tied next (countMember p) (countMemberLinked q) := by
  obtain ⟨pos, token, closed, scalar, empty, rfl, rfl⟩ := same.stored
  have level : P.toksuper = L.toksuper := by
    apply stands_level tied.stands
    cases stores with
    | key ready => exact Or.inl ready
    | element ready => exact Or.inl ready
    | value held => exact Or.inr held
  have shapes := grow_sizeless L.toksuper (L.tokens ++ [⟨token, L.toksuper⟩])
  have quiet : ∀ u ∈ [(⟨token, L.toksuper⟩ : LinkTok)], u.isOpen = false := by simp [closed]
  have outer : inner (grow L.toksuper (L.tokens ++ [⟨token, L.toksuper⟩])) = inner L.tokens :=
    (inner_sizeless shapes).trans (inner_quiet L.tokens quiet)
  have stored := stored_grown tied.linked.holder ⟨token, L.toksuper⟩
  have stack : next.stack = place.stack := by cases stores <;> rfl
  constructor
  case pos => exact countMember_pos _
  case tokens =>
    rw [tied.tokens, level]
    have grown := plainOf_grow pos L.toksuper (L.tokens ++ [⟨token, L.toksuper⟩])
    rw [plainOf, List.map_append] at grown
    exact grown
  case linked =>
    exact linked_stored tied.linked stored rfl empty (fun opened => absurd opened (by simp [closed]))
      (by simp [closed, countMemberLinked])
  case nested =>
    exact nested_sizeless shapes (nested_append tied.nested fun opened => by
      rw [closed] at opened
      cases opened)
  case depth =>
    rw [countMemberLinked, openCount_sizeless shapes, openCount_append, closed, tied.depth, stack]
    rfl
  case stands =>
    have superP : (countMember ⟨pos, P.toksuper, P.tokens ++ [token]⟩).toksuper = P.toksuper := by
      unfold countMember
      split <;> rfl
    rw [superP]
    have stands := tied.stands
    cases stores with
    | key ready object =>
      rw [ready] at stands
      have deep : place.stack ≠ [] := by
        intro none
        simp [Place.inObject, none] at object
      refine ⟨stands.1.trans outer.symm, stands.2.trans outer.symm,
        fun none => tied_inside tied deep (outer.symm.trans none), L.tokens.length,
        ⟨token, L.toksuper⟩, ?_, stored.new, scalar, stands.2.trans outer.symm⟩
      dsimp only [countMemberLinked]
      rw [stored.size]
      omega
    | element ready =>
      rw [ready] at stands
      exact ⟨stands.1.trans outer.symm, stands.2.trans outer.symm⟩
    | value held =>
      rw [held] at stands
      obtain ⟨_, inside, within⟩ := stands
      exact ⟨level, fun none => inside (outer.symm.trans none),
        within_sizeless shapes (within_quiet quiet within)⟩

theorem opened_tied (tied : Tied place P L) (takes : place.Takes) {b : Bracket} {type : JsmnType}
    (box : type = .object ∨ type = .array)
    (same : p = ⟨P.pos, P.tokens.length, (countMember P).tokens ++ [⟨type, P.pos, -1, 0⟩]⟩ ∧
      q = ⟨L.pos, L.tokens.length,
        grow L.toksuper L.tokens ++ [⟨⟨type, P.pos, -1, 0⟩, L.toksuper⟩]⟩) :
    Tied ⟨.ready, b :: place.stack⟩ p q := by
  have length := tied_length tied
  obtain ⟨rfl, rfl⟩ := same
  have opened := bracket_open type P.pos
  have container := bracket_container P.pos box
  have level := stands_level tied.stands (takes.imp And.left id)
  have shapes := grow_sizeless L.toksuper L.tokens
  have here : ((grow L.toksuper L.tokens).length : Int) = L.tokens.length := by rw [grow_length]
  constructor
  case pos => exact tied.pos
  case tokens =>
    have grown := plainOf_grow P.pos L.toksuper L.tokens
    rw [← level, ← tied.tokens] at grown
    dsimp only
    rw [plainOf, List.map_append, ← level]
    exact congrArg (· ++ [(⟨type, P.pos, -1, 0⟩ : JsmnTok)]) grown
  case linked =>
    exact linked_stored tied.linked (stored_grow tied.linked.holder _) rfl rfl
      (fun _ => container) (by simp [opened])
  case nested =>
    exact nested_append (nested_sizeless shapes tied.nested)
      fun _ => direct_sizeless shapes (stands_direct tied.stands)
  case depth =>
    rw [openCount_append, openCount_sizeless shapes, tied.depth, if_pos opened]
    rfl
  case stands =>
    have innermost : inner (grow L.toksuper L.tokens ++
        [⟨⟨type, P.pos, -1, 0⟩, L.toksuper⟩]) = L.tokens.length :=
      (inner_open _ opened).trans here
    refine ⟨?_, innermost.symm⟩
    rw [innermost, length]

theorem closed_tied (tied : Tied place P L) {c : Bracket} {stack : List Bracket}
    (deep : place.stack = c :: stack) (type : JsmnType) :
    Agree (Tied ⟨.shut, stack⟩) (closeContainer P type) (closeContainerLinked L type) := by
  obtain ⟨pos, super, plain⟩ := P
  obtain ⟨off, held, tokens⟩ := L
  have samePos : pos = off := tied.pos
  have samePlain : plain = plainOf tokens := tied.tokens
  subst samePos samePlain
  obtain ⟨before, t, after, rfl, opened, quiet⟩ : ∃ before t after, tokens = before ++ t :: after ∧
      t.isOpen = true ∧ ∀ u ∈ after, u.isOpen = false := last_open (by
    rw [tied.depth, deep]
    exact Nat.succ_pos _)
  have entry : (before ++ t :: after)[before.length]? = some t := by
    rw [List.getElem?_append_right (Nat.le_refl _), Nat.sub_self, List.getElem?_cons_zero]
  have highest : ∀ k, openAt (before ++ t :: after) k = true → k ≤ before.length := by
    intro k open_
    obtain ⟨u, at_k, uOpen⟩ := openAt_iff.mp open_
    by_contra beyond
    obtain ⟨m, further⟩ : ∃ m, k - before.length = m + 1 := ⟨k - before.length - 1, by omega⟩
    rw [List.getElem?_append_right (by omega), further, List.getElem?_cons_succ] at at_k
    rw [quiet u (List.mem_of_getElem? at_k)] at uOpen
    cases uOpen
  have quietPlain : ∀ u ∈ plainOf after, u.isOpen = false := by
    intro u member
    obtain ⟨v, there, rfl⟩ := List.mem_map.mp member
    exact quiet v there
  have splitPlain : plainOf (before ++ t :: after) =
      plainOf before ++ t.toJsmnTok :: plainOf after := by simp [plainOf]
  have plainClose := closeContainer_at pos super (plainOf before) opened quietPlain type
  rw [splitPlain, plainClose, closeContainerLinked_at tied.linked entry opened highest]
  by_cases mismatch : t.type ≠ type
  · rw [if_pos mismatch, if_pos mismatch]
    exact .error _
  rw [if_neg mismatch, if_neg mismatch]
  have shut : ({ t with end_ := (pos : Int) + 1 } : LinkTok).isOpen = false :=
    ended_closed (t := { t.toJsmnTok with end_ := (pos : Int) + 1 }) (by dsimp only; omega)
  have quieter : ∀ u ∈ { t with end_ := (pos : Int) + 1 } :: after, u.isOpen = false := by
    intro u member
    rcases List.mem_cons.mp member with rfl | later
    · exact shut
    · exact quiet u later
  have closed := closeAt_split before t after ((pos : Int) + 1)
  refine .ok ?_
  constructor
  case pos => rfl
  case tokens => simp [closed, plainOf]
  case linked => exact linked_close tied.linked entry opened highest (by omega)
  case nested =>
    dsimp only
    rw [closed]
    exact nested_close (by omega) quiet tied.nested
  case depth =>
    have depth := tied.depth
    rw [openCount_split before t quiet, if_pos opened, deep, List.length_cons] at depth
    dsimp only
    rw [closed, openCount_split before _ quiet, shut]
    exact Nat.succ.inj depth
  case stands =>
    dsimp only
    rw [closed]
    have direct := tied.nested before.length t entry opened
    rw [List.take_left] at direct
    exact ⟨(inner_quiet before quieter).symm, direct_quiet quieter direct⟩

theorem colon_tied (tied : Tied place P L) (named : place.mode = .named) :
    Tied ⟨.held, place.stack⟩ { P with toksuper := (P.toknext : Int) - 1 }
      { L with toksuper := (L.toknext : Int) - 1 } := by
  have stands := tied.stands
  rw [named] at stands
  obtain ⟨_, _, inside, within⟩ := stands
  refine ⟨tied.pos, tied.tokens, linked_colon tied.linked, tied.nested, tied.depth, ?_, inside,
    within⟩
  rw [JsmnParser.toknext, LinkParser.toknext, tied_length tied]

theorem endMemberLinked_inner (tied : Tied place P L) :
    endMemberLinked L = { L with toksuper := inner L.tokens } := by
  unfold endMemberLinked
  rcases stands_direct tied.stands with here | ⟨k, t, here, entry, scalar, link⟩
  · have container : ¬ (L.toksuper ≠ -1 ∧ (L.tok L.toksuper).isContainer = false) := by
      rintro ⟨present, scalar⟩
      rcases inner_cases L.tokens with ⟨none, _⟩ | ⟨i, t, found, entry, opened, _⟩
      · exact present (here.trans none)
      · have box := tied.linked.boxes t (List.mem_of_getElem? entry) opened
        rw [tok_entry (here.trans found) entry, box] at scalar
        cases scalar
    rw [if_neg container, ← here]
  · have token : L.tok L.toksuper = t := tok_entry here entry
    have value : L.toksuper ≠ -1 ∧ (L.tok L.toksuper).isContainer = false := by
      rw [token]
      exact ⟨by omega, scalar⟩
    rw [if_pos value, token, link]

theorem endMember_inner (tied : Tied place P L) :
    endMember P = { P with toksuper := inner L.tokens } := by
  have boxes : ∀ t ∈ P.tokens, t.isOpen = true → t.isContainer = true := by
    intro t member opened
    rw [tied.tokens] at member
    obtain ⟨u, there, rfl⟩ := List.mem_map.mp member
    exact tied.linked.boxes u there opened
  have innermost : enclosing P.tokens = inner L.tokens := by rw [tied.tokens, inner]
  rw [← innermost]
  have key (level : P.toksuper = L.toksuper) (inside : inner L.tokens ≠ -1)
      (within : Within L.tokens L.toksuper) :
      endMember P = { P with toksuper := enclosing P.tokens } := by
    obtain ⟨k, t, here, entry, scalar, _⟩ := within
    have plain : P.tokens[k]? = some t.toJsmnTok := by
      rw [tied.tokens, plainOf, List.getElem?_map, entry]
      rfl
    rw [← innermost] at inside
    exact endMember_scalar boxes (level.trans here) plain scalar inside
  obtain ⟨mode, stack⟩ := place
  have stands := tied.stands
  cases mode with
  | ready => exact endMember_container boxes (stands.1.trans innermost.symm)
  | named => exact endMember_container boxes (stands.1.trans innermost.symm)
  | shut => exact endMember_container boxes (stands.1.trans innermost.symm)
  | done => exact endMember_container boxes (stands.1.trans innermost.symm)
  | held => exact key stands.1 stands.2.1 stands.2.2
  | given => exact key stands.1 stands.2.1 stands.2.2

theorem comma_tied (tied : Tied place P L) :
    Tied ⟨.ready, place.stack⟩ (endMember P) (endMemberLinked L) := by
  have linked : Linked (inner L.tokens) L.tokens := by
    rcases stands_direct tied.stands with here | ⟨k, t, here, entry, scalar, link⟩
    · rw [← here]
      exact tied.linked
    · rw [← link]
      exact linked_comma tied.linked here entry scalar
  rw [endMember_inner tied, endMemberLinked_inner tied]
  exact ⟨tied.pos, tied.tokens, linked, tied.nested, tied.depth, rfl, rfl⟩

theorem char_tied (tied : Tied place P L) {piece : Piece} (step : place.next piece = some next)
    {js : Ptr} {len : Nat} {tail : List UInt8}
    (read : remaining js len P.pos = piece.bytes ++ tail) (formed : piece.Formed) (numTokens : Nat) :
    Agree (fun a b => Tied next a.1 b.1 ∧ a.2 = b.2) (jsmnParseChar P js len numTokens)
      (jsmnParseCharLinked L js len numTokens) := by
  have length := tied_length tied
  have here : js L.pos = js P.pos := by rw [tied.pos]
  cases piece with
  | mark c =>
    obtain ⟨_, first, _⟩ := remaining_cons read
    simp only [jsmnParseChar, jsmnParseCharLinked, here, first]
    rcases mark_kinds formed with rfl | rfl | rfl | rfl | rfl | rfl
    case inr.inr.inr.inr.inl =>
      obtain ⟨named, rfl⟩ := colon_some step
      exact .ok ⟨colon_tied tied named, rfl⟩
    case inr.inr.inr.inr.inr =>
      obtain rfl := Option.some.inj step
      exact .ok ⟨comma_tied tied, rfl⟩
    all_goals
      obtain rfl := Option.some.inj step
      exact .ok ⟨tied, rfl⟩
  | opens b =>
    obtain ⟨_, first, _⟩ := remaining_cons read
    obtain ⟨rfl, takes⟩ := value_some step
    have passes (type : JsmnType) (box : type = .object ∨ type = .array) :
        Agree (fun p q => Tied ⟨.ready, b :: place.stack⟩ p.1 q.1 ∧ p.2 = q.2)
          ((openContainer P numTokens type).bind fun parser => .ok (parser, 1))
          ((openContainerLinked L numTokens type).bind fun parser => .ok (parser, 1)) :=
      agree_bind (open_agrees tied.pos length numTokens type)
        fun p q same => .ok ⟨opened_tied tied takes box same, rfl⟩
    simp only [jsmnParseChar, jsmnParseCharLinked, here, first]
    cases b with
    | curly => exact passes .object (Or.inl rfl)
    | square => exact passes .array (Or.inr rfl)
  | closes b =>
    obtain ⟨_, first, _⟩ := remaining_cons read
    obtain ⟨c, stack, deep, rfl⟩ := closes_some step
    have passes (type : JsmnType) :
        Agree (fun p q => Tied ⟨.shut, stack⟩ p.1 q.1 ∧ p.2 = q.2)
          ((closeContainer P type).bind fun parser => .ok (parser, 0))
          ((closeContainerLinked L type).bind fun parser => .ok (parser, 0)) :=
      agree_bind (closed_tied tied deep type) fun p q closed => .ok ⟨closed, rfl⟩
    simp only [jsmnParseChar, jsmnParseCharLinked, here, first]
    cases b with
    | curly => exact passes .object
    | square => exact passes .array
  | string body =>
    obtain ⟨_, first, _⟩ := remaining_cons read
    simp only [jsmnParseChar, jsmnParseCharLinked, here, first]
    exact agree_bind (string_agrees tied.pos length js len numTokens)
      fun p q same => .ok ⟨value_tied tied (stores_string step) same, rfl⟩
  | bare text =>
    obtain ⟨c, rest, rfl, start⟩ := BareText.starts formed
    obtain ⟨_, first, _⟩ := remaining_cons read
    obtain ⟨opening, closing, quote, blank, colon, comma⟩ := bareStart_default start
    simp only [jsmnParseChar, jsmnParseCharLinked, here, first]
    rw [if_neg opening, if_neg closing, if_neg quote, if_neg blank, if_neg colon, if_neg comma,
      if_neg opening, if_neg closing, if_neg quote, if_neg blank, if_neg colon, if_neg comma]
    exact agree_bind (primitive_agrees tied.pos length js len numTokens)
      fun p q same => .ok ⟨value_tied tied (stores_leaf step).1 same, rfl⟩

end

theorem loop_tied (numTokens : Nat) {js : Ptr} {len : Nat} {text : List UInt8} {pieces : List Piece}
    (lexed : Lexes text pieces) : ∀ (fuel count : Nat) {place last : Place} {P : JsmnParser}
    {L : LinkParser}, Tied place P L → walk place pieces = some last →
    remaining js len P.pos = text →
    Agree (fun a b => (∃ there, Tied there a.1 b.1) ∧ a.2 = b.2)
      (jsmnParseLoop js len numTokens fuel P count)
      (jsmnParseLoopLinked js len numTokens fuel L count) := by
  induction lexed with
  | nil =>
    intro fuel count place last P L tied _ read
    cases fuel with
    | zero => exact .ok ⟨⟨place, tied⟩, rfl⟩
    | succ fuel =>
      have outside := remaining_nil read
      rw [jsmnParseLoop, jsmnParseLoopLinked, ← tied.pos, if_neg outside, if_neg outside]
      exact .ok ⟨⟨place, tied⟩, rfl⟩
  | @cons piece tail pieces formed ends _ ih =>
    intro fuel count place last P L tied walked read
    cases fuel with
    | zero => exact .ok ⟨⟨place, tied⟩, rfl⟩
    | succ fuel =>
      have inside : P.pos < len ∧ js P.pos ≠ 0 := piece_inside read formed
      rw [walk] at walked
      obtain ⟨next, step, walked⟩ := Option.bind_eq_some_iff.mp walked
      rw [jsmnParseLoop, jsmnParseLoopLinked, ← tied.pos, if_pos inside, if_pos inside]
      have pass := char_tied tied step read formed numTokens
      have taken {result : JsmnParser × Nat}
          (char : jsmnParseChar P js len numTokens = .ok result) :=
        (char_taken read formed ends char).1
      generalize jsmnParseChar P js len numTokens = x at pass taken ⊢
      generalize jsmnParseCharLinked L js len numTokens = y at pass ⊢
      cases pass with
      | error e => exact .error e
      | @ok a b holds =>
        obtain ⟨p, added⟩ := a
        obtain ⟨q, same⟩ := b
        obtain ⟨behind, rfl⟩ : Tied next p q ∧ added = same := holds
        have moved : Tied next { p with pos := p.pos + 1 } { q with pos := q.pos + 1 } :=
          ⟨congrArg (· + 1) behind.pos, behind.tokens, behind.linked, behind.nested, behind.depth,
            behind.stands⟩
        have left : remaining js len (p.pos + 1) = tail := by
          have place : p.pos + 1 = P.pos + piece.bytes.length := takePiece_pos (taken rfl)
          rw [place]
          exact remaining_append read
        exact ih fuel (count + added) moved walked left

/-- jsmn_parse with links on a JSON document, with any number of entries: the number of tokens, the
    tokens and the errors are the ones it has without links. -/
theorem jsmnParseLinked_document (d : Document) {js : Ptr}
    (held : js.image d.text.length = d.text) (numTokens : Nat) :
    (jsmnParseLinked js d.text.length numTokens).map
        (fun r => (r.1, r.2.map LinkTok.toJsmnTok)) =
      jsmnParse js d.text.length numTokens := by
  have lexed := document_lexes d held
  obtain ⟨last, walked⟩ := walk_document d
  generalize d.text.length = len at lexed ⊢
  have looped := loop_tied numTokens lexed len 0 init_tied walked (remaining_zero js len)
  unfold jsmnParse jsmnParseLinked
  generalize jsmnParseLoop js len numTokens len jsmnInit 0 = x at looped ⊢
  generalize jsmnParseLoopLinked js len numTokens len jsmnInitLinked 0 = y at looped ⊢
  cases looped with
  | error e => rfl
  | @ok a b holds =>
    obtain ⟨p, count⟩ := a
    obtain ⟨q, counted⟩ := b
    obtain ⟨⟨_, tied⟩, rfl⟩ : (∃ there, Tied there p q) ∧ count = counted := holds
    have search : lastBelow JsmnTok.isOpen p.tokens p.toknext =
        lastBelow JsmnTok.isOpen (q.tokens.map LinkTok.toJsmnTok) q.toknext := by
      rw [JsmnParser.toknext, tied_length tied, tied.tokens]
      rfl
    simp only [bind, Except.bind, search]
    split
    · rfl
    · rw [tied.tokens]
      rfl

theorem jsmnParseLinked_document_nested :
    (jsmnParseLinked (cstr nestedDocument.text) nestedDocument.text.length 8).map
        (fun r => (r.1, r.2.map LinkTok.toJsmnTok)) =
      .ok (5, [⟨.object, 0, 17, 1⟩, ⟨.string, 2, 3, 1⟩, ⟨.array, 6, 16, 2⟩,
        ⟨.primitive, 7, 11, 0⟩, ⟨.object, 13, 15, 0⟩]) :=
  (jsmnParseLinked_document nestedDocument (cstr_image _) 8).trans (by decide)

end RoverLinkedDocuments
