import FirefighterRover.JsmnDocuments

/-!
Where the parser is between the pieces of a JSON document: a machine with the open brackets on a
stack that every document takes from its start to its end.
-/
namespace RoverPlaces
open CMemory RoverJsmn RoverLexing RoverFlat RoverDocuments FlatJson

/-- What comes next: a key or a value at `ready`, a colon behind a key that is `named`, the value
    of a key that is `held`, and a comma or a closing bracket behind a value. That value is the one
    `given` to a key, a container just `shut`, or another that is `done`. -/
inductive Mode where
  | ready
  | named
  | held
  | given
  | shut
  | done
  deriving DecidableEq, Repr

structure Place where
  mode : Mode
  stack : List Bracket
  deriving DecidableEq, Repr

def Place.start : Place := ⟨.ready, []⟩

def Place.inObject (place : Place) : Bool := place.stack.head? = some .curly

def Place.mark (place : Place) (c : UInt8) : Option Place :=
  if c = chr ':' then if place.mode = .named then some ⟨.held, place.stack⟩ else none
  else if c = chr ',' then some ⟨.ready, place.stack⟩
  else some place

def Place.value (place behind : Place) : Option Place :=
  match place.mode with
  | .ready => if place.inObject then none else some behind
  | .held => some behind
  | _ => none

def Place.behindLeaf (place : Place) : Place :=
  ⟨if place.mode = .held then .given else .done, place.stack⟩

def Place.next (place : Place) : Piece → Option Place
  | .mark c => place.mark c
  | .opens b => place.value ⟨.ready, b :: place.stack⟩
  | .closes _ =>
    match place.stack with
    | [] => none
    | _ :: stack => some ⟨.shut, stack⟩
  | .string _ =>
    if place.mode = .ready ∧ place.inObject then some ⟨.named, place.stack⟩
    else place.value place.behindLeaf
  | .bare _ => place.value place.behindLeaf

def walk (place : Place) : List Piece → Option Place
  | [] => some place
  | piece :: pieces => (place.next piece).bind fun next => walk next pieces

theorem walk_step {place next : Place} {piece : Piece} (step : place.next piece = some next)
    (pieces : List Piece) : walk place (piece :: pieces) = walk next pieces := by
  rw [walk, step, Option.bind_some]

theorem walk_blank (w : Blank) (pieces : List Piece) (place : Place) :
    walk place (blankPieces w ++ pieces) = walk place pieces := by
  obtain ⟨bytes, blank⟩ := w
  unfold blankPieces
  simp only
  induction bytes with
  | nil => rfl
  | cons c bytes ih =>
    have idle : place.next (.mark c) = some place := by
      rcases blank_kinds (blank c (by simp)) with rfl | rfl | rfl | rfl <;> rfl
    rw [List.map_cons, List.cons_append, walk_step idle]
    exact ih fun x member => blank x (by simp [member])

theorem next_leaf (value : Leaf) {place behind : Place}
    (step : place.value place.behindLeaf = some behind) : place.next value.piece = some behind := by
  cases value with
  | bare => exact step
  | string =>
    have free : ¬ (place.mode = .ready ∧ place.inObject = true) := by
      rintro ⟨ready, object⟩
      simp [Place.value, ready, object] at step
    rw [Leaf.piece, Place.next, if_neg free]
    exact step

def Place.Takes (place : Place) : Prop :=
  (place.mode = .ready ∧ place.inObject = false) ∨ place.mode = .held

theorem value_some {place behind next : Place} (step : place.value behind = some next) :
    next = behind ∧ place.Takes := by
  obtain ⟨mode, stack⟩ := place
  cases mode with
  | ready =>
    simp only [Place.value] at step
    split at step
    · cases step
    · rename_i outside
      exact ⟨(Option.some.inj step).symm, Or.inl ⟨rfl, by simpa using outside⟩⟩
  | held => exact ⟨(Option.some.inj step).symm, Or.inr rfl⟩
  | named => cases step
  | given => cases step
  | shut => cases step
  | done => cases step

inductive Stores (place : Place) : Place → Prop where
  | key (ready : place.mode = .ready) (object : place.inObject = true) :
    Stores place ⟨.named, place.stack⟩
  | element (ready : place.mode = .ready) : Stores place ⟨.done, place.stack⟩
  | value (held : place.mode = .held) : Stores place ⟨.given, place.stack⟩

theorem stores_leaf {place next : Place} (step : place.value place.behindLeaf = some next) :
    Stores place next ∧ place.Takes := by
  obtain ⟨rfl, takes⟩ := value_some step
  refine ⟨?_, takes⟩
  rcases takes with ⟨ready, _⟩ | held
  · simpa [Place.behindLeaf, ready] using Stores.element ready
  · simpa [Place.behindLeaf, held] using Stores.value held

theorem stores_string {place next : Place} {body : List UInt8}
    (step : place.next (.string body) = some next) : Stores place next := by
  rw [Place.next] at step
  split at step
  · rename_i key
    obtain rfl := Option.some.inj step
    exact .key key.1 key.2
  · exact (stores_leaf step).1

theorem colon_some {place next : Place} (step : place.next (.mark (chr ':')) = some next) :
    place.mode = .named ∧ next = ⟨.held, place.stack⟩ := by
  rw [Place.next, Place.mark, if_pos rfl] at step
  split at step
  · rename_i named
    exact ⟨named, (Option.some.inj step).symm⟩
  · cases step

theorem closes_some {place next : Place} {b : Bracket} (step : place.next (.closes b) = some next) :
    ∃ c stack, place.stack = c :: stack ∧ next = ⟨.shut, stack⟩ := by
  rw [Place.next] at step
  split at step
  · cases step
  · rename_i c stack same
    exact ⟨c, stack, same, (Option.some.inj step).symm⟩

section
variable {b : Bracket} {stack : List Bracket}

theorem walk_head (head : Head b) (pieces : List Piece) : ∃ place : Place,
    place.stack = b :: stack ∧ (∀ behind, place.value behind = some behind) ∧
      walk ⟨.ready, b :: stack⟩ (head.pieces ++ pieces) = walk place pieces := by
  cases head with
  | item before =>
    exact ⟨⟨.ready, .square :: stack⟩, rfl, fun _ => rfl, walk_blank before pieces _⟩
  | member before key formed afterKey beforeValue =>
    refine ⟨⟨.held, .curly :: stack⟩, rfl, fun _ => rfl, ?_⟩
    have keyed : Place.next ⟨.ready, .curly :: stack⟩ (.string key) =
        some ⟨.named, .curly :: stack⟩ := rfl
    have colon : Place.next ⟨.named, .curly :: stack⟩ (.mark (chr ':')) =
        some ⟨.held, .curly :: stack⟩ := rfl
    rw [Head.pieces, List.append_assoc, walk_blank, List.cons_append, walk_step keyed,
      List.append_assoc, walk_blank, List.cons_append, walk_step colon, walk_blank]

theorem walk_elements (e : Elements b) : ∀ (stack : List Bracket) (pieces : List Piece),
    (∃ mode, walk ⟨.ready, b :: stack⟩ (e.pieces ++ pieces) = walk ⟨mode, b :: stack⟩ pieces) ∧
      ∀ mode, ∃ mode', walk ⟨mode, b :: stack⟩ (e.listed ++ pieces) =
        walk ⟨mode', b :: stack⟩ pieces := by
  induction e with
  | nil =>
    intro stack pieces
    exact ⟨⟨.ready, rfl⟩, fun mode => ⟨mode, rfl⟩⟩
  | @leaf b head value after rest ih =>
    intro stack pieces
    have written : ∃ mode, walk ⟨.ready, b :: stack⟩
        ((Elements.leaf head value after rest).pieces ++ pieces) =
          walk ⟨mode, b :: stack⟩ pieces := by
      let behind := blankPieces after ++ (rest.listed ++ pieces)
      obtain ⟨⟨mode, _⟩, rfl, free, headed⟩ := @walk_head _ stack head (value.piece :: behind)
      obtain ⟨last, listed⟩ := (ih stack pieces).2 (if mode = .held then .given else .done)
      refine ⟨last, ?_⟩
      have valued := headed.trans (walk_step (next_leaf value (free _)) behind)
      have whole := valued.trans ((walk_blank after _ _).trans listed)
      simpa [Elements.pieces, Elements.listed, behind] using whole
    refine ⟨written, fun mode => ?_⟩
    obtain ⟨last, same⟩ := written
    exact ⟨last, same⟩
  | @container b c head inner space after rest inner_ih ih =>
    intro stack pieces
    have written : ∃ mode, walk ⟨.ready, b :: stack⟩
        ((Elements.container head inner space after rest).pieces ++ pieces) =
          walk ⟨mode, b :: stack⟩ pieces := by
      let behind := blankPieces after ++ (rest.listed ++ pieces)
      let closing := blankPieces space ++ (.closes c :: behind)
      obtain ⟨place, same, free, headed⟩ := @walk_head _ stack head
        (.opens c :: (inner.pieces ++ closing))
      have opens : place.next (.opens c) = some ⟨.ready, c :: b :: stack⟩ := by
        rw [Place.next, free, same]
      obtain ⟨mode, filled⟩ := (inner_ih (b :: stack) closing).1
      have closes : Place.next ⟨mode, c :: b :: stack⟩ (.closes c) = some ⟨.shut, b :: stack⟩ := rfl
      obtain ⟨last, listed⟩ := (ih stack pieces).2 .shut
      refine ⟨last, ?_⟩
      have whole : walk ⟨.ready, b :: stack⟩
          (head.pieces ++ (.opens c :: (inner.pieces ++ closing))) =
            walk ⟨last, b :: stack⟩ pieces := by
        rw [headed, walk_step opens, filled, walk_blank, walk_step closes, walk_blank, listed]
      rw [← whole]
      simp [Elements.pieces, Elements.listed, closing, behind]
    refine ⟨written, fun mode => ?_⟩
    obtain ⟨last, same⟩ := written
    exact ⟨last, same⟩

end

theorem walk_document (d : Document) : ∃ last, walk .start d.pieces = some last := by
  have tail (place : Place) : walk place (blankPieces d.tail) = some place := by
    have blank := walk_blank d.tail [] place
    rwa [List.append_nil] at blank
  unfold Document.pieces
  rw [walk_blank]
  cases d.root with
  | leaf value =>
    refine ⟨⟨.done, []⟩, ?_⟩
    have step : Place.start.next value.piece = some ⟨.done, []⟩ := next_leaf value rfl
    rw [Root.pieces, List.singleton_append, walk_step step, tail]
  | @container c inner space =>
    let closing := blankPieces space ++ (.closes c :: blankPieces d.tail)
    obtain ⟨mode, filled⟩ := (walk_elements inner [] closing).1
    have opens : Place.start.next (.opens c) = some ⟨.ready, [c]⟩ := rfl
    have closes : Place.next ⟨mode, [c]⟩ (.closes c) = some ⟨.shut, []⟩ := rfl
    refine ⟨⟨.shut, []⟩, ?_⟩
    have split : (Root.container inner space).pieces ++ blankPieces d.tail =
        .opens c :: (inner.pieces ++ closing) := by simp [Root.pieces, closing]
    rw [split, walk_step opens, filled, walk_blank, walk_step closes, tail]

end RoverPlaces
