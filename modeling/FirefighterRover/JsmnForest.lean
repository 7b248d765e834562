import FirefighterRover.JsmnMachine

/-!
The tokens of any text jsmn_parse accepts, documents or not, are a forest: each lies inside the
text between its own delimiters, they stand in the order of their starts, and of two tokens
either the later one begins behind the earlier or it lies inside it, a container.
-/
namespace RoverForest
open CMemory RoverJsmn RoverLexing RoverOutline RoverMachine

def Delimited (js : Ptr) (t : JsmnTok) : Prop :=
  match t.type with
  | .object => js t.start.toNat = chr '{' ∧ (t.end_ ≠ -1 → js (t.end_ - 1).toNat = chr '}')
  | .array => js t.start.toNat = chr '[' ∧ (t.end_ ≠ -1 → js (t.end_ - 1).toNat = chr ']')
  | .string => 0 < t.start ∧ js (t.start - 1).toNat = chr '\"' ∧ js t.end_.toNat = chr '\"'
  | .primitive => t.start < t.end_ ∧
    ∀ i : Nat, t.start ≤ i → (i : Int) < t.end_ → isBareByte (js i) = true
  | .undefined => False

structure Placed (pos : Nat) (t : JsmnTok) : Prop where
  starts : 0 ≤ t.start ∧ t.start < pos
  ends : t.isOpen = false → t.start ≤ t.end_ ∧ t.end_ ≤ pos
  opened : t.isOpen = true → t.isContainer = true

structure Apart (a b : JsmnTok) : Prop where
  order : a.start < b.start
  nested : a.isOpen = false → a.end_ ≤ b.start ∨
    (a.isContainer = true ∧ b.isOpen = false ∧ b.end_ < a.end_)

structure Forest (js : Ptr) (pos : Nat) (tokens : List JsmnTok) : Prop where
  placed : ∀ t ∈ tokens, Placed pos t
  delimited : ∀ t ∈ tokens, Delimited js t
  apart : tokens.Pairwise Apart

theorem placed_later {pos later : Nat} (le : pos ≤ later) {t : JsmnTok} (placed : Placed pos t) :
    Placed later t := by
  obtain ⟨⟨low, high⟩, ends, opened⟩ := placed
  refine ⟨⟨low, by omega⟩, ?_, opened⟩
  intro closed
  have bound := ends closed
  omega

theorem forest_later {js : Ptr} {pos later : Nat} (le : pos ≤ later) {tokens : List JsmnTok}
    (forest : Forest js pos tokens) : Forest js later tokens :=
  ⟨fun t member => placed_later le (forest.placed t member), forest.delimited, forest.apart⟩

theorem forest_append {js : Ptr} {pos later : Nat} {tokens : List JsmnTok} {t : JsmnTok}
    (forest : Forest js pos tokens) (le : pos ≤ later) (fresh : (pos : Int) ≤ t.start)
    (placed : Placed later t) (delimited : Delimited js t) : Forest js later (tokens ++ [t]) := by
  refine ⟨?_, ?_, ?_⟩
  · intro x member
    rcases List.mem_append.mp member with old | new
    · exact placed_later le (forest.placed x old)
    · rw [List.mem_singleton.mp new]
      exact placed
  · intro x member
    rcases List.mem_append.mp member with old | new
    · exact forest.delimited x old
    · rw [List.mem_singleton.mp new]
      exact delimited
  · rw [List.pairwise_append]
    refine ⟨forest.apart, List.pairwise_singleton _ _, ?_⟩
    intro x old y new
    rw [List.mem_singleton.mp new]
    have before := forest.placed x old
    constructor
    · have bound := before.starts.2
      omega
    · intro closed
      have bound := before.ends closed
      left
      omega

theorem forest_close {js : Ptr} {pos : Nat} {before after : List JsmnTok} {t : JsmnTok}
    (forest : Forest js pos (before ++ t :: after)) (opened : t.isOpen = true)
    (quiet : ∀ u ∈ after, u.isOpen = false)
    (delimited : Delimited js { t with end_ := (pos : Int) + 1 }) :
    Forest js (pos + 1) (before ++ { t with end_ := (pos : Int) + 1 } :: after) := by
  have here := forest.placed t (by simp)
  have container := here.opened opened
  have shut : ({ t with end_ := (pos : Int) + 1 } : JsmnTok).isOpen = false :=
    ended_closed (by dsimp only; omega)
  obtain ⟨front, rear, across⟩ := List.pairwise_append.mp forest.apart
  obtain ⟨first, rear⟩ := List.pairwise_cons.mp rear
  refine ⟨?_, ?_, ?_⟩
  · intro x member
    simp only [List.mem_append, List.mem_cons] at member
    rcases member with old | rfl | new
    · exact placed_later (Nat.le_succ pos) (forest.placed x (by simp [old]))
    · obtain ⟨low, high⟩ := here.starts
      refine ⟨⟨low, by dsimp only; omega⟩, ?_, fun still => absurd still (by simp [shut])⟩
      intro _
      dsimp only
      omega
    · exact placed_later (Nat.le_succ pos) (forest.placed x (by simp [new]))
  · intro x member
    simp only [List.mem_append, List.mem_cons] at member
    rcases member with old | rfl | new
    · exact forest.delimited x (by simp [old])
    · exact delimited
    · exact forest.delimited x (by simp [new])
  · rw [List.pairwise_append, List.pairwise_cons]
    refine ⟨front, ⟨?_, rear⟩, ?_⟩
    · intro x new
      have bound := (forest.placed x (by simp [new])).ends (quiet x new)
      exact ⟨(first x new).order, fun _ => Or.inr ⟨container, quiet x new, by dsimp only; omega⟩⟩
    · intro x old y member
      rcases List.mem_cons.mp member with rfl | new
      · obtain ⟨order, nested⟩ := across x old t (by simp)
        refine ⟨order, fun closed => ?_⟩
        rcases nested closed with apart | ⟨_, later, _⟩
        · exact Or.inl apart
        · rw [opened] at later
          cases later
      · exact across x old y (by simp [new])

def shapes (parser : JsmnParser) : List JsmnTok := parser.tokens.map shape

theorem takes_forest {js : Ptr} {len numTokens : Nat} {parser next : JsmnParser} {piece : Piece}
    {tail : List UInt8} (read : remaining js len parser.pos = piece.bytes ++ tail)
    (formed : piece.Formed) (taken : takePiece numTokens parser piece = .ok next)
    (forest : Forest js parser.pos (shapes parser)) : Forest js next.pos (shapes next) := by
  have moved := takePiece_pos taken
  cases piece with
  | mark c =>
    rw [shapes, takes_mark taken, moved]
    exact forest_later (Nat.le_add_right _ _) forest
  | opens b =>
    obtain ⟨_, first, _⟩ := remaining_cons read
    have grown : shapes next = shapes parser ++ [⟨b.type, parser.pos, -1, 0⟩] := by
      rw [takes_open taken, shapes, List.map_append, countMember_shapes]
      rfl
    have opened := bracket_open b.type parser.pos
    rw [grown, moved]
    apply forest_append forest (Nat.le_add_right _ _) (Int.le_refl _)
    · refine ⟨⟨Int.natCast_nonneg _, ?_⟩, fun closed => ?_, fun _ => ?_⟩
      · simp only [Piece.bytes, List.length_singleton]
        omega
      · rw [opened] at closed
        cases closed
      · cases b <;> rfl
    · cases b
      · exact ⟨first, fun ended => absurd rfl ended⟩
      · exact ⟨first, fun ended => absurd rfl ended⟩
  | closes b =>
    obtain ⟨_, first, _⟩ := remaining_cons read
    obtain ⟨before, t, after, split, opened, type, quiet, rfl⟩ := takes_close taken
    rw [shapes, split, List.map_append, List.map_cons] at forest
    have closed : ∀ u ∈ after.map shape, u.isOpen = false := by
      intro u member
      obtain ⟨v, inside, rfl⟩ := List.mem_map.mp member
      exact quiet v inside
    have started := forest.delimited (shape t) (by simp)
    have last : js ((parser.pos : Int) + 1 - 1).toNat = b.closing := by
      rw [Int.add_sub_cancel, Int.toNat_natCast]
      exact first
    have delimited : Delimited js { shape t with end_ := (parser.pos : Int) + 1 } := by
      have kind : (shape t).type = b.type := type
      simp only [Delimited, kind] at started ⊢
      cases b
      · exact ⟨started.1, fun _ => last⟩
      · exact ⟨started.1, fun _ => last⟩
    have grown := forest_close forest opened closed delimited
    simp only [shapes, List.map_append, List.map_cons]
    exact grown
  | string body =>
    obtain ⟨_, first, rest⟩ := remaining_cons read
    have inner : remaining js len (parser.pos + 1) = body ++ chr '\"' :: tail := by
      rw [rest]
      simp
    have last := (remaining_cons (remaining_append inner)).2.1
    rw [shapes, store_shapes taken, moved]
    have size : (Piece.string body).bytes.length = body.length + 2 := by simp [Piece.bytes]
    apply forest_append forest (Nat.le_add_right _ _)
    · simp only [shape, jsmnFillToken]
      omega
    · refine ⟨⟨Int.natCast_nonneg _, ?_⟩, fun _ => ?_, fun opened => ?_⟩
      · simp only [shape, jsmnFillToken, size]
        omega
      · simp only [shape, jsmnFillToken, size]
        omega
      · rw [ended_closed (Int.natCast_nonneg _)] at opened
        cases opened
    · refine ⟨?_, ?_, ?_⟩
      · simp only [shape, jsmnFillToken]
        omega
      · have back : (((parser.pos + 1 : Nat) : Int) - 1).toNat = parser.pos := by omega
        simp only [shape, jsmnFillToken, back]
        exact first
      · simp only [shape, jsmnFillToken, Int.toNat_natCast]
        exact last
  | bare text =>
    obtain ⟨c, rest, same, _⟩ := BareText.starts formed
    have positive : 0 < text.length := by
      rw [same]
      exact Nat.succ_pos _
    have bytes := remaining_image read
    rw [shapes, store_shapes taken, moved]
    apply forest_append forest (Nat.le_add_right _ _) (Int.le_refl _)
    · refine ⟨⟨Int.natCast_nonneg _, ?_⟩, fun _ => ?_, fun opened => ?_⟩
      · simp only [shape, jsmnFillToken, Piece.bytes]
        omega
      · simp only [shape, jsmnFillToken, Piece.bytes]
        omega
      · rw [ended_closed (Int.natCast_nonneg _)] at opened
        cases opened
    · refine ⟨?_, ?_⟩
      · simp only [shape, jsmnFillToken]
        omega
      · intro i low high
        simp only [shape, jsmnFillToken] at low high
        apply formed.bytes
        rw [Piece.bytes] at bytes
        rw [← bytes, List.mem_map]
        refine ⟨i - parser.pos, List.mem_range.mpr (by omega), ?_⟩
        rw [Ptr.add]
        congr 1
        omega

theorem takePieces_forest {js : Ptr} {len numTokens : Nat} {text : List UInt8} {pieces : List Piece}
    (lexed : Lexes text pieces) : ∀ {parser next : JsmnParser},
    remaining js len parser.pos = text → takePieces numTokens parser pieces = .ok next →
    Forest js parser.pos (shapes parser) →
    Forest js next.pos (shapes next) ∧ next.pos = parser.pos + text.length := by
  induction lexed with
  | nil =>
    intro parser next _ taken forest
    obtain rfl := Except.ok.inj taken
    exact ⟨forest, rfl⟩
  | @cons piece tail pieces formed _ _ ih =>
    intro parser next read taken forest
    obtain ⟨middle, first, rest⟩ := takes_cons taken
    have moved := takePiece_pos first
    have left : remaining js len middle.pos = tail := by
      rw [moved]
      exact remaining_append read
    obtain ⟨grown, reached⟩ := ih left rest (takes_forest read formed first forest)
    refine ⟨grown, ?_⟩
    rw [reached, moved, List.length_append, Nat.add_assoc]

def Nested (a b : JsmnTok) : Prop :=
  a.start < b.start ∧ (a.end_ ≤ b.start ∨ (a.isContainer = true ∧ b.end_ < a.end_))

structure TokenForest (js : Ptr) (len : Nat) (toks : List JsmnTok) : Prop where
  inside : ∀ t ∈ toks, 0 ≤ t.start ∧ t.start ≤ t.end_ ∧ t.end_ ≤ (strn js len).length
  delimited : ∀ t ∈ toks, Delimited js t
  nested : toks.Pairwise Nested

/-- Whatever text jsmn_parse accepts, its tokens are a forest over it. -/
theorem jsmnParse_forest {js : Ptr} {len numTokens r : Nat} {toks : List JsmnTok}
    (parsed : jsmnParse js len numTokens = .ok (r, toks)) : TokenForest js len toks := by
  obtain ⟨pieces, lexed, _⟩ := jsmnParse_sound parsed
  obtain ⟨next, taken, still, _, rfl⟩ := jsmnParse_taken lexed parsed
  have closed : ∀ t ∈ next.tokens, t.isOpen = false := by
    rcases open_split next.tokens with ⟨_, quiet⟩ | ⟨_, _, _, found, _⟩
    · exact quiet
    · rw [JsmnParser.toknext, found] at still
      exact absurd rfl still
  have empty : Forest js jsmnInit.pos (shapes jsmnInit) :=
    ⟨by simp [shapes, jsmnInit], by simp [shapes, jsmnInit], List.Pairwise.nil⟩
  obtain ⟨forest, reached⟩ := takePieces_forest lexed (remaining_zero js len) taken empty
  have whole : next.pos = (strn js len).length := reached.trans (Nat.zero_add _)
  rw [whole] at forest
  constructor
  · intro t member
    have placed := forest.placed (shape t) (List.mem_map_of_mem member)
    have ends := placed.ends (closed t member)
    exact ⟨placed.starts.1, ends.1, ends.2⟩
  · intro t member
    exact forest.delimited (shape t) (List.mem_map_of_mem member)
  · have apart := List.pairwise_map.mp forest.apart
    apply apart.imp_of_mem
    intro a b first second pair
    refine ⟨pair.order, ?_⟩
    rcases pair.nested (closed a first) with before | ⟨container, _, later⟩
    · exact Or.inl before
    · exact Or.inr ⟨container, later⟩

theorem jsmnParse_forest_lenient : TokenForest (cstr (lit "[\x7b\x7d 1] a")) 8
    [⟨.array, 0, 6, 2⟩, ⟨.object, 1, 3, 0⟩, ⟨.primitive, 4, 5, 0⟩, ⟨.primitive, 7, 8, 0⟩] :=
  jsmnParse_forest (by decide : jsmnParse (cstr (lit "[\x7b\x7d 1] a")) 8 4 = .ok (4, _))

end RoverForest
