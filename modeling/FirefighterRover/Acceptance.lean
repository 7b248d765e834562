import FirefighterRover.CallbackRuns
import FirefighterRover.JsmnValues

/-!
Which payloads the JSON handlers accept. The tokenizer skips separators wherever they
stand, so an accepted payload is one key and one value inside and behind an opening brace,
with a single closing brace somewhere among them.
-/
namespace RoverAcceptance
open CMemory RoverJsmn RoverJson RoverLexing RoverOutline RoverFlat RoverValues RoverCallback
  RoverCallbackRuns FlatJson

theorem quiet_token {piece : Piece} (quiet : isQuiet piece = true) (off : Nat) :
    pieceToken off piece = [] := by
  cases piece <;> first | rfl | cases quiet

theorem loud_token {piece : Piece} (loud : isQuiet piece = false) (off : Nat) :
    ∃ t, pieceToken off piece = [t] := by
  cases piece with
  | mark c => cases loud
  | closes b => cases loud
  | opens b => exact ⟨_, rfl⟩
  | string body => exact ⟨_, rfl⟩
  | bare text => exact ⟨_, rfl⟩

theorem nesting_quiet {pieces : List Piece} (quiet : ∀ p ∈ pieces, isQuiet p = true) :
    ∀ stack rest : List Bracket,
    nesting stack pieces = some rest ↔ stack = closings pieces ++ rest := by
  induction pieces with
  | nil =>
    intro stack rest
    simp [nesting, closings]
  | cons piece pieces ih =>
    intro stack rest
    have ih := ih fun p member => quiet p (by simp [member])
    have hush := quiet piece (by simp)
    cases piece with
    | opens b => cases hush
    | string body => cases hush
    | bare text => cases hush
    | mark c =>
      have same : closings (.mark c :: pieces) = closings pieces := rfl
      rw [same]
      exact ih stack rest
    | closes b =>
      have more : closings (.closes b :: pieces) = b :: closings pieces := rfl
      rw [more, List.cons_append]
      cases stack with
      | nil => simp [nesting, nest]
      | cons top stack =>
        simp only [nesting, nest, List.cons.injEq]
        by_cases same : top = b
        · rw [if_pos same, and_iff_right same]
          exact ih stack rest
        · rw [if_neg same]
          simp [same]

theorem tokens_none : ∀ {pieces : List Piece} {off : Nat}, tokensAt off pieces = [] →
    ∀ p ∈ pieces, isQuiet p = true := by
  intro pieces
  induction pieces with
  | nil => simp
  | cons piece pieces ih =>
    intro off none_left p member
    rw [tokensAt, List.append_eq_nil_iff] at none_left
    rcases List.mem_cons.mp member with rfl | member
    · by_contra loud
      obtain ⟨t, made⟩ := loud_token (Bool.eq_false_iff.mpr loud) off
      rw [made] at none_left
      cases none_left.1
    · exact ih none_left.2 p member

theorem tokens_split : ∀ {pieces : List Piece} {off : Nat} {t : JsmnTok} {rest : List JsmnTok},
    tokensAt off pieces = t :: rest → ∃ quiet piece later, pieces = quiet ++ piece :: later ∧
      (∀ p ∈ quiet, isQuiet p = true) ∧ pieceToken (off + textLength quiet) piece = [t] ∧
      tokensAt (off + textLength quiet + piece.bytes.length) later = rest := by
  intro pieces
  induction pieces with
  | nil =>
    intro off t rest made
    cases made
  | cons piece pieces ih =>
    intro off t rest made
    rw [tokensAt] at made
    by_cases quiet : isQuiet piece = true
    · rw [quiet_token quiet, List.nil_append] at made
      obtain ⟨before, p, later, split, quiets, token, others⟩ := ih made
      have longer : off + piece.bytes.length + textLength before =
          off + textLength (piece :: before) := by
        simp only [textLength, List.flatMap_cons, List.length_append]
        omega
      rw [longer] at token others
      refine ⟨piece :: before, p, later, by rw [split]; rfl, ?_, token, others⟩
      intro p member
      rcases List.mem_cons.mp member with rfl | member
      · exact quiet
      · exact quiets p member
    · obtain ⟨u, one⟩ := loud_token (Bool.eq_false_iff.mpr quiet) off
      rw [one] at made
      obtain ⟨rfl, others⟩ := List.cons.inj made
      exact ⟨[], piece, pieces, rfl, by simp, one, others⟩

theorem lexes_formed {text : List UInt8} {pieces : List Piece} (lexed : Lexes text pieces) :
    ∀ p ∈ pieces, p.Formed := by
  induction lexed with
  | nil => simp
  | cons piece formed _ _ ih =>
    intro p member
    rcases List.mem_cons.mp member with rfl | member
    · exact formed
    · exact ih p member

def isFiller (c : UInt8) : Bool := isMark c || c = chr '}'

theorem mark_ne_close {c : UInt8} (mark : isMark c = true) : c ≠ chr '}' := by
  rintro rfl
  exact absurd mark (by decide)

theorem fillers_of_quiet {pieces : List Piece} : (∀ p ∈ pieces, isQuiet p = true) →
    (∀ p ∈ pieces, p.Formed) → (∀ b ∈ closings pieces, b = .curly) →
    (∀ c ∈ pieces.flatMap Piece.bytes, isFiller c = true) ∧
      (pieces.flatMap Piece.bytes).count (chr '}') = (closings pieces).length := by
  induction pieces with
  | nil =>
    intro _ _ _
    exact ⟨by simp, rfl⟩
  | cons piece pieces ih =>
    intro quiet formed curly
    have hush := quiet piece (by simp)
    cases piece with
    | opens b => cases hush
    | string body => cases hush
    | bare text => cases hush
    | mark c =>
      have mark : isMark c = true := formed (.mark c) (by simp)
      obtain ⟨filler, counted⟩ := ih (fun p member => quiet p (by simp [member]))
        (fun p member => formed p (by simp [member])) curly
      constructor
      · intro d member
        rcases List.mem_cons.mp member with rfl | member
        · simp [isFiller, mark]
        · exact filler d member
      · refine Eq.trans ?_ counted
        exact List.count_cons_of_ne (mark_ne_close mark)
    | closes b =>
      have same : b = .curly := curly b (by simp [closings, closing])
      subst same
      obtain ⟨filler, counted⟩ := ih (fun p member => quiet p (by simp [member]))
        (fun p member => formed p (by simp [member]))
        (fun b member => curly b (List.mem_cons_of_mem _ member))
      constructor
      · intro d member
        rcases List.mem_cons.mp member with rfl | member
        · decide
        · exact filler d member
      · have more : closings (.closes .curly :: pieces) = .curly :: closings pieces := rfl
        rw [more, List.length_cons, ← counted]
        exact List.count_cons_self

/-- The parts of a payload around its key: what stands before the brace, before and behind
    the key, the value, and the rest. -/
structure Layout where
  lead : List UInt8
  first : List UInt8
  second : List UInt8
  value : List UInt8
  third : List UInt8

def Layout.text (l : Layout) (key : List UInt8) : List UInt8 :=
  l.lead ++ (chr '{' :: (l.first ++ (quote key ++ (l.second ++ (l.value ++ l.third)))))

def Layout.fillers (l : Layout) : List UInt8 := l.first ++ (l.second ++ l.third)

/-- Marks before the brace, and behind it marks and one closing brace. -/
structure Layout.Loose (l : Layout) : Prop where
  lead : ∀ c ∈ l.lead, isMark c = true
  fillers : ∀ c ∈ l.fillers, isFiller c = true
  closed : l.fillers.count (chr '}') = 1

def Layout.valueOffset (l : Layout) (key : List UInt8) : Nat :=
  l.lead.length + 1 + l.first.length + (key.length + 2) + l.second.length

theorem bracket_of_object {piece : Piece} {off : Nat} {t : JsmnTok} (made : pieceToken off piece = [t])
    (object : t.type = .object) : piece = .opens .curly := by
  cases piece with
  | mark c => cases made
  | closes b => cases made
  | opens b =>
    obtain rfl := List.singleton_inj.mp made
    cases b with
    | curly => rfl
    | square => cases object
  | string body =>
    obtain rfl := List.singleton_inj.mp made
    cases object
  | bare text =>
    obtain rfl := List.singleton_inj.mp made
    cases object

theorem body_of_string {piece : Piece} {off : Nat} {t : JsmnTok} (made : pieceToken off piece = [t])
    (string : t.type = .string) : ∃ body, piece = .string body := by
  cases piece with
  | mark c => cases made
  | closes b => cases made
  | opens b =>
    obtain rfl := List.singleton_inj.mp made
    cases b <;> cases string
  | string body => exact ⟨body, rfl⟩
  | bare text =>
    obtain rfl := List.singleton_inj.mp made
    cases string

theorem outlineOf_type (t : JsmnTok) : (outlineOf t).type = t.type := by
  unfold outlineOf
  split <;> rfl

theorem three_tokens {pieces : List Piece} {t0 t1 t2 : JsmnTok}
    (nests : nesting [] pieces = some []) (tokens : tokensAt 0 pieces = [t0, t1, t2])
    (object : t0.type = .object) (string : t1.type = .string) :
    ∃ lead first body second piece third, pieces = lead ++ (.opens .curly :: (first ++
        (.string body :: (second ++ (piece :: third))))) ∧
      (∀ p ∈ lead ++ (first ++ (second ++ third)), isQuiet p = true) ∧
      closings lead = [] ∧ isQuiet piece = false ∧
      ∃ stack, closings first ++ (closings second ++ stack) = [.curly] ∧
        nesting stack (piece :: third) = some [] := by
  obtain ⟨lead, p0, later, rfl, quiet0, made0, tokens⟩ := tokens_split tokens
  obtain ⟨first, p1, later, rfl, quiet1, made1, tokens⟩ := tokens_split tokens
  obtain ⟨second, p2, third, rfl, quiet2, made2, tokens⟩ := tokens_split tokens
  have quiet3 := tokens_none tokens
  obtain rfl := bracket_of_object made0 object
  obtain ⟨body, rfl⟩ := body_of_string made1 string
  rw [nesting_append] at nests
  cases opened : nesting [] lead with
  | none =>
    rw [opened] at nests
    cases nests
  | some stack =>
    have none_open := (nesting_quiet quiet0 [] stack).mp opened
    obtain ⟨closed, rfl⟩ := List.append_eq_nil_iff.mp none_open.symm
    rw [opened, Option.bind_some, nesting, nest] at nests
    simp only at nests
    rw [nesting_append] at nests
    cases inner : nesting [.curly] first with
    | none =>
      rw [inner] at nests
      cases nests
    | some stack =>
      have split1 := (nesting_quiet quiet1 _ _).mp inner
      rw [inner, Option.bind_some, nesting, nest] at nests
      simp only at nests
      rw [nesting_append] at nests
      cases around : nesting stack second with
      | none =>
        rw [around] at nests
        cases nests
      | some rest =>
        have split2 := (nesting_quiet quiet2 _ _).mp around
        rw [around, Option.bind_some] at nests
        have loud : isQuiet p2 = false := by
          by_contra quiet
          rw [quiet_token (by simpa using quiet)] at made2
          cases made2
        refine ⟨lead, first, body, second, p2, third, rfl, ?_, closed, loud, rest, ?_, nests⟩
        · simp only [List.forall_mem_append]
          exact ⟨quiet0, quiet1, quiet2, quiet3⟩
        · rw [split1, split2]

theorem closings_append (pieces others : List Piece) :
    closings (pieces ++ others) = closings pieces ++ closings others :=
  List.filterMap_append

theorem layout_loose {lead first second third : List Piece} (value : List UInt8)
    (quiet : ∀ p ∈ lead ++ (first ++ (second ++ third)), isQuiet p = true)
    (formed : ∀ p ∈ lead ++ (first ++ (second ++ third)), p.Formed) (closed : closings lead = [])
    (once : closings first ++ (closings second ++ closings third) = [.curly]) :
    Layout.Loose ⟨lead.flatMap Piece.bytes, first.flatMap Piece.bytes,
      second.flatMap Piece.bytes, value, third.flatMap Piece.bytes⟩ := by
  have total : closings (first ++ (second ++ third)) = [.curly] := by
    rw [closings_append, closings_append]
    exact once
  have inner : ∀ p ∈ first ++ (second ++ third), p ∈ lead ++ (first ++ (second ++ third)) :=
    fun p member => List.mem_append_right lead member
  obtain ⟨fillers, counted⟩ := fillers_of_quiet (fun p member => quiet p (inner p member))
    (fun p member => formed p (inner p member)) (by simp [total])
  rw [total] at counted
  simp only [List.flatMap_append] at fillers counted
  constructor
  · exact marks_of_quiet (fun p member => quiet p (List.mem_append_left _ member))
      (fun p member => formed p (List.mem_append_left _ member)) closed
  · exact fillers
  · exact counted

theorem first_close : ∀ {pieces : List Piece} {b : Bracket} {rest : List Bracket},
    closings pieces = b :: rest → ∃ marks later, pieces = marks ++ .closes b :: later ∧
      closings marks = [] ∧ closings later = rest := by
  intro pieces
  induction pieces with
  | nil =>
    intro b rest closed
    cases closed
  | cons piece pieces ih =>
    intro b rest closed
    cases shape : closing piece with
    | some top =>
      have more : closings (piece :: pieces) = top :: closings pieces :=
        List.filterMap_cons_some shape
      rw [more] at closed
      obtain ⟨rfl, others⟩ := List.cons.inj closed
      have close : piece = .closes top := by
        cases piece with
        | closes c => exact congrArg Piece.closes (Option.some.inj shape)
        | _ => cases shape
      exact ⟨[], pieces, by rw [close]; rfl, rfl, others⟩
    | none =>
      have same : closings (piece :: pieces) = closings pieces := List.filterMap_cons_none shape
      rw [same] at closed
      obtain ⟨marks, later, split, none_closed, others⟩ := ih closed
      refine ⟨piece :: marks, later, by rw [split]; rfl, ?_, others⟩
      have stays : closings (piece :: marks) = closings marks := List.filterMap_cons_none shape
      rw [stays, none_closed]

theorem quiet_spelling {pieces : List Piece} (quiet : ∀ p ∈ pieces, isQuiet p = true) :
    pieces.flatMap pieceSpelling = [] := by
  rw [List.flatMap_eq_nil_iff]
  intro p member
  have hush := quiet p member
  cases p <;> first | rfl | cases hush

theorem value_split {piece : Piece} {third : List Piece} {stack : List Bracket}
    (loud : isQuiet piece = false) (valued : piece.Formed)
    (quiet : ∀ p ∈ third, isQuiet p = true) (formed : ∀ p ∈ third, p.Formed)
    (ends : nesting stack (piece :: third) = some []) :
    ∃ inside bytes later, piece :: third = inside ++ later ∧ ValuePieces inside bytes ∧
      closings later = stack ∧ ∀ p ∈ later, p ∈ third := by
  cases piece with
  | mark c => cases loud
  | closes b => cases loud
  | string body =>
    have rest : stack = closings third ++ [] := (nesting_quiet quiet stack []).mp ends
    rw [List.append_nil] at rest
    exact ⟨[.string body], quote body, third, rfl, .string valued, rest.symm,
      fun _ member => member⟩
  | bare text =>
    have rest : stack = closings third ++ [] := (nesting_quiet quiet stack []).mp ends
    rw [List.append_nil] at rest
    exact ⟨[.bare text], text, third, rfl, .bare valued, rest.symm, fun _ member => member⟩
  | opens b =>
    have rest : b :: stack = closings third ++ [] := (nesting_quiet quiet (b :: stack) []).mp ends
    rw [List.append_nil] at rest
    -- the container closes at the first closing bracket behind it
    obtain ⟨marks, later, rfl, bare, others⟩ := first_close rest.symm
    have inner : ∀ p ∈ marks, p ∈ marks ++ .closes b :: later :=
      fun p member => List.mem_append_left _ member
    refine ⟨.opens b :: (marks ++ [.closes b]), _, later, by simp, .container
      (fun p member => quiet p (inner p member)) (fun p member => formed p (inner p member)) bare,
      others, ?_⟩
    intro p member
    simp [member]

def frontPieces (lead first : List Piece) (key : List UInt8) (second : List Piece) : List Piece :=
  lead ++ (.opens .curly :: (first ++ (.string key :: second)))

theorem front_bytes (lead first : List Piece) (key : List UInt8) (second : List Piece) :
    (frontPieces lead first key second).flatMap Piece.bytes = lead.flatMap Piece.bytes ++
      (chr '{' :: (first.flatMap Piece.bytes ++ (quote key ++ second.flatMap Piece.bytes))) := by
  rw [frontPieces, List.flatMap_append, List.flatMap_cons, List.flatMap_append, List.flatMap_cons]
  rfl

theorem front_length (lead first : List Piece) (key : List UInt8) (second : List Piece) :
    textLength (frontPieces lead first key second) = (lead.flatMap Piece.bytes).length + 1 +
      (first.flatMap Piece.bytes).length + (key.length + 2) +
        (second.flatMap Piece.bytes).length := by
  rw [textLength, front_bytes]
  simp only [quote, List.length_append, List.length_cons, List.length_nil]
  omega

theorem checkPayload_ok_iff {msg : RecvMsg} {key : List UInt8} {value : JsmnTok} :
    checkPayload msg key = .ok value ↔ ∃ root keyTok,
      jsmnParse msg.data msg.dataLen 4 = .ok (3, [root, keyTok, value]) ∧ root.type = .object ∧
        jsoneq msg.data keyTok key = 0 := by
  unfold checkPayload
  constructor
  · intro accepted
    cases parsed : jsmnParse msg.data msg.dataLen 4 with
    | error r =>
      rw [parsed] at accepted
      cases accepted
    | ok result =>
      obtain ⟨r, filled⟩ := result
      rw [parsed] at accepted
      simp only at accepted
      split_ifs at accepted with shape other
      simp only [not_or, not_not] at shape other
      obtain ⟨rfl, object⟩ := shape
      obtain ⟨_, _, _, _, counted, _⟩ := jsmnParse_sound parsed
      obtain ⟨root, keyTok, last, rfl⟩ := List.length_eq_three.mp counted.symm
      obtain rfl : last = value := Except.ok.inj accepted
      exact ⟨root, keyTok, rfl, object, other⟩
  · rintro ⟨root, keyTok, parsed, object, keyed⟩
    rw [parsed]
    simp only
    rw [if_neg, if_neg]
    · rfl
    · exact fun other => other keyed
    · rintro (few | other)
      · exact few rfl
      · exact other object

theorem accepted_layout {msg : RecvMsg} {key : List UInt8} (nonempty : key ≠ [])
    (clean : ∀ c ∈ key, c ≠ 0) {value : JsmnTok} (accepted : checkPayload msg key = .ok value) :
    ∃ l : Layout, l.Loose ∧ strn msg.data msg.dataLen = l.text key ∧
      ValueAt (l.valueOffset key) value l.value := by
  obtain ⟨u0, u1, parsed, object, other⟩ := checkPayload_ok_iff.mp accepted
  obtain ⟨pieces, lexed, nests, outlined, _, _⟩ := jsmnParse_sound parsed
  have rootObject : (outlineOf u0).type = .object := (outlineOf_type u0).trans object
  obtain ⟨string, bytes⟩ := (jsoneq_iff msg.data u1 nonempty clean).mp other
  have keyString : (outlineOf u1).type = .string := (outlineOf_type u1).trans string
  obtain ⟨lead, first, body, second, piece, third, split, quiet, closed, loud, stack, once,
    ends⟩ := three_tokens nests outlined.symm rootObject keyString
  have formed := lexes_formed lexed
  have text := lexed.bytes
  have spelled := jsmnParse_spelling lexed outlined
  subst split
  have around : ∀ p ∈ lead ++ (first ++ (second ++ third)), p.Formed := by
    intro p member
    apply formed
    simp only [List.mem_append, List.mem_cons] at member ⊢
    tauto
  obtain ⟨quiet0, quiet1, quiet2, quiet3⟩ : (∀ p ∈ lead, isQuiet p = true) ∧
      (∀ p ∈ first, isQuiet p = true) ∧ (∀ p ∈ second, isQuiet p = true) ∧
      ∀ p ∈ third, isQuiet p = true := by
    simpa only [List.forall_mem_append] using quiet
  have keyed : body = key := by
    simp only [List.flatMap_append, List.flatMap_cons, quiet_spelling quiet0,
      quiet_spelling quiet1, quiet_spelling quiet2, quiet_spelling quiet3] at spelled
    have second : spell msg.data u1 = (.string, body) := (List.cons.inj (List.cons.inj spelled).2).1
    exact (spell_scalar second (Or.inl rfl)).2.symm.trans bytes
  subst keyed
  obtain ⟨inside, bytes, later, same, valued, others, kept⟩ := value_split loud
    (formed piece (by simp)) quiet3 (fun p member => around p (by simp [member])) ends
  have inner : ∀ p ∈ lead ++ (first ++ (second ++ later)),
      p ∈ lead ++ (first ++ (second ++ third)) := by
    intro p member
    simp only [List.mem_append] at member ⊢
    exact member.imp_right (Or.imp_right (Or.imp_right (kept p)))
  have loose := layout_loose bytes (fun p member => quiet p (inner p member))
    (fun p member => around p (inner p member)) closed (others ▸ once)
  have whole : lead ++ (.opens .curly :: (first ++ (.string body :: (second ++ (piece :: third))))) =
      frontPieces lead first body second ++ (inside ++ later) := by
    rw [same]
    simp [frontPieces]
  rw [whole] at lexed text
  have placed := value_at lexed valued (fun p member => quiet3 p (kept p member)) parsed rfl
  rw [front_length] at placed
  refine ⟨_, loose, ?_, placed⟩
  rw [text, List.flatMap_append, List.flatMap_append, front_bytes, valuePieces_bytes valued]
  simp [Layout.text]

inductive IsValue : List UInt8 → Prop where
  | string {body : List UInt8} : StringBody body → IsValue (quote body)
  | bare {text : List UInt8} : BareText text → IsValue text
  | container {b : Bracket} {marks : List UInt8} : (∀ c ∈ marks, isMark c = true) →
    IsValue (b.opening :: (marks ++ [b.closing]))

def fillerPiece (c : UInt8) : Piece := if c = chr '}' then .closes .curly else .mark c

def fillerPieces (text : List UInt8) : List Piece := text.map fillerPiece

theorem filler_piece {c : UInt8} (filler : isFiller c = true) :
    (fillerPiece c).bytes = [c] ∧ (fillerPiece c).Formed ∧ isQuiet (fillerPiece c) = true ∧
      isPrimitiveEnd c = true := by
  unfold fillerPiece
  split
  · rename_i close
    subst close
    exact ⟨rfl, trivial, rfl, by decide⟩
  · rename_i other
    have mark : isMark c = true := by simpa [isFiller, other] using filler
    refine ⟨rfl, mark, rfl, ?_⟩
    rcases mark_kinds mark with rfl | rfl | rfl | rfl | rfl | rfl <;> decide

theorem lexes_fillers {w text : List UInt8} {pieces : List Piece}
    (fillers : ∀ c ∈ w, isFiller c = true) (lexed : Lexes text pieces) :
    Lexes (w ++ text) (fillerPieces w ++ pieces) := by
  induction w with
  | nil => exact lexed
  | cons c w ih =>
    obtain ⟨bytes, formed, quiet, _⟩ := filler_piece (fillers c (by simp))
    have ends : (fillerPiece c).Ends (w ++ text) := by
      cases shape : fillerPiece c with
      | bare inside =>
        rw [shape] at quiet
        cases quiet
      | _ => trivial
    have step := Lexes.cons (fillerPiece c) formed ends (ih fun x member => fillers x (by simp [member]))
    rw [bytes] at step
    exact step

theorem fillers_quiet {w : List UInt8} (fillers : ∀ c ∈ w, isFiller c = true) :
    ∀ p ∈ fillerPieces w, isQuiet p = true := by
  intro p member
  obtain ⟨c, listed, rfl⟩ := List.mem_map.mp member
  exact (filler_piece (fillers c listed)).2.2.1

theorem closings_fillers (w : List UInt8) :
    closings (fillerPieces w) = List.replicate (w.count (chr '}')) .curly := by
  induction w with
  | nil => rfl
  | cons c w ih =>
    have split : closings (fillerPieces (c :: w)) =
        (closing (fillerPiece c)).toList ++ closings (fillerPieces w) := by
      simp only [closings, fillerPieces, List.map_cons, List.filterMap_cons]
      cases closing (fillerPiece c) <;> rfl
    rw [split, ih, List.count_cons, fillerPiece]
    by_cases close : c = chr '}'
    · rw [if_pos close, close, beq_self_eq_true, if_pos rfl, List.replicate_succ]
      rfl
    · rw [if_neg close, beq_eq_false_iff_ne.mpr close]
      rfl

theorem stops_fillers {w : List UInt8} (fillers : ∀ c ∈ w, isFiller c = true) : Stops w := by
  intro c first
  exact (filler_piece (fillers c (List.mem_of_mem_head? first))).2.2.2

theorem fillers_formed {w : List UInt8} (fillers : ∀ c ∈ w, isFiller c = true) :
    ∀ p ∈ fillerPieces w, p.Formed := by
  intro p member
  obtain ⟨c, listed, rfl⟩ := List.mem_map.mp member
  exact (filler_piece (fillers c listed)).2.1

theorem fillers_bytes {w : List UInt8} (fillers : ∀ c ∈ w, isFiller c = true) :
    (fillerPieces w).flatMap Piece.bytes = w := by
  induction w with
  | nil => rfl
  | cons c w ih =>
    have rest := ih fun x member => fillers x (by simp [member])
    rw [fillerPieces, List.map_cons, List.flatMap_cons, (filler_piece (fillers c (by simp))).1]
    exact congrArg (c :: ·) rest

theorem lexes_value {value text : List UInt8} (shape : IsValue value) {pieces : List Piece}
    (stops : Stops text) (lexed : Lexes text pieces) :
    ∃ inside, Lexes (value ++ text) (inside ++ pieces) ∧ ValuePieces inside value := by
  cases shape with
  | @string body formed =>
    exact ⟨[.string body], .cons (.string body) formed trivial lexed, .string formed⟩
  | bare formed => exact ⟨[.bare value], .cons (.bare value) formed stops lexed, .bare formed⟩
  | @container b marks inner =>
    have fillers : ∀ c ∈ marks, isFiller c = true := by
      intro c member
      simp [isFiller, inner c member]
    have none_closed : closings (fillerPieces marks) = [] := by
      have absent : chr '}' ∉ marks := fun member => mark_ne_close (inner _ member) rfl
      rw [closings_fillers, List.count_eq_zero_of_not_mem absent]
      rfl
    have closed : Lexes (b.closing :: text) (.closes b :: pieces) :=
      .cons (.closes b) trivial trivial lexed
    have opened : Lexes (b.opening :: (marks ++ (b.closing :: text)))
        (.opens b :: (fillerPieces marks ++ (.closes b :: pieces))) :=
      .cons (.opens b) trivial trivial (lexes_fillers fillers closed)
    have pieces := ValuePieces.container (b := b) (fillers_quiet fillers) (fillers_formed fillers)
      none_closed
    rw [fillers_bytes fillers] at pieces
    exact ⟨_, by simpa using opened, pieces⟩

theorem value_nests {inside : List Piece} {bytes : List UInt8} (value : ValuePieces inside bytes)
    (stack : List Bracket) : nesting stack inside = some stack := by
  cases value with
  | string => rfl
  | bare => rfl
  | @container b marks quiet _ closed =>
    have stays := (nesting_quiet quiet (b :: stack) (b :: stack)).mpr (by rw [closed]; rfl)
    simp [nesting, nest, nesting_append, stays]

theorem value_spelling {inside : List Piece} {bytes : List UInt8}
    (value : ValuePieces inside bytes) : ∃ s, inside.flatMap pieceSpelling = [s] := by
  cases value with
  | string => exact ⟨_, rfl⟩
  | bare => exact ⟨_, rfl⟩
  | @container b marks quiet =>
    refine ⟨(b.type, []), ?_⟩
    rw [List.flatMap_cons, List.flatMap_append, quiet_spelling quiet]
    rfl

theorem spelled_accepted {msg : RecvMsg} {key : List UInt8} (nonempty : key ≠ [])
    (clean : ∀ c ∈ key, c ≠ 0) {toks : List JsmnTok} {value : Spelling}
    (parsed : jsmnParse msg.data msg.dataLen 4 = .ok (3, toks))
    (spelled : toks.map (spell msg.data) = [(.object, []), (.string, key), value]) :
    ∃ tok, checkPayload msg key = .ok tok ∧ toks.getLast? = some tok ∧
      spell msg.data tok = value := by
  obtain ⟨t0, rest, rfl, object, spelled⟩ := List.map_eq_cons_iff.mp spelled
  obtain ⟨t1, rest, rfl, string, spelled⟩ := List.map_eq_cons_iff.mp spelled
  obtain ⟨t2, rest, rfl, last, spelled⟩ := List.map_eq_cons_iff.mp spelled
  obtain rfl := List.map_eq_nil_iff.mp spelled
  have keyed : jsoneq msg.data t1 key = 0 := (jsoneq_spell msg.data t1 nonempty clean).mpr string
  exact ⟨t2, checkPayload_ok_iff.mpr ⟨t0, t1, parsed, congrArg Prod.fst object, keyed⟩, rfl,
    last⟩

def loosePieces (l : Layout) (key : List UInt8) (inside : List Piece) : List Piece :=
  frontPieces (fillerPieces l.lead) (fillerPieces l.first) key (fillerPieces l.second) ++
    (inside ++ fillerPieces l.third)

theorem loose_parts {l : Layout} (loose : l.Loose) : (∀ c ∈ l.lead, isFiller c = true) ∧
    (∀ c ∈ l.first, isFiller c = true) ∧ (∀ c ∈ l.second, isFiller c = true) ∧
    ∀ c ∈ l.third, isFiller c = true := by
  constructor
  · intro c member
    simp [isFiller, loose.lead c member]
  · simpa only [Layout.fillers, List.forall_mem_append] using loose.fillers

theorem nesting_fillers {w : List UInt8} (fillers : ∀ c ∈ w, isFiller c = true) (n : Nat) :
    nesting (List.replicate (w.count (chr '}') + n) .curly) (fillerPieces w) =
      some (List.replicate n .curly) := by
  apply (nesting_quiet (fillers_quiet fillers) _ _).mpr
  rw [closings_fillers, List.replicate_append_replicate]

theorem loose_nests {l : Layout} (loose : l.Loose) (key : List UInt8) {inside : List Piece}
    (flat : ∀ stack, nesting stack inside = some stack) :
    nesting [] (loosePieces l key inside) = some [] := by
  obtain ⟨fillers0, fillers1, fillers2, fillers3⟩ := loose_parts loose
  have once : l.first.count (chr '}') + (l.second.count (chr '}') + l.third.count (chr '}')) = 1 := by
    have closed := loose.closed
    simp only [Layout.fillers, List.count_append] at closed
    exact closed
  have leads : nesting [] (fillerPieces l.lead) = some [] := by
    have absent : chr '}' ∉ l.lead := fun member => mark_ne_close (loose.lead _ member) rfl
    have stays := nesting_fillers fillers0 0
    rw [List.count_eq_zero_of_not_mem absent] at stays
    exact stays
  have firsts := nesting_fillers fillers1 (l.second.count (chr '}') + l.third.count (chr '}'))
  have seconds := nesting_fillers fillers2 (l.third.count (chr '}'))
  have thirds := nesting_fillers fillers3 0
  rw [once] at firsts
  have opened : [Bracket.curly] = List.replicate 1 .curly := rfl
  simp only [loosePieces, frontPieces, nesting_append, leads, Option.bind_some, nesting, nest,
    opened, firsts, seconds, flat]
  exact thirds

theorem loose_spelling {l : Layout} (loose : l.Loose) (key : List UInt8) {inside : List Piece}
    {value : Spelling} (one : inside.flatMap pieceSpelling = [value]) :
    (loosePieces l key inside).flatMap pieceSpelling = [(.object, []), (.string, key), value] := by
  obtain ⟨fillers0, fillers1, fillers2, fillers3⟩ := loose_parts loose
  simp only [loosePieces, frontPieces, List.flatMap_append, List.flatMap_cons,
    quiet_spelling (fillers_quiet fillers0), quiet_spelling (fillers_quiet fillers1),
    quiet_spelling (fillers_quiet fillers2), quiet_spelling (fillers_quiet fillers3), one]
  rfl

theorem loose_accepted {msg : RecvMsg} {key : List UInt8} (nonempty : key ≠ [])
    (plain : ∀ c ∈ key, isPlain c = true) {l : Layout} (loose : l.Loose)
    (text : strn msg.data msg.dataLen = l.text key) (shape : IsValue l.value) :
    ∃ tok, checkPayload msg key = .ok tok ∧ ValueAt (l.valueOffset key) tok l.value := by
  have clean : ∀ c ∈ key, c ≠ 0 := by
    rintro c member rfl
    exact absurd (plain 0 member) (by decide)
  obtain ⟨fillers0, fillers1, fillers2, fillers3⟩ := loose_parts loose
  have third : Lexes l.third (fillerPieces l.third) := by
    have whole := lexes_fillers fillers3 .nil
    rw [List.append_nil, List.append_nil] at whole
    exact whole
  obtain ⟨inside, lexed, valued⟩ := lexes_value shape (stops_fillers fillers3) third
  have whole : Lexes (strn msg.data msg.dataLen) (loosePieces l key inside) := by
    simp only [text, loosePieces, frontPieces, List.append_assoc, List.cons_append]
    exact lexes_fillers fillers0 (.cons (.opens .curly) trivial trivial
      (lexes_fillers fillers1 (lexes_quote ⟨key, plain⟩ (lexes_fillers fillers2 lexed))))
  obtain ⟨s, one⟩ := value_spelling valued
  have spelling := loose_spelling loose key one
  have room : (tokensAt 0 (loosePieces l key inside)).length ≤ 4 := by
    rw [tokensAt_length, spelling]
    exact Nat.le_succ 3
  obtain ⟨toks, parsed, outlined⟩ :=
    jsmnParse_accepts whole (loose_nests loose key (value_nests valued)) room
  have spelled := jsmnParse_spelling whole outlined
  rw [spelling] at spelled
  have counted : toks.length = 3 := by
    rw [← List.length_map (f := spell msg.data), spelled]
    rfl
  rw [counted] at parsed
  obtain ⟨tok, accepted, last, _⟩ := spelled_accepted nonempty clean parsed spelled
  have placed := value_at whole valued (fillers_quiet fillers3) parsed last
  rw [front_length, fillers_bytes fillers0, fillers_bytes fillers1, fillers_bytes fillers2]
    at placed
  exact ⟨tok, accepted, placed⟩

def handlerKeys : List String := ["speed", "direction", "status"]

theorem handlerKey_text {key : String} (handled : key ∈ handlerKeys) :
    lit key ≠ [] ∧ (∀ c ∈ lit key, c ≠ 0) ∧ ∀ c ∈ lit key, isPlain c = true := by
  have texts : ∀ key ∈ handlerKeys, lit key ≠ [] ∧ ((lit key).all fun c => c != 0) = true ∧
      (lit key).all isPlain = true := by
    decide
  obtain ⟨nonempty, clean, plain⟩ := texts key handled
  exact ⟨nonempty, clean_of_all clean, List.all_eq_true.mp plain⟩

/-- The handlers accept exactly the payloads of this layout, up to their first NUL, and take
    the value token for its value. -/
theorem accepted_iff_layout (msg : RecvMsg) {key : String} (handled : key ∈ handlerKeys) :
    (∀ tok, checkPayload msg (lit key) = .ok tok → ∃ l : Layout, l.Loose ∧
      strn msg.data msg.dataLen = l.text (lit key) ∧ ValueAt (l.valueOffset (lit key)) tok l.value) ∧
    ∀ l : Layout, l.Loose → strn msg.data msg.dataLen = l.text (lit key) → IsValue l.value →
      ∃ tok, checkPayload msg (lit key) = .ok tok ∧
        ValueAt (l.valueOffset (lit key)) tok l.value := by
  obtain ⟨nonempty, clean, plain⟩ := handlerKey_text handled
  constructor
  · intro tok accepted
    exact accepted_layout nonempty clean accepted
  · intro l loose text shape
    exact loose_accepted nonempty plain loose text shape

def SingleMember (text key : List UInt8) : Prop :=
  ∃ w0 w1 w2 w3 w4 w5 : Blank, ∃ value : List UInt8,
    text = w0.text ++ (chr '{' :: (w1.text ++ (quote key ++ (w2.text ++ (chr ':' ::
      (w3.text ++ (value ++ (w4.text ++ (chr '}' :: w5.text)))))))))

theorem singleMember_last {text key : List UInt8} (single : SingleMember text key) :
    ∃ c, text.getLast? = some c ∧ (c = chr '}' ∨ isBlank c = true) := by
  obtain ⟨w0, w1, w2, w3, w4, w5, value, rfl⟩ := single
  refine ⟨w5.text.getLast?.getD (chr '}'), ?_, ?_⟩
  · simp [List.getLast?_append, List.getLast?_cons]
  · cases last : w5.text.getLast? with
    | none => exact Or.inl rfl
    | some c => exact Or.inr (w5.blank c (List.mem_of_getLast? last))

def valueOutside : RecvMsg := message "firefighter/sensor" "\x7b\"direction\"\x7dforward"

theorem valueOutside_accepted : ¬ ∀ (msg : RecvMsg), ∀ key ∈ handlerKeys, ∀ tok,
    checkPayload msg (lit key) = .ok tok →
      SingleMember (msg.data.image msg.dataLen) (lit key) := by
  intro every
  have single := every valueOutside "direction" (by decide) ⟨.primitive, 13, 20, 0⟩ (by decide)
  obtain ⟨c, last, kind⟩ := singleMember_last single
  have final : (valueOutside.data.image valueOutside.dataLen).getLast? = some (chr 'd') := by
    decide
  rw [final] at last
  cases last
  rcases kind with close | blank
  · exact absurd close (by decide)
  · exact absurd blank (by decide)

theorem accepted_layout_forward : ∃ l : Layout, l.Loose ∧
    strn valueOutside.data valueOutside.dataLen = l.text (lit "direction") ∧
      ValueAt (l.valueOffset (lit "direction")) ⟨.primitive, 13, 20, 0⟩ l.value :=
  (accepted_iff_layout valueOutside (by decide : "direction" ∈ handlerKeys)).1 _ (by decide)

end RoverAcceptance
