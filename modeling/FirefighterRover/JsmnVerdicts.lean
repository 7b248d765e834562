import FirefighterRover.JsmnCounting

/-!
What the error codes of jsmn_parse promise. With enough entries JSMN_ERROR_PART means that the
text goes on: some continuation of it is accepted. JSMN_ERROR_INVAL means that it is beyond
repair, whatever follows. A caller that receives a text bit by bit may stop at the second and
must wait at the first.
-/
namespace RoverVerdicts
open CMemory RoverJsmn RoverLexing RoverOutline RoverFlat RoverMachine RoverCounting

def Clean (js : Ptr) (len : Nat) : Prop := ∀ i, i < len → js i ≠ 0

/-- The beginning of the inside of a string. -/
def Begun (text : List UInt8) : Prop := ∃ more, StringBody (text ++ more)

section
variable {js : Ptr} {len : Nat}

theorem remaining_ends (clean : Clean js len) {pos : Nat} (left : remaining js len pos = []) :
    ¬ pos < len :=
  fun bound => remaining_nil left ⟨bound, clean pos bound⟩

theorem remaining_size (clean : Clean js len) {pos : Nat} : (remaining js len pos).length = len - pos := by
  induction left : len - pos generalizing pos with
  | zero =>
    have outside : ¬(pos < len ∧ js pos ≠ 0) := by omega
    rw [remaining_end outside]
    rfl
  | succ n ih =>
    have bound : pos < len := by omega
    rw [remaining_step ⟨bound, clean pos bound⟩, List.length_cons, ih (by omega)]

theorem hexDigits_reads : ∀ {count pos e : Nat}, hexDigits js len count pos = .ok e →
    ∃ digits, remaining js len pos = digits ++ remaining js len e ∧ digits.length ≤ count ∧
      (∀ c ∈ digits, isHexDigit c = true) ∧ (digits.length = count ∨ remaining js len e = []) := by
  intro count
  induction count with
  | zero =>
    intro pos e read
    obtain rfl := Except.ok.inj read
    exact ⟨[], rfl, Nat.le_refl _, by simp, .inl rfl⟩
  | succ count ih =>
    intro pos e read
    rw [hexDigits] at read
    split at read
    · rename_i inside
      split at read
      · rename_i hex
        obtain ⟨digits, rest, few, all, ends⟩ := ih read
        refine ⟨js pos :: digits, ?_, by simpa using few, ?_, ?_⟩
        · rw [remaining_step inside, rest]
          rfl
        · intro c member
          rcases List.mem_cons.mp member with rfl | member
          · exact hex
          · exact all c member
        · rcases ends with size | stopped
          · exact .inl (by rw [List.length_cons, size])
          · exact .inr stopped
      · cases read
    · rename_i outside
      obtain rfl := Except.ok.inj read
      exact ⟨[], rfl, Nat.zero_le _, by simp, .inr (remaining_end outside)⟩

theorem hexDigits_short : ∀ {digits : List UInt8} {count pos : Nat},
    remaining js len pos = digits → digits.length ≤ count →
    (∀ c ∈ digits, isHexDigit c = true) →
    ∃ e, hexDigits js len count pos = .ok e ∧ remaining js len e = [] := by
  intro digits
  induction digits with
  | nil =>
    intro count pos read _ _
    refine ⟨pos, ?_, read⟩
    cases count with
    | zero => rfl
    | succ count => exact if_neg (remaining_nil read)
  | cons c digits ih =>
    intro count pos read few all
    obtain ⟨inside, first, rest⟩ := remaining_cons read
    obtain ⟨count, rfl⟩ : ∃ n, count = n + 1 :=
      ⟨count - 1, by simp only [List.length_cons] at few; omega⟩
    obtain ⟨e, passed, stopped⟩ := ih rest (by simpa using few)
      (fun x member => all x (by simp [member]))
    refine ⟨e, ?_, stopped⟩
    rw [hexDigits, if_pos inside, first, if_pos (all c (by simp))]
    exact passed

theorem hexDigits_error : ∀ {count pos : Nat} {e : JsmnErr},
    hexDigits js len count pos = .error e → e = .inval := by
  intro count
  induction count with
  | zero => intro pos e broken; cases broken
  | succ count ih =>
    intro pos e broken
    rw [hexDigits] at broken
    split at broken
    · split at broken
      · exact ih broken
      · cases broken
        rfl
    · cases broken

theorem stringEnd_part {pos : Nat} (left : remaining js len pos = []) (fuel : Nat) :
    stringEnd js len fuel pos = .error .part := by
  cases fuel with
  | zero => rfl
  | succ fuel => exact if_neg (remaining_nil left)

theorem remaining_begins {pos : Nat} {c : UInt8} {rest more : List UInt8}
    (same : c :: rest = remaining js len pos ++ more) : remaining js len pos = [] ∨
    ((pos < len ∧ js pos ≠ 0) ∧ js pos = c ∧ rest = remaining js len (pos + 1) ++ more) := by
  cases text : remaining js len pos with
  | nil => exact .inl rfl
  | cons d tail =>
    obtain ⟨inside, first, next⟩ := remaining_cons text
    rw [text, List.cons_append] at same
    injection same with head tail_
    exact .inr ⟨inside, by rw [first, head], by rw [next, tail_]⟩

theorem stringEnd_begun (clean : Clean js len) {body : List UInt8} (formed : StringBody body) :
    ∀ {more : List UInt8} {pos : Nat} (fuel : Nat), body = remaining js len pos ++ more →
    stringEnd js len fuel pos = .error .part := by
  induction formed with
  | nil =>
    intro more pos fuel same
    exact stringEnd_part (List.append_eq_nil_iff.mp same.symm).1 fuel
  | plain c nonzero unquoted unescaped _ ih =>
    intro more pos fuel same
    rcases remaining_begins same with ended | ⟨inside, first, rest⟩
    · exact stringEnd_part ended fuel
    cases fuel with
    | zero => rfl
    | succ fuel =>
      rw [stringEnd, if_pos inside, first, if_neg unquoted, if_neg fun h => unescaped h.1]
      exact ih fuel rest
  | escape c simple _ ih =>
    intro more pos fuel same
    rcases remaining_begins same with ended | ⟨inside, first, rest⟩
    · exact stringEnd_part ended fuel
    cases fuel with
    | zero => rfl
    | succ fuel =>
      rw [stringEnd, if_pos inside, first, if_neg (by decide)]
      rcases remaining_begins rest with ended | ⟨⟨bound, _⟩, second, rest⟩
      · rw [if_neg fun h => remaining_ends clean ended h.2]
        exact stringEnd_part ended fuel
      · rw [if_pos ⟨rfl, bound⟩, second, if_pos simple]
        exact ih fuel rest
  | @unicode digits tail four hex _ ih =>
    intro more pos fuel same
    rcases remaining_begins same with ended | ⟨inside, first, rest⟩
    · exact stringEnd_part ended fuel
    cases fuel with
    | zero => rfl
    | succ fuel =>
      rw [stringEnd, if_pos inside, first, if_neg (by decide)]
      rcases remaining_begins rest with ended | ⟨⟨bound, _⟩, second, rest⟩
      · rw [if_neg fun h => remaining_ends clean ended h.2]
        exact stringEnd_part ended fuel
      rw [if_pos ⟨rfl, bound⟩, second, if_neg (by decide), if_pos rfl]
      rcases List.append_eq_append_iff.mp rest with ⟨left, read, rest⟩ | ⟨missing, all, _⟩
      · have scanned := hexDigits_digits read hex
        have after := remaining_append read
        rw [four] at scanned after
        rw [scanned]
        exact ih fuel (after ▸ rest)
      · -- the text ends among the digits
        have few : (remaining js len (pos + 2)).length ≤ 4 := by
          rw [← four, all, List.length_append]
          exact Nat.le_add_right _ _
        obtain ⟨e, scanned, stopped⟩ := hexDigits_short rfl few
          fun c member => hex c (by rw [all]; exact List.mem_append_left _ member)
        rw [scanned]
        exact stringEnd_part stopped fuel

theorem begun_nil : Begun [] := ⟨[], .nil⟩

theorem begun_of_part (clean : Clean js len) : ∀ {fuel pos : Nat}, len - pos ≤ fuel →
    stringEnd js len fuel pos = .error .part → Begun (remaining js len pos) := by
  intro fuel
  induction fuel with
  | zero =>
    intro pos room _
    have outside : ¬(pos < len ∧ js pos ≠ 0) := by omega
    rw [remaining_end outside]
    exact begun_nil
  | succ fuel ih =>
    intro pos room broken
    by_cases inside : pos < len ∧ js pos ≠ 0
    · rw [stringEnd, if_pos inside] at broken
      by_cases quote : js pos = chr '\"'
      · rw [if_pos quote] at broken
        cases broken
      rw [if_neg quote] at broken
      by_cases backslash : js pos = chr '\\'
      · by_cases bound : pos + 1 < len
        · have second := remaining_step ⟨bound, clean (pos + 1) bound⟩
          rw [if_pos ⟨backslash, bound⟩] at broken
          rw [remaining_step inside, second, backslash]
          by_cases simple : isSimpleEscape (js (pos + 1)) = true
          · rw [if_pos simple] at broken
            obtain ⟨more, formed⟩ := ih (by omega) broken
            exact ⟨more, .escape _ simple formed⟩
          rw [if_neg simple] at broken
          by_cases unicode : js (pos + 1) = chr 'u'
          · rw [if_pos unicode] at broken
            cases scanned : hexDigits js len 4 (pos + 2) with
            | error e =>
              rw [scanned] at broken
              have invalid := hexDigits_error scanned
              rw [invalid] at broken
              cases broken
            | ok next =>
              rw [scanned] at broken
              obtain ⟨digits, read, few, all, ends⟩ := hexDigits_reads scanned
              have shorter := congrArg List.length read
              rw [List.length_append, remaining_size clean, remaining_size clean] at shorter
              obtain ⟨more, formed⟩ := ih (by omega) broken
              rw [unicode, read]
              rcases ends with four | stopped
              · refine ⟨more, ?_⟩
                have whole := StringBody.unicode digits four all formed
                simpa using whole
              · refine ⟨List.replicate (4 - digits.length) (chr '0'), ?_⟩
                rw [stopped]
                have four : (digits ++ List.replicate (4 - digits.length) (chr '0')).length = 4 := by
                  rw [List.length_append, List.length_replicate]
                  omega
                have whole := StringBody.unicode _ four (fun c member => by
                  rcases List.mem_append.mp member with digit | zero
                  · exact all c digit
                  · rw [List.eq_of_mem_replicate zero]
                    decide) .nil
                simpa using whole
          · rw [if_neg unicode] at broken
            cases broken
        · have last : remaining js len (pos + 1) = [] := remaining_end fun h => bound h.1
          rw [remaining_step inside, last, backslash]
          exact ⟨[chr '\"'], .escape (chr '\"') (by decide) .nil⟩
      · rw [if_neg fun h => backslash h.1] at broken
        obtain ⟨more, formed⟩ := ih (by omega) broken
        rw [remaining_step inside]
        exact ⟨more, .plain _ inside.2 quote backslash formed⟩
    · rw [remaining_end inside]
      exact begun_nil

theorem stringEnd_error : ∀ {fuel pos : Nat} {e : JsmnErr},
    stringEnd js len fuel pos = .error e → e = .inval ∨ e = .part := by
  intro fuel
  induction fuel with
  | zero =>
    intro pos e broken
    cases broken
    exact .inr rfl
  | succ fuel ih =>
    intro pos e broken
    rw [stringEnd] at broken
    split at broken
    case isFalse =>
      cases broken
      exact .inr rfl
    split at broken
    · cases broken
    split at broken
    · split at broken
      · exact ih broken
      split at broken
      · cases scanned : hexDigits js len 4 (pos + 2) with
        | error r =>
          rw [scanned] at broken
          cases broken
          exact .inl (hexDigits_error scanned)
        | ok next =>
          rw [scanned] at broken
          exact ih broken
      · cases broken
        exact .inl rfl
    · exact ih broken

theorem primitiveEnd_error : ∀ {fuel pos : Nat} {e : JsmnErr},
    primitiveEnd js len fuel pos = .error e → e = .inval := by
  intro fuel
  induction fuel with
  | zero => intro pos e broken; cases broken
  | succ fuel ih =>
    intro pos e broken
    rw [primitiveEnd] at broken
    split at broken
    · split at broken
      · cases broken
      · split at broken
        · cases broken
          rfl
        · exact ih broken
    · cases broken

theorem bind_pair {α : Type} {x : Except JsmnErr α} {f : α → Nat × Nat} {e : JsmnErr}
    (broken : (x >>= fun a => Except.ok (f a)) = .error e) : x = .error e := by
  cases x with
  | error r =>
    cases broken
    rfl
  | ok a => cases broken

theorem bind_added {α : Type} {x : Except JsmnErr α} {f : α → Nat} {n : Nat} {result : Nat × Nat}
    (counted : (x >>= fun a => Except.ok (f a, n)) = .ok result) : result.2 = n := by
  cases x with
  | error r => cases counted
  | ok a =>
    cases counted
    rfl

theorem countChar_added {pos : Nat} {result : Nat × Nat}
    (counted : jsmnCountChar js len pos = .ok result) : result.2 ≤ 1 := by
  unfold jsmnCountChar at counted
  dsimp only at counted
  repeat' split at counted
  all_goals first
    | exact Nat.le_of_eq (bind_added counted)
    | (cases counted; exact Nat.le_refl 1)
    | (cases counted; exact Nat.zero_le 1)

theorem countChar_error {pos : Nat} {e : JsmnErr} (clean : Clean js len)
    (inside : pos < len ∧ js pos ≠ 0) (broken : jsmnCountChar js len pos = .error e) :
    e = .inval ∨ e = .part ∧ ∃ begun, Begun begun ∧ remaining js len pos = chr '\"' :: begun := by
  unfold jsmnCountChar at broken
  dsimp only at broken
  split at broken
  · cases broken
  split at broken
  · cases broken
  split at broken
  · rename_i quote
    have failed := bind_pair broken
    rcases stringEnd_error failed with rfl | rfl
    · exact .inl rfl
    · refine .inr ⟨rfl, _, begun_of_part clean (by omega) failed, ?_⟩
      rw [remaining_step inside, quote]
  repeat' split at broken
  all_goals first
    | cases broken
    | exact .inl (primitiveEnd_error (bind_pair broken))

theorem parseChar_error {numTokens : Nat} {parser : JsmnParser} {e : JsmnErr}
    (clean : Clean js len) (inside : parser.pos < len ∧ js parser.pos ≠ 0)
    (room : parser.tokens.length < numTokens)
    (broken : jsmnParseChar parser js len numTokens = .error e) :
    e = .inval ∨ e = .part ∧ ∃ begun, Begun begun ∧
      remaining js len parser.pos = chr '\"' :: begun := by
  rcases char_matches js len parser with ⟨r, counted, same⟩ | ⟨pos, added, counted, matching⟩
  · rw [same] at broken
    cases broken
    exact countChar_error clean inside counted
  · cases matching with
    | mismatch _ fails =>
      rw [fails] at broken
      cases broken
      exact .inl rfl
    | fills next _ size passes =>
      have one : added ≤ 1 := countChar_added counted
      rw [passes numTokens (Nat.le_of_lt room), if_pos (by omega)] at broken
      cases broken

def closers (stack : List Bracket) : List Piece := stack.map .closes

theorem lexes_closers (stack : List Bracket) :
    Lexes ((closers stack).flatMap Piece.bytes) (closers stack) := by
  induction stack with
  | nil => exact .nil
  | cons b stack ih => exact .cons (.closes b) trivial trivial ih

theorem nesting_closers (stack : List Bracket) : nesting stack (closers stack) = some [] := by
  induction stack with
  | nil => rfl
  | cons b stack ih =>
    simp only [closers, List.map_cons, nesting, nest, if_true]
    exact ih

theorem stops_closers (stack : List Bracket) : Stops ((closers stack).flatMap Piece.bytes) := by
  cases stack with
  | nil => intro c first; cases first
  | cons b stack =>
    intro c first
    obtain rfl := Option.some.inj first
    cases b <;> decide

theorem ends_append {piece : Piece} {tail more : List UInt8} (ends : piece.Ends tail)
    (stops : tail = [] → Stops more) : piece.Ends (tail ++ more) := by
  cases piece with
  | bare text =>
    cases tail with
    | nil => exact stops rfl
    | cons c tail => exact ends
  | _ => trivial

theorem lexes_closed {text : List UInt8} {pieces : List Piece} (lexed : Lexes text pieces)
    (stack : List Bracket) :
    Lexes (text ++ (closers stack).flatMap Piece.bytes) (pieces ++ closers stack) := by
  induction lexed with
  | nil => exact lexes_closers stack
  | @cons piece tail pieces formed ends _ ih =>
    rw [List.append_assoc]
    exact .cons piece formed (ends_append ends fun _ => stops_closers stack) ih

/-- A text with the containers `stack` around it can go on to their ends. -/
def GoesOn (stack : List Bracket) (text : List UInt8) : Prop :=
  ∃ more pieces, Lexes (text ++ more) pieces ∧ nesting stack pieces = some []

theorem goesOn_string {begun : List UInt8} (begins : Begun begun) (stack : List Bracket) :
    GoesOn stack (chr '\"' :: begun) := by
  obtain ⟨more, formed⟩ := begins
  let string : Piece := .string (begun ++ more)
  have lexed : Lexes _ (string :: closers stack) :=
    .cons string formed trivial (lexes_closers stack)
  refine ⟨more ++ chr '\"' :: (closers stack).flatMap Piece.bytes, string :: closers stack, ?_,
    nesting_closers stack⟩
  simpa [string, Piece.bytes] using lexed

theorem goesOn_cons {stack rest : List Bracket} {piece : Piece} {tail : List UInt8}
    (formed : piece.Formed) (ends : piece.Ends tail) (nested : nest piece stack = some rest)
    (present : tail ≠ []) (goes : GoesOn rest tail) : GoesOn stack (piece.bytes ++ tail) := by
  obtain ⟨more, pieces, lexed, nests⟩ := goes
  refine ⟨more, piece :: pieces, ?_, ?_⟩
  · rw [List.append_assoc]
    exact .cons piece formed (ends_append ends fun empty => absurd empty present) lexed
  · simp only [nesting, nested]
    exact nests

theorem pieceToken_length (off : Nat) (piece : Piece) : (pieceToken off piece).length ≤ 1 := by
  cases piece <;> simp [pieceToken]

theorem parseLoop_over {numTokens fuel count : Nat} (parser : JsmnParser)
    (left : remaining js len parser.pos = []) :
    jsmnParseLoop js len numTokens fuel parser count = .ok (parser, count) := by
  cases fuel with
  | zero => rfl
  | succ fuel => exact if_neg (remaining_nil left)

theorem parseLoop_piece {numTokens : Nat} {parser : JsmnParser} {tokens : List JsmnTok}
    {stack rest : List Bracket} {piece : Piece} {tail : List UInt8}
    (read : remaining js len parser.pos = piece.bytes ++ tail) (formed : piece.Formed)
    (ends : piece.Ends tail) (nested : nest piece stack = some rest)
    (view : Outline numTokens parser tokens stack)
    (room : tokens.length + (len - parser.pos) ≤ numTokens) :
    ∃ (next : JsmnParser) (added : Nat) (later : List JsmnTok), Outline numTokens next later rest ∧
      later.length + (len - next.pos) ≤ numTokens ∧ remaining js len next.pos = tail ∧
      ∀ fuel count, jsmnParseLoop js len numTokens (fuel + 1) parser count =
        jsmnParseLoop js len numTokens fuel next (count + added) := by
  have longer : 0 < piece.bytes.length := Piece.bytes_pos formed
  have one := pieceToken_length parser.pos piece
  have inside : parser.pos < len ∧ js parser.pos ≠ 0 := piece_inside read formed
  rcases parseChar_piece read formed ends view with
    ⟨mismatch | full, _⟩ | ⟨next, rest', passed, nested', moved, view'⟩
  · rw [nested] at mismatch
    cases mismatch
  · omega
  · rw [nested] at nested'
    obtain rfl := Option.some.inj nested'
    refine ⟨{ next with pos := next.pos + 1 }, (pieceToken parser.pos piece).length, _,
      outline_toksuper view' _ _, ?_, ?_, ?_⟩
    · rw [List.length_append]
      simp only
      omega
    · simp only [moved]
      exact remaining_append read
    · intro fuel count
      rw [jsmnParseLoop, if_pos inside, passed]
      rfl

theorem parseLoop_error (clean : Clean js len) {numTokens : Nat} {e : JsmnErr} :
    ∀ {fuel count : Nat} (parser : JsmnParser) {tokens : List JsmnTok} {stack : List Bracket},
    Outline numTokens parser tokens stack → tokens.length + (len - parser.pos) ≤ numTokens →
    jsmnParseLoop js len numTokens fuel parser count = .error e →
    e = .inval ∨ e = .part ∧ GoesOn stack (remaining js len parser.pos) := by
  intro fuel
  induction fuel with
  | zero => intro count parser tokens stack _ _ broken; cases broken
  | succ fuel ih =>
    intro count parser tokens stack view room broken
    by_cases inside : parser.pos < len ∧ js parser.pos ≠ 0
    · cases char : jsmnParseChar parser js len numTokens with
      | error r =>
        have size := view.length
        rw [jsmnParseLoop, if_pos inside, char] at broken
        cases broken
        rcases parseChar_error clean inside (by omega) char with
          invalid | ⟨part, begun, begins, text⟩
        · exact .inl invalid
        · rw [text]
          exact .inr ⟨part, goesOn_string begins stack⟩
      | ok result =>
        obtain ⟨piece, tail, read, formed, ends⟩ := parseChar_lexes inside char
        rcases parseChar_piece read formed ends view with
          ⟨_, r, failed⟩ | ⟨_, rest, _, nested, _, _⟩
        · rw [failed] at char
          cases char
        · obtain ⟨next, added, later, view', room', left, step⟩ :=
            parseLoop_piece read formed ends nested view room
          rw [step] at broken
          have present : tail ≠ [] := by
            rintro rfl
            rw [parseLoop_over next left] at broken
            cases broken
          rcases ih next view' room' broken with invalid | ⟨part, goes⟩
          · exact .inl invalid
          · rw [left] at goes
            rw [read]
            exact .inr ⟨part, goesOn_cons formed ends nested present goes⟩
    · rw [jsmnParseLoop, if_neg inside] at broken
      cases broken

theorem broken_off {piece : Piece} (formed : piece.Formed) {begun missing : List UInt8}
    (more : missing ≠ []) (same : piece.bytes = begun ++ missing) : begun = [] ∨
    BareText begun ∨ ∃ body, begun = chr '\"' :: body ∧ Begun body := by
  cases begun with
  | nil => exact .inl rfl
  | cons c begun =>
    right
    have one (b : UInt8) (alone : piece.bytes = [b]) : False := by
      rw [alone, List.cons_append] at same
      injection same with _ nothing
      exact more (List.append_eq_nil_iff.mp nothing.symm).2
    cases piece with
    | mark b => exact (one b rfl).elim
    | opens b => exact (one b.opening rfl).elim
    | closes b => exact (one b.closing rfl).elim
    | bare text =>
      left
      have bytes : text = c :: begun ++ missing := same
      obtain ⟨d, rest, starts, start⟩ := BareText.starts formed
      refine ⟨fun x member => formed.bytes x ?_, c, begun, rfl, ?_⟩
      · rw [bytes]
        exact List.mem_append_left _ member
      · rw [bytes, List.cons_append] at starts
        injection starts with first _
        rw [first]
        exact start
    | string body =>
      right
      rw [Piece.bytes, List.cons_append] at same
      injection same with quote inner
      refine ⟨begun, by rw [← quote], ?_⟩
      -- what is missing ends with the quote
      obtain ⟨short, _, rfl⟩ : ∃ short last, missing = short ++ [last] := by
        rcases List.eq_nil_or_concat missing with empty | ⟨short, last, split⟩
        · exact absurd empty more
        · exact ⟨short, last, by simpa using split⟩
      rw [← List.append_assoc] at inner
      obtain ⟨inside, _⟩ := List.append_inj' inner rfl
      refine ⟨short, ?_⟩
      rw [← inside]
      exact formed

theorem parseChar_begun (clean : Clean js len) {numTokens : Nat} {parser : JsmnParser}
    {body : List UInt8} (begins : Begun body)
    (text : remaining js len parser.pos = chr '\"' :: body) :
    jsmnParseChar parser js len numTokens = .error .part := by
  obtain ⟨_, first, rest⟩ := remaining_cons text
  obtain ⟨more, formed⟩ := begins
  have scanned := stringEnd_begun clean formed (len - parser.pos) (by rw [rest])
  have string : jsmnParseString parser js len numTokens = .error .part := by
    rw [jsmnParseString, scanned]
    rfl
  simp only [jsmnParseChar, first, string]
  rfl

theorem ends_of_append {piece : Piece} {left more : List UInt8} (ends : piece.Ends (left ++ more)) :
    piece.Ends left := by
  cases piece with
  | bare text =>
    cases left with
    | nil => intro c first; cases first
    | cons c left => exact ends
  | _ => trivial

theorem parseLoop_keeps (clean : Clean js len) {numTokens : Nat} {whole : List UInt8}
    {pieces : List Piece} (lexed : Lexes whole pieces) :
    ∀ {fuel count : Nat} (parser : JsmnParser) {tokens : List JsmnTok} {stack final : List Bracket}
      {more : List UInt8}, whole = remaining js len parser.pos ++ more →
    nesting stack pieces = some final → Outline numTokens parser tokens stack →
    tokens.length + (len - parser.pos) ≤ numTokens →
    jsmnParseLoop js len numTokens fuel parser count ≠ .error .inval := by
  induction lexed with
  | nil =>
    intro fuel count parser tokens stack final more same _ _ _ broken
    rw [parseLoop_over parser (List.append_eq_nil_iff.mp same.symm).1] at broken
    cases broken
  | @cons piece tail pieces formed ends _ ih =>
    intro fuel count parser tokens stack final more same nests view room broken
    obtain ⟨rest, nested, nests⟩ : ∃ rest, nest piece stack = some rest ∧
        nesting rest pieces = some final := by
      rw [nesting] at nests
      cases nested : nest piece stack with
      | none =>
        rw [nested] at nests
        cases nests
      | some rest =>
        rw [nested] at nests
        exact ⟨rest, rfl, nests⟩
    have split : (∃ left, remaining js len parser.pos = piece.bytes ++ left ∧ tail = left ++ more) ∨
        ∃ missing, missing ≠ [] ∧ piece.bytes = remaining js len parser.pos ++ missing := by
      rcases List.append_eq_append_iff.mp same with ⟨left, read, behind⟩ | ⟨missing, begun, behind⟩
      · exact .inl ⟨left, read, behind⟩
      · by_cases empty : missing = []
        · subst empty
          exact .inl ⟨[], by rw [begun, List.append_nil, List.append_nil], behind.symm⟩
        · exact .inr ⟨missing, empty, begun⟩
    cases fuel with
    | zero => cases broken
    | succ fuel =>
      rcases split with ⟨left, read, behind⟩ | ⟨missing, more, begun⟩
      · obtain ⟨next, added, later, view', room', there, step⟩ :=
          parseLoop_piece read formed (ends_of_append (behind ▸ ends)) nested view room
        rw [step] at broken
        exact ih next (there ▸ behind) nests view' room' broken
      rcases broken_off formed more begun with ended | bare | ⟨body, text, begins⟩
      · rw [parseLoop_over parser ended] at broken
        cases broken
      · let value : Piece := .bare (remaining js len parser.pos)
        have read : remaining js len parser.pos = value.bytes ++ [] := (List.append_nil _).symm
        have stops : value.Ends [] := by
          intro c first
          cases first
        have formed' : value.Formed := bare
        obtain ⟨next, added, later, _, _, there, step⟩ :=
          parseLoop_piece read formed' stops rfl view room
        rw [step, parseLoop_over next there] at broken
        cases broken
      · rw [jsmnParseLoop, if_pos (remaining_cons text).1, parseChar_begun clean begins text] at broken
        cases broken

end

def Accepted (text : List UInt8) : Prop :=
  ∃ numTokens r toks, jsmnParse (cstr text) text.length numTokens = .ok (r, toks)

theorem text_strn {text : List UInt8} (nonzero : ∀ c ∈ text, c ≠ 0) :
    strn (cstr text) text.length = text := by
  have held := cstr_image text
  rw [strn_image, held]
  rw [held]
  exact nonzero

theorem tokensAt_short : ∀ {pieces : List Piece} {text : List UInt8} (off : Nat),
    Lexes text pieces → (tokensAt off pieces).length ≤ text.length := by
  intro pieces text off lexed
  induction lexed generalizing off with
  | nil => exact Nat.le_refl 0
  | @cons piece tail pieces formed _ _ ih =>
    have longer : 0 < piece.bytes.length := Piece.bytes_pos formed
    have one := pieceToken_length off piece
    have rest := ih (off + piece.bytes.length)
    rw [tokensAt, List.length_append, List.length_append]
    omega

theorem accepted_iff {text : List UInt8} (nonzero : ∀ c ∈ text, c ≠ 0) :
    Accepted text ↔ ∃ pieces, Lexes text pieces ∧ nesting [] pieces = some [] := by
  constructor
  · rintro ⟨numTokens, r, toks, parsed⟩
    obtain ⟨pieces, lexed, nests, _⟩ := jsmnParse_sound parsed
    rw [text_strn nonzero] at lexed
    exact ⟨pieces, lexed, nests⟩
  · rintro ⟨pieces, lexed, nests⟩
    have lexed' : Lexes (strn (cstr text) text.length) pieces := by
      rw [text_strn nonzero]
      exact lexed
    obtain ⟨toks, parsed, _⟩ := jsmnParse_accepts lexed' nests (Nat.le_refl _)
    exact ⟨_, _, _, parsed⟩

theorem continues_iff {text : List UInt8} (nonzero : ∀ c ∈ text, c ≠ 0) :
    (∃ more, (∀ c ∈ more, c ≠ 0) ∧ Accepted (text ++ more)) ↔ GoesOn [] text := by
  constructor
  · rintro ⟨more, behind, accepted⟩
    have both : ∀ c ∈ text ++ more, c ≠ 0 := by
      intro c member
      exact (List.mem_append.mp member).elim (nonzero c) (behind c)
    obtain ⟨pieces, lexed, nests⟩ := (accepted_iff both).mp accepted
    exact ⟨more, pieces, lexed, nests⟩
  · rintro ⟨more, pieces, lexed, nests⟩
    have both := lexes_clean lexed
    exact ⟨more, fun c member => both c (List.mem_append_right _ member),
      (accepted_iff both).mpr ⟨pieces, lexed, nests⟩⟩

theorem jsmnParse_trichotomy {text : List UInt8} (nonzero : ∀ c ∈ text, c ≠ 0) {numTokens : Nat}
    (enough : text.length ≤ numTokens) :
    (∃ r toks, jsmnParse (cstr text) text.length numTokens = .ok (r, toks)) ∨
    (jsmnParse (cstr text) text.length numTokens = .error .part ∧ GoesOn [] text) ∨
    (jsmnParse (cstr text) text.length numTokens = .error .inval ∧ ¬ GoesOn [] text) := by
  have clean : Clean (cstr text) text.length := by
    intro i bound
    rw [cstr, List.getD_eq_getElem?_getD, List.getElem?_eq_getElem bound]
    exact nonzero _ (List.getElem_mem bound)
  have whole : remaining (cstr text) text.length jsmnInit.pos = text :=
    (remaining_zero _ _).trans (text_strn nonzero)
  have room : ([] : List JsmnTok).length + (text.length - jsmnInit.pos) ≤ numTokens := by
    rw [List.length_nil, Nat.zero_add]
    exact enough
  cases looped : jsmnParseLoop (cstr text) text.length numTokens text.length jsmnInit 0 with
  | error e =>
    have failed : jsmnParse (cstr text) text.length numTokens = .error e := by
      rw [jsmnParse, looped]
      rfl
    rcases parseLoop_error clean jsmnInit (init_outline numTokens) room looped with
      rfl | ⟨rfl, goes⟩
    · refine .inr (.inr ⟨failed, ?_⟩)
      rintro ⟨more, pieces, lexed, nests⟩
      exact parseLoop_keeps clean lexed jsmnInit (by rw [whole]) nests (init_outline numTokens) room
        looped
    · rw [whole] at goes
      exact .inr (.inl ⟨failed, goes⟩)
  | ok result =>
    obtain ⟨next, total⟩ := result
    obtain ⟨pieces, final, lexed, nests, _, view⟩ :=
      parseLoop_sound text.length 0 jsmnInit looped (Nat.sub_le _ _) (init_outline numTokens)
    rw [whole] at lexed
    by_cases left_open : (lastBelow JsmnTok.isOpen next.tokens next.toknext).isSome = true
    · refine .inr (.inl ⟨?_, _, _, lexes_closed lexed final, ?_⟩)
      · rw [jsmnParse, looped]
        exact if_pos left_open
      · rw [nesting_append, nests]
        exact nesting_closers final
    · refine .inl ⟨total, next.tokens, ?_⟩
      rw [jsmnParse, looped]
      exact if_neg left_open

/-- With an entry for each byte, jsmn_parse accepts what it accepts at all, reports
    JSMN_ERROR_PART exactly for the other texts that have an accepted continuation, and
    JSMN_ERROR_INVAL exactly for those that have none. -/
theorem jsmnParse_verdicts {text : List UInt8} (nonzero : ∀ c ∈ text, c ≠ 0) {numTokens : Nat}
    (enough : text.length ≤ numTokens) :
    ((∃ r toks, jsmnParse (cstr text) text.length numTokens = .ok (r, toks)) ↔ Accepted text) ∧
    (jsmnParse (cstr text) text.length numTokens = .error .part ↔
      ¬ Accepted text ∧ ∃ more, (∀ c ∈ more, c ≠ 0) ∧ Accepted (text ++ more)) ∧
    (jsmnParse (cstr text) text.length numTokens = .error .inval ↔
      ∀ more, (∀ c ∈ more, c ≠ 0) → ¬ Accepted (text ++ more)) := by
  have complete : Accepted text →
      ∃ r toks, jsmnParse (cstr text) text.length numTokens = .ok (r, toks) := by
    intro accepted
    obtain ⟨pieces, lexed, nests⟩ := (accepted_iff nonzero).mp accepted
    have short := tokensAt_short 0 lexed
    rw [← text_strn nonzero] at lexed
    obtain ⟨toks, parsed, _⟩ := jsmnParse_accepts lexed nests (Nat.le_trans short enough)
    exact ⟨_, _, parsed⟩
  have continues := continues_iff nonzero
  have beyond : (∀ more, (∀ c ∈ more, c ≠ 0) → ¬ Accepted (text ++ more)) ↔ ¬ GoesOn [] text := by
    rw [← continues]
    exact ⟨fun none ⟨more, behind, accepted⟩ => none more behind accepted,
      fun none more behind accepted => none ⟨more, behind, accepted⟩⟩
  have accepted_goes : Accepted text → GoesOn [] text := by
    intro accepted
    refine continues.mp ⟨[], by simp, ?_⟩
    rw [List.append_nil]
    exact accepted
  rw [beyond, continues]
  rcases jsmnParse_trichotomy nonzero enough with ⟨r, toks, parsed⟩ | ⟨parsed, goes⟩ | ⟨parsed, stuck⟩
  · have accepted : Accepted text := ⟨_, _, _, parsed⟩
    rw [parsed]
    exact ⟨iff_of_true ⟨_, _, rfl⟩ accepted,
      iff_of_false (by simp) fun h => h.1 accepted,
      iff_of_false (by simp) fun h => h (accepted_goes accepted)⟩
  · have rejected : ¬ Accepted text := by
      intro accepted
      obtain ⟨r, toks, again⟩ := complete accepted
      rw [parsed] at again
      cases again
    rw [parsed]
    exact ⟨iff_of_false (by simp) rejected, iff_of_true rfl ⟨rejected, goes⟩,
      iff_of_false (by simp) fun h => h goes⟩
  · have rejected : ¬ Accepted text := fun accepted => stuck (accepted_goes accepted)
    rw [parsed]
    exact ⟨iff_of_false (by simp) rejected, iff_of_false (by simp) fun h => stuck h.2,
      iff_of_true rfl stuck⟩

theorem jsmnParse_verdicts_escape :
    ∃ more, (∀ c ∈ more, c ≠ 0) ∧ Accepted (lit "\x7b\"spe\\u00" ++ more) :=
  ((jsmnParse_verdicts (clean_of_all (by decide : ((lit "\x7b\"spe\\u00").all fun c => c != 0) = true))
    (by decide : (lit "\x7b\"spe\\u00").length ≤ 9)).2.1.mp (by decide)).2

end RoverVerdicts
