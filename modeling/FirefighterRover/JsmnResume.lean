import FirefighterRover.JsmnVerdicts

/-!
Calling jsmn_parse again. On an error the parser is left at the piece it failed on, and the
tokens so far stay; a later call with more of the text, or with more entries, goes on from
there. The text arrives in `js`; a call sees the bytes below its own length only.
-/
namespace RoverResume
open CMemory RoverJsmn RoverLexing RoverMachine RoverVerdicts RoverFlat

/-- The loop of jsmn_parse with the parser it leaves behind, also when it fails: the scanners put
    `pos` back to the start of their piece. -/
def jsmnResumeLoop (js : Ptr) (len numTokens : Nat) :
    Nat → JsmnParser → Nat → Except JsmnErr Nat × JsmnParser
  | 0, parser, count => (.ok count, parser)
  | fuel + 1, parser, count =>
    if parser.pos < len ∧ js parser.pos ≠ 0 then
      match jsmnParseChar parser js len numTokens with
      | .error e => (.error e, parser)
      | .ok (next, added) =>
        jsmnResumeLoop js len numTokens fuel { next with pos := next.pos + 1 } (count + added)
    else (.ok count, parser)

def jsmnResume (js : Ptr) (len numTokens : Nat) (parser : JsmnParser) :
    Except JsmnErr Nat × JsmnParser :=
  match jsmnResumeLoop js len numTokens (len - parser.pos) parser parser.toknext with
  | (.error e, parser) => (.error e, parser)
  | (.ok count, parser) =>
    if (lastBelow JsmnTok.isOpen parser.tokens parser.toknext).isSome then (.error .part, parser)
    else (.ok count, parser)

theorem jsmnResume_init (js : Ptr) (len numTokens : Nat) :
    jsmnParse js len numTokens =
      (jsmnResume js len numTokens jsmnInit).1.map fun r =>
        (r, (jsmnResume js len numTokens jsmnInit).2.tokens) := by
  have loops : ∀ (fuel : Nat) (parser : JsmnParser) (count : Nat),
      jsmnParseLoop js len numTokens fuel parser count =
        (jsmnResumeLoop js len numTokens fuel parser count).1.map fun r =>
          ((jsmnResumeLoop js len numTokens fuel parser count).2, r) := by
    intro fuel
    induction fuel with
    | zero => intro parser count; rfl
    | succ fuel ih =>
      intro parser count
      by_cases inside : parser.pos < len ∧ js parser.pos ≠ 0
      · simp only [jsmnParseLoop, jsmnResumeLoop, if_pos inside]
        cases jsmnParseChar parser js len numTokens with
        | error e => rfl
        | ok result => exact ih _ _
      · simp only [jsmnParseLoop, jsmnResumeLoop, if_neg inside]
        rfl
  have start : jsmnInit.toknext = 0 := rfl
  have all : len - jsmnInit.pos = len := Nat.sub_zero len
  simp only [jsmnParse, jsmnResume, loops, start, all]
  cases looped : jsmnResumeLoop js len numTokens len jsmnInit 0 with
  | mk result parser =>
    cases result with
    | error e => rfl
    | ok count =>
      simp only [Except.map, bind, Except.bind]
      split <;> rfl

theorem alloc_made {numTokens : Nat} {parser next : JsmnParser} {t : JsmnTok}
    (made : jsmnAllocToken parser numTokens t = .ok next) :
    next.tokens.length = parser.tokens.length + 1 ∧ next.tokens.length ≤ numTokens := by
  rw [RoverCounting.alloc_if] at made
  split at made
  · rename_i room
    obtain rfl := Except.ok.inj made
    have grown : (parser.tokens ++ [t]).length = parser.tokens.length + 1 := by simp
    exact ⟨grown, by simp only [grown]; exact room⟩
  · cases made

theorem takePiece_length {numTokens : Nat} {parser next : JsmnParser} {piece : Piece}
    (taken : takePiece numTokens parser piece = .ok next) :
    next.tokens.length = parser.tokens.length + pieceTokens piece ∧
      (parser.tokens.length ≤ numTokens → next.tokens.length ≤ numTokens) := by
  have stored (n : Nat) (t : JsmnTok)
      (made : (storeToken numTokens t parser).map (JsmnParser.advance n) = .ok next) :
      next.tokens.length = parser.tokens.length + 1 ∧ next.tokens.length ≤ numTokens := by
    unfold storeToken at made
    cases alloc : jsmnAllocToken parser numTokens t with
    | error r =>
      rw [alloc] at made
      cases made
    | ok wider =>
      rw [alloc] at made
      obtain rfl := Except.ok.inj made
      have same : (JsmnParser.advance n (countMember wider)).tokens.length = wider.tokens.length :=
        countMember_length wider
      rw [same]
      exact alloc_made alloc
  cases piece with
  | mark c =>
    rw [takes_mark taken]
    exact ⟨rfl, id⟩
  | opens b =>
    simp only [takePiece, openContainer] at taken
    cases alloc : jsmnAllocToken (countMember parser) numTokens ⟨b.type, parser.pos, -1, 0⟩ with
    | error r =>
      rw [alloc] at taken
      cases taken
    | ok wider =>
      rw [alloc] at taken
      obtain rfl := Except.ok.inj taken
      obtain ⟨grown, fits⟩ := alloc_made alloc
      rw [countMember_length] at grown
      exact ⟨grown, fun _ => fits⟩
  | closes b =>
    obtain ⟨before, t, after, tokens, _, _, _, rfl⟩ := takes_close taken
    have same : (before ++ { t with end_ := (parser.pos : Int) + 1 } :: after).length =
        parser.tokens.length := by
      rw [tokens]
      simp
    simp only [same]
    exact ⟨rfl, id⟩
  | string body =>
    obtain ⟨grown, fits⟩ := stored _ _ taken
    exact ⟨grown, fun _ => fits⟩
  | bare text =>
    obtain ⟨grown, fits⟩ := stored _ _ taken
    exact ⟨grown, fun _ => fits⟩

theorem remaining_longer (js : Ptr) {k len : Nat} (le : k ≤ len) (pos : Nat) :
    remaining js len pos =
      remaining js k pos ++ remaining js len (pos + (remaining js k pos).length) := by
  induction left : k - pos generalizing pos with
  | zero =>
    have outside : ¬(pos < k ∧ js pos ≠ 0) := by omega
    rw [remaining_end outside]
    rfl
  | succ n ih =>
    by_cases inside : pos < k ∧ js pos ≠ 0
    · have longer : pos < len ∧ js pos ≠ 0 := ⟨by omega, inside.2⟩
      have shift : pos + (js pos :: remaining js k (pos + 1)).length =
          pos + 1 + (remaining js k (pos + 1)).length := by
        rw [List.length_cons]
        omega
      rw [remaining_step inside, shift, List.cons_append, ← ih (pos + 1) (by omega),
        remaining_step longer]
    · rw [remaining_end inside]
      rfl

def Terminated (js : Ptr) (len k : Nat) : Prop :=
  k = len ∨ js k = 0 ∨ isPrimitiveEnd (js k) = true

/-- The call that saw `k` bytes did not take the beginning of a bare value for all of it. -/
def Unbroken (js : Ptr) (len k : Nat) (parser : JsmnParser) : Prop :=
  ∀ t ∈ parser.tokens, t.type = .primitive → t.end_ = k → Terminated js len k

instance (js : Ptr) (len k : Nat) : Decidable (Terminated js len k) :=
  inferInstanceAs (Decidable (k = len ∨ js k = 0 ∨ isPrimitiveEnd (js k) = true))

instance (js : Ptr) (len k : Nat) (parser : JsmnParser) : Decidable (Unbroken js len k parser) :=
  inferInstanceAs (Decidable
    (∀ t ∈ parser.tokens, t.type = .primitive → t.end_ = k → Terminated js len k))

theorem terminated_stops {js : Ptr} {len k : Nat} (terminated : Terminated js len k) :
    Stops (remaining js len k) := by
  intro c first
  by_cases inside : k < len ∧ js k ≠ 0
  · rw [remaining_step inside] at first
    obtain rfl := Option.some.inj first
    rcases terminated with ended | zero | stop
    · omega
    · exact absurd zero inside.2
    · exact stop
  · rw [remaining_end inside] at first
    cases first

theorem take_bare {numTokens : Nat} {parser next : JsmnParser} {text : List UInt8}
    (taken : takePiece numTokens parser (.bare text) = .ok next) :
    ∃ t ∈ next.tokens, t.type = .primitive ∧ t.end_ = next.pos := by
  have there := takePiece_pos taken
  have shaped : shape (jsmnFillToken .primitive parser.pos (parser.pos + text.length : Nat)) ∈
      next.tokens.map shape := by
    rw [store_shapes taken]
    exact List.mem_append_right _ (List.mem_singleton_self _)
  obtain ⟨t, member, same⟩ := List.mem_map.mp shaped
  obtain ⟨type, _, ends⟩ := shape_same same
  refine ⟨t, member, type, ?_⟩
  rw [there]
  exact ends

theorem passed_inj {a b : JsmnParser × Nat} (same : passed a = passed b) : a = b := by
  obtain ⟨⟨pos, super, tokens⟩, n⟩ := a
  obtain ⟨⟨pos', super', tokens'⟩, n'⟩ := b
  simpa [passed, JsmnParser.advance] using same

theorem parseChar_longer {js : Ptr} {k len few numTokens : Nat} (le : k ≤ len) (more : few ≤ numTokens)
    {parser : JsmnParser} {result : JsmnParser × Nat} (inside : parser.pos < k ∧ js parser.pos ≠ 0)
    (fits : parser.tokens.length ≤ few) (unbroken : (passed result).1.pos = k →
      Unbroken js len k (passed result).1)
    (char : jsmnParseChar parser js k few = .ok result) :
    jsmnParseChar parser js len numTokens = .ok result ∧
      result.1.tokens.length = parser.tokens.length + result.2 ∧ result.1.tokens.length ≤ few := by
  obtain ⟨piece, tail, read, formed, ends, taken, counted⟩ := parseChar_taken inside char
  have there := takePiece_pos taken
  obtain ⟨grown, bounded⟩ := takePiece_length taken
  have longer : 0 < piece.bytes.length := Piece.bytes_pos formed
  have seen := remaining_longer js le parser.pos
  rw [read, List.append_assoc] at seen
  have ends' : piece.Ends (tail ++ remaining js len (parser.pos + (piece.bytes ++ tail).length)) := by
    cases piece with
    | bare text =>
      refine ends_append ends ?_
      rintro rfl
      have reach := remaining_length_le js k parser.pos
      rw [read, List.append_nil] at reach
      have stop : parser.pos + (Piece.bare text).bytes.length = (passed result).1.pos := there.symm
      rw [List.append_nil, stop]
      by_cases whole : (passed result).1.pos = k
      · obtain ⟨t, member, type, end_⟩ := take_bare taken
        rw [whole] at end_ ⊢
        exact terminated_stops (unbroken whole t member type end_)
      · have past := remaining_nil (remaining_append read)
        rw [stop] at past
        have outside : ¬((passed result).1.pos < len ∧ js (passed result).1.pos ≠ 0) := by
          rintro ⟨_, nonzero⟩
          exact past ⟨by omega, nonzero⟩
        rw [remaining_end outside]
        intro c first
        cases first
    | _ => trivial
  have room : (passed result).1.tokens.length ≤ numTokens := Nat.le_trans (bounded fits) more
  have again := (takePiece_capacity numTokens taken (Nat.le_trans fits more)).2
  rw [if_pos room] at again
  have step := parseChar_take numTokens seen formed ends'
  rw [again] at step
  refine ⟨?_, ?_, bounded fits⟩
  · cases char' : jsmnParseChar parser js len numTokens with
    | error e =>
      rw [char'] at step
      cases step
    | ok result' =>
      rw [char'] at step
      have same : passed result' = passed result := by
        rw [Except.ok.inj step, ← counted]
        rfl
      rw [passed_inj same]
  · rw [counted]
    exact grown

theorem parseChar_advances {js : Ptr} {len numTokens : Nat} {parser : JsmnParser}
    {result : JsmnParser × Nat} (inside : parser.pos < len ∧ js parser.pos ≠ 0)
    (char : jsmnParseChar parser js len numTokens = .ok result) :
    parser.pos < (passed result).1.pos := by
  obtain ⟨piece, tail, _, formed, _, taken, _⟩ := parseChar_taken inside char
  have longer : 0 < piece.bytes.length := Piece.bytes_pos formed
  rw [takePiece_pos taken]
  omega

section
variable {js : Ptr} {len numTokens : Nat}

theorem resumeLoop_over {parser : JsmnParser} (past : ¬(parser.pos < len ∧ js parser.pos ≠ 0))
    (fuel count : Nat) : jsmnResumeLoop js len numTokens fuel parser count = (.ok count, parser) := by
  cases fuel with
  | zero => rfl
  | succ fuel => exact if_neg past

theorem resumeLoop_pass {parser : JsmnParser} {result : JsmnParser × Nat}
    (inside : parser.pos < len ∧ js parser.pos ≠ 0)
    (char : jsmnParseChar parser js len numTokens = .ok result) (fuel count : Nat) :
    jsmnResumeLoop js len numTokens (fuel + 1) parser count =
      jsmnResumeLoop js len numTokens fuel (passed result).1 (count + result.2) := by
  rw [jsmnResumeLoop, if_pos inside, char]
  rfl

theorem resumeLoop_fails {parser : JsmnParser} {e : JsmnErr}
    (inside : parser.pos < len ∧ js parser.pos ≠ 0)
    (char : jsmnParseChar parser js len numTokens = .error e) (fuel count : Nat) :
    jsmnResumeLoop js len numTokens (fuel + 1) parser count = (.error e, parser) := by
  rw [jsmnResumeLoop, if_pos inside, char]

theorem resumeLoop_fuel : ∀ {fuel more count : Nat} {parser : JsmnParser}, len - parser.pos ≤ fuel →
    fuel ≤ more → jsmnResumeLoop js len numTokens more parser count =
      jsmnResumeLoop js len numTokens fuel parser count := by
  intro fuel
  induction fuel with
  | zero =>
    intro more count parser enough _
    have past : ¬(parser.pos < len ∧ js parser.pos ≠ 0) := by omega
    rw [resumeLoop_over past, resumeLoop_over past]
  | succ fuel ih =>
    intro more count parser enough le
    obtain ⟨more, rfl⟩ : ∃ n, more = n + 1 := ⟨more - 1, by omega⟩
    by_cases inside : parser.pos < len ∧ js parser.pos ≠ 0
    · cases char : jsmnParseChar parser js len numTokens with
      | error e => rw [resumeLoop_fails inside char, resumeLoop_fails inside char]
      | ok result =>
        have advances := parseChar_advances inside char
        rw [resumeLoop_pass inside char, resumeLoop_pass inside char]
        exact ih (by omega) (by omega)
    · rw [resumeLoop_over inside, resumeLoop_over inside]

def wholeLoop (js : Ptr) (len numTokens : Nat) (parser : JsmnParser) :
    Except JsmnErr Nat × JsmnParser :=
  jsmnResumeLoop js len numTokens (len - parser.pos) parser parser.toknext

theorem wholeLoop_over {parser : JsmnParser} (past : ¬(parser.pos < len ∧ js parser.pos ≠ 0)) :
    wholeLoop js len numTokens parser = (.ok parser.toknext, parser) :=
  resumeLoop_over past _ _

theorem wholeLoop_pass {parser : JsmnParser} {result : JsmnParser × Nat}
    (inside : parser.pos < len ∧ js parser.pos ≠ 0)
    (char : jsmnParseChar parser js len numTokens = .ok result)
    (grown : result.1.tokens.length = parser.tokens.length + result.2) :
    wholeLoop js len numTokens parser = wholeLoop js len numTokens (passed result).1 := by
  have advances := parseChar_advances inside char
  obtain ⟨fuel, left⟩ : ∃ n, len - parser.pos = n + 1 := ⟨len - parser.pos - 1, by omega⟩
  have count : parser.toknext + result.2 = (passed result).1.toknext := grown.symm
  unfold wholeLoop
  rw [left, resumeLoop_pass inside char, count]
  exact resumeLoop_fuel (Nat.le_refl _) (by omega)

theorem wholeLoop_fails {parser : JsmnParser} {e : JsmnErr}
    (inside : parser.pos < len ∧ js parser.pos ≠ 0)
    (char : jsmnParseChar parser js len numTokens = .error e) :
    wholeLoop js len numTokens parser = (.error e, parser) := by
  obtain ⟨fuel, left⟩ : ∃ n, len - parser.pos = n + 1 := ⟨len - parser.pos - 1, by omega⟩
  unfold wholeLoop
  rw [left, resumeLoop_fails inside char]

theorem resume_loop (parser : JsmnParser) :
    (jsmnResume js len numTokens parser).2 = (wholeLoop js len numTokens parser).2 := by
  unfold jsmnResume wholeLoop
  split
  · rename_i looped
    rw [looped]
  · rename_i looped
    rw [looped]
    split <;> rfl

theorem resume_congr {a b : JsmnParser}
    (same : wholeLoop js len numTokens a = wholeLoop js len numTokens b) :
    jsmnResume js len numTokens a = jsmnResume js len numTokens b := by
  unfold wholeLoop at same
  rw [jsmnResume, same]
  rfl

theorem wholeLoop_chunk {k few : Nat} (le : k ≤ len) (more : few ≤ numTokens) :
    ∀ (left : Nat) (parser : JsmnParser), k - parser.pos ≤ left → parser.tokens.length ≤ few →
    Unbroken js len k (wholeLoop js k few parser).2 →
    wholeLoop js len numTokens (wholeLoop js k few parser).2 =
      wholeLoop js len numTokens parser := by
  intro left
  induction left with
  | zero =>
    intro parser room fits _
    have past : ¬(parser.pos < k ∧ js parser.pos ≠ 0) := by omega
    rw [wholeLoop_over past]
  | succ left ih =>
    intro parser room fits unbroken
    by_cases inside : parser.pos < k ∧ js parser.pos ≠ 0
    · cases char : jsmnParseChar parser js k few with
      | error e =>
        rw [wholeLoop_fails inside char]
      | ok result =>
        have advances := parseChar_advances inside char
        obtain ⟨_, _, _, _, _, taken, counted⟩ := parseChar_taken inside char
        have grown := (takePiece_length taken).1
        rw [← counted] at grown
        rw [wholeLoop_pass inside char grown] at unbroken ⊢
        have here : (passed result).1.pos = k → Unbroken js len k (passed result).1 := by
          intro there
          have past : ¬((passed result).1.pos < k ∧ js (passed result).1.pos ≠ 0) := by omega
          rw [wholeLoop_over past] at unbroken
          exact unbroken
        obtain ⟨char', _, fits'⟩ := parseChar_longer le more inside fits here char
        rw [ih (passed result).1 (by omega) fits' unbroken, ← wholeLoop_pass ⟨by omega, inside.2⟩ char' grown]
    · rw [wholeLoop_over inside]

end

/-- Calls before the last one: how much of the text each saw, and how many entries it had. The
    array may grow between calls, and no chunk may end inside a bare value. -/
def Chunks (js : Ptr) (len numTokens : Nat) : JsmnParser → List (Nat × Nat) → Prop
  | _, [] => True
  | parser, (k, few) :: chunks =>
    k ≤ len ∧ few ≤ numTokens ∧ parser.toknext ≤ few ∧
      Unbroken js len k (jsmnResume js k few parser).2 ∧
      Chunks js len numTokens (jsmnResume js k few parser).2 chunks

def resumeAll (js : Ptr) (parser : JsmnParser) (chunks : List (Nat × Nat)) : JsmnParser :=
  chunks.foldl (fun parser c => (jsmnResume js c.1 c.2 parser).2) parser

theorem resumeAll_same {js : Ptr} {len numTokens : Nat} : ∀ {chunks : List (Nat × Nat)}
    {parser : JsmnParser}, Chunks js len numTokens parser chunks →
    jsmnResume js len numTokens (resumeAll js parser chunks) =
      jsmnResume js len numTokens parser := by
  intro chunks
  induction chunks with
  | nil => intro parser _; rfl
  | cons c chunks ih =>
    intro parser arrive
    obtain ⟨k, few⟩ := c
    obtain ⟨le, more, fits, unbroken, rest⟩ := arrive
    have first : jsmnResume js len numTokens (jsmnResume js k few parser).2 =
        jsmnResume js len numTokens parser := by
      rw [resume_loop] at unbroken ⊢
      exact resume_congr (wholeLoop_chunk le more _ parser (Nat.le_refl _) fits unbroken)
    exact (ih rest).trans first

/-- A text that arrives in chunks, each parsed as far as it goes, ends with the result and the
    tokens of one call on the whole text. -/
theorem jsmnParse_chunks {js : Ptr} {len numTokens : Nat} {chunks : List (Nat × Nat)}
    (arrive : Chunks js len numTokens jsmnInit chunks) :
    jsmnParse js len numTokens =
      (jsmnResume js len numTokens (resumeAll js jsmnInit chunks)).1.map fun r =>
        (r, (jsmnResume js len numTokens (resumeAll js jsmnInit chunks)).2.tokens) := by
  rw [resumeAll_same arrive]
  exact jsmnResume_init js len numTokens

theorem jsmnParse_chunks_speed :
    .ok (3, [⟨.object, 0, 12, 1⟩, ⟨.string, 2, 7, 1⟩, ⟨.primitive, 10, 11, 0⟩]) =
      (jsmnResume (cstr (lit "\x7b\"speed\": 3\x7d")) 12 4
        (resumeAll (cstr (lit "\x7b\"speed\": 3\x7d")) jsmnInit [(5, 1), (11, 2)])).1.map fun r =>
          (r, (jsmnResume (cstr (lit "\x7b\"speed\": 3\x7d")) 12 4
            (resumeAll (cstr (lit "\x7b\"speed\": 3\x7d")) jsmnInit [(5, 1), (11, 2)])).2.tokens) :=
  Eq.trans (by decide)
    (@jsmnParse_chunks (cstr (lit "\x7b\"speed\": 3\x7d")) 12 4 [(5, 1), (11, 2)]
      ⟨by decide, by decide, by decide, by decide, by decide, by decide, by decide, by decide, trivial⟩)

end RoverResume
