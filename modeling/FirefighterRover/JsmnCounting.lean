import FirefighterRover.JsmnMachine

/-!
The other mode of jsmn_parse: called without a token array it counts the tokens and checks no
brackets. A caller may measure a text with it and then parse it into an array of that size.
-/
namespace RoverCounting
open CMemory RoverJsmn RoverOutline RoverMachine

/-- One iteration of the loop of jsmn_parse when `tokens` is NULL: `toknext` stays 0, and the
    super token -1. -/
def jsmnCountChar (js : Ptr) (len pos : Nat) : Except JsmnErr (Nat × Nat) :=
  let c := js pos
  if c = chr '{' ∨ c = chr '[' then .ok (pos, 1)
  else if c = chr '}' ∨ c = chr ']' then .ok (pos, 0)
  else if c = chr '\"' then do
    let pos ← stringEnd js len (len - pos) (pos + 1)
    .ok (pos, 1)
  else if c = chr '\t' ∨ c = chr '\r' ∨ c = chr '\n' ∨ c = chr ' ' then .ok (pos, 0)
  else if c = chr ':' then .ok (pos, 0)
  else if c = chr ',' then .ok (pos, 0)
  else do
    let pos ← primitiveEnd js len (len - pos) pos
    .ok (pos - 1, 1)

def jsmnCountLoop (js : Ptr) (len : Nat) : Nat → Nat → Nat → Except JsmnErr Nat
  | 0, _, count => .ok count
  | fuel + 1, pos, count =>
    if pos < len ∧ js pos ≠ 0 then do
      let (pos, added) ← jsmnCountChar js len pos
      jsmnCountLoop js len fuel (pos + 1) (count + added)
    else .ok count

def jsmnCount (js : Ptr) (len : Nat) : Except JsmnErr Nat := jsmnCountLoop js len len 0 0

/-- What a pass of the loop does for every array that holds the tokens so far, when the pass
    without an array got to `pos` and counted `added`. -/
inductive Matches (js : Ptr) (len : Nat) (parser : JsmnParser) (pos added : Nat) : Prop where
  | mismatch (nothing : added = 0)
    (fails : ∀ numTokens, jsmnParseChar parser js len numTokens = .error .inval)
  | fills (next : JsmnParser) (there : next.pos = pos)
    (size : next.tokens.length = parser.tokens.length + added)
    (passes : ∀ numTokens, parser.tokens.length ≤ numTokens →
      jsmnParseChar parser js len numTokens =
        if next.tokens.length ≤ numTokens then .ok (next, added) else .error .nomem)

theorem alloc_if (parser : JsmnParser) (numTokens : Nat) (t : JsmnTok) :
    jsmnAllocToken parser numTokens t =
      if parser.tokens.length + 1 ≤ numTokens then .ok { parser with tokens := parser.tokens ++ [t] }
      else .error .nomem := by
  unfold jsmnAllocToken JsmnParser.toknext
  by_cases room : parser.tokens.length + 1 ≤ numTokens
  · rw [if_neg (by omega), if_pos room]
  · rw [if_pos (by omega), if_neg room]

theorem kept_matches {js : Ptr} {len : Nat} {parser : JsmnParser} (next : JsmnParser)
    (char : ∀ numTokens, jsmnParseChar parser js len numTokens = .ok (next, 0))
    (there : next.pos = parser.pos) (size : next.tokens.length = parser.tokens.length) :
    Matches js len parser parser.pos 0 :=
  .fills next there size fun numTokens fits => by rw [char, if_pos (by omega)]

theorem stored_matches {js : Ptr} {len : Nat} {parser : JsmnParser} (t : JsmnTok) (pos : Nat)
    (char : ∀ numTokens, jsmnParseChar parser js len numTokens =
      (jsmnAllocToken parser numTokens t).map
        fun next => (countMember { next with pos := pos }, 1)) :
    Matches js len parser pos 1 := by
  refine .fills (countMember ⟨pos, parser.toksuper, parser.tokens ++ [t]⟩) ?_ ?_ ?_
  · rw [countMember_pos]
  · simp
  · intro numTokens _
    simp only [char, alloc_if, countMember_length, List.length_append, List.length_singleton]
    split <;> rfl

theorem opened_matches {js : Ptr} {len : Nat} {parser : JsmnParser} (type : JsmnType)
    (char : ∀ numTokens, jsmnParseChar parser js len numTokens =
      (openContainer parser numTokens type).map (·, 1)) :
    Matches js len parser parser.pos 1 := by
  let opened := (countMember parser).tokens ++ [⟨type, parser.pos, -1, 0⟩]
  have size : opened.length = parser.tokens.length + 1 := by simp [opened]
  refine .fills ⟨parser.pos, (opened.length : Int) - 1, opened⟩ rfl size ?_
  intro numTokens _
  rw [char, openContainer, alloc_if, countMember_length, countMember_pos, ← size]
  by_cases room : opened.length ≤ numTokens
  · rw [if_pos room, if_pos room]
    simp only [bind, Except.bind, Except.map, JsmnParser.toknext]
    rfl
  · rw [if_neg room, if_neg room]
    rfl

theorem closeContainer_kept (parser : JsmnParser) (type : JsmnType) :
    closeContainer parser type = .error .inval ∨
    ∃ next, closeContainer parser type = .ok next ∧ next.pos = parser.pos ∧
      next.tokens.length = parser.tokens.length := by
  unfold closeContainer
  split
  · exact .inl rfl
  · rename_i i _
    by_cases other : (parser.tok i).type ≠ type
    · rw [if_pos other]
      exact .inl rfl
    · rw [if_neg other]
      right
      dsimp only
      split
      · exact ⟨_, rfl, rfl, by simp⟩
      · exact ⟨_, rfl, rfl, by simp⟩

theorem closed_matches {js : Ptr} {len : Nat} {parser : JsmnParser} (type : JsmnType)
    (char : ∀ numTokens, jsmnParseChar parser js len numTokens =
      (closeContainer parser type).map (·, 0)) : Matches js len parser parser.pos 0 := by
  rcases closeContainer_kept parser type with failed | ⟨next, closed, there, size⟩
  · refine .mismatch rfl fun numTokens => ?_
    rw [char, failed]
    rfl
  · refine kept_matches next (fun numTokens => ?_) there size
    rw [char, closed]
    rfl

theorem endMember_kept (parser : JsmnParser) : (endMember parser).pos = parser.pos := by
  unfold endMember
  repeat' split
  all_goals rfl

theorem char_matches (js : Ptr) (len : Nat) (parser : JsmnParser) :
    (∃ e, jsmnCountChar js len parser.pos = .error e ∧
      ∀ numTokens, jsmnParseChar parser js len numTokens = .error e) ∨
    ∃ pos added, jsmnCountChar js len parser.pos = .ok (pos, added) ∧
      Matches js len parser pos added := by
  simp only [jsmnCountChar]
  by_cases opening : js parser.pos = chr '{' ∨ js parser.pos = chr '['
  · refine .inr ⟨_, _, if_pos opening, opened_matches
      (if js parser.pos = chr '{' then .object else .array) fun numTokens => ?_⟩
    simp only [jsmnParseChar, if_pos opening]
    exact bind_ok _ _
  by_cases closing : js parser.pos = chr '}' ∨ js parser.pos = chr ']'
  · rw [if_neg opening]
    refine .inr ⟨_, _, if_pos closing, closed_matches
      (if js parser.pos = chr '}' then .object else .array) fun numTokens => ?_⟩
    simp only [jsmnParseChar, if_neg opening, if_pos closing]
    exact bind_ok _ _
  by_cases quote : js parser.pos = chr '\"'
  · rw [if_neg opening, if_neg closing, if_pos quote]
    have char (numTokens : Nat) : jsmnParseChar parser js len numTokens =
        (jsmnParseString parser js len numTokens).map (countMember ·, 1) := by
      simp only [jsmnParseChar, if_neg opening, if_neg closing, if_pos quote]
      exact bind_ok _ _
    cases scanned : stringEnd js len (len - parser.pos) (parser.pos + 1) with
    | error e =>
      refine .inl ⟨e, rfl, fun numTokens => ?_⟩
      rw [char, jsmnParseString, scanned]
      rfl
    | ok pos =>
      refine .inr ⟨_, _, rfl, stored_matches (jsmnFillToken .string (parser.pos + 1) pos) pos
        fun numTokens => ?_⟩
      have string := bind_ok (jsmnAllocToken parser numTokens
        (jsmnFillToken .string (parser.pos + 1) pos)) fun next => { next with pos := pos }
      rw [char, jsmnParseString, scanned]
      exact (congrArg (Except.map (countMember ·, 1)) string).trans (map_map _ _ _)
  by_cases blank : js parser.pos = chr '\t' ∨ js parser.pos = chr '\r' ∨
      js parser.pos = chr '\n' ∨ js parser.pos = chr ' '
  · rw [if_neg opening, if_neg closing, if_neg quote, if_pos blank]
    refine .inr ⟨_, _, rfl, kept_matches parser (fun numTokens => ?_) rfl rfl⟩
    simp only [jsmnParseChar, if_neg opening, if_neg closing, if_neg quote, if_pos blank]
  by_cases colon : js parser.pos = chr ':'
  · rw [if_neg opening, if_neg closing, if_neg quote, if_neg blank, if_pos colon]
    refine .inr ⟨_, _, rfl, kept_matches
      { parser with toksuper := (parser.toknext : Int) - 1 } (fun numTokens => ?_) rfl rfl⟩
    simp only [jsmnParseChar, if_neg opening, if_neg closing, if_neg quote, if_neg blank,
      if_pos colon]
  by_cases comma : js parser.pos = chr ','
  · rw [if_neg opening, if_neg closing, if_neg quote, if_neg blank, if_neg colon, if_pos comma]
    refine .inr ⟨_, _, rfl, kept_matches (endMember parser) (fun numTokens => ?_)
      (endMember_kept parser) (congrArg List.length (endMember_tokens parser))⟩
    simp only [jsmnParseChar, if_neg opening, if_neg closing, if_neg quote, if_neg blank,
      if_neg colon, if_pos comma]
  · rw [if_neg opening, if_neg closing, if_neg quote, if_neg blank, if_neg colon, if_neg comma]
    have char (numTokens : Nat) : jsmnParseChar parser js len numTokens =
        (jsmnParsePrimitive parser js len numTokens).map (countMember ·, 1) := by
      simp only [jsmnParseChar, if_neg opening, if_neg closing, if_neg quote, if_neg blank,
        if_neg colon, if_neg comma]
      exact bind_ok _ _
    cases scanned : primitiveEnd js len (len - parser.pos) parser.pos with
    | error e =>
      refine .inl ⟨e, rfl, fun numTokens => ?_⟩
      rw [char, jsmnParsePrimitive, scanned]
      rfl
    | ok pos =>
      refine .inr ⟨_, _, rfl, stored_matches (jsmnFillToken .primitive parser.pos pos) (pos - 1)
        fun numTokens => ?_⟩
      have primitive := bind_ok (jsmnAllocToken parser numTokens
        (jsmnFillToken .primitive parser.pos pos)) fun next => { next with pos := pos - 1 }
      rw [char, jsmnParsePrimitive, scanned]
      exact (congrArg (Except.map (countMember ·, 1)) primitive).trans (map_map _ _ _)

theorem countLoop_pass {js : Ptr} {len fuel pos count : Nat} (inside : pos < len ∧ js pos ≠ 0) :
    jsmnCountLoop js len (fuel + 1) pos count =
      (jsmnCountChar js len pos).bind fun next =>
        jsmnCountLoop js len fuel (next.1 + 1) (count + next.2) := by
  rw [jsmnCountLoop, if_pos inside]
  rfl

theorem ok_bind {α β : Type} (a : α) (f : α → Except JsmnErr β) :
    (Except.ok a : Except JsmnErr α).bind f = f a := rfl

theorem countLoop_grows {js : Ptr} {len total : Nat} : ∀ {fuel pos count : Nat},
    jsmnCountLoop js len fuel pos count = .ok total → count ≤ total := by
  intro fuel
  induction fuel with
  | zero =>
    intro pos count counted
    exact Nat.le_of_eq (Except.ok.inj counted)
  | succ fuel ih =>
    intro pos count counted
    by_cases inside : pos < len ∧ js pos ≠ 0
    · rw [countLoop_pass inside] at counted
      cases char : jsmnCountChar js len pos with
      | error e =>
        rw [char] at counted
        cases counted
      | ok next =>
        rw [char] at counted
        exact Nat.le_trans (Nat.le_add_right _ _) (ih counted)
    · rw [jsmnCountLoop, if_neg inside] at counted
      exact Nat.le_of_eq (Except.ok.inj counted)

theorem countLoop_error {js : Ptr} {len : Nat} {e : JsmnErr} (numTokens : Nat) :
    ∀ {fuel count : Nat} (already : Nat) (parser : JsmnParser),
    parser.tokens.length ≤ numTokens →
    jsmnCountLoop js len fuel parser.pos count = .error e →
    ∃ r, jsmnParseLoop js len numTokens fuel parser already = .error r := by
  intro fuel
  induction fuel with
  | zero => intro count already parser _ failed; cases failed
  | succ fuel ih =>
    intro count already parser fits failed
    by_cases inside : parser.pos < len ∧ js parser.pos ≠ 0
    · rw [countLoop_pass inside] at failed
      rw [parseLoop_pass inside]
      rcases char_matches js len parser with ⟨r, counted, same⟩ | ⟨pos, added, counted, matching⟩
      · exact ⟨r, by rw [same]; rfl⟩
      · rw [counted, ok_bind] at failed
        cases matching with
        | mismatch _ fails => exact ⟨.inval, by rw [fails]; rfl⟩
        | fills next there size passes =>
          rw [passes numTokens fits]
          by_cases room : next.tokens.length ≤ numTokens
          · rw [if_pos room]
            subst there
            exact ih (already + added) (JsmnParser.advance 1 next) room failed
          · exact ⟨.nomem, by rw [if_neg room]; rfl⟩
    · rw [jsmnCountLoop, if_neg inside] at failed
      cases failed

theorem countLoop_ok {js : Ptr} {len total : Nat} :
    ∀ {fuel count : Nat} (parser : JsmnParser),
    jsmnCountLoop js len fuel parser.pos count = .ok total →
    ∃ added, total = count + added ∧
      (∀ numTokens, parser.tokens.length ≤ numTokens → numTokens < parser.tokens.length + added →
        ∀ already, jsmnParseLoop js len numTokens fuel parser already = .error .nomem ∨
          jsmnParseLoop js len numTokens fuel parser already = .error .inval) ∧
      ((∀ numTokens, parser.tokens.length + added ≤ numTokens → ∀ already,
          jsmnParseLoop js len numTokens fuel parser already = .error .inval) ∨
        ∃ next : JsmnParser, next.tokens.length = parser.tokens.length + added ∧
          ∀ numTokens, parser.tokens.length + added ≤ numTokens → ∀ already,
            jsmnParseLoop js len numTokens fuel parser already = .ok (next, already + added)) := by
  intro fuel
  induction fuel with
  | zero =>
    intro count parser counted
    obtain rfl := Except.ok.inj counted
    exact ⟨0, rfl, fun _ fits short => absurd fits (by omega),
      .inr ⟨parser, rfl, fun _ _ _ => rfl⟩⟩
  | succ fuel ih =>
    intro count parser counted
    by_cases inside : parser.pos < len ∧ js parser.pos ≠ 0
    · rw [countLoop_pass inside] at counted
      simp only [parseLoop_pass inside]
      rcases char_matches js len parser with ⟨r, broken, _⟩ | ⟨pos, here, char, matching⟩
      · rw [broken] at counted
        cases counted
      rw [char, ok_bind] at counted
      cases matching with
      | mismatch nothing fails =>
        -- the pass with an array ends here, whatever the rest counts to
        subst nothing
        obtain ⟨added, sum⟩ : ∃ added, total = count + added :=
          ⟨total - count, by have grown := countLoop_grows counted; omega⟩
        refine ⟨added, sum, fun numTokens _ _ already => .inr ?_, .inl fun numTokens _ already => ?_⟩
        · rw [fails]
          rfl
        · rw [fails]
          rfl
      | fills next there size passes =>
        subst there
        obtain ⟨rest, sum, short, long⟩ := ih (JsmnParser.advance 1 next) counted
        have advanced : (JsmnParser.advance 1 next).tokens.length = parser.tokens.length + here :=
          size
        rw [advanced] at short long
        have all : parser.tokens.length + (here + rest) = parser.tokens.length + here + rest :=
          (Nat.add_assoc _ _ _).symm
        refine ⟨here + rest, by omega, fun numTokens fits few already => ?_, ?_⟩
        · rw [passes numTokens fits, size]
          by_cases room : parser.tokens.length + here ≤ numTokens
          · rw [if_pos room]
            exact short numTokens room (by omega) (already + here)
          · rw [if_neg room]
            exact .inl rfl
        · have room {numTokens : Nat} (enough : parser.tokens.length + (here + rest) ≤ numTokens) :
              parser.tokens.length ≤ numTokens ∧ next.tokens.length ≤ numTokens := by omega
          rcases long with fails | ⟨last, length, reaches⟩
          · refine .inl fun numTokens enough already => ?_
            rw [passes numTokens (room enough).1, if_pos (room enough).2]
            exact fails numTokens (by omega) (already + here)
          · refine .inr ⟨last, by omega, fun numTokens enough already => ?_⟩
            rw [passes numTokens (room enough).1, if_pos (room enough).2]
            have end_ := reaches numTokens (by omega) (already + here)
            rw [Nat.add_assoc] at end_
            exact end_
    · rw [jsmnCountLoop, if_neg inside] at counted
      obtain rfl := Except.ok.inj counted
      refine ⟨0, rfl, fun _ fits short => absurd fits (by omega), .inr ⟨parser, rfl, ?_⟩⟩
      intro numTokens _ already
      rw [jsmnParseLoop, if_neg inside]
      rfl

/-- The counting pass measures a text for the pass that fills an array. An error of the one is an
    error of the other for every array. Where it counts `total`, every array of that size or more
    gives one and the same result, which is not that it is full, and when it is a success it is a
    success with `total` tokens; in a smaller array no text is parsed, and it is never taken for
    a text that goes on. -/
theorem jsmnCount_measures (js : Ptr) (len : Nat) :
    match jsmnCount js len with
    | .error _ => ∀ numTokens, ∃ e, jsmnParse js len numTokens = .error e
    | .ok total => (∃ result, result ≠ .error .nomem ∧
          (∀ r toks, result = .ok (r, toks) → r = total ∧ toks.length = total) ∧
          ∀ numTokens, total ≤ numTokens → jsmnParse js len numTokens = result) ∧
        ∀ numTokens, numTokens < total → jsmnParse js len numTokens = .error .nomem ∨
          jsmnParse js len numTokens = .error .inval := by
  cases counted : jsmnCount js len with
  | error e =>
    intro numTokens
    obtain ⟨r, failed⟩ := countLoop_error numTokens 0 jsmnInit (Nat.zero_le _) counted
    exact ⟨r, by rw [jsmnParse, failed]; rfl⟩
  | ok total =>
    obtain ⟨added, sum, short, long⟩ := countLoop_ok jsmnInit counted
    have same : total = added := by omega
    subst same
    have size : jsmnInit.tokens.length + total = total := Nat.zero_add total
    rw [size] at short long
    refine ⟨?_, fun numTokens few => ?_⟩
    · rcases long with fails | ⟨next, length, reaches⟩
      · refine ⟨.error .inval, fun full => (by cases full), fun r toks parsed => (by cases parsed), ?_⟩
        intro numTokens enough
        rw [jsmnParse, fails numTokens enough]
        rfl
      · by_cases left_open : (lastBelow JsmnTok.isOpen next.tokens next.toknext).isSome
        · refine ⟨.error .part, fun full => (by cases full), fun r toks parsed => (by cases parsed), ?_⟩
          intro numTokens enough
          rw [jsmnParse, reaches numTokens enough]
          exact if_pos left_open
        · refine ⟨.ok (total, next.tokens), fun full => (by cases full), ?_, ?_⟩
          · intro r toks parsed
            simp only [Except.ok.injEq, Prod.mk.injEq] at parsed
            obtain ⟨rfl, rfl⟩ := parsed
            exact ⟨rfl, length⟩
          · intro numTokens enough
            rw [jsmnParse, reaches numTokens enough 0, Nat.zero_add]
            exact if_neg left_open
    · rcases short numTokens (Nat.zero_le _) few 0 with full | broken
      · exact .inl (by rw [jsmnParse, full]; rfl)
      · exact .inr (by rw [jsmnParse, broken]; rfl)

end RoverCounting
