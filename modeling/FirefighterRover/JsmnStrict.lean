import FirefighterRover.JsmnMachine

/-!
jsmn.h built with JSMN_STRICT: bare values begin as numbers, true, false and null do, are ended by
what may follow a value, and are neither keys nor second values of a key, and containers are not
keys. What this build accepts, the other one accepts with the same tokens.
-/
namespace RoverStrict
open CMemory RoverJsmn RoverLexing RoverMachine

/-- What ends a primitive: a colon does not. -/
def isPrimitiveEndStrict (c : UInt8) : Bool :=
  c = chr '\t' ∨ c = chr '\r' ∨ c = chr '\n' ∨ c = chr ' ' ∨ c = chr ',' ∨ c = chr ']' ∨ c = chr '}'

/-- The scanning loop of jsmn_parse_primitive, which the end of the text does not end well. -/
def primitiveEndStrict (js : Ptr) (len : Nat) : Nat → Nat → Except JsmnErr Nat
  | 0, _ => .error .part
  | fuel + 1, pos =>
    if pos < len ∧ js pos ≠ 0 then
      if isPrimitiveEndStrict (js pos) then .ok pos
      else if js pos < 32 ∨ js pos ≥ 127 then .error .inval
      else primitiveEndStrict js len fuel (pos + 1)
    else .error .part

def jsmnParsePrimitiveStrict (parser : JsmnParser) (js : Ptr) (len numTokens : Nat) :
    Except JsmnErr JsmnParser := do
  let start := parser.pos
  let pos ← primitiveEndStrict js len (len - start) start
  let parser ← jsmnAllocToken parser numTokens (jsmnFillToken .primitive start pos)
  .ok { parser with pos := pos - 1 }

def isPrimitiveStart (c : UInt8) : Bool :=
  c = chr '-' ∨ (48 ≤ c ∧ c ≤ 57) ∨ c = chr 't' ∨ c = chr 'f' ∨ c = chr 'n'

def inObject (parser : JsmnParser) : Bool :=
  parser.toksuper ≠ -1 ∧ (parser.tok parser.toksuper).type = .object

def behindValue (parser : JsmnParser) : Bool :=
  parser.toksuper ≠ -1 ∧ (parser.tok parser.toksuper).type = .string ∧
    (parser.tok parser.toksuper).size ≠ 0

def openContainerStrict (parser : JsmnParser) (numTokens : Nat) (type : JsmnType) :
    Except JsmnErr JsmnParser := do
  -- the entry is allocated before the super token is looked at, and is not the super token
  let next ← openContainer parser numTokens type
  if inObject parser then .error .inval else .ok next

def jsmnParseCharStrict (parser : JsmnParser) (js : Ptr) (len numTokens : Nat) :
    Except JsmnErr (JsmnParser × Nat) :=
  let c := js parser.pos
  if c = chr '{' ∨ c = chr '[' then do
    let parser ← openContainerStrict parser numTokens (if c = chr '{' then .object else .array)
    .ok (parser, 1)
  else if c = chr '}' ∨ c = chr ']' then do
    let parser ← closeContainer parser (if c = chr '}' then .object else .array)
    .ok (parser, 0)
  else if c = chr '\"' then do
    let parser ← jsmnParseString parser js len numTokens
    .ok (countMember parser, 1)
  else if c = chr '\t' ∨ c = chr '\r' ∨ c = chr '\n' ∨ c = chr ' ' then .ok (parser, 0)
  else if c = chr ':' then .ok ({ parser with toksuper := (parser.toknext : Int) - 1 }, 0)
  else if c = chr ',' then .ok (endMember parser, 0)
  else if isPrimitiveStart c then
    if inObject parser ∨ behindValue parser then .error .inval
    else do
      let parser ← jsmnParsePrimitiveStrict parser js len numTokens
      .ok (countMember parser, 1)
  else .error .inval

def jsmnParseLoopStrict (js : Ptr) (len numTokens : Nat) :
    Nat → JsmnParser → Nat → Except JsmnErr (JsmnParser × Nat)
  | 0, parser, count => .ok (parser, count)
  | fuel + 1, parser, count =>
    if parser.pos < len ∧ js parser.pos ≠ 0 then do
      let (parser, added) ← jsmnParseCharStrict parser js len numTokens
      jsmnParseLoopStrict js len numTokens fuel { parser with pos := parser.pos + 1 } (count + added)
    else .ok (parser, count)

def jsmnParseStrict (js : Ptr) (len numTokens : Nat) : Except JsmnErr (Nat × List JsmnTok) := do
  let (parser, count) ← jsmnParseLoopStrict js len numTokens len jsmnInit 0
  if (lastBelow JsmnTok.isOpen parser.tokens parser.toknext).isSome then .error .part
  else .ok (count, parser.tokens)

/-- A colon inside a bare value, which the other build takes for two. -/
example : jsmnParseStrict (cstr (lit "[1:2]")) 5 4 =
      .ok (2, [⟨.array, 0, 5, 1⟩, ⟨.primitive, 1, 4, 0⟩]) ∧
    jsmnParse (cstr (lit "[1:2]")) 5 4 =
      .ok (3, [⟨.array, 0, 5, 1⟩, ⟨.primitive, 1, 2, 1⟩, ⟨.primitive, 3, 4, 0⟩]) := by decide

def Colon (js : Ptr) (t : JsmnTok) : Prop :=
  t.type = .primitive ∧ ∃ i : Nat, t.start ≤ i ∧ (i : Int) < t.end_ ∧ js i = chr ':'

def SomeColon (js : Ptr) (tokens : List JsmnTok) : Prop := ∃ t ∈ tokens, Colon js t

theorem primitiveEndStrict_le {js : Ptr} {len e : Nat} : ∀ {fuel pos : Nat},
    primitiveEndStrict js len fuel pos = .ok e → pos ≤ e := by
  intro fuel
  induction fuel with
  | zero => intro pos scanned; cases scanned
  | succ fuel ih =>
    intro pos scanned
    rw [primitiveEndStrict] at scanned
    repeat' split at scanned
    · exact Nat.le_of_eq (Except.ok.inj scanned)
    · cases scanned
    · exact Nat.le_of_succ_le (ih scanned)
    · cases scanned

theorem primitiveEndStrict_plain {js : Ptr} {len e : Nat} : ∀ {fuel pos : Nat},
    primitiveEndStrict js len fuel pos = .ok e → primitiveEnd js len fuel pos = .ok e ∨
      ∃ i, pos ≤ i ∧ i < e ∧ js i = chr ':' := by
  intro fuel
  induction fuel with
  | zero => intro pos scanned; cases scanned
  | succ fuel ih =>
    intro pos scanned
    rw [primitiveEndStrict] at scanned
    rw [primitiveEnd]
    by_cases inside : pos < len ∧ js pos ≠ 0
    · rw [if_pos inside] at scanned ⊢
      by_cases colon : js pos = chr ':'
      · right
        have goes : isPrimitiveEndStrict (js pos) = false ∧ ¬(js pos < 32 ∨ js pos ≥ 127) := by
          rw [colon]
          decide
        rw [if_neg (by simp [goes.1]), if_neg goes.2] at scanned
        exact ⟨pos, Nat.le_refl pos, primitiveEndStrict_le scanned, colon⟩
      · have same : isPrimitiveEnd (js pos) = isPrimitiveEndStrict (js pos) := by
          simp [isPrimitiveEnd, isPrimitiveEndStrict, colon]
        rw [same]
        by_cases ends : isPrimitiveEndStrict (js pos) = true
        · rw [if_pos ends] at scanned ⊢
          exact Or.inl scanned
        · rw [if_neg ends] at scanned ⊢
          by_cases control : js pos < 32 ∨ js pos ≥ 127
          · rw [if_pos control] at scanned
            cases scanned
          · rw [if_neg control] at scanned ⊢
            rcases ih scanned with plain | ⟨i, low, high, here⟩
            · exact Or.inl plain
            · exact Or.inr ⟨i, Nat.le_of_succ_le low, high, here⟩
    · rw [if_neg inside] at scanned
      cases scanned

theorem someColon_shapes {js : Ptr} {a b : List JsmnTok} (same : a.map shape = b.map shape)
    (some : SomeColon js a) : SomeColon js b := by
  obtain ⟨t, member, type, inside⟩ := some
  have kept : shape t ∈ b.map shape := by
    rw [← same]
    exact List.mem_map_of_mem member
  obtain ⟨u, there, alike⟩ := List.mem_map.mp kept
  obtain ⟨typeU, start, stop⟩ := shape_same alike
  refine ⟨u, there, typeU.trans type, ?_⟩
  rw [start, stop]
  exact inside

theorem someColon_append {js : Ptr} {a : List JsmnTok} (some : SomeColon js a) (b : List JsmnTok) :
    SomeColon js (a ++ b) := by
  obtain ⟨t, member, colon⟩ := some
  exact ⟨t, List.mem_append_left b member, colon⟩

theorem someColon_take {js : Ptr} {numTokens : Nat} {parser next : JsmnParser} {piece : Piece}
    (taken : takePiece numTokens parser piece = .ok next) (some : SomeColon js parser.tokens) :
    SomeColon js next.tokens := by
  have stored (n : Nat) (t : JsmnTok)
      (made : (storeToken numTokens t parser).map (JsmnParser.advance n) = .ok next) :
      SomeColon js next.tokens := by
    apply someColon_shapes (a := parser.tokens ++ [t]) _ (someColon_append some [t])
    rw [store_shapes made, List.map_append, List.map_singleton]
  cases piece with
  | mark c =>
    rw [takes_mark taken]
    exact some
  | opens b =>
    rw [takes_open taken]
    exact someColon_append (someColon_shapes (countMember_shapes parser).symm some) _
  | closes b =>
    obtain ⟨before, t, after, tokens, opened, _, _, rfl⟩ := takes_close taken
    obtain ⟨u, member, type, i, low, high, colon⟩ := some
    have other : u ≠ t := by
      rintro rfl
      simp only [JsmnTok.isOpen, decide_eq_true_eq] at opened
      omega
    refine ⟨u, ?_, type, i, low, high, colon⟩
    rw [tokens] at member
    simp only [List.mem_append, List.mem_cons, other, false_or] at member ⊢
    exact member.imp id Or.inr
  | string body => exact stored _ _ taken
  | bare text => exact stored _ _ taken

theorem charStrict_plain {js : Ptr} {len numTokens : Nat} {parser : JsmnParser}
    {result : JsmnParser × Nat}
    (passed : jsmnParseCharStrict parser js len numTokens = .ok result) :
    jsmnParseChar parser js len numTokens = .ok result ∨ SomeColon js result.1.tokens := by
  unfold jsmnParseCharStrict at passed
  unfold jsmnParseChar
  dsimp only at passed ⊢
  by_cases opening : js parser.pos = chr '{' ∨ js parser.pos = chr '['
  · left
    rw [if_pos opening] at passed ⊢
    unfold openContainerStrict at passed
    generalize openContainer parser numTokens _ = opened at passed ⊢
    cases opened with
    | error e => cases passed
    | ok next =>
      by_cases key : inObject parser = true
      · simp only [bind, Except.bind, if_pos key] at passed
        cases passed
      · simp only [bind, Except.bind, if_neg key] at passed
        exact passed
  rw [if_neg opening] at passed ⊢
  by_cases closing : js parser.pos = chr '}' ∨ js parser.pos = chr ']'
  · rw [if_pos closing] at passed ⊢
    exact Or.inl passed
  rw [if_neg closing] at passed ⊢
  by_cases quote : js parser.pos = chr '\"'
  · rw [if_pos quote] at passed ⊢
    exact Or.inl passed
  rw [if_neg quote] at passed ⊢
  by_cases blank : js parser.pos = chr '\t' ∨ js parser.pos = chr '\r' ∨ js parser.pos = chr '\n' ∨
      js parser.pos = chr ' '
  · rw [if_pos blank] at passed ⊢
    exact Or.inl passed
  rw [if_neg blank] at passed ⊢
  by_cases colon : js parser.pos = chr ':'
  · rw [if_pos colon] at passed ⊢
    exact Or.inl passed
  rw [if_neg colon] at passed ⊢
  by_cases comma : js parser.pos = chr ','
  · rw [if_pos comma] at passed ⊢
    exact Or.inl passed
  rw [if_neg comma] at passed ⊢
  split at passed
  · split at passed
    · cases passed
    · unfold jsmnParsePrimitiveStrict at passed
      unfold jsmnParsePrimitive
      dsimp only at passed ⊢
      cases scanned : primitiveEndStrict js len (len - parser.pos) parser.pos with
      | error e =>
        rw [scanned] at passed
        cases passed
      | ok e =>
        rw [scanned] at passed
        rcases primitiveEndStrict_plain scanned with plain | ⟨i, low, high, here⟩
        · left
          rw [plain]
          exact passed
        · right
          cases made : jsmnAllocToken parser numTokens (jsmnFillToken .primitive parser.pos e) with
          | error e =>
            simp only [bind, Except.bind, made] at passed
            cases passed
          | ok wider =>
            simp only [bind, Except.bind, made] at passed
            obtain rfl := Except.ok.inj passed
            unfold jsmnAllocToken at made
            split at made
            · cases made
            · obtain rfl := Except.ok.inj made
              refine someColon_shapes (countMember_shapes _).symm ?_
              refine ⟨jsmnFillToken .primitive parser.pos e,
                List.mem_append_right _ (List.mem_singleton_self _), rfl, i, ?_, ?_, here⟩
              · simp only [jsmnFillToken]
                omega
              · simp only [jsmnFillToken]
                omega
  · cases passed

section
variable {js : Ptr} {len numTokens : Nat}

theorem loopStrict_keeps {total : Nat} {last : JsmnParser} : ∀ {fuel count : Nat}
    {parser : JsmnParser}, jsmnParseLoopStrict js len numTokens fuel parser count = .ok (last, total) →
    SomeColon js parser.tokens → SomeColon js last.tokens := by
  intro fuel
  induction fuel with
  | zero =>
    intro count parser looped some
    obtain ⟨rfl, _⟩ := Prod.mk.inj (Except.ok.inj looped)
    exact some
  | succ fuel ih =>
    intro count parser looped some
    rw [jsmnParseLoopStrict] at looped
    by_cases inside : parser.pos < len ∧ js parser.pos ≠ 0
    · rw [if_pos inside] at looped
      cases char : jsmnParseCharStrict parser js len numTokens with
      | error e =>
        rw [char] at looped
        cases looped
      | ok result =>
        rw [char] at looped
        apply ih looped
        rcases charStrict_plain char with plain | colon
        · obtain ⟨piece, _, _, _, _, taken, _⟩ := parseChar_taken inside plain
          exact someColon_take taken some
        · exact colon
    · rw [if_neg inside] at looped
      obtain ⟨rfl, _⟩ := Prod.mk.inj (Except.ok.inj looped)
      exact some

theorem loopStrict_plain {total : Nat} {last : JsmnParser} : ∀ {fuel count : Nat}
    {parser : JsmnParser}, jsmnParseLoopStrict js len numTokens fuel parser count = .ok (last, total) →
    jsmnParseLoop js len numTokens fuel parser count = .ok (last, total) ∨
      SomeColon js last.tokens := by
  intro fuel
  induction fuel with
  | zero => intro count parser looped; exact Or.inl looped
  | succ fuel ih =>
    intro count parser looped
    rw [jsmnParseLoopStrict] at looped
    rw [jsmnParseLoop]
    by_cases inside : parser.pos < len ∧ js parser.pos ≠ 0
    · rw [if_pos inside] at looped ⊢
      cases char : jsmnParseCharStrict parser js len numTokens with
      | error e =>
        rw [char] at looped
        cases looped
      | ok result =>
        rw [char] at looped
        rcases charStrict_plain char with plain | colon
        · rw [plain]
          exact ih looped
        · exact Or.inr (loopStrict_keeps looped colon)
    · rw [if_neg inside] at looped ⊢
      exact Or.inl looped

end

/-- Any text and any number of entries: what jsmn_parse accepts with JSMN_STRICT, it accepts
    without, with the same tokens, unless one of them is a bare value with a colon in it. -/
theorem jsmnParseStrict_plain {js : Ptr} {len numTokens r : Nat} {toks : List JsmnTok}
    (parsed : jsmnParseStrict js len numTokens = .ok (r, toks)) :
    jsmnParse js len numTokens = .ok (r, toks) ∨ SomeColon js toks := by
  unfold jsmnParseStrict at parsed
  unfold jsmnParse
  cases looped : jsmnParseLoopStrict js len numTokens len jsmnInit 0 with
  | error e =>
    rw [looped] at parsed
    cases parsed
  | ok result =>
    obtain ⟨last, total⟩ := result
    rw [looped] at parsed
    have kept : toks = last.tokens := by
      simp only [bind, Except.bind] at parsed
      split at parsed
      · cases parsed
      · exact (Prod.mk.inj (Except.ok.inj parsed)).2.symm
    rcases loopStrict_plain looped with plain | colon
    · left
      rw [plain]
      exact parsed
    · right
      rw [kept]
      exact colon

theorem jsmnParseStrict_plain_array :
    jsmnParse (cstr (lit "[1, -2]")) 7 4 = .ok (3, [⟨.array, 0, 7, 2⟩, ⟨.primitive, 1, 2, 0⟩,
      ⟨.primitive, 4, 6, 0⟩]) ∨ SomeColon (cstr (lit "[1, -2]"))
        [⟨.array, 0, 7, 2⟩, ⟨.primitive, 1, 2, 0⟩, ⟨.primitive, 4, 6, 0⟩] :=
  jsmnParseStrict_plain (by decide : jsmnParseStrict (cstr (lit "[1, -2]")) 7 4 = .ok (3,
    [⟨.array, 0, 7, 2⟩, ⟨.primitive, 1, 2, 0⟩, ⟨.primitive, 4, 6, 0⟩]))

end RoverStrict
