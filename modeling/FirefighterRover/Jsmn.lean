import FirefighterRover.Lib.CMemory

/-!
jsmn.h as the firmware builds it: no JSMN_STRICT, no JSMN_PARENT_LINKS, and a token array
at every call. The parser reads `js` below `len` only. Offsets are unbounded here; an MQTT
payload is shorter than 2^28 bytes, so the C `int` and `unsigned int` offsets hold them.
-/
namespace RoverJsmn
open CMemory

inductive JsmnType where
  | undefined
  | object
  | array
  | string
  | primitive
  deriving DecidableEq, Repr

inductive JsmnErr where
  | nomem
  | inval
  | part
  deriving DecidableEq, Repr

def JsmnErr.code : JsmnErr → Int
  | .nomem => -1
  | .inval => -2
  | .part => -3

structure JsmnTok where
  type : JsmnType
  start : Int
  end_ : Int
  size : Int
  deriving DecidableEq, Repr

/-- `tokens` holds the allocated entries, so `toknext` is its length. -/
structure JsmnParser where
  pos : Nat
  toksuper : Int
  tokens : List JsmnTok
  deriving DecidableEq, Repr

def JsmnParser.toknext (parser : JsmnParser) : Nat := parser.tokens.length

def jsmnInit : JsmnParser := ⟨0, -1, []⟩

def JsmnParser.tok (parser : JsmnParser) (i : Int) : JsmnTok :=
  parser.tokens.getD i.toNat ⟨.undefined, -1, -1, 0⟩

/-- jsmn_alloc_token followed by the assignments of its caller. -/
def jsmnAllocToken (parser : JsmnParser) (numTokens : Nat) (token : JsmnTok) :
    Except JsmnErr JsmnParser :=
  if parser.toknext ≥ numTokens then .error .nomem
  else .ok { parser with tokens := parser.tokens ++ [token] }

def jsmnFillToken (type : JsmnType) (start end_ : Int) : JsmnTok := ⟨type, start, end_, 0⟩

def isPrimitiveEnd (c : UInt8) : Bool :=
  c = chr ':' ∨ c = chr '\t' ∨ c = chr '\r' ∨ c = chr '\n' ∨ c = chr ' ' ∨ c = chr ',' ∨
    c = chr ']' ∨ c = chr '}'

/-- The scanning loop of jsmn_parse_primitive. `fuel` is what is left of the text. -/
def primitiveEnd (js : Ptr) (len : Nat) : Nat → Nat → Except JsmnErr Nat
  | 0, pos => .ok pos
  | fuel + 1, pos =>
    if pos < len ∧ js pos ≠ 0 then
      if isPrimitiveEnd (js pos) then .ok pos
      else if js pos < 32 ∨ js pos ≥ 127 then .error .inval
      else primitiveEnd js len fuel (pos + 1)
    else .ok pos

def jsmnParsePrimitive (parser : JsmnParser) (js : Ptr) (len numTokens : Nat) :
    Except JsmnErr JsmnParser := do
  let start := parser.pos
  let pos ← primitiveEnd js len (len - start) start
  let parser ← jsmnAllocToken parser numTokens (jsmnFillToken .primitive start pos)
  .ok { parser with pos := pos - 1 }

def isHexDigit (c : UInt8) : Bool :=
  (48 ≤ c ∧ c ≤ 57) ∨ (65 ≤ c ∧ c ≤ 70) ∨ (97 ≤ c ∧ c ≤ 102)

def hexDigits (js : Ptr) (len : Nat) : Nat → Nat → Except JsmnErr Nat
  | 0, pos => .ok pos
  | count + 1, pos =>
    if pos < len ∧ js pos ≠ 0 then
      if isHexDigit (js pos) then hexDigits js len count (pos + 1) else .error .inval
    else .ok pos

def isSimpleEscape (c : UInt8) : Bool :=
  c = chr '\"' ∨ c = chr '/' ∨ c = chr '\\' ∨ c = chr 'b' ∨ c = chr 'f' ∨ c = chr 'r' ∨
    c = chr 'n' ∨ c = chr 't'

def stringEnd (js : Ptr) (len : Nat) : Nat → Nat → Except JsmnErr Nat
  | 0, _ => .error .part
  | fuel + 1, pos =>
    if pos < len ∧ js pos ≠ 0 then
      if js pos = chr '\"' then .ok pos
      else if js pos = chr '\\' ∧ pos + 1 < len then
        if isSimpleEscape (js (pos + 1)) then stringEnd js len fuel (pos + 2)
        else if js (pos + 1) = chr 'u' then do
          -- the decrement after the digits and the loop's own increment cancel
          let next ← hexDigits js len 4 (pos + 2)
          stringEnd js len fuel next
        else .error .inval
      else stringEnd js len fuel (pos + 1)
    else .error .part

def jsmnParseString (parser : JsmnParser) (js : Ptr) (len numTokens : Nat) :
    Except JsmnErr JsmnParser := do
  let start := parser.pos
  let pos ← stringEnd js len (len - start) (start + 1)
  let parser ← jsmnAllocToken parser numTokens (jsmnFillToken .string (start + 1) pos)
  .ok { parser with pos := pos }

def JsmnTok.isOpen (t : JsmnTok) : Bool := t.start ≠ -1 ∧ t.end_ = -1

def JsmnTok.isContainer (t : JsmnTok) : Bool := t.type = .array ∨ t.type = .object

/-- The downward loops over the token array: the last entry below `n` that satisfies `p`. -/
def lastBelow (p : JsmnTok → Bool) (tokens : List JsmnTok) : Nat → Option Nat
  | 0 => none
  | i + 1 => if (tokens[i]?).any p then some i else lastBelow p tokens i

def countMember (parser : JsmnParser) : JsmnParser :=
  if parser.toksuper ≠ -1 then
    { parser with
      tokens := parser.tokens.modify parser.toksuper.toNat fun t => { t with size := t.size + 1 } }
  else parser

def openContainer (parser : JsmnParser) (numTokens : Nat) (type : JsmnType) :
    Except JsmnErr JsmnParser := do
  -- the new token is not its own super token, so the order of the two updates is immaterial
  let parser ← jsmnAllocToken (countMember parser) numTokens ⟨type, parser.pos, -1, 0⟩
  .ok { parser with toksuper := (parser.toknext : Int) - 1 }

def closeContainer (parser : JsmnParser) (type : JsmnType) : Except JsmnErr JsmnParser :=
  match lastBelow JsmnTok.isOpen parser.tokens parser.toknext with
  | none => .error .inval
  | some i =>
    if (parser.tok i).type ≠ type then .error .inval
    else
      let tokens := parser.tokens.modify i fun t => { t with end_ := parser.pos + 1 }
      match lastBelow JsmnTok.isOpen tokens (i + 1) with
      | none => .ok { parser with toksuper := -1, tokens := tokens }
      | some j => .ok { parser with toksuper := j, tokens := tokens }

def endMember (parser : JsmnParser) : JsmnParser :=
  if parser.toksuper ≠ -1 ∧ (parser.tok parser.toksuper).isContainer = false then
    match lastBelow (fun t => t.isContainer && t.isOpen) parser.tokens parser.toknext with
    | none => parser
    | some i => { parser with toksuper := i }
  else parser

def jsmnParseChar (parser : JsmnParser) (js : Ptr) (len numTokens : Nat) :
    Except JsmnErr (JsmnParser × Nat) :=
  let c := js parser.pos
  if c = chr '{' ∨ c = chr '[' then do
    let parser ← openContainer parser numTokens (if c = chr '{' then .object else .array)
    .ok (parser, 1)
  else if c = chr '}' ∨ c = chr ']' then do
    let parser ← closeContainer parser (if c = chr '}' then .object else .array)
    .ok (parser, 0)
  else if c = chr '\"' then do
    let parser ← jsmnParseString parser js len numTokens
    .ok (countMember parser, 1)
  else if c = chr '\t' ∨ c = chr '\r' ∨ c = chr '\n' ∨ c = chr ' ' then .ok (parser, 0)
  else if c = chr ':' then .ok ({ parser with toksuper := (parser.toknext : Int) - 1 }, 0)
  else if c = chr ',' then .ok (endMember parser, 0)
  else do
    let parser ← jsmnParsePrimitive parser js len numTokens
    .ok (countMember parser, 1)

/-- Every iteration advances `pos`, so `fuel = len` outlasts the loop. -/
def jsmnParseLoop (js : Ptr) (len numTokens : Nat) :
    Nat → JsmnParser → Nat → Except JsmnErr (JsmnParser × Nat)
  | 0, parser, count => .ok (parser, count)
  | fuel + 1, parser, count =>
    if parser.pos < len ∧ js parser.pos ≠ 0 then do
      let (parser, added) ← jsmnParseChar parser js len numTokens
      jsmnParseLoop js len numTokens fuel { parser with pos := parser.pos + 1 } (count + added)
    else .ok (parser, count)

def jsmnParse (js : Ptr) (len numTokens : Nat) : Except JsmnErr (Nat × List JsmnTok) := do
  let (parser, count) ← jsmnParseLoop js len numTokens len jsmnInit 0
  if (lastBelow JsmnTok.isOpen parser.tokens parser.toknext).isSome then .error .part
  else .ok (count, parser.tokens)

example : jsmnParse (cstr (lit "\x7b\"speed\": 3\x7d")) 12 4 =
    .ok (3, [⟨.object, 0, 12, 1⟩, ⟨.string, 2, 7, 1⟩, ⟨.primitive, 10, 11, 0⟩]) := by decide

end RoverJsmn
