import FirefighterRover.Jsmn

/-!
json_parser.c and the console of uart_term.c. The console is a list of texts, one for each call
of Report. The C string behind a %s is read as far as the buffer of the call reaches.
-/
namespace RoverJson
open CMemory RoverJsmn

/-- What Report writes to UART1: vsnprintf cuts the text to `pcBuff[512]`. -/
def report (text : List UInt8) : List UInt8 := snprintf 512 text

def tokenValue (payload : Ptr) (tok : JsmnTok) : Ptr := payload.add tok.start.toNat

def tokenText (payload : Ptr) (tok : JsmnTok) : List UInt8 :=
  strn (tokenValue payload tok) (tok.end_ - tok.start).toNat

def jsoneq (json : Ptr) (tok : JsmnTok) (s : List UInt8) : Int :=
  if tok.type = .string ∧ (s.length : Int) = tok.end_ - tok.start ∧
      strncmp (tokenValue json tok) (cstr s) (tok.end_ - tok.start).toNat = 0 then 0
  else -1

def tokenBytes (payload : Ptr) (tok : JsmnTok) : List UInt8 :=
  (List.range (tok.end_ - tok.start).toNat).map (tokenValue payload tok)

theorem tokenBytes_image (payload : Ptr) (tok : JsmnTok) : tokenBytes payload tok =
    (tokenValue payload tok).image (tok.end_ - tok.start).toNat :=
  rfl

theorem jsoneq_iff (json : Ptr) (tok : JsmnTok) {s : List UInt8} (nonempty : s ≠ [])
    (clean : ∀ c ∈ s, c ≠ 0) :
    jsoneq json tok s = 0 ↔ tok.type = .string ∧ tokenBytes json tok = s := by
  have positive : 0 < s.length := List.length_pos_iff.mpr nonempty
  have sized : (s.length : Int) = tok.end_ - tok.start ↔
      (tok.end_ - tok.start).toNat = s.length := by omega
  have matched : jsoneq json tok s = 0 ↔ tok.type = .string ∧
      (s.length : Int) = tok.end_ - tok.start ∧
      strncmp (tokenValue json tok) (cstr s) (tok.end_ - tok.start).toNat = 0 := by
    unfold jsoneq
    split
    · rename_i equal
      exact iff_of_true rfl equal
    · rename_i differ
      exact iff_of_false (by decide) differ
  rw [matched, sized]
  constructor
  · rintro ⟨string, size, same⟩
    rw [size, strncmp_cstr clean] at same
    exact ⟨string, by rw [tokenBytes, size, same]⟩
  · rintro ⟨string, same⟩
    have size : (tok.end_ - tok.start).toNat = s.length := by
      rw [← same, tokenBytes_image, image_length]
    rw [tokenBytes, size] at same
    refine ⟨string, size, ?_⟩
    rw [size, strncmp_cstr clean, same]

/-- One pass of the loop of parse_string: the entries of `t` it read and what it printed. -/
structure Line where
  reads : List Nat
  report : List UInt8
  deriving DecidableEq, Repr

def knownKeys : List String := ["ArmStatus", "RoverDirection", "CameraTemp", "HeaterTemp"]

def parseStringLoop (payload : Ptr) (t : Nat → JsmnTok) (parsed : Nat) : Nat → Nat → List Line
  | 0, _ => []
  | fuel + 1, i =>
    if i < parsed then
      match knownKeys.find? fun key => jsoneq payload (t i) (lit key) = 0 with
      | some key =>
        ⟨[i, i + 1], report (lit "- " ++ lit key ++ lit ": " ++ tokenText payload (t (i + 1)) ++
          lit "\n")⟩ :: parseStringLoop payload t parsed fuel (i + 2)
      | none =>
        ⟨[i], report (lit "Unexpected key: " ++ tokenText payload (t i) ++ lit "\n")⟩ ::
          parseStringLoop payload t parsed fuel (i + 1)
    else []

/-- The token array as parse_string reads it: the entries jsmn_parse filled, and behind
    them what the stack held before. -/
def tokenArray (filled : List JsmnTok) (stack : Nat → JsmnTok) : Nat → JsmnTok :=
  fun i => filled.getD i (stack i)

def parseString (payload : Ptr) (payloadLen : Nat) (stack : Nat → JsmnTok) :
    List (List UInt8) :=
  match jsmnParse payload payloadLen 128 with
  | .error r => [report (lit "Failed to parse JSON: " ++ decimal r.code ++ lit "\n")]
  | .ok (parsed, filled) =>
    let t := tokenArray filled stack
    (if parsed < 1 ∨ (t 0).type ≠ .object then [report (lit "Object expected\n")]
      else []) ++
      (parseStringLoop payload t parsed parsed 1).map Line.report ++ [report (lit "\n")]

def stat (pubAttempts pubSuccess : Int) : List UInt8 :=
  lit "\x7b\"publishAttempts\": \"" ++ decimal pubAttempts ++ lit "\", \"publishSuccesses\": " ++
    decimal pubSuccess ++ lit "\"\x7d"

def createStatsJson (pubAttempts pubSuccess : Int) : List UInt8 :=
  snprintf 256 (stat pubAttempts pubSuccess)

def createGenStatusJson (roverDir : Ptr) (speed : Int) : List UInt8 :=
  snprintf 256 (lit "\x7b\"RoverDirection\": \"" ++ strn roverDir 256 ++ lit "\", \"Speed\": " ++
    decimal speed ++ lit "\x7d")

end RoverJson
