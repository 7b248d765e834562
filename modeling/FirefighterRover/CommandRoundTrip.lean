import FirefighterRover.MessageBounds

/-!
Commands as an operator writes them: one member with any whitespace around its symbols, the
value with or without quotes. What the text says is what the handlers decode.
-/
namespace RoverCommandRoundTrip
open CMemory RoverJsmn RoverJson RoverFlat RoverQueues RoverState RoverCallback RoverCallbackRuns
  RoverCommands RoverStartup RoverCommandTexts RoverAcceptance RoverMessageBounds FlatJson

def isWord (c : UInt8) : Bool :=
  32 < c ∧ c < 127 ∧ c ≠ chr '\"' ∧ c ≠ chr '\\' ∧ c ≠ chr ':' ∧ c ≠ chr ',' ∧ c ≠ chr '{' ∧
    c ≠ chr '}' ∧ c ≠ chr '[' ∧ c ≠ chr ']'

structure Word where
  text : List UInt8
  nonempty : text ≠ []
  bytes : ∀ c ∈ text, isWord c = true

theorem word_byte {c : UInt8} (word : isWord c = true) : isPlain c = true ∧ isBare c = true ∧
    c ≠ chr '\"' ∧ c ≠ chr '{' ∧ c ≠ chr '[' ∧ c ≠ chr '}' ∧ isBlank c = false := by
  simp only [isWord, ne_eq, Bool.decide_and, Bool.and_eq_true, decide_eq_true_eq] at word
  obtain ⟨low, high, quote, escape, colon, comma, brace, close, bracket, square⟩ := word
  have other : ∀ d : UInt8, ¬ 32 < d → c ≠ d := by
    rintro d small rfl
    exact small low
  refine ⟨?_, ?_, quote, brace, bracket, close, ?_⟩
  · simp [isPlain, other 0 (by decide), quote, escape]
  · simp [isBare, low, high, colon, comma, close, square]
  · simp [isBlank, other (chr '\t') (by decide), other (chr '\r') (by decide),
      other (chr '\n') (by decide), other (chr ' ') (by decide)]

def Word.plain (v : Word) : Plain := ⟨v.text, fun c member => (word_byte (v.bytes c member)).1⟩

def Word.bare (v : Word) : Bare where
  text := v.text
  nonempty := v.nonempty
  bare := fun c member => (word_byte (v.bytes c member)).2.1
  starts := by
    intro c first
    have letter := word_byte (v.bytes c (List.mem_of_mem_head? first))
    exact ⟨letter.2.2.1, letter.2.2.2.1, letter.2.2.2.2.1⟩

inductive Form where
  | quoted
  | bare
  deriving DecidableEq, Repr

def Form.bytes (text : List UInt8) : Form → List UInt8
  | .quoted => quote text
  | .bare => text

structure Spacing where
  w0 : Blank
  w1 : Blank
  w2 : Blank
  w3 : Blank
  w4 : Blank
  w5 : Blank

def payload (w : Spacing) (key : String) (value : List UInt8) : List UInt8 :=
  w.w0.text ++ (chr '{' :: (w.w1.text ++ (quote (lit key) ++ (w.w2.text ++ (chr ':' ::
    (w.w3.text ++ (value ++ (w.w4.text ++ (chr '}' :: w.w5.text)))))))))

/-- A message with this command for its payload, whatever lies behind it in memory. -/
structure Sends (msg : RecvMsg) (topic key : String) (w : Spacing) (value : List UInt8) : Prop where
  topic : TopicIs msg topic
  data : msg.data.image msg.dataLen = payload w key value

theorem message_sends (topic key : String) (w : Spacing) (value : List UInt8)
    (stack : Nat → JsmnTok) :
    Sends ⟨cstr (lit topic), (lit topic).length, cstr (payload w key value),
      (payload w key value).length, stack⟩ topic key w value := by
  constructor
  case topic => exact ⟨rfl, fun _ _ => rfl⟩
  case data => exact cstr_image (payload w key value)

def Form.scalar (v : Word) : Form → Scalar
  | .quoted => .quoted v.plain
  | .bare => .bare v.bare

def commandObject (w : Spacing) (key : Plain) (value : Scalar) : FlatObject :=
  ⟨w.w0, .none, [⟨w.w1, key, w.w2, w.w3, value, w.w4⟩], w.w5⟩

theorem commandObject_bytes (w : Spacing) {key : String} (plain : ∀ c ∈ lit key, isPlain c = true)
    (v : Word) (form : Form) :
    (commandObject w ⟨lit key, plain⟩ (form.scalar v)).bytes = payload w key (form.bytes v.text) := by
  cases form <;>
    simp [commandObject, FlatObject.bytes, membersBytes, Member.bytes, payload, Form.scalar,
      Form.bytes, Scalar.bytes, Blank.none, Word.plain, Word.bare]

section
variable {msg : RecvMsg} {topic key : String} {w : Spacing} {v : Word} {form : Form}

theorem sends_accepted (handled : key ∈ handlerKeys)
    (sends : Sends msg topic key w (form.bytes v.text)) : ∃ tok,
    checkPayload msg (lit key) = .ok tok ∧ spell msg.data tok = scalarSpelling (form.scalar v) := by
  obtain ⟨nonempty, clean, plain⟩ := handlerKey_text handled
  have bytes := sends.data.trans (commandObject_bytes w plain v form).symm
  have size := congrArg List.length bytes
  rw [image_length] at size
  have held : msg.data.image (commandObject w ⟨lit key, plain⟩ (form.scalar v)).bytes.length =
      (commandObject w ⟨lit key, plain⟩ (form.scalar v)).bytes := by
    rw [← size]
    exact bytes
  have room : 2 * 1 + 1 ≤ 4 := Nat.le_succ 3
  obtain ⟨toks, parsed, spelled⟩ := jsmnParse_object _ held room
  rw [← size] at parsed
  obtain ⟨tok, accepted, _, value⟩ := spelled_accepted nonempty clean parsed spelled
  exact ⟨tok, accepted, value⟩

theorem sends_text {tok : JsmnTok} (spelled : spell msg.data tok = scalarSpelling (form.scalar v)) :
    tokenBytes msg.data tok = v.text := by
  have text := scalarSpelling_bytes spelled
  cases form <;> exact text

/-- The value of a command is followed by its closing brace: no test runs on behind it. -/
theorem sends_settled (handled : key ∈ handlerKeys)
    (sends : Sends msg topic key w (form.bytes v.text)) {tok : JsmnTok}
    (accepted : checkPayload msg (lit key) = .ok tok) (text : tokenBytes msg.data tok = v.text)
    (test : String) : ¬ Dangling msg tok test := by
  rintro ⟨_, ended, _⟩
  obtain ⟨nonempty, clean, _⟩ := handlerKey_text handled
  obtain ⟨positive, inside⟩ := value_inside nonempty clean accepted
  have single : SingleMember (msg.data.image msg.dataLen) (lit key) :=
    ⟨w.w0, w.w1, w.w2, w.w3, w.w4, w.w5, form.bytes v.text, sends.data⟩
  obtain ⟨c, last, kind⟩ := singleMember_last single
  have tail : (tokenBytes msg.data tok).getLast? = some c := by
    rw [← last, tokenBytes_image, image_last _ (by omega), image_last _ (by omega), tokenValue, Ptr.add]
    congr 2
    omega
  rw [text] at tail
  have letter := word_byte (v.bytes c (List.mem_of_getLast? tail))
  rcases kind with close | blank
  · exact letter.2.2.2.2.2.1 close
  · rw [letter.2.2.2.2.2.2] at blank
    cases blank

def textDirection (text : List UInt8) : Direction :=
  if lit "forward" <+: text then .forward
  else if lit "re" <+: text then .reverse
  else if lit "right" <+: text then .right
  else if lit "left" <+: text then .left
  else .stop

def textLevel (text : List UInt8) : Nat := byteLevel (text.headD 0)

theorem decodeDirection_text (handled : key ∈ handlerKeys) {tok : JsmnTok}
    (accepted : checkPayload msg (lit key) = .ok tok) (settled : ∀ test, ¬ Dangling msg tok test) :
    decodeDirection (tokenValue msg.data tok) = textDirection (tokenBytes msg.data tok) := by
  obtain ⟨nonempty, clean, _⟩ := handlerKey_text handled
  have tests : ∀ m ∈ movingTests, begins (tokenValue msg.data tok) m.test = true ↔
      lit m.test <+: tokenBytes msg.data tok :=
    fun m listed => begins_text_iff nonempty clean accepted listed (settled m.test)
  simp only [movingTests, List.forall_mem_cons] at tests
  obtain ⟨forward, reverse, right, left, _⟩ := tests
  rw [decodeDirection_begins, textDirection]
  simp only [forward, reverse, right, left]

theorem decodeSpeed_text {tok : JsmnTok} (text : tokenBytes msg.data tok = v.text) :
    decodeSpeed (tokenValue msg.data tok) = textLevel v.text := by
  rw [decodeSpeed_byte, textLevel, ← text, tokenBytes_image]
  cases size : (tok.end_ - tok.start).toNat with
  | zero =>
    rw [tokenBytes_image, size] at text
    exact absurd text.symm v.nonempty
  | succ n =>
    rw [image_succ]
    rfl

theorem tokenText_word {tok : JsmnTok} (text : tokenBytes msg.data tok = v.text) :
    tokenText msg.data tok = v.text := by
  have whole : (tokenValue msg.data tok).image (tok.end_ - tok.start).toNat = v.text := text
  have clean : ∀ c ∈ v.text, c ≠ 0 := by
    rintro c member rfl
    exact absurd (v.bytes 0 member) (by decide)
  rw [← whole] at clean ⊢
  exact strn_image clean

theorem sensor_state (sends : Sends msg "firefighter/sensor" "direction" w (form.bytes v.text))
    (st : CallbackState) :
    mqttClientCallback st (.recv msg) =
      { st with
        console := st.console ++ [report (lit "Direction is \"" ++ v.text ++ lit "\"\n")]
        gpio0 := true
        dir := textDirection v.text
        rover := moveRover (textDirection v.text) st.rover } := by
  have handled : "direction" ∈ handlerKeys := by decide
  obtain ⟨tok, accepted, spelled⟩ := sends_accepted handled sends
  have text := sends_text spelled
  have decoded := decodeDirection_text handled accepted (sends_settled handled sends accepted text)
  simp only [mqttClientCallback, sensor_dispatch sends.topic, sensorHandler, accepted, decoded, text,
    tokenText_word text]
  rfl

theorem speed_state (sends : Sends msg "firefighter/rover/speed" "speed" w (form.bytes v.text))
    (st : CallbackState) :
    mqttClientCallback st (.recv msg) =
      { st with
        console := st.console ++ [report (lit "Speed is \"" ++ v.text ++ lit "\"\n")]
        s := textLevel v.text
        rover := moveRover st.dir (changeSpeed (textLevel v.text) st.rover) } := by
  obtain ⟨tok, accepted, spelled⟩ := sends_accepted (by decide : "speed" ∈ handlerKeys) sends
  have text := sends_text spelled
  simp only [mqttClientCallback, speed_dispatch sends.topic, speedHandler, accepted,
    decodeSpeed_text text, tokenText_word text]
  rfl

end

inductive Control where
  | direction
  | speed
  deriving DecidableEq, Repr

def Control.topic : Control → String
  | .direction => "firefighter/sensor"
  | .speed => "firefighter/rover/speed"

def Control.key : Control → String
  | .direction => "direction"
  | .speed => "speed"

def Control.handler : Control → Handler
  | .direction => .sensor
  | .speed => .speed

def directionWords : List (String × Direction) :=
  [("forward", .forward), ("reverse", .reverse), ("right", .right), ("left", .left),
   ("stop", .stop), ("estop", .stop)]

def levelDigits : List (String × Nat) :=
  [("0", 0), ("1", 1), ("2", 2), ("3", 3), ("4", 4), ("5", 5)]

def statusWords : List (String × StatusType) := [("start", .start), ("stop", .stop)]

/-- A command is accepted in both forms with its value text, both do the same, and the words
    of the protocol do what they say. -/
structure RoundTrips (w : Spacing) (v : Word) : Prop where
  accepted : ∀ (control : Control) (form : Form) (msg : RecvMsg),
    Sends msg control.topic control.key w (form.bytes v.text) →
    dispatch msg = control.handler ∧ ∃ tok, checkPayload msg (lit control.key) = .ok tok ∧
      tokenBytes msg.data tok = v.text
  sameState : ∀ (control : Control) (quoted bare : RecvMsg),
    Sends quoted control.topic control.key w (Form.quoted.bytes v.text) →
    Sends bare control.topic control.key w (Form.bare.bytes v.text) →
    ∀ st, mqttClientCallback st (.recv quoted) = mqttClientCallback st (.recv bare)
  direction : ∀ word d, (word, d) ∈ directionWords → v.text = lit word →
    ∀ (form : Form) (msg : RecvMsg),
    Sends msg "firefighter/sensor" "direction" w (form.bytes v.text) →
    ∀ st, (mqttClientCallback st (.recv msg)).dir = d ∧
      (mqttClientCallback st (.recv msg)).rover = moveRover d st.rover
  level : ∀ digit n, (digit, n) ∈ levelDigits → v.text = lit digit →
    ∀ (form : Form) (msg : RecvMsg),
    Sends msg "firefighter/rover/speed" "speed" w (form.bytes v.text) →
    ∀ st, (mqttClientCallback st (.recv msg)).s = n ∧
      getSpeed (mqttClientCallback st (.recv msg)).rover = n
  status : ∀ word update, (word, update) ∈ statusWords → v.text = lit word →
    ∀ msg : RecvMsg, Sends msg "firefighter/status" "status" w (Form.quoted.bytes v.text) →
    ∀ st, (mqttClientCallback st (.recv msg)).statusUpdates = st.statusUpdates ++ [update]

theorem direction_texts : ∀ entry ∈ directionWords, textDirection (lit entry.1) = entry.2 := by
  decide

theorem level_texts : ∀ entry ∈ levelDigits, textLevel (lit entry.1) = entry.2 ∧ entry.2 ≤ 5 := by
  decide

theorem status_command {msg : RecvMsg} {w : Spacing} {v : Word}
    (sends : Sends msg "firefighter/status" "status" w (Form.quoted.bytes v.text)) {word : String}
    {update : StatusType} (listed : (word, update) ∈ statusWords) (text : v.text = lit word) :
    statusCommand (.recv msg) = some update := by
  obtain ⟨tok, accepted, spelled⟩ := sends_accepted (by decide : "status" ∈ handlerKeys) sends
  obtain ⟨string, bytes⟩ := spell_scalar spelled (Or.inl rfl)
  have bytes : tokenBytes msg.data tok = lit word := bytes.trans text
  simp only [statusCommand, status_dispatch sends.topic, accepted, string, bytes, if_true, true_and]
  simp only [statusWords, List.mem_cons, Prod.mk.injEq, List.not_mem_nil, or_false] at listed
  rcases listed with ⟨rfl, rfl⟩ | ⟨rfl, rfl⟩
  · decide
  · decide

theorem command_roundTrips (w : Spacing) (v : Word) : RoundTrips w v := by
  constructor
  case accepted =>
    intro control form msg sends
    have handled : control.key ∈ handlerKeys := by cases control <;> decide
    obtain ⟨tok, accepted, spelled⟩ := sends_accepted handled sends
    refine ⟨?_, tok, accepted, sends_text spelled⟩
    cases control with
    | direction => exact sensor_dispatch sends.topic
    | speed => exact speed_dispatch sends.topic
  case sameState =>
    intro control quoted bare sends sends' st
    cases control with
    | direction => exact (sensor_state sends st).trans (sensor_state sends' st).symm
    | speed => exact (speed_state sends st).trans (speed_state sends' st).symm
  case direction =>
    intro word d listed text form msg sends st
    have decoded : textDirection v.text = d := by
      rw [text]
      exact direction_texts (word, d) listed
    rw [sensor_state sends, decoded]
    exact ⟨rfl, rfl⟩
  case level =>
    intro digit n listed text form msg sends st
    obtain ⟨decoded, known⟩ := level_texts (digit, n) listed
    rw [← text] at decoded
    rw [speed_state sends, decoded]
    exact ⟨rfl, getSpeed_levels known _ _⟩
  case status =>
    intro word update listed text msg sends st
    rw [callback_status, status_command sends listed text]
    rfl

end RoverCommandRoundTrip
