import FirefighterRover.Acceptance
import FirefighterRover.CommandTexts

/-!
What the callback reads of a message. The tokenizer and the key checks stop at the payload's
end; the direction tests do not, and a bare value that ends the payload lets them run on.
-/
namespace RoverMessageBounds
open CMemory RoverJsmn RoverJson RoverLexing RoverOutline RoverFlat RoverState RoverCallback
  RoverCallbackRuns RoverCommands RoverTopics RoverCommandTexts RoverValues RoverAcceptance FlatJson

/-- The same bytes as far as the lengths of the message go. -/
structure SameMessage (msg other : RecvMsg) : Prop where
  topLen : msg.topLen = other.topLen
  topic : ∀ i, i < msg.topLen → msg.topic i = other.topic i
  dataLen : msg.dataLen = other.dataLen
  data : ∀ i, i < msg.dataLen → msg.data i = other.data i

section
variable {js other : Ptr} {len : Nat}

theorem primitiveEnd_congr (same : ∀ i, i < len → js i = other i) : ∀ fuel pos,
    primitiveEnd js len fuel pos = primitiveEnd other len fuel pos := by
  intro fuel
  induction fuel with
  | zero => intro pos; rfl
  | succ fuel ih =>
    intro pos
    by_cases bound : pos < len
    · simp only [primitiveEnd, same pos bound, ih]
    · simp only [primitiveEnd, bound, false_and, if_false]

theorem hexDigits_congr (same : ∀ i, i < len → js i = other i) : ∀ count pos,
    hexDigits js len count pos = hexDigits other len count pos := by
  intro count
  induction count with
  | zero => intro pos; rfl
  | succ count ih =>
    intro pos
    by_cases bound : pos < len
    · simp only [hexDigits, same pos bound, ih]
    · simp only [hexDigits, bound, false_and, if_false]

theorem stringEnd_congr (same : ∀ i, i < len → js i = other i) : ∀ fuel pos,
    stringEnd js len fuel pos = stringEnd other len fuel pos := by
  intro fuel
  induction fuel with
  | zero => intro pos; rfl
  | succ fuel ih =>
    intro pos
    by_cases bound : pos < len
    · by_cases next : pos + 1 < len
      · simp only [stringEnd, same pos bound, same (pos + 1) next, hexDigits_congr same, ih]
      · simp only [stringEnd, same pos bound, next, and_false, if_false, ih]
    · simp only [stringEnd, bound, false_and, if_false]

theorem jsmnParse_congr (same : ∀ i, i < len → js i = other i) (numTokens : Nat) :
    jsmnParse js len numTokens = jsmnParse other len numTokens := by
  have loop : ∀ fuel parser count, jsmnParseLoop js len numTokens fuel parser count =
      jsmnParseLoop other len numTokens fuel parser count := by
    intro fuel
    induction fuel with
    | zero => intro parser count; rfl
    | succ fuel ih =>
      intro parser count
      by_cases bound : parser.pos < len
      · have char : jsmnParseChar parser js len numTokens =
            jsmnParseChar parser other len numTokens := by
          simp only [jsmnParseChar, jsmnParseString, jsmnParsePrimitive, same parser.pos bound,
            stringEnd_congr same, primitiveEnd_congr same]
        simp only [jsmnParseLoop, same parser.pos bound, char, ih]
      · simp only [jsmnParseLoop, bound, false_and, if_false]
  simp only [jsmnParse, loop]

theorem tokens_spell_same (same : ∀ i, i < len → js i = other i) {numTokens r : Nat}
    {toks : List JsmnTok} (parsed : jsmnParse js len numTokens = .ok (r, toks)) :
    ∀ t ∈ toks, spell js t = spell other t := by
  obtain ⟨pieces, lexed, _, outlined, _, _⟩ := jsmnParse_sound parsed
  have lexed' : Lexes (strn other len) pieces := by
    rw [← strn_congr same]
    exact lexed
  have spelled := (jsmnParse_spelling lexed outlined).trans (jsmnParse_spelling lexed' outlined).symm
  exact List.map_inj_left.mp spelled

end

theorem dispatch_congr {msg other : RecvMsg} (same : SameMessage msg other) :
    dispatch msg = dispatch other := by
  have test (name : Ptr) : strncmp msg.topic name msg.topLen =
      strncmp other.topic name other.topLen := by
    rw [← same.topLen]
    exact strncmp_congr name same.topic
  simp only [dispatch, test]

theorem checkPayload_congr {msg other : RecvMsg} (same : SameMessage msg other)
    {key : List UInt8} (nonempty : key ≠ []) (clean : ∀ c ∈ key, c ≠ 0) :
    checkPayload msg key = checkPayload other key := by
  have parse : jsmnParse other.data other.dataLen 4 = jsmnParse msg.data msg.dataLen 4 := by
    rw [← same.dataLen]
    exact (jsmnParse_congr same.data 4).symm
  unfold checkPayload
  rw [parse]
  cases parsed : jsmnParse msg.data msg.dataLen 4 with
  | error r => rfl
  | ok result =>
    obtain ⟨r, filled⟩ := result
    by_cases three : r = 3
    · obtain ⟨_, _, _, _, counted, _⟩ := jsmnParse_sound parsed
      obtain ⟨t0, t1, t2, rfl⟩ := List.length_eq_three.mp (counted.symm.trans three)
      have spelled := tokens_spell_same same.data parsed t1 (by simp)
      have keyed : jsoneq msg.data t1 key = 0 ↔ jsoneq other.data t1 key = 0 := by
        rw [jsoneq_spell _ _ nonempty clean, jsoneq_spell _ _ nonempty clean, spelled]
      have read (stack : Nat → JsmnTok) : tokenArray [t0, t1, t2] stack 0 = t0 ∧
          tokenArray [t0, t1, t2] stack 1 = t1 ∧ tokenArray [t0, t1, t2] stack 2 = t2 :=
        ⟨rfl, rfl, rfl⟩
      simp only [read, ne_eq, keyed]
    · simp only [three, ne_eq, not_false_eq_true, true_or, if_true]

theorem value_remaining {msg : RecvMsg} {key : List UInt8} {l : Layout}
    (text : strn msg.data msg.dataLen = l.text key) :
    remaining msg.data msg.dataLen (l.valueOffset key) = l.value ++ l.third := by
  have split : remaining msg.data msg.dataLen 0 =
      (l.lead ++ chr '{' :: (l.first ++ (quote key ++ l.second))) ++ (l.value ++ l.third) := by
    rw [remaining_zero, text]
    simp [Layout.text]
  have after := remaining_append split
  have size : (l.lead ++ chr '{' :: (l.first ++ (quote key ++ l.second))).length =
      l.valueOffset key := by
    simp only [Layout.valueOffset, quote, List.length_append, List.length_cons, List.length_nil]
    omega
  rw [Nat.zero_add, size] at after
  exact after

theorem test_bytes : ∀ m ∈ movingTests, ∀ c ∈ lit m.test,
    isFiller c = false ∧ c ≠ chr '\"' ∧ c ≠ chr '{' ∧ c ≠ chr '[' ∧ c ≠ 0 := by
  have all : ∀ m ∈ movingTests, ((lit m.test).all fun c => isFiller c = false ∧ c ≠ chr '\"' ∧
      c ≠ chr '{' ∧ c ≠ chr '[' ∧ c ≠ 0) = true := by
    decide
  intro m listed c member
  exact of_decide_eq_true (List.all_eq_true.mp (all m listed) c member)

theorem tests_nonempty : ∀ m ∈ movingTests, 0 < (lit m.test).length := by
  decide

theorem begins_byte {value : Ptr} {m : MovingTest} (listed : m ∈ movingTests)
    (starts : begins value m.test = true) {i : Nat} (bound : i < (lit m.test).length) :
    isFiller (value i) = false ∧ value i ≠ chr '\"' ∧ value i ≠ chr '{' ∧ value i ≠ chr '[' ∧
      value i ≠ 0 := by
  apply test_bytes m listed
  rw [← (begins_iff listed).mp starts]
  exact List.mem_map_of_mem (List.mem_range.mpr bound)

/-- A test of the value can run on behind the payload. -/
def Dangling (msg : RecvMsg) (tok : JsmnTok) (test : String) : Prop :=
  tok.type = .primitive ∧ tok.end_ = msg.dataLen ∧ ProperPrefix (tokenBytes msg.data tok) (lit test)

/-- A passing test that runs past the value or the payload starts from a bare value at the
    very end of the payload. -/
theorem test_overrun {msg : RecvMsg} {key : List UInt8} (nonempty : key ≠ [])
    (clean : ∀ c ∈ key, c ≠ 0) {tok : JsmnTok} (accepted : checkPayload msg key = .ok tok)
    {m : MovingTest} (listed : m ∈ movingTests)
    (starts : begins (tokenValue msg.data tok) m.test = true)
    (past : (tok.end_ - tok.start).toNat < (lit m.test).length ∨
      msg.dataLen < tok.start.toNat + (lit m.test).length) : Dangling msg tok m.test := by
  obtain ⟨l, loose, text, placed⟩ := accepted_layout nonempty clean accepted
  have read := value_remaining text
  have byte (i : Nat) : tokenValue msg.data tok i = msg.data (tok.start.toNat + i) := rfl
  generalize l.value = bytes at read placed
  cases placed with
  | @string body _ _ start end_ =>
    exfalso
    have inner : remaining msg.data msg.dataLen (l.valueOffset key + 1) =
        body ++ chr '\"' :: l.third := by
      rw [(remaining_cons read).2.2]
      simp
    obtain ⟨⟨bound, _⟩, closing, _⟩ := remaining_cons (remaining_append inner)
    have here : tok.start.toNat = l.valueOffset key + 1 := by omega
    have letter := begins_byte listed starts (i := body.length) (by omega)
    rw [byte, here, closing] at letter
    exact letter.2.1 rfl
  | @container b marks _ _ start _ =>
    exfalso
    obtain ⟨_, opening, _⟩ := remaining_cons read
    have here : tok.start.toNat = l.valueOffset key := by omega
    have letter := begins_byte listed starts (tests_nonempty m listed)
    rw [byte, here, Nat.add_zero, opening] at letter
    cases b with
    | curly => exact letter.2.2.1 rfl
    | square => exact letter.2.2.2.1 rfl
  | bare formed type start end_ =>
    have here : tok.start.toNat = l.valueOffset key := by omega
    have size : (tok.end_ - tok.start).toNat = bytes.length := by omega
    have fits := remaining_length_le msg.data msg.dataLen (l.valueOffset key)
    have shaped : (Piece.bare bytes).Formed := formed
    have positive : 0 < bytes.length := Piece.bytes_pos shaped
    rw [read, List.length_append] at fits
    have after := remaining_append read
    have shorter : bytes.length < (lit m.test).length := by omega
    have ended : l.valueOffset key + bytes.length = msg.dataLen := by
      by_contra differ
      -- the byte behind the value is a separator or a NUL, and no letter of the test
      have letter := begins_byte listed starts shorter
      rw [byte, here] at letter
      have bound : l.valueOffset key + bytes.length < msg.dataLen := by omega
      have inside := remaining_step ⟨bound, letter.2.2.2.2⟩
      rw [after] at inside
      have filler := (loose_parts loose).2.2.2 (msg.data (l.valueOffset key + bytes.length))
        (by rw [inside]; exact List.mem_cons_self)
      rw [letter.1] at filler
      cases filler
    have whole : tokenBytes msg.data tok = (tokenValue msg.data tok).image bytes.length := by
      rw [tokenBytes_image, size]
    refine ⟨type, by omega, ?_, ?_⟩
    · rw [whole, ← (begins_iff listed).mp starts]
      exact image_starts (Nat.le_of_lt shorter)
    · intro same
      have sizes := congrArg List.length same
      rw [whole, image_length] at sizes
      omega

theorem begins_text_iff {msg : RecvMsg} {key : List UInt8} (nonempty : key ≠ [])
    (clean : ∀ c ∈ key, c ≠ 0) {tok : JsmnTok} (accepted : checkPayload msg key = .ok tok)
    {m : MovingTest} (listed : m ∈ movingTests) (settled : ¬ Dangling msg tok m.test) :
    begins (tokenValue msg.data tok) m.test = true ↔ lit m.test <+: tokenBytes msg.data tok := by
  rw [tokenBytes_image]
  constructor
  · intro starts
    rcases Nat.lt_or_ge (tok.end_ - tok.start).toNat (lit m.test).length with past | short
    · exact absurd (test_overrun nonempty clean accepted listed starts (Or.inl past)) settled
    · rw [← (begins_iff listed).mp starts]
      exact image_starts short
  · intro starts
    exact (begins_iff listed).mpr (image_of_starts starts)

theorem value_inside {msg : RecvMsg} {key : List UInt8} (nonempty : key ≠ [])
    (clean : ∀ c ∈ key, c ≠ 0) {tok : JsmnTok} (accepted : checkPayload msg key = .ok tok) :
    0 ≤ tok.start ∧ tok.start.toNat < msg.dataLen := by
  obtain ⟨l, loose, text, placed⟩ := accepted_layout nonempty clean accepted
  have read := value_remaining text
  generalize l.value = bytes at read placed
  cases placed with
  | @string body _ _ start _ =>
    have inner := (remaining_cons read).2.2
    rw [List.append_eq, List.append_assoc] at inner
    obtain ⟨⟨bound, _⟩, _⟩ := remaining_cons (remaining_append inner)
    constructor <;> omega
  | container _ _ start _ =>
    obtain ⟨⟨bound, _⟩, _⟩ := remaining_cons read
    constructor <;> omega
  | bare formed _ start _ =>
    obtain ⟨c, rest, same, _⟩ := BareText.starts formed
    rw [same] at read
    obtain ⟨⟨bound, _⟩, _⟩ := remaining_cons read
    constructor <;> omega

section
variable {msg other : RecvMsg} {key : List UInt8} {tok : JsmnTok}

theorem dangling_congr (same : SameMessage msg other) (nonempty : key ≠ [])
    (clean : ∀ c ∈ key, c ≠ 0) (accepted : checkPayload msg key = .ok tok) {test : String}
    (dangling : Dangling other tok test) : Dangling msg tok test := by
  obtain ⟨type, end_, starts⟩ := dangling
  rw [← same.dataLen] at end_
  obtain ⟨positive, _⟩ := value_inside nonempty clean accepted
  have bytes : tokenBytes msg.data tok = tokenBytes other.data tok := by
    apply image_congr
    intro i bound
    exact same.data (tok.start.toNat + i) (by omega)
  refine ⟨type, end_, ?_⟩
  rw [bytes]
  exact starts

theorem begins_congr (same : SameMessage msg other) (nonempty : key ≠ [])
    (clean : ∀ c ∈ key, c ≠ 0) (accepted : checkPayload msg key = .ok tok) {m : MovingTest}
    (listed : m ∈ movingTests) (settled : ¬ Dangling msg tok m.test) :
    begins (tokenValue msg.data tok) m.test = begins (tokenValue other.data tok) m.test := by
  by_cases past : msg.dataLen < tok.start.toNat + (lit m.test).length
  · have accepted' : checkPayload other key = .ok tok :=
      (checkPayload_congr same nonempty clean).symm.trans accepted
    have past' : other.dataLen < tok.start.toNat + (lit m.test).length := by
      rw [← same.dataLen]
      exact past
    have fails : begins (tokenValue msg.data tok) m.test = false := by
      apply Bool.eq_false_iff.mpr
      intro starts
      exact settled (test_overrun nonempty clean accepted listed starts (Or.inr past))
    have fails' : begins (tokenValue other.data tok) m.test = false := by
      apply Bool.eq_false_iff.mpr
      intro starts
      have dangling := test_overrun nonempty clean accepted' listed starts (Or.inr past')
      exact settled (dangling_congr same nonempty clean accepted dangling)
    rw [fails, fails']
  · have image : (tokenValue msg.data tok).image (lit m.test).length =
        (tokenValue other.data tok).image (lit m.test).length := by
      apply image_congr
      intro i bound
      exact same.data (tok.start.toNat + i) (by omega)
    apply Bool.eq_iff_iff.mpr
    rw [begins_iff listed, begins_iff listed, image]

theorem decodeDirection_congr (same : SameMessage msg other) (nonempty : key ≠ [])
    (clean : ∀ c ∈ key, c ≠ 0) (accepted : checkPayload msg key = .ok tok)
    (settled : ∀ m ∈ movingTests, ¬ Dangling msg tok m.test) :
    decodeDirection (tokenValue msg.data tok) = decodeDirection (tokenValue other.data tok) := by
  have tests : ∀ m ∈ movingTests, begins (tokenValue msg.data tok) m.test =
      begins (tokenValue other.data tok) m.test :=
    fun m listed => begins_congr same nonempty clean accepted listed (settled m listed)
  simp only [movingTests, List.forall_mem_cons] at tests
  obtain ⟨forward, reverse, right, left, _⟩ := tests
  rw [decodeDirection_begins, decodeDirection_begins, forward, reverse, right, left]

theorem decodeSpeed_congr (same : SameMessage msg other) (nonempty : key ≠ [])
    (clean : ∀ c ∈ key, c ≠ 0) (accepted : checkPayload msg key = .ok tok) :
    decodeSpeed (tokenValue msg.data tok) = decodeSpeed (tokenValue other.data tok) := by
  have first : tokenValue msg.data tok 0 = tokenValue other.data tok 0 :=
    same.data tok.start.toNat (value_inside nonempty clean accepted).2
  rw [decodeSpeed_byte, decodeSpeed_byte, first]

end

def DirectionDangles (msg : RecvMsg) : Prop :=
  dispatch msg = .sensor ∧ ∃ tok, checkPayload msg (lit "direction") = .ok tok ∧
    ∃ m ∈ movingTests, Dangling msg tok m.test

structure SameDecisions (msg other : RecvMsg) : Prop where
  handler : dispatch msg = dispatch other
  acceptance : ∀ key ∈ handlerKeys, checkPayload msg (lit key) = checkPayload other (lit key)
  speed : speedMessage msg = speedMessage other
  direction : sensorMessage msg = sensorMessage other
  status : statusCommand (.recv msg) = statusCommand (.recv other)
  motors : ∀ st, drive (mqttClientCallback st (.recv msg)) =
    drive (mqttClientCallback st (.recv other))
  updates : ∀ st, (mqttClientCallback st (.recv msg)).statusUpdates =
    (mqttClientCallback st (.recv other)).statusUpdates
  gpio : ∀ st, (mqttClientCallback st (.recv msg)).gpio0 =
    (mqttClientCallback st (.recv other)).gpio0

theorem speedMessage_congr {msg other : RecvMsg} (same : SameMessage msg other) :
    speedMessage msg = speedMessage other := by
  obtain ⟨nonempty, clean, _⟩ := handlerKey_text (by decide : "speed" ∈ handlerKeys)
  have checks := checkPayload_congr same nonempty clean
  simp only [speedMessage, accepted, dispatch_congr same, acceptedValue, ← checks]
  split
  · cases accepted : checkPayload msg (lit "speed") with
    | error r => rfl
    | ok tok => exact congrArg some (decodeSpeed_congr same nonempty clean accepted)
  · rfl

theorem sensorMessage_congr {msg other : RecvMsg} (same : SameMessage msg other)
    (settled : ¬ DirectionDangles msg) : sensorMessage msg = sensorMessage other := by
  obtain ⟨nonempty, clean, _⟩ := handlerKey_text (by decide : "direction" ∈ handlerKeys)
  have checks := checkPayload_congr same nonempty clean
  simp only [sensorMessage, accepted, ← dispatch_congr same, acceptedValue, ← checks]
  split
  · rename_i route
    cases accepted : checkPayload msg (lit "direction") with
    | error r => rfl
    | ok tok =>
      apply congrArg some
      apply decodeDirection_congr same nonempty clean accepted
      intro m listed dangling
      exact settled ⟨route, tok, accepted, m, listed, dangling⟩
  · rfl

theorem statusCommand_congr {msg other : RecvMsg} (same : SameMessage msg other) :
    statusCommand (.recv msg) = statusCommand (.recv other) := by
  obtain ⟨nonempty, clean, _⟩ := handlerKey_text (by decide : "status" ∈ handlerKeys)
  have checks := checkPayload_congr same nonempty clean
  simp only [statusCommand, ← dispatch_congr same, ← checks]
  split
  · cases accepted : checkPayload msg (lit "status") with
    | error r => rfl
    | ok tok =>
      obtain ⟨_, _, parsed, _, _⟩ := checkPayload_ok_iff.mp accepted
      have spelled := tokens_spell_same same.data parsed tok (by simp)
      have named (text : List UInt8) : (tok.type = .string ∧ tokenBytes msg.data tok = text) ↔
          (tok.type = .string ∧ tokenBytes other.data tok = text) := by
        apply and_congr_right
        intro string
        rw [spell_string _ string, spell_string _ string] at spelled
        rw [(Prod.mk.inj spelled).2]
      simp only [named]
  · rfl

theorem sameDecisions_of_settled {msg other : RecvMsg} (same : SameMessage msg other)
    (settled : ¬ DirectionDangles msg) : SameDecisions msg other := by
  have speed := speedMessage_congr same
  have direction := sensorMessage_congr same settled
  have status := statusCommand_congr same
  have checks : ∀ key ∈ handlerKeys, checkPayload msg (lit key) = checkPayload other (lit key) := by
    intro key listed
    obtain ⟨nonempty, clean, _⟩ := handlerKey_text listed
    exact checkPayload_congr same nonempty clean
  have commands : command (.recv msg) = command (.recv other) := by
    simp only [command, speed, direction]
  have value : (acceptedValue msg "direction").isSome = (acceptedValue other "direction").isSome := by
    simp only [acceptedValue, checks "direction" (by decide)]
    cases checkPayload other (lit "direction") <;> rfl
  have level : gpioLevel (.recv msg) = gpioLevel (.recv other) := by
    simp only [gpioLevel, dispatch_congr same, value]
  constructor
  case handler => exact dispatch_congr same
  case acceptance => exact checks
  case speed => exact speed
  case direction => exact direction
  case status => exact status
  case motors =>
    intro st
    rw [callback_drive, callback_drive, commands]
  case updates =>
    intro st
    rw [callback_status, callback_status, status]
  case gpio =>
    intro st
    rw [callback_gpio, callback_gpio, level]

/-- The message with the text behind its payload as it would stand from `start` on. -/
def behind (msg : RecvMsg) (start : Nat) (text : List UInt8) : RecvMsg :=
  { msg with data := fun i => if i < msg.dataLen then msg.data i else cstr text (i - start) }

theorem behind_same (msg : RecvMsg) (start : Nat) (text : List UInt8) :
    SameMessage msg (behind msg start text) := by
  constructor
  case topLen => rfl
  case topic => exact fun _ _ => rfl
  case dataLen => rfl
  case data =>
    intro i bound
    simp only [behind, bound, if_true]

section
variable {msg : RecvMsg} {tok : JsmnTok}

theorem sensorMessage_behind (route : dispatch msg = .sensor)
    (accepted : checkPayload msg (lit "direction") = .ok tok) (text : List UInt8) :
    sensorMessage (behind msg tok.start.toNat text) =
      some (decodeDirection (tokenValue (behind msg tok.start.toNat text).data tok)) := by
  obtain ⟨nonempty, clean, _⟩ := handlerKey_text (by decide : "direction" ∈ handlerKeys)
  have same := behind_same msg tok.start.toNat text
  have accepted' := (checkPayload_congr same nonempty clean).symm.trans accepted
  have route' := (dispatch_congr same).symm.trans route
  simp only [sensorMessage, RoverCommands.accepted, route', if_true, acceptedValue, accepted']
  rfl

theorem dangling_size (accepted : checkPayload msg (lit "direction") = .ok tok) {test : String}
    (dangling : Dangling msg tok test) :
    tok.start.toNat + (tok.end_ - tok.start).toNat = msg.dataLen := by
  obtain ⟨nonempty, clean, _⟩ := handlerKey_text (by decide : "direction" ∈ handlerKeys)
  obtain ⟨positive, inside⟩ := value_inside nonempty clean accepted
  have ended := dangling.2.1
  omega

theorem behind_completes (accepted : checkPayload msg (lit "direction") = .ok tok)
    {m : MovingTest} (listed : m ∈ movingTests) (dangling : Dangling msg tok m.test) :
    decodeDirection (tokenValue (behind msg tok.start.toNat (lit m.test)).data tok) =
      m.direction := by
  have size := dangling_size accepted dangling
  have bytes : ∀ i, tokenValue (behind msg tok.start.toNat (lit m.test)).data tok i =
      cstr (lit m.test) i := by
    intro i
    simp only [tokenValue, Ptr.add, behind]
    split
    · rename_i inside
      exact image_byte dangling.2.2.1 (by omega)
    · rw [Nat.add_sub_cancel_left]
  apply decodeDirection_moving listed
  rw [begins_iff listed, image_congr fun i _ => bytes i, cstr_image]

theorem behind_stops (accepted : checkPayload msg (lit "direction") = .ok tok)
    {m : MovingTest} (listed : m ∈ movingTests) (dangling : Dangling msg tok m.test) :
    decodeDirection (tokenValue (behind msg tok.start.toNat []).data tok) = .stop := by
  have size := dangling_size accepted dangling
  apply decodeDirection_stop
  intro other listed'
  apply Bool.eq_false_iff.mpr
  intro starts
  rcases Nat.lt_or_ge (tok.end_ - tok.start).toNat (lit other.test).length with past | short
  · have letter := begins_byte listed' starts past
    apply letter.2.2.2.2
    simp only [tokenValue, Ptr.add, behind, size, Nat.lt_irrefl, if_false]
    rfl
  · have whole : tokenBytes msg.data tok =
        (tokenValue (behind msg tok.start.toNat []).data tok).image (tok.end_ - tok.start).toNat := by
      apply image_congr
      intro i bound
      exact (behind_same msg tok.start.toNat []).data (tok.start.toNat + i) (by omega)
    have inner := image_starts (p := tokenValue (behind msg tok.start.toNat []).data tok) short
    rw [(begins_iff listed').mp starts, ← whole] at inner
    obtain ⟨outer, proper⟩ := dangling.2.2
    have nested := inner.trans outer
    by_cases same : other.test = m.test
    · apply proper
      rw [same] at inner
      exact outer.eq_of_length_le inner.length_le
    · exact tests_apart other listed' m listed same nested

end

theorem moving_not_stop : ∀ m ∈ movingTests, m.direction ≠ .stop := by
  decide

/-- The callback decides on the delivered bytes alone, save for a direction whose bare value
    ends the payload as an unfinished test. -/
theorem decidesInside_iff (msg : RecvMsg) :
    (∀ other, SameMessage msg other → SameDecisions msg other) ↔ ¬ DirectionDangles msg := by
  constructor
  · rintro decides ⟨route, tok, accepted, m, listed, dangling⟩
    have moves := (decides _ (behind_same msg tok.start.toNat (lit m.test))).direction
    have stops := (decides _ (behind_same msg tok.start.toNat [])).direction
    rw [sensorMessage_behind route accepted, behind_completes accepted listed dangling] at moves
    rw [sensorMessage_behind route accepted, behind_stops accepted listed dangling] at stops
    exact moving_not_stop m listed (Option.some.inj (moves.symm.trans stops))
  · intro settled other same
    exact sameDecisions_of_settled same settled

theorem unfinished_forward_differs :
    ¬ ∀ msg other, SameMessage msg other → SameDecisions msg other := by
  intro decides
  have same := behind_same (message "firefighter/sensor" "\x7b\"direction\"\x7dfor") 13
    (lit "forward")
  have direction := (decides _ _ same).direction
  exact absurd direction (by decide)

end RoverMessageBounds
