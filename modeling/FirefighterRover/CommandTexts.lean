import FirefighterRover.Topics
import FirefighterRover.JsmnFlat

/-!
What the value texts of the command topics decode to. The decoders look at the bytes from
the value's start on and not at its end, so longer texts can pass for a command.
-/
namespace RoverCommandTexts
open CMemory Numerals RoverJsmn RoverJson RoverState RoverCallback RoverCallbackRuns RoverCommands
  RoverTopics RoverStartup

theorem topicBytes_of_is {msg : RecvMsg} {topic : String} (named : TopicIs msg topic) :
    topicBytes msg = lit topic := by
  obtain ⟨size, bytes⟩ := named
  have same : ∀ i, i < msg.topLen → msg.topic i = cstr (lit topic) i := bytes
  rw [topicBytes, image_congr same, size]
  exact cstr_image (lit topic)

theorem dispatch_named {msg : RecvMsg} {topic : String} (named : TopicIs msg topic)
    (subscribed : topic ∈ subscriptionTopics) : dispatch msg = namedHandler (lit topic) := by
  have bytes := topicBytes_of_is named
  have texts : ∀ name ∈ subscriptionTopics, ((lit name).all fun c => c != 0) = true := by
    decide
  have clean : ∀ i, i < msg.topLen → msg.topic i ≠ 0 := by
    intro i bound
    apply clean_of_all (texts topic subscribed)
    rw [← bytes]
    exact List.mem_map_of_mem (List.mem_range.mpr bound)
  have apart : ∀ name ∈ subscriptionTopics, ¬ ProperPrefix (topicBytes msg) (lit name) := by
    rw [bytes]
    exact names_apart topic subscribed
  rw [named_dispatch clean apart, bytes]

theorem sensor_dispatch {msg : RecvMsg} (named : TopicIs msg "firefighter/sensor") :
    dispatch msg = .sensor :=
  (dispatch_named named (by decide)).trans (by decide)

theorem speed_dispatch {msg : RecvMsg} (named : TopicIs msg "firefighter/rover/speed") :
    dispatch msg = .speed :=
  (dispatch_named named (by decide)).trans (by decide)

theorem status_dispatch {msg : RecvMsg} (named : TopicIs msg "firefighter/status") :
    dispatch msg = .status :=
  (dispatch_named named (by decide)).trans (by decide)

def wordDirection (text : List UInt8) : Direction :=
  if text = lit "forward" then .forward
  else if text = lit "reverse" then .reverse
  else if text = lit "right" then .right
  else if text = lit "left" then .left
  else .stop

/-- A comparison of the sensor handler that selects a moving direction, and the word that
    direction goes by. -/
structure MovingTest where
  test : String
  word : String
  direction : Direction

def movingTests : List MovingTest :=
  [⟨"forward", "forward", .forward⟩, ⟨"re", "reverse", .reverse⟩, ⟨"right", "right", .right⟩,
   ⟨"left", "left", .left⟩]

def begins (value : Ptr) (word : String) : Bool := startsWith value word (lit word).length

theorem tests_clean : ∀ m ∈ movingTests, ((lit m.test).all fun c => c != 0) = true := by
  decide

theorem begins_iff {value : Ptr} {m : MovingTest} (listed : m ∈ movingTests) :
    begins value m.test = true ↔ value.image (lit m.test).length = lit m.test := by
  rw [begins, startsWith, decide_eq_true_eq, strncmp_cstr (clean_of_all (tests_clean m listed))]
  rfl

theorem decodeDirection_begins (value : Ptr) : decodeDirection value =
    if begins value "forward" then .forward
    else if begins value "re" then .reverse
    else if begins value "right" then .right
    else if begins value "left" then .left
    else .stop := by
  have forward : begins value "forward" = startsWith value "forward" 7 := rfl
  have reverse : begins value "re" = startsWith value "re" 2 := rfl
  have right : begins value "right" = startsWith value "right" 5 := rfl
  have left : begins value "left" = startsWith value "left" 4 := rfl
  rw [decodeDirection, forward, reverse, right, left]
  simp only [ite_self]

theorem tests_apart : ∀ m ∈ movingTests, ∀ other ∈ movingTests, m.test ≠ other.test →
    ¬ lit m.test <+: lit other.test := by
  decide

theorem begins_exclusive {value : Ptr} {m other : MovingTest} (listed : m ∈ movingTests)
    (listed' : other ∈ movingTests) (differ : m.test ≠ other.test)
    (first : begins value m.test = true) : begins value other.test = false := by
  rw [begins_iff listed] at first
  apply Bool.eq_false_iff.mpr
  intro second
  rw [begins_iff listed'] at second
  rcases Nat.le_total (lit m.test).length (lit other.test).length with short | short
  · have starts := image_starts (p := value) short
    rw [first, second] at starts
    exact tests_apart m listed other listed' differ starts
  · have starts := image_starts (p := value) short
    rw [first, second] at starts
    exact tests_apart other listed' m listed (Ne.symm differ) starts

theorem decodeDirection_moving {value : Ptr} {m : MovingTest} (listed : m ∈ movingTests)
    (starts : begins value m.test = true) : decodeDirection value = m.direction := by
  have others : ∀ other ∈ movingTests, m.test ≠ other.test → begins value other.test = false :=
    fun other listed' differ => begins_exclusive listed listed' differ starts
  rw [decodeDirection_begins]
  simp only [movingTests, List.forall_mem_cons] at others
  simp only [movingTests, List.mem_cons, List.not_mem_nil, or_false] at listed
  rcases listed with rfl | rfl | rfl | rfl
  · simp [starts]
  · simp [starts, others]
  · simp [starts, others]
  · simp [starts, others]

theorem decodeDirection_stop {value : Ptr}
    (still : ∀ m ∈ movingTests, begins value m.test = false) : decodeDirection value = .stop := by
  simp only [movingTests, List.forall_mem_cons] at still
  rw [decodeDirection_begins]
  simp [still]

theorem wordDirection_moving (text : List UInt8) {m : MovingTest} (listed : m ∈ movingTests) :
    wordDirection text = m.direction ↔ text = lit m.word := by
  simp only [movingTests, List.mem_cons, List.not_mem_nil, or_false] at listed
  constructor
  · intro direction
    unfold wordDirection at direction
    rcases listed with rfl | rfl | rfl | rfl <;> split_ifs at direction <;> assumption
  · rintro rfl
    rcases listed with rfl | rfl | rfl | rfl <;> decide

theorem wordDirection_stop {text : List UInt8} (other : ∀ m ∈ movingTests, text ≠ lit m.word) :
    wordDirection text = .stop := by
  simp only [movingTests, List.forall_mem_cons] at other
  simp [wordDirection, other]

theorem words_start : ∀ m ∈ movingTests, lit m.test <+: lit m.word := by
  decide

theorem word_begins {value : Ptr} {size : Nat} {m : MovingTest} (listed : m ∈ movingTests)
    (text : value.image size = lit m.word) : begins value m.test = true := by
  have starts := words_start m listed
  rw [← text] at starts
  exact (begins_iff listed).mpr (image_of_starts starts)

theorem decodeDirection_word_iff (value : Ptr) (size : Nat) :
    decodeDirection value = wordDirection (value.image size) ↔
      ∀ m ∈ movingTests, begins value m.test = true → value.image size = lit m.word := by
  constructor
  · intro same m listed starts
    rw [decodeDirection_moving listed starts] at same
    exact (wordDirection_moving _ listed).mp same.symm
  · intro whole
    by_cases moving : ∃ m ∈ movingTests, begins value m.test = true
    · obtain ⟨m, listed, starts⟩ := moving
      rw [decodeDirection_moving listed starts]
      exact ((wordDirection_moving _ listed).mpr (whole m listed starts)).symm
    · have still : ∀ m ∈ movingTests, begins value m.test = false := by
        intro m listed
        apply Bool.eq_false_iff.mpr
        intro starts
        exact moving ⟨m, listed, starts⟩
      have other : ∀ m ∈ movingTests, value.image size ≠ lit m.word := by
        intro m listed text
        have starts := word_begins listed text
        rw [still m listed] at starts
        cases starts
      rw [decodeDirection_stop still, wordDirection_stop other]

/-- The sensor handler moves for the four words only: a rejected payload commands nothing,
    an accepted one the direction its value text names. -/
def MovesByWord (msg : RecvMsg) : Prop :=
  ∀ st : CallbackState,
    match checkPayload msg (lit "direction") with
    | .error _ => (mqttClientCallback st (.recv msg)).dir = st.dir ∧
        (mqttClientCallback st (.recv msg)).rover = st.rover
    | .ok value =>
      (mqttClientCallback st (.recv msg)).dir = wordDirection (tokenBytes msg.data value) ∧
        (mqttClientCallback st (.recv msg)).rover =
          moveRover (wordDirection (tokenBytes msg.data value)) st.rover

/-- An accepted value whose bytes begin with a test has that test's word for its text. -/
def TestsWhole (msg : RecvMsg) : Prop :=
  ∀ value, checkPayload msg (lit "direction") = .ok value → ∀ m ∈ movingTests,
    begins (tokenValue msg.data value) m.test = true → tokenBytes msg.data value = lit m.word

theorem movesByWord_iff {msg : RecvMsg} (named : TopicIs msg "firefighter/sensor") :
    MovesByWord msg ↔ TestsWhole msg := by
  have route := sensor_dispatch named
  unfold MovesByWord TestsWhole
  simp only [mqttClientCallback, route, sensorHandler]
  cases checkPayload msg (lit "direction") with
  | error r =>
    simp only [reduceCtorEq, false_implies, implies_true, iff_true]
    intro st
    cases r <;> exact ⟨rfl, rfl⟩
  | ok value =>
    have decoded := decodeDirection_word_iff (tokenValue msg.data value)
      (value.end_ - value.start).toNat
    simp only [Except.ok.injEq, forall_eq']
    refine Iff.trans ?_ decoded
    constructor
    · intro moves
      exact (moves .boot).1
    · intro same st
      have word : decodeDirection (tokenValue msg.data value) =
          wordDirection (tokenBytes msg.data value) := same
      exact ⟨word, congrArg (fun d => moveRover d st.rover) word⟩

theorem red_reverses : ¬ ∀ msg, TopicIs msg "firefighter/sensor" → MovesByWord msg := by
  intro every
  have moves := every (message "firefighter/sensor" "\x7b\"direction\": \"red\"\x7d")
    ⟨rfl, fun _ _ => rfl⟩ .boot
  have accepted : checkPayload (message "firefighter/sensor" "\x7b\"direction\": \"red\"\x7d")
      (lit "direction") = .ok ⟨.string, 15, 18, 0⟩ := by
    decide
  rw [accepted] at moves
  exact absurd moves.1 (by decide)

theorem movesByWord_left :
    let msg := message "firefighter/sensor" "\x7b\"direction\": \"left\"\x7d"
    TopicIs msg "firefighter/sensor" ∧ MovesByWord msg := by
  have named : TopicIs (message "firefighter/sensor" "\x7b\"direction\": \"left\"\x7d")
      "firefighter/sensor" := ⟨rfl, fun _ _ => rfl⟩
  have accepted : checkPayload (message "firefighter/sensor" "\x7b\"direction\": \"left\"\x7d")
      (lit "direction") = .ok ⟨.string, 15, 19, 0⟩ := by
    decide
  refine ⟨named, (movesByWord_iff named).mpr ?_⟩
  intro value same
  rw [accepted] at same
  cases same
  decide

theorem startsWith_digit (value : Ptr) (word : String) (c : UInt8) (text : lit word = [c])
    (nonzero : c ≠ 0) : startsWith value word 1 = true ↔ value 0 = c := by
  have clean : ∀ b ∈ [c], b ≠ 0 := by
    intro b member
    rw [List.mem_singleton.mp member]
    exact nonzero
  have matched := strncmp_cstr clean (p := value)
  rw [startsWith, decide_eq_true_eq, text]
  refine matched.trans ?_
  simp [List.range_succ]

def byteLevel (c : UInt8) : Nat := if 49 ≤ c.toNat ∧ c.toNat ≤ 53 then digitValue c else 0

theorem decodeSpeed_byte (value : Ptr) : decodeSpeed value = byteLevel (value 0) := by
  simp only [decodeSpeed, startsWith_digit value "0" 48 rfl (by decide),
    startsWith_digit value "1" 49 rfl (by decide), startsWith_digit value "2" 50 rfl (by decide),
    startsWith_digit value "3" 51 rfl (by decide), startsWith_digit value "4" 52 rfl (by decide),
    startsWith_digit value "5" 53 rfl (by decide)]
  generalize value 0 = c
  split_ifs with zero one two three four five
  · subst zero; rfl
  · subst one; rfl
  · subst two; rfl
  · subst three; rfl
  · subst four; rfl
  · subst five; rfl
  · have other : ¬(49 ≤ c.toNat ∧ c.toNat ≤ 53) := by
      have apart : ∀ d : UInt8, c ≠ d → c.toNat ≠ d.toNat :=
        fun d differ same => differ (UInt8.toNat_inj.mp same)
      have one' : c.toNat ≠ 49 := apart 49 one
      have two' : c.toNat ≠ 50 := apart 50 two
      have three' : c.toNat ≠ 51 := apart 51 three
      have four' : c.toNat ≠ 52 := apart 52 four
      have five' : c.toNat ≠ 53 := apart 53 five
      omega
    rw [byteLevel, if_neg other]

def clampLevel (n : Int) : Int := if 0 ≤ n ∧ n ≤ 5 then n else 0

/-- The first character of a numeral decides: it is the only one, it is a minus sign or a
    digit above five, or it is a zero and the value is none of the moving levels. -/
def FirstCharacterTells (text : List UInt8) (n : Int) : Prop :=
  ∃ c rest, text = c :: rest ∧
    (rest = [] ∨ c = chr '-' ∨ 54 ≤ c.toNat ∨ (c = chr '0' ∧ ¬(1 ≤ n ∧ n ≤ 5)))

theorem byteLevel_numeral {text : List UInt8} {n : Int} (denotes : Denotes text n) {c : UInt8}
    {rest : List UInt8} (split : text = c :: rest) :
    (byteLevel c : Int) = clampLevel n ↔ FirstCharacterTells text n := by
  have tells : FirstCharacterTells text n ↔
      (rest = [] ∨ c = chr '-' ∨ 54 ≤ c.toNat ∨ (c = chr '0' ∧ ¬(1 ≤ n ∧ n ≤ 5))) := by
    constructor
    · rintro ⟨c', rest', split', known⟩
      rw [split] at split'
      cases split'
      exact known
    · intro known
      exact ⟨c, rest, split, known⟩
  rw [tells]
  cases denotes with
  | negative digits =>
    cases split
    have low : byteLevel (chr '-') = 0 := by decide
    have clamped : ∀ v : Nat, clampLevel (-(v : Int)) = 0 := by
      intro v
      unfold clampLevel
      split <;> omega
    rw [low, clamped]
    exact iff_of_true rfl (Or.inr (Or.inl rfl))
  | natural digits =>
    have range := digit_range (digits.digits c (by simp [split]))
    have other : c ≠ chr '-' := by
      rintro rfl
      exact absurd range.1 (by decide)
    have value : digitValue c = c.toNat - 48 := rfl
    have zero : c = chr '0' ↔ c.toNat = 48 := UInt8.toNat_inj.symm
    subst split
    cases rest with
    | nil =>
      have single : digitsValue [c] = digitValue c := Nat.zero_add _
      refine iff_of_true ?_ (Or.inl rfl)
      rw [single, byteLevel, clampLevel, value]
      split <;> split <;> omega
    | cons d rest =>
      have ten := digitsValue_ge c d rest
      generalize digitsValue (c :: d :: rest) = v at ten ⊢
      simp only [reduceCtorEq, other, false_or, zero, byteLevel, clampLevel, value] at ten ⊢
      split <;> split <;> omega

theorem denotes_cons {text : List UInt8} {n : Int} (denotes : Denotes text n) :
    ∃ c rest, text = c :: rest := by
  cases denotes with
  | natural digits => exact List.exists_cons_of_ne_nil digits.nonempty
  | negative digits => exact ⟨_, _, rfl⟩

theorem getSpeed_levels {level : Nat} (known : level ≤ 5) (d : Direction) (rover : Rover) :
    getSpeed (moveRover d (changeSpeed level rover)) = level := by
  have speed : (moveRover d (changeSpeed level rover)).speed = (changeSpeed level rover).speed := by
    rw [moveRover_eq]
  simp only [getSpeed, speed]
  rcases known_level known with rfl | rfl | rfl | rfl | rfl | rfl <;> rfl

def LevelFollows (msg : RecvMsg) (n : Int) : Prop :=
  ∀ st : CallbackState, getSpeed (mqttClientCallback st (.recv msg)).rover = clampLevel n

theorem levelFollows_iff {msg : RecvMsg} (named : TopicIs msg "firefighter/rover/speed")
    {value : JsmnTok} (accepted : checkPayload msg (lit "speed") = .ok value) {n : Int}
    (denotes : Denotes (tokenBytes msg.data value) n) :
    LevelFollows msg n ↔ FirstCharacterTells (tokenBytes msg.data value) n := by
  have route := speed_dispatch named
  have level : ∀ st : CallbackState, getSpeed (mqttClientCallback st (.recv msg)).rover =
      decodeSpeed (tokenValue msg.data value) := by
    intro st
    simp only [mqttClientCallback, route, speedHandler, accepted]
    exact getSpeed_levels (decodeSpeed_le _) _ _
  obtain ⟨c, rest, split⟩ := denotes_cons denotes
  have first : tokenValue msg.data value 0 = c := by
    have bytes : Ptr.image (tokenValue msg.data value) (value.end_ - value.start).toNat =
        c :: rest := split
    cases size : (value.end_ - value.start).toNat with
    | zero =>
      rw [size] at bytes
      cases bytes
    | succ k =>
      rw [size, image_succ] at bytes
      exact (List.cons.inj bytes).1
  have byte : LevelFollows msg n ↔ (byteLevel c : Int) = clampLevel n := by
    unfold LevelFollows
    simp only [level, decodeSpeed_byte, first]
    exact ⟨fun same => same .boot, fun same _ => same⟩
  rw [byte]
  exact byteLevel_numeral denotes split

theorem thirtyFive_selects_three :
    ¬ ∀ msg, TopicIs msg "firefighter/rover/speed" → ∀ value,
      checkPayload msg (lit "speed") = .ok value → ∀ n,
      Denotes (tokenBytes msg.data value) n → LevelFollows msg n := by
  intro every
  have digits : Digits [chr '3', chr '5'] := ⟨by simp, List.all_eq_true.mp (by decide)⟩
  have level := every (message "firefighter/rover/speed" "\x7b\"speed\": 35\x7d")
    ⟨rfl, fun _ _ => rfl⟩ ⟨.primitive, 10, 12, 0⟩ (by decide) 35 (.natural digits) .boot
  exact absurd level (by decide)

theorem levelFollows_padded :
    let msg := message "firefighter/rover/speed" "\x7b\"speed\": \"-05\"\x7d"
    TopicIs msg "firefighter/rover/speed" ∧ LevelFollows msg (-5) := by
  have named : TopicIs (message "firefighter/rover/speed" "\x7b\"speed\": \"-05\"\x7d")
      "firefighter/rover/speed" := ⟨rfl, fun _ _ => rfl⟩
  have digits : Digits [chr '0', chr '5'] := ⟨by simp, List.all_eq_true.mp (by decide)⟩
  have denotes := Denotes.negative digits
  have accepted : checkPayload (message "firefighter/rover/speed" "\x7b\"speed\": \"-05\"\x7d")
      (lit "speed") = .ok ⟨.string, 11, 14, 0⟩ := by
    decide
  refine ⟨named, (levelFollows_iff named accepted denotes).mpr ?_⟩
  exact ⟨chr '-', [chr '0', chr '5'], rfl, Or.inr (Or.inl rfl)⟩

end RoverCommandTexts
