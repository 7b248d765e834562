import FirefighterRover.CommandRoundTrip
import FirefighterRover.Draining
import FirefighterRover.StatusJson
import FirefighterRover.Telemetry

/-!
The rover as its operator sees it: orders go in as JSON messages, motor frames come out on
UART0, and telemetry says what the last orders amount to.
-/
namespace RoverRemoteControl
open CMemory EventRuns BoundedFifo RoverJson RoverQueues RoverState RoverCallback RoverCommands
  RoverMotorStream RoverCallbackSteps RoverMqttClient RoverSystem RoverPublishPath
  RoverPublishOrder RoverStatusPipeline RoverDraining RoverCommandTexts RoverCommandRoundTrip
  RoverStatusJson FlatJson

inductive Order where
  | drive (value : Word)
  | level (value : Word)
  | announce (update : StatusType)
  | disconnect

/-- `asked` is the last direction ordered, `shown` what the motors are on, and `sent` the
    directions and levels sent to them. -/
structure Panel where
  asked : Direction
  shown : Direction
  level : Nat
  sent : List (Direction × Nat)
  announced : List StatusType
  deriving DecidableEq, Repr

def Panel.boot : Panel := ⟨.none, .none, 4, [], []⟩

def Panel.send (d : Direction) (p : Panel) : Panel :=
  { p with shown := d, sent := p.sent ++ [(d, p.level)] }

/-- A new level sends the last direction ordered, even when a disconnect has stopped it. -/
def Order.perform (p : Panel) : Order → Panel
  | .drive value => { p with asked := textDirection value.text }.send (textDirection value.text)
  | .level value => { p with level := textLevel value.text }.send p.asked
  | .announce update => { p with announced := p.announced ++ [update] }
  | .disconnect => p.send .stop

def panel (orders : List Order) : Panel := orders.foldl Order.perform .boot

def Conveys (e : Event) : Order → Prop
  | .drive value => ∃ msg w form, e = .recv msg ∧
      Sends msg "firefighter/sensor" "direction" w (Form.bytes value.text form)
  | .level value => ∃ msg w form, e = .recv msg ∧
      Sends msg "firefighter/rover/speed" "speed" w (Form.bytes value.text form)
  | .announce update => ∃ msg w value word, e = .recv msg ∧
      Sends msg "firefighter/status" "status" w (Form.quoted.bytes (Word.text value)) ∧
      (word, update) ∈ statusWords ∧ value.text = lit word
  | .disconnect => e = .disconnect

inductive Carries : List Event → List Order → Prop where
  | nil : Carries [] []
  | order {events : List Event} {orders : List Order} {e : Event} {o : Order}
    (earlier : Carries events orders) (conveys : Conveys e o) :
    Carries (events ++ [e]) (orders ++ [o])
  | other {events : List Event} {orders : List Order} {e : Event} (earlier : Carries events orders)
    (unmoving : command e = none) (silent : statusCommand e = none) : Carries (events ++ [e]) orders

def Panel.history (p : Panel) : List (Direction × UInt8) :=
  p.sent.map fun s => (s.1, levelByte s.2)

structure Shows (cb : CallbackState) (p : Panel) : Prop where
  asked : cb.dir = p.asked
  shown : cb.rover.dir = p.shown
  level : cb.rover.speed = levelByte p.level
  known : p.level ≤ 5
  sent : Sent cb.rover p.history
  announced : cb.statusUpdates = p.announced

theorem boot_shows : Shows .boot .boot := by
  refine ⟨rfl, rfl, ?_, ?_, boot_sent, rfl⟩
  · decide
  · decide

theorem textLevel_le (text : List UInt8) : textLevel text ≤ 5 := by
  have bound := decodeSpeed_le (cstr [text.headD 0])
  rw [decodeSpeed_byte] at bound
  exact bound

theorem drive_shows {cb : CallbackState} {p : Panel} (shows_ : Shows cb p) {msg : RecvMsg}
    {w : Spacing} {value : Word} {form : Form}
    (sends : Sends msg "firefighter/sensor" "direction" w (form.bytes value.text)) :
    Shows (mqttClientCallback cb (.recv msg)) (Order.perform p (.drive value)) := by
  obtain ⟨asked, shown, level, known, sent, announced⟩ := shows_
  have moved := moveRover_sent sent (textDirection value.text)
  rw [level] at moved
  rw [sensor_state sends cb]
  refine ⟨rfl, ?_, ?_, known, ?_, announced⟩
  · rw [moveRover_eq]
    rfl
  · rw [moveRover_eq]
    exact level
  · rw [Panel.history, Order.perform, Panel.send, List.map_append]
    exact moved

theorem level_shows {cb : CallbackState} {p : Panel} (shows_ : Shows cb p) {msg : RecvMsg}
    {w : Spacing} {value : Word} {form : Form}
    (sends : Sends msg "firefighter/rover/speed" "speed" w (form.bytes value.text)) :
    Shows (mqttClientCallback cb (.recv msg)) (Order.perform p (.level value)) := by
  obtain ⟨asked, shown, level, known, sent, announced⟩ := shows_
  have bound := textLevel_le value.text
  have speed := changeSpeed_speed bound cb.rover
  have moved := moveRover_sent (changeSpeed_sent sent (textLevel value.text)) cb.dir
  rw [speed, asked] at moved
  rw [speed_state sends cb]
  refine ⟨asked, ?_, ?_, bound, ?_, announced⟩
  · rw [moveRover_eq]
    exact asked
  · rw [moveRover_eq]
    exact speed
  · rw [Panel.history, Order.perform, Panel.send, List.map_append, asked]
    exact moved

theorem disconnect_shows {cb : CallbackState} {p : Panel} (shows_ : Shows cb p) :
    Shows (mqttClientCallback cb .disconnect) (Order.perform p .disconnect) := by
  obtain ⟨asked, shown, level, known, sent, announced⟩ := shows_
  have moved := moveRover_sent sent .stop
  rw [level] at moved
  simp only [mqttClientCallback, print]
  refine ⟨asked, ?_, ?_, known, ?_, announced⟩
  · rw [moveRover_eq]
    rfl
  · rw [moveRover_eq]
    exact level
  · rw [Panel.history, Order.perform, Panel.send, List.map_append]
    exact moved

theorem unmoving_shows {cb : CallbackState} {p : Panel} (shows_ : Shows cb p) {e : Event}
    (unmoving : command e = none) {announced : List StatusType}
    (updates : (mqttClientCallback cb e).statusUpdates = announced) :
    Shows (mqttClientCallback cb e) { p with announced := announced } := by
  have refined := callback_drive cb e
  rw [unmoving] at refined
  have dir : (mqttClientCallback cb e).dir = cb.dir := congrArg Drive.dir refined
  have rover : (mqttClientCallback cb e).rover = cb.rover := congrArg Drive.rover refined
  refine ⟨dir.trans shows_.asked, ?_, ?_, shows_.known, ?_, updates⟩
  · rw [rover]
    exact shows_.shown
  · rw [rover]
    exact shows_.level
  · rw [rover]
    exact shows_.sent

theorem callback_updates (cb : CallbackState) (e : Event) :
    (mqttClientCallback cb e).statusUpdates = cb.statusUpdates ++ (statusCommand e).toList := by
  cases e with
  | recv msg => exact callback_status cb msg
  | operation op =>
    obtain ⟨successes, console, after⟩ := operationHandler_eq op cb
    simp only [mqttClientCallback, after]
    exact (List.append_nil _).symm
  | disconnect => exact (List.append_nil _).symm
  | other => exact (List.append_nil _).symm

theorem other_shows {cb : CallbackState} {p : Panel} (shows_ : Shows cb p) {e : Event}
    (unmoving : command e = none) (silent : statusCommand e = none) :
    Shows (mqttClientCallback cb e) p := by
  apply unmoving_shows shows_ unmoving
  rw [callback_updates, silent, shows_.announced]
  exact List.append_nil _

theorem announce_shows {cb : CallbackState} {p : Panel} (shows_ : Shows cb p) {msg : RecvMsg}
    {w : Spacing} {value : Word} {word : String} {update : StatusType}
    (sends : Sends msg "firefighter/status" "status" w (Form.quoted.bytes value.text))
    (listed : (word, update) ∈ statusWords) (text : value.text = lit word) :
    Shows (mqttClientCallback cb (.recv msg)) (Order.perform p (.announce update)) := by
  have route := status_dispatch sends.topic
  have unmoving : command (.recv msg) = none := by
    simp [command, speedMessage, sensorMessage, accepted, route]
  apply unmoving_shows shows_ unmoving
  rw [callback_updates, status_command sends listed text, shows_.announced]
  rfl

theorem conveys_shows {cb : CallbackState} {p : Panel} (shows_ : Shows cb p) {e : Event} {o : Order}
    (conveys : Conveys e o) : Shows (mqttClientCallback cb e) (o.perform p) := by
  cases o with
  | drive value =>
    obtain ⟨msg, w, form, rfl, sends⟩ := conveys
    exact drive_shows shows_ sends
  | level value =>
    obtain ⟨msg, w, form, rfl, sends⟩ := conveys
    exact level_shows shows_ sends
  | announce update =>
    obtain ⟨msg, w, value, word, rfl, sends, listed, text⟩ := conveys
    exact announce_shows shows_ sends listed text
  | disconnect =>
    obtain rfl : e = .disconnect := conveys
    exact disconnect_shows shows_

theorem carries_shows {events : List Event} {orders : List Order}
    (carried : Carries events orders) :
    Shows (run mqttClientCallback .boot events) (panel orders) := by
  induction carried with
  | nil => exact boot_shows
  | order _ conveys ih =>
    rw [run_concat, panel, List.foldl_append]
    exact conveys_shows ih conveys
  | other _ unmoving silent ih =>
    rw [run_concat]
    exact other_shows ih unmoving silent

def Panel.wire (p : Panel) : List UInt8 :=
  (if p.sent.isEmpty then [] else [baud]) ++
    (p.sent.map fun s => frameGroup s.1 (levelByte s.2)).flatten

theorem shows_wire {cb : CallbackState} {p : Panel} (shows_ : Shows cb p) :
    cb.rover.uart0 = p.wire := by
  rw [shows_.sent.stream, Panel.history, Panel.wire, List.isEmpty_map, List.map_map]
  rfl

theorem getSpeed_level {rover : Rover} {level : Nat} (known : level ≤ 5)
    (speed : rover.speed = levelByte level) : getSpeed rover = level := by
  simp only [getSpeed, speed]
  rcases known_level known with rfl | rfl | rfl | rfl | rfl | rfl <;> rfl

structure Reports (p : Panel) (payload : List UInt8) : Prop where
  text : payload = genStatus (directionName p.shown) p.level
  tokens : ReadsAs payload (lit "RoverDirection") (directionName p.shown) (lit "Speed")
    (decimal p.level)

theorem general_reports (p : Panel) (known : p.level ≤ 5) :
    Reports p (generalPayload p.level (directionName p.shown)) := by
  obtain ⟨short, clean⟩ := directionName_text p.shown
  have plain : ∀ d, (directionName d).length ≤ 14 ∧ (directionName d).all isPlain = true := by
    intro d
    cases d <;> decide
  have fits : IsInt32 p.level := by
    rcases known_level known with h | h | h | h | h | h <;> rw [h] <;> decide
  have written := (createGenStatus_text (plain p.shown).1 clean (fun _ _ => rfl) fits).1
  have text : generalPayload p.level (directionName p.shown) =
      genStatus (directionName p.shown) p.level := written
  refine ⟨text, ?_⟩
  have bytes := genObject_bytes (.ofAll _ (plain p.shown).2) p.level
  rw [text]
  refine Eq.subst (motive := fun text => ReadsAs text _ _ _ _) bytes ?_
  exact object_readsAs (o := genObject (.ofAll _ (plain p.shown).2) p.level) rfl

theorem sample_admitted {acts : List Act} {p : Panel} (shows_ : Shows (after acts).frame.cb p)
    (room : HasRoom queueLength (after acts).publishQueue) (more : List Act) :
    ∃ msg, (admitted (acts ++ .genInfoTimer :: more))[(admitted acts).length]? = some msg ∧
      publicationOf msg = some ⟨directionTopic, generalPayload p.level (directionName p.shown)⟩ := by
  have speed : getSpeed (after acts).rover = p.level :=
    getSpeed_level shows_.known shows_.level
  have direction : getDirection (after acts).rover = directionName p.shown :=
    congrArg directionName shows_.shown
  have fits := getSpeed_isInt32 (after acts).rover
  have entry : admission (after acts) .genInfoTimer =
      some (publishGeneralMessageFromISR (getSpeed (after acts).rover)
        (getDirection (after acts).rover)) := if_pos room
  refine ⟨publishGeneralMessageFromISR (getSpeed (after acts).rover)
    (getDirection (after acts).rover), ?_, ?_⟩
  · have split : admitted (acts ++ .genInfoTimer :: more) = admitted acts ++
        (publishGeneralMessageFromISR (getSpeed (after acts).rover)
            (getDirection (after acts).rover) ::
          trace step admission (step (after acts) .genInfoTimer) more) := by
      rw [admitted, trace_append, trace]
      exact congrArg (fun entry => trace step admission .boot acts ++ (Option.toList entry ++ _)) entry
    rw [split]
    simp
  · have canonical := publication_general (after acts).rover.dir fits (fun _ => 0)
    rw [speed] at canonical fits ⊢
    rw [getDirection, publicationOf, canonical, ← direction]
    rfl

theorem run_updates (events : List Event) :
    (run mqttClientCallback .boot events).statusUpdates = events.filterMap statusCommand := by
  induction events using List.reverseRecOn with
  | nil => rfl
  | append_singleton events e ih =>
    rw [run_concat, callback_updates, ih, List.filterMap_append]
    cases found : statusCommand e <;> simp [found]

/-- From the bytes of the orders to the bytes that leave the rover. Whenever the callback has
    returned, UART0 has had one group for each order, of the direction and the level the orders
    amount to; statuses are announced once the threads have drained; and the record of a
    genInfo interrupt that finds room is published as a text that says direction and level. -/
theorem orders_carried_out {acts : List Act} {orders : List Order}
    (idle : (after acts).receiver = .idle) (carried : Carries (after acts).delivered orders) :
    (after acts).rover.uart0 = (panel orders).wire ∧
    (Settled acts → (after acts).published.filterMap (onTopic statusTopic) =
      (panel orders).announced.map announcement) ∧
    (HasRoom queueLength (after acts).publishQueue → ∀ more : List Act,
      (∀ q, (after (acts ++ .genInfoTimer :: more)).published[(admitted acts).length]? = some q →
        q.topic = directionTopic ∧ Reports (panel orders) q.payload) ∧
      (Settled (acts ++ .genInfoTimer :: more) →
        (admitted acts).length < (after (acts ++ .genInfoTimer :: more)).published.length)) := by
  have shows_ := carries_shows carried
  have reached := idle_refines idle
  rw [← reached] at shows_
  refine ⟨shows_wire shows_, ?_, ?_⟩
  · intro settled
    rw [settled.announced, ← run_updates, ← reached, shows_.announced]
  · intro room more
    obtain ⟨msg, queued, wire⟩ := sample_admitted shows_ room more
    obtain ⟨inside, _⟩ := List.getElem?_eq_some_iff.mp queued
    have order := line_trace (acts ++ .genInfoTimer :: more)
    rw [trace_map publicationOf] at order
    constructor
    · intro q found
      have first : (line (after (acts ++ .genInfoTimer :: more)))[(admitted acts).length]? =
          some (some q) := by
        obtain ⟨early, _⟩ := List.getElem?_eq_some_iff.mp found
        rw [line, List.getElem?_append_left (by rw [List.length_map]; exact early),
          List.getElem?_map, found]
        rfl
      have second : ((admitted (acts ++ .genInfoTimer :: more)).map
          publicationOf)[(admitted acts).length]? = some (publicationOf msg) := by
        rw [List.getElem?_map, queued]
        rfl
      rw [order] at first
      have same := Option.some.inj (first.symm.trans second)
      rw [wire] at same
      rw [Option.some.inj same]
      exact ⟨rfl, general_reports _ shows_.known⟩
    · intro settled
      have whole := congrArg List.length settled.published
      rw [List.length_map, List.length_map] at whole
      omega

def forwardWord : Word := ⟨lit "forward", by decide, fun c member =>
  List.all_eq_true.mp (by decide : (lit "forward").all isWord = true) c member⟩

def forwardMessage : RecvMsg :=
  ⟨cstr (lit "firefighter/sensor"), (lit "firefighter/sensor").length,
    cstr (payload ⟨.none, .none, .none, .space, .none, .none⟩ "direction" (quote forwardWord.text)),
    (payload ⟨.none, .none, .none, .space, .none, .none⟩ "direction"
      (quote forwardWord.text)).length,
    fun _ => ⟨.undefined, 0, 0, 0⟩⟩

theorem orders_carried_out_forward :
    let acts := .deliver (.recv forwardMessage) :: List.replicate 19 .receiver ++
      (.deliver .disconnect :: List.replicate 17 .receiver)
    (after acts).receiver = .idle ∧
    (after acts).rover.uart0 = (panel [.drive forwardWord, .disconnect]).wire := by
  intro acts
  have idle : (after acts).receiver = .idle := rfl
  have delivered : (after acts).delivered = [] ++ [.recv forwardMessage] ++ [.disconnect] := rfl
  have sends := message_sends "firefighter/sensor" "direction"
    ⟨.none, .none, .none, .space, .none, .none⟩ (quote forwardWord.text)
    (fun _ => ⟨.undefined, 0, 0, 0⟩)
  have carried : Carries (after acts).delivered ([] ++ [.drive forwardWord] ++ [.disconnect]) := by
    rw [delivered]
    refine .order (.order .nil ?_) rfl
    exact ⟨forwardMessage, _, .quoted, rfl, sends⟩
  exact ⟨idle, (orders_carried_out idle carried).1⟩

end RoverRemoteControl
