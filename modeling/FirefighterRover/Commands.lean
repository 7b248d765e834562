import FirefighterRover.Lib.EventRuns
import FirefighterRover.ClientCbs

/-!
What the callback is for: each event is at most one command to the motors, at most one
level for GPIO0 and at most one status update. The callback is shown to be that machine;
the results about its runs use these equations and not its body.
-/
namespace RoverCommands
open CMemory RoverJsmn RoverJson RoverQueues RoverState RoverCallback EventRuns

inductive Command where
  | speed (level : Nat)
  | direction (d : Direction)
  | halt
  deriving DecidableEq, Repr

def acceptedValue (msg : RecvMsg) (key : String) : Option Ptr :=
  match checkPayload msg (lit key) with
  | .error _ => none
  | .ok value => some (tokenValue msg.data value)

/-- The checks as the source spells them: r == 3, the root an object, the key second. -/
def PassesChecks (msg : RecvMsg) (key : String) : Prop :=
  ∃ filled, jsmnParse msg.data msg.dataLen 4 = .ok (3, filled) ∧
    (tokenArray filled msg.stack 0).type = .object ∧
    jsoneq msg.data (tokenArray filled msg.stack 1) (lit key) = 0

theorem acceptedValue_isSome_iff (msg : RecvMsg) (key : String) :
    (acceptedValue msg key).isSome = true ↔ PassesChecks msg key := by
  unfold acceptedValue PassesChecks checkPayload
  cases parsed : jsmnParse msg.data msg.dataLen 4 with
  | error r => simp
  | ok result =>
    obtain ⟨r, filled⟩ := result
    by_cases three : r = 3
    · subst three
      by_cases object : (tokenArray filled msg.stack 0).type = .object
      · by_cases keyed : jsoneq msg.data (tokenArray filled msg.stack 1) (lit key) = 0
        · simp [object, keyed]
        · simp [object, keyed]
      · simp [object]
    · simp [three]

def accepted (handler : Handler) (key : String) (msg : RecvMsg) : Option Ptr :=
  if dispatch msg = handler then acceptedValue msg key else none

def speedMessage : RecvMsg → Option Nat :=
  fun msg => (accepted .speed "speed" msg).map decodeSpeed

def sensorMessage : RecvMsg → Option Direction :=
  fun msg => (accepted .sensor "direction" msg).map decodeDirection

def command : Event → Option Command
  | .recv msg =>
    match speedMessage msg, sensorMessage msg with
    | some level, _ => some (.speed level)
    | none, some d => some (.direction d)
    | none, none => none
  | .disconnect => some .halt
  | .operation _ => none
  | .other => none

def gpioLevel : Event → Option Bool
  | .recv msg =>
    if dispatch msg = .sensor then some (acceptedValue msg "direction").isSome else none
  | _ => none

def statusCommand : Event → Option StatusType
  | .recv msg =>
    if dispatch msg = .status then
      match checkPayload msg (lit "status") with
      | .error _ => none
      | .ok value =>
        if value.type = .string ∧ tokenBytes msg.data value = lit "start" then some .start
        else if value.type = .string ∧ tokenBytes msg.data value = lit "stop" then some .stop
        else none
    else none
  | _ => none

def isPuback : Event → Bool
  | .operation .puback => true
  | _ => false

/-- What the motors depend on: the statics of the receive case and of rover_state.c. -/
structure Drive where
  s : Nat
  dir : Direction
  rover : Rover
  deriving DecidableEq, Repr

def drive (st : CallbackState) : Drive := ⟨st.s, st.dir, st.rover⟩

def Command.perform : Command → Drive → Drive
  | .speed level, v => ⟨level, v.dir, moveRover v.dir (changeSpeed level v.rover)⟩
  | .direction d, v => ⟨v.s, d, moveRover d v.rover⟩
  | .halt, v => ⟨v.s, v.dir, moveRover .stop v.rover⟩

def performOption (c : Option Command) (v : Drive) : Drive :=
  match c with
  | none => v
  | some c => c.perform v

theorem speedHandler_eq (msg : RecvMsg) (st : CallbackState) : ∃ console, speedHandler msg st =
    match acceptedValue msg "speed" with
    | none => { st with console := console }
    | some value =>
      { st with
        s := decodeSpeed value
        rover := moveRover st.dir (changeSpeed (decodeSpeed value) st.rover)
        console := console } := by
  unfold speedHandler acceptedValue
  cases checkPayload msg (lit "speed") with
  | error r => cases r <;> exact ⟨_, rfl⟩
  | ok value => exact ⟨_, rfl⟩

theorem sensorHandler_eq (msg : RecvMsg) (st : CallbackState) : ∃ console, sensorHandler msg st =
    match acceptedValue msg "direction" with
    | none => { st with gpio0 := false, console := console }
    | some value =>
      { st with
        gpio0 := true
        dir := decodeDirection value
        rover := moveRover (decodeDirection value) st.rover
        console := console } := by
  unfold sensorHandler acceptedValue
  cases checkPayload msg (lit "direction") with
  | error r => cases r <;> exact ⟨_, rfl⟩
  | ok value => exact ⟨_, rfl⟩

theorem statusHandler_eq {msg : RecvMsg} (route : dispatch msg = .status) (st : CallbackState) :
    ∃ console, statusHandler msg st =
      { st with
        statusUpdates := st.statusUpdates ++ (statusCommand (.recv msg)).toList
        console := console } := by
  simp only [statusHandler, statusCommand, route, if_true]
  cases checkPayload msg (lit "status") with
  | error r => cases r <;> exact ⟨_, by rw [Option.toList_none, List.append_nil]; rfl⟩
  | ok value =>
    have start := jsoneq_iff msg.data value (s := lit "start") (by decide)
      (clean_of_all (by decide))
    have stop := jsoneq_iff msg.data value (s := lit "stop") (by decide)
      (clean_of_all (by decide))
    simp only [start, stop]
    by_cases starts : value.type = .string ∧ tokenBytes msg.data value = lit "start"
    · rw [if_pos starts, if_pos starts]
      exact ⟨_, rfl⟩
    · rw [if_neg starts, if_neg starts]
      by_cases stops : value.type = .string ∧ tokenBytes msg.data value = lit "stop"
      · rw [if_pos stops, if_pos stops]
        exact ⟨_, rfl⟩
      · rw [if_neg stops, if_neg stops, Option.toList_none, List.append_nil]
        exact ⟨_, rfl⟩

theorem operationHandler_eq (op : Operation) (st : CallbackState) : ∃ successes console,
    operationHandler op st = { st with publishSuccesses := successes, console := console } := by
  cases op with
  | connack code =>
    simp only [operationHandler]
    split
    · exact ⟨_, _, rfl⟩
    · exact ⟨_, _, rfl⟩
  | _ => exact ⟨_, _, rfl⟩

theorem no_status {msg : RecvMsg} (elsewhere : dispatch msg ≠ .status) :
    (statusCommand (.recv msg)).toList = [] := by
  rw [statusCommand, if_neg elsewhere]
  rfl

theorem received_eq (msg : RecvMsg) (st : CallbackState) :
    ∃ console, mqttClientCallback st (.recv msg) =
      let after := performOption (command (.recv msg)) (drive st)
      { st with
        s := after.s
        dir := after.dir
        rover := after.rover
        gpio0 := (gpioLevel (.recv msg)).getD st.gpio0
        statusUpdates := st.statusUpdates ++ (statusCommand (.recv msg)).toList
        console := console } := by
  simp only [mqttClientCallback, command, gpioLevel, speedMessage, sensorMessage, accepted]
  cases route : dispatch msg with
  | status =>
    obtain ⟨console, after⟩ := statusHandler_eq route st
    exact ⟨console, after⟩
  | arm =>
    rw [no_status (by simp [route]), List.append_nil]
    exact ⟨_, rfl⟩
  | ignored =>
    rw [no_status (by simp [route]), List.append_nil]
    exact ⟨_, rfl⟩
  | speed =>
    obtain ⟨console, after⟩ := speedHandler_eq msg st
    rw [no_status (by simp [route]), List.append_nil]
    refine ⟨console, after.trans ?_⟩
    cases acceptedValue msg "speed" <;> rfl
  | sensor =>
    obtain ⟨console, after⟩ := sensorHandler_eq msg st
    rw [no_status (by simp [route]), List.append_nil]
    refine ⟨console, after.trans ?_⟩
    cases acceptedValue msg "direction" <;> rfl

/-- The callback refines the command machine. -/
theorem callback_drive (st : CallbackState) (e : Event) :
    drive (mqttClientCallback st e) = performOption (command e) (drive st) := by
  cases e with
  | operation op =>
    obtain ⟨successes, console, after⟩ := operationHandler_eq op st
    simp only [mqttClientCallback, after]
    rfl
  | disconnect => rfl
  | other => rfl
  | recv msg =>
    obtain ⟨console, after⟩ := received_eq msg st
    rw [after]
    rfl

theorem callback_rover (st : CallbackState) (e : Event) : (mqttClientCallback st e).rover =
    (performOption (command e) (drive st)).rover :=
  congrArg Drive.rover (callback_drive st e)

theorem callback_gpio : IsRegister mqttClientCallback CallbackState.gpio0 gpioLevel := by
  intro st e
  cases e with
  | operation op =>
    obtain ⟨successes, console, after⟩ := operationHandler_eq op st
    simp only [mqttClientCallback, after]
    rfl
  | disconnect => rfl
  | other => rfl
  | recv msg =>
    obtain ⟨console, after⟩ := received_eq msg st
    rw [after]

theorem callback_status (st : CallbackState) (msg : RecvMsg) :
    (mqttClientCallback st (.recv msg)).statusUpdates =
      st.statusUpdates ++ (statusCommand (.recv msg)).toList := by
  obtain ⟨console, after⟩ := received_eq msg st
  rw [after]

theorem decodeSpeed_le (value : Ptr) : decodeSpeed value ≤ 5 := by
  unfold decodeSpeed
  repeat' split
  all_goals decide

def requests : Event → Option Nat
  | .recv msg => speedMessage msg
  | _ => none

def decodes : Event → Option Direction
  | .recv msg => sensorMessage msg
  | _ => none

theorem speed_excludes_sensor {msg : RecvMsg} {level : Nat}
    (speed : speedMessage msg = some level) : sensorMessage msg = none := by
  by_cases route : dispatch msg = .speed
  · simp [sensorMessage, accepted, route]
  · simp [speedMessage, accepted, route] at speed

theorem command_cases (e : Event) :
    (command e = none ∧ requests e = none ∧ decodes e = none) ∨
    (∃ level, command e = some (.speed level) ∧ level ≤ 5 ∧ requests e = some level ∧
      decodes e = none) ∨
    (∃ d, command e = some (.direction d) ∧ requests e = none ∧ decodes e = some d) ∨
    (command e = some .halt ∧ e = .disconnect ∧ requests e = none ∧ decodes e = none) := by
  cases e with
  | operation op => exact Or.inl ⟨rfl, rfl, rfl⟩
  | other => exact Or.inl ⟨rfl, rfl, rfl⟩
  | disconnect => exact Or.inr (Or.inr (Or.inr ⟨rfl, rfl, rfl, rfl⟩))
  | recv msg =>
    simp only [command, requests, decodes]
    cases speed : speedMessage msg with
    | some level =>
      have bound : level ≤ 5 := by
        simp only [speedMessage, Option.map_eq_some_iff] at speed
        obtain ⟨value, _, rfl⟩ := speed
        exact decodeSpeed_le value
      exact Or.inr (Or.inl ⟨level, rfl, bound, rfl, speed_excludes_sensor speed⟩)
    | none =>
      cases sensor : sensorMessage msg with
      | none => exact Or.inl ⟨rfl, rfl, rfl⟩
      | some d => exact Or.inr (Or.inr (Or.inl ⟨d, rfl, rfl, rfl⟩))

theorem decodes_command {e : Event} {d : Direction} (h : decodes e = some d) :
    command e = some (.direction d) := by
  rcases command_cases e with ⟨_, _, n⟩ | ⟨_, _, _, _, n⟩ | ⟨d', c, _, s⟩ | ⟨_, _, _, n⟩
  · simp [n] at h
  · simp [n] at h
  · rw [c, Option.some.inj (s.symm.trans h)]
  · simp [n] at h

theorem callback_dir : IsRegister mqttClientCallback CallbackState.dir decodes := by
  intro st e
  have after := congrArg Drive.dir (callback_drive st e)
  simp only [drive] at after
  rw [after]
  rcases command_cases e with ⟨c, _, w⟩ | ⟨_, c, _, _, w⟩ | ⟨d, c, _, w⟩ | ⟨c, _, _, w⟩ <;>
    rw [c, w] <;> rfl

def levelByte (level : Nat) : UInt8 := (changeSpeed level Rover.boot).speed

theorem known_level {level : Nat} (known : level ≤ 5) :
    level = 0 ∨ level = 1 ∨ level = 2 ∨ level = 3 ∨ level = 4 ∨ level = 5 := by omega

theorem changeSpeed_speed {level : Nat} (known : level ≤ 5) (rover : Rover) :
    (changeSpeed level rover).speed = levelByte level := by
  rcases known_level known with rfl | rfl | rfl | rfl | rfl | rfl <;> rfl

theorem levelByte_zero_iff {level : Nat} (known : level ≤ 5) :
    levelByte level = 0 ↔ level = 0 := by
  rcases known_level known with rfl | rfl | rfl | rfl | rfl | rfl <;> decide

theorem callback_speed : IsRegister mqttClientCallback (fun st => st.rover.speed)
    (fun e => (requests e).map levelByte) := by
  intro st e
  simp only [callback_rover]
  rcases command_cases e with ⟨c, w, _⟩ | ⟨level, c, known, w, _⟩ | ⟨d, c, w, _⟩ | ⟨c, _, w, _⟩
  · rw [c, w]
    rfl
  · rw [c, w]
    simp only [performOption, Command.perform, moveRover_eq]
    exact changeSpeed_speed known st.rover
  · rw [c, w]
    simp only [performOption, Command.perform, moveRover_eq]
    rfl
  · rw [c, w]
    simp only [performOption, Command.perform, moveRover_eq]
    rfl

end RoverCommands
