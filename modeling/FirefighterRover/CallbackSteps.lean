import FirefighterRover.MotorStream

/-!
MqttClientCallback step by step, as an interrupt or another thread sees it: every assignment
to a shared variable and every byte sent is a step of its own. The steps in a row are the
callback of client_cbs.c.
-/
namespace RoverCallbackSteps
open CMemory EventRuns RoverJsmn RoverJson RoverQueues RoverState RoverCallback RoverCommands RoverMotorStream

inductive Op where
  | print (line : List UInt8)
  | assignS (s : Nat)
  | changeSpeed (s : Nat)
  | decodeDir (d : Direction)
  | gpioWrite (level : Bool)
  | incrementPublishSuccesses
  | updateStatus (status : StatusType)
  | assignDir (d : Direction)
  | sendBaud
  | checksums (d : Direction)
  | send (w : Write)
  deriving DecidableEq, Repr

structure Frame where
  cb : CallbackState
  sums : Checksums

def withRover (f : Rover → Rover) (frame : Frame) : Frame :=
  { frame with cb := { frame.cb with rover := f frame.cb.rover } }

def exec (frame : Frame) (op : Op) : Frame :=
  match op with
  | .print line => { frame with cb := print line frame.cb }
  | .assignS s => { frame with cb := { frame.cb with s := s } }
  | .changeSpeed s => withRover (changeSpeed s) frame
  | .decodeDir d => { frame with cb := { frame.cb with dir := d } }
  | .gpioWrite level => { frame with cb := gpioWrite level frame.cb }
  | .incrementPublishSuccesses => { frame with cb := incrementPublishSuccesses frame.cb }
  | .updateStatus status => { frame with cb := updateStatus status frame.cb }
  | .assignDir d => withRover (assignDir d) frame
  | .sendBaud => withRover sendBaudOnce frame
  | .checksums d => { frame with sums := RoverState.checksums d frame.cb.rover.speed }
  | .send w => withRover (fun rover => roverUART (w.byte rover.speed frame.sums) rover) frame

def moveRoverOps (d : Direction) : List Op :=
  .assignDir d :: .sendBaud :: .checksums d :: (writes d).map .send

def armOps (msg : RecvMsg) : List Op :=
  (parseString msg.data msg.dataLen msg.stack).map .print

/-- `dir` is the static of the receive case on entry. -/
def speedOps (msg : RecvMsg) (dir : Direction) : List Op :=
  match checkPayload msg (lit "speed") with
  | .error .invalidPayload => [.print (report (lit "Invalid payload\n"))]
  | .error .keyExpected => [.print (report (lit "speed expected\n"))]
  | .ok value =>
    let s := decodeSpeed (tokenValue msg.data value)
    [.print (report (lit "Speed is \"" ++ tokenText msg.data value ++ lit "\"\n")), .assignS s,
      .changeSpeed s] ++ moveRoverOps dir

def sensorOps (msg : RecvMsg) : List Op :=
  match checkPayload msg (lit "direction") with
  | .error .invalidPayload => [.print (report (lit "Invalid payload\n")), .gpioWrite false]
  | .error .keyExpected => [.print (report (lit "direction expected\n")), .gpioWrite false]
  | .ok value =>
    let d := decodeDirection (tokenValue msg.data value)
    [.print (report (lit "Direction is \"" ++ tokenText msg.data value ++ lit "\"\n")), .gpioWrite true,
      .decodeDir d] ++ moveRoverOps d

def statusOps (msg : RecvMsg) : List Op :=
  match checkPayload msg (lit "status") with
  | .error .invalidPayload => [.print (report (lit "Invalid payload\n"))]
  | .error .keyExpected => [.print (report (lit "Status expected\n"))]
  | .ok value =>
    .print (report (lit "Status is \"" ++ tokenText msg.data value ++ lit "\"\n")) ::
      (if jsoneq msg.data value (lit "start") = 0 then [.updateStatus .start]
      else if jsoneq msg.data value (lit "stop") = 0 then [.updateStatus .stop]
      else [])

def operationOps (op : Operation) : List Op :=
  match op with
  | .connack connAck =>
    if connAck &&& 0xff = 0 then [.print (report (lit "Connected to broker\n"))]
    else [.print (report (lit "CONNACK: Connection Error: " ++ decimal connAck.toNat ++ lit "\n"))]
  | .puback => [.incrementPublishSuccesses]
  | .suback => [.print (report (lit "Sub Ack\n"))]
  | .unsuback data => [.print (report (lit "UnSub Ack: " ++ strn data 512 ++ lit "\n"))]
  | .other => []

def callbackOps (dir : Direction) (event : Event) : List Op :=
  match event with
  | .operation op => operationOps op
  | .recv msg =>
    match dispatch msg with
    | .arm => armOps msg
    | .speed => speedOps msg dir
    | .sensor => sensorOps msg
    | .status => statusOps msg
    | .ignored => []
  | .disconnect => .print (report (lit "Disconnected from broker\n")) :: moveRoverOps .stop
  | .other => []

theorem run_sends (ws : List Write) : ∀ frame : Frame,
    run exec frame (ws.map .send) = withRover (fun rover =>
      ws.foldl (fun rover w => roverUART (w.byte rover.speed frame.sums) rover) rover) frame := by
  induction ws with
  | nil => intro frame; rfl
  | cons w ws ih =>
    intro frame
    rw [List.map_cons, run_cons, ih]
    rfl

theorem run_moveRoverOps (d : Direction) (frame : Frame) :
    (run exec frame (moveRoverOps d)).cb =
      { frame.cb with rover := moveRover d frame.cb.rover } := by
  rw [moveRoverOps, run_cons, run_cons, run_cons, run_sends]
  rfl

theorem run_prints (lines : List (List UInt8)) : ∀ frame : Frame,
    (run exec frame (lines.map .print)).cb =
      { frame.cb with console := frame.cb.console ++ lines } := by
  induction lines with
  | nil => intro frame; simp
  | cons line lines ih =>
    intro frame
    rw [List.map_cons, run_cons, ih]
    simp [exec, print]

theorem run_speedOps (msg : RecvMsg) (frame : Frame) :
    (run exec frame (speedOps msg frame.cb.dir)).cb = speedHandler msg frame.cb := by
  unfold speedOps speedHandler
  cases checkPayload msg (lit "speed") with
  | error r => cases r <;> rfl
  | ok value =>
    dsimp only
    rw [run_append, run_moveRoverOps]
    rfl

theorem run_sensorOps (msg : RecvMsg) (frame : Frame) :
    (run exec frame (sensorOps msg)).cb = sensorHandler msg frame.cb := by
  unfold sensorOps sensorHandler
  cases checkPayload msg (lit "direction") with
  | error r => cases r <;> rfl
  | ok value =>
    dsimp only
    rw [run_append, run_moveRoverOps]
    rfl

theorem run_statusOps (msg : RecvMsg) (frame : Frame) :
    (run exec frame (statusOps msg)).cb = statusHandler msg frame.cb := by
  unfold statusOps statusHandler
  cases checkPayload msg (lit "status") with
  | error r => cases r <;> rfl
  | ok value =>
    dsimp only
    split
    · rfl
    · split <;> rfl

theorem run_operationOps (op : Operation) (frame : Frame) :
    (run exec frame (operationOps op)).cb = operationHandler op frame.cb := by
  cases op with
  | connack code => simp only [operationOps, operationHandler]; split <;> rfl
  | _ => rfl

/-- The callback of client_cbs.c is its steps run without a break. -/
theorem run_callbackOps (frame : Frame) (e : Event) :
    (run exec frame (callbackOps frame.cb.dir e)).cb = mqttClientCallback frame.cb e := by
  cases e with
  | operation op => exact run_operationOps op frame
  | other => rfl
  | disconnect =>
    rw [callbackOps, run_cons, run_moveRoverOps]
    rfl
  | recv msg =>
    simp only [callbackOps, mqttClientCallback]
    cases dispatch msg with
    | arm => exact run_prints _ frame
    | speed => exact run_speedOps msg frame
    | sensor => exact run_sensorOps msg frame
    | status => exact run_statusOps msg frame
    | ignored => rfl

def Op.status : Op → Option StatusType
  | .updateStatus status => some status
  | _ => none

def Op.acknowledges : Op → Bool
  | .incrementPublishSuccesses => true
  | _ => false

def Silent (ops : List Op) : Prop :=
  ops.filterMap Op.status = [] ∧ ops.countP Op.acknowledges = 0

theorem silent_append {a b : List Op} (first : Silent a) (second : Silent b) :
    Silent (a ++ b) := by
  constructor
  · rw [List.filterMap_append, first.1, second.1, List.append_nil]
  · rw [List.countP_append, first.2, second.2]

theorem silent_prints (lines : List (List UInt8)) : Silent (lines.map .print) := by
  induction lines with
  | nil => exact ⟨rfl, rfl⟩
  | cons line lines ih => exact silent_append (a := [.print line]) ⟨rfl, rfl⟩ ih

theorem silent_moveRover (d : Direction) : Silent (moveRoverOps d) := by
  cases d <;> exact ⟨rfl, rfl⟩

theorem silent_speed (msg : RecvMsg) (dir : Direction) : Silent (speedOps msg dir) := by
  unfold speedOps
  split
  · exact ⟨rfl, rfl⟩
  · exact ⟨rfl, rfl⟩
  · exact silent_append ⟨rfl, rfl⟩ (silent_moveRover dir)

theorem silent_sensor (msg : RecvMsg) : Silent (sensorOps msg) := by
  unfold sensorOps
  split
  · exact ⟨rfl, rfl⟩
  · exact ⟨rfl, rfl⟩
  · exact silent_append ⟨rfl, rfl⟩ (silent_moveRover _)

theorem statusOps_updates (msg : RecvMsg) (route : dispatch msg = .status) :
    (statusOps msg).filterMap Op.status = (statusCommand (.recv msg)).toList ∧
    (statusOps msg).countP Op.acknowledges = 0 := by
  have start (value : JsmnTok) := jsoneq_iff msg.data value (s := lit "start")
    (by decide) (clean_of_all (by decide))
  have stop (value : JsmnTok) := jsoneq_iff msg.data value (s := lit "stop")
    (by decide) (clean_of_all (by decide))
  simp only [statusOps, statusCommand, route, ↓reduceIte, start, stop]
  cases checkPayload msg (lit "status") with
  | error r => cases r <;> exact ⟨rfl, rfl⟩
  | ok value =>
    dsimp only
    split
    · exact ⟨rfl, rfl⟩
    · split <;> exact ⟨rfl, rfl⟩

theorem callbackOps_accounts (dir : Direction) (e : Event) :
    (callbackOps dir e).filterMap Op.status = (statusCommand e).toList ∧
    (callbackOps dir e).countP Op.acknowledges = (isPuback e).toNat := by
  cases e with
  | operation op =>
    cases op with
    | connack code =>
      simp only [callbackOps, operationOps]
      split <;> exact ⟨rfl, rfl⟩
    | _ => exact ⟨rfl, rfl⟩
  | other => exact ⟨rfl, rfl⟩
  | disconnect => exact ⟨rfl, rfl⟩
  | recv msg =>
    simp only [callbackOps, isPuback, Bool.toNat_false]
    cases route : dispatch msg with
    | status => exact statusOps_updates msg route
    | arm =>
      have other : statusCommand (.recv msg) = none := by simp [statusCommand, route]
      rw [other]
      exact silent_prints _
    | speed =>
      have other : statusCommand (.recv msg) = none := by simp [statusCommand, route]
      rw [other]
      exact silent_speed msg dir
    | sensor =>
      have other : statusCommand (.recv msg) = none := by simp [statusCommand, route]
      rw [other]
      exact silent_sensor msg
    | ignored =>
      have other : statusCommand (.recv msg) = none := by simp [statusCommand, route]
      rw [other]
      exact ⟨rfl, rfl⟩

end RoverCallbackSteps
