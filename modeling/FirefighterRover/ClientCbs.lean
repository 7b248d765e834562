import FirefighterRover.JsonParser
import FirefighterRover.Queues
import FirefighterRover.RoverState

/-!
client_cbs.c: MqttClientCallback as a function from its statics, the motor state and one
event of the MQTT library to the same after the event. Message memory is readable behind
`dataLen`; the handlers do not always stop there.
-/
namespace RoverCallback
open CMemory RoverJsmn RoverJson RoverQueues RoverState

/-- A received publish. `stack` is what the token array of the handler holds on entry. -/
structure RecvMsg where
  topic : Ptr
  topLen : Nat
  data : Ptr
  dataLen : Nat
  stack : Nat → JsmnTok

inductive Operation where
  | connack (connAck : UInt16)
  | puback
  | suback
  | unsuback (data : Ptr)
  | other

inductive Event where
  | operation (op : Operation)
  | recv (msg : RecvMsg)
  | disconnect
  | other

/-- The statics `s` and `dir` of the receive case, the motors, GPIO0, the success counter
    of statistics.c, the calls of updateStatus and the console. -/
structure CallbackState where
  s : Nat
  dir : Direction
  rover : Rover
  gpio0 : Bool
  publishSuccesses : Int
  statusUpdates : List StatusType
  console : List (List UInt8)

def CallbackState.boot : CallbackState := ⟨0, .none, .boot, true, 0, [], []⟩

def print (line : List UInt8) (st : CallbackState) : CallbackState :=
  { st with console := st.console ++ [line] }

def gpioWrite (level : Bool) (st : CallbackState) : CallbackState := { st with gpio0 := level }

def incrementPublishSuccesses (st : CallbackState) : CallbackState :=
  { st with publishSuccesses := wrap32 (st.publishSuccesses + 1) }

def updateStatus (status : StatusType) (st : CallbackState) : CallbackState :=
  { st with statusUpdates := st.statusUpdates ++ [status] }

inductive Handler where
  | arm
  | speed
  | sensor
  | status
  | ignored
  deriving DecidableEq, Repr

/-- The chain of topic tests: strncmp bounded by the length of the received topic. -/
def dispatch (msg : RecvMsg) : Handler :=
  if strncmp msg.topic (cstr (lit "firefighter/arm/do_something")) msg.topLen = 0 then .arm
  else if strncmp msg.topic (cstr (lit "firefighter/rover/speed")) msg.topLen = 0 then .speed
  else if strncmp msg.topic (cstr (lit "firefighter/sensor")) msg.topLen = 0 then .sensor
  else if strncmp msg.topic (cstr (lit "firefighter/status")) msg.topLen = 0 then .status
  else .ignored

inductive Rejection where
  | invalidPayload
  | keyExpected
  deriving DecidableEq, Repr

def checkPayload (msg : RecvMsg) (key : List UInt8) : Except Rejection JsmnTok :=
  match jsmnParse msg.data msg.dataLen 4 with
  | .error _ => .error .invalidPayload
  | .ok (r, filled) =>
    let t := tokenArray filled msg.stack
    if r ≠ 3 ∨ (t 0).type ≠ .object then .error .invalidPayload
    else if jsoneq msg.data (t 1) key ≠ 0 then .error .keyExpected
    else .ok (t 2)

def startsWith (value : Ptr) (word : String) (n : Nat) : Bool :=
  strncmp value (cstr (lit word)) n = 0

def decodeSpeed (value : Ptr) : Nat :=
  if startsWith value "0" 1 then 0
  else if startsWith value "1" 1 then 1
  else if startsWith value "2" 1 then 2
  else if startsWith value "3" 1 then 3
  else if startsWith value "4" 1 then 4
  else if startsWith value "5" 1 then 5
  else 0

def decodeDirection (value : Ptr) : Direction :=
  if startsWith value "forward" 7 then .forward
  else if startsWith value "re" 2 then .reverse
  else if startsWith value "right" 5 then .right
  else if startsWith value "left" 4 then .left
  else if startsWith value "stop" 4 then .stop
  else if startsWith value "estop" 5 then .stop
  else .stop

def armHandler (msg : RecvMsg) (st : CallbackState) : CallbackState :=
  { st with console := st.console ++ parseString msg.data msg.dataLen msg.stack }

def speedHandler (msg : RecvMsg) (st : CallbackState) : CallbackState :=
  match checkPayload msg (lit "speed") with
  | .error .invalidPayload => print (report (lit "Invalid payload\n")) st
  | .error .keyExpected => print (report (lit "speed expected\n")) st
  | .ok value =>
    let st := print (report (lit "Speed is \"" ++ tokenText msg.data value ++ lit "\"\n")) st
    let st := { st with s := decodeSpeed (tokenValue msg.data value) }
    let st := { st with rover := changeSpeed st.s st.rover }
    { st with rover := moveRover st.dir st.rover }

def sensorHandler (msg : RecvMsg) (st : CallbackState) : CallbackState :=
  match checkPayload msg (lit "direction") with
  | .error .invalidPayload => gpioWrite false (print (report (lit "Invalid payload\n")) st)
  | .error .keyExpected => gpioWrite false (print (report (lit "direction expected\n")) st)
  | .ok value =>
    let st := print (report (lit "Direction is \"" ++ tokenText msg.data value ++ lit "\"\n")) st
    let st := gpioWrite true st
    let st := { st with dir := decodeDirection (tokenValue msg.data value) }
    { st with rover := moveRover st.dir st.rover }

def statusHandler (msg : RecvMsg) (st : CallbackState) : CallbackState :=
  match checkPayload msg (lit "status") with
  | .error .invalidPayload => print (report (lit "Invalid payload\n")) st
  | .error .keyExpected => print (report (lit "Status expected\n")) st
  | .ok value =>
    let st := print (report (lit "Status is \"" ++ tokenText msg.data value ++ lit "\"\n")) st
    if jsoneq msg.data value (lit "start") = 0 then updateStatus .start st
    else if jsoneq msg.data value (lit "stop") = 0 then updateStatus .stop st
    else st

def operationHandler (op : Operation) (st : CallbackState) : CallbackState :=
  match op with
  | .connack connAck =>
    if connAck &&& 0xff = 0 then print (report (lit "Connected to broker\n")) st
    else print (report (lit "CONNACK: Connection Error: " ++ decimal connAck.toNat ++ lit "\n")) st
  | .puback => incrementPublishSuccesses st
  | .suback => print (report (lit "Sub Ack\n")) st
  | .unsuback data => print (report (lit "UnSub Ack: " ++ strn data 512 ++ lit "\n")) st
  | .other => st

def mqttClientCallback (st : CallbackState) (event : Event) : CallbackState :=
  match event with
  | .operation op => operationHandler op st
  | .recv msg =>
    match dispatch msg with
    | .arm => armHandler msg st
    | .speed => speedHandler msg st
    | .sensor => sensorHandler msg st
    | .status => statusHandler msg st
    | .ignored => st
  | .disconnect =>
    let st := print (report (lit "Disconnected from broker\n")) st
    { st with rover := moveRover .stop st.rover }
  | .other => st

end RoverCallback
