import FirefighterRover.Lib.SelfSyncFraming
import FirefighterRover.Lib.CMemory

/-!
rover_state.c: the motor commands. `speed` and `dir` are the copies of rover_state.c; the
other files that include rover_state.h hold copies of their own that nothing reads.
The UART0 driver is the list of bytes written to it.
-/
namespace RoverState
open CMemory SelfSyncFraming

inductive Direction where
  | right
  | left
  | forward
  | reverse
  | stop
  | none
  deriving DecidableEq, Repr

def baud : UInt8 := 0xaa
def motor1 : UInt8 := 0x80
def motor2 : UInt8 := 0x81
def motor3 : UInt8 := 0x82
def checkSumMask : UInt32 := 0x7f

/-- The statics of rover_state.c. `uart0` and `calls` are histories: the bytes written to
    UART0 and the directions moveRover was called with. -/
structure Rover where
  speed : UInt8
  dir : Direction
  sendBaud : Bool
  uart0 : List UInt8
  calls : List Direction
  deriving DecidableEq, Repr

def Rover.boot : Rover := ⟨0x42, .none, true, [], []⟩

def roverUART (b : UInt8) (rover : Rover) : Rover := { rover with uart0 := rover.uart0 ++ [b] }

def changeSpeed (s : Nat) (rover : Rover) : Rover :=
  match s with
  | 0 => { rover with speed := 0x00 }
  | 1 => { rover with speed := 0x11 }
  | 2 => { rover with speed := 0x22 }
  | 3 => { rover with speed := 0x32 }
  | 4 => { rover with speed := 0x42 }
  | 5 => { rover with speed := 0x52 }
  | _ => rover

def getSpeed (rover : Rover) : Int :=
  if rover.speed = 0x00 then 0
  else if rover.speed = 0x11 then 1
  else if rover.speed = 0x22 then 2
  else if rover.speed = 0x32 then 3
  else if rover.speed = 0x42 then 4
  else if rover.speed = 0x52 then 5
  else 0

def directionName : Direction → List UInt8
  | .forward => lit "Forward"
  | .reverse => lit "Reverse"
  | .right => lit "Right"
  | .left => lit "Left"
  | .stop => lit "Stop"
  | .none => lit "None"

def getDirection (rover : Rover) : List UInt8 := directionName rover.dir

structure Checksums where
  checksum1 : UInt32
  checksum2 : UInt32
  checksum3 : UInt32
  deriving DecidableEq, Repr

def checksum (motor : UInt8) (cmd : UInt32) (data : UInt8) : UInt32 :=
  (motor.toUInt32 + cmd + data.toUInt32) &&& checkSumMask

def checksums (d : Direction) (speed : UInt8) : Checksums :=
  match d with
  | .forward => ⟨checksum motor1 0 0, checksum motor2 1 speed, checksum motor3 0 speed⟩
  | .left => ⟨checksum motor1 0 speed, checksum motor2 0 speed, checksum motor3 0 speed⟩
  | .right => ⟨checksum motor1 1 speed, checksum motor2 1 speed, checksum motor3 1 speed⟩
  | .reverse => ⟨checksum motor1 0 0, checksum motor2 0 speed, checksum motor3 1 speed⟩
  | .stop => ⟨checksum motor1 0 0, checksum motor2 0 0, checksum motor3 0 0⟩
  | .none => ⟨checksum motor1 0 0, checksum motor2 0 0, checksum motor3 0 0⟩

/-- The argument of one `snprintf(msg, 8, "%c", ..); roverUART(msg);`. -/
inductive Write where
  | const (b : UInt8)
  | speed
  | checksum1
  | checksum2
  | checksum3
  deriving DecidableEq, Repr

def Write.byte (speed : UInt8) (sums : Checksums) : Write → UInt8
  | .const b => b
  | .speed => speed
  | .checksum1 => sums.checksum1.toUInt8
  | .checksum2 => sums.checksum2.toUInt8
  | .checksum3 => sums.checksum3.toUInt8

def writes : Direction → List Write
  | .forward =>
    [.const motor1, .const 0x00, .const 0x00, .checksum1,
     .const motor2, .const 1, .speed, .checksum2,
     .const motor3, .const 0, .speed, .checksum3]
  | .left =>
    [.const motor1, .const 0x00, .speed, .checksum1,
     .const motor2, .const 0, .speed, .checksum2,
     .const motor3, .const 0, .speed, .checksum3]
  | .right =>
    [.const motor1, .const 1, .speed, .checksum1,
     .const motor2, .const 1, .speed, .checksum2,
     .const motor3, .const 1, .speed, .checksum3]
  | .reverse =>
    [.const motor1, .const 0x00, .const 0x00, .checksum1,
     .const motor2, .const 0x00, .speed, .checksum2,
     .const motor3, .const 1, .speed, .checksum3]
  | .stop =>
    [.const motor1, .const 0x00, .const 0x00, .checksum1,
     .const motor2, .const 0x00, .const 0x00, .checksum2,
     .const motor3, .const 0x00, .const 0x00, .checksum3]
  | .none =>
    [.const motor1, .const 0x00, .const 0x00, .checksum1,
     .const motor2, .const 0x00, .const 0x00, .checksum2,
     .const motor3, .const 0x00, .const 0x00, .checksum3]

def assignDir (d : Direction) (rover : Rover) : Rover :=
  { rover with dir := d, calls := rover.calls ++ [d] }

def sendBaudOnce (rover : Rover) : Rover :=
  if rover.sendBaud then { roverUART baud rover with sendBaud := false } else rover

def moveRover (d : Direction) (rover : Rover) : Rover :=
  let rover := sendBaudOnce (assignDir d rover)
  let sums := checksums d rover.speed
  (writes d).foldl (fun rover w => roverUART (w.byte rover.speed sums) rover) rover

/-- The 12 bytes one call of moveRover puts on the wire after the baud byte, if any. -/
def frameGroup (d : Direction) (speed : UInt8) : List UInt8 :=
  (writes d).map (Write.byte speed (checksums d speed))

def baudBytes (rover : Rover) : List UInt8 := if rover.sendBaud then [baud] else []

theorem sendBaudOnce_eq (rover : Rover) :
    sendBaudOnce rover =
      { rover with sendBaud := false, uart0 := rover.uart0 ++ baudBytes rover } := by
  obtain ⟨speed, dir, sendBaud, uart0, calls⟩ := rover
  cases sendBaud <;> simp [sendBaudOnce, baudBytes, roverUART]

theorem foldl_roverUART (sums : Checksums) (ws : List Write) (rover : Rover) :
    ws.foldl (fun rover w => roverUART (w.byte rover.speed sums) rover) rover =
      { rover with uart0 := rover.uart0 ++ ws.map (Write.byte rover.speed sums) } := by
  induction ws generalizing rover with
  | nil => simp
  | cons w ws ih =>
    rw [List.foldl_cons, ih]
    simp [roverUART]

theorem moveRover_eq (d : Direction) (rover : Rover) :
    moveRover d rover =
      { speed := rover.speed
        dir := d
        sendBaud := false
        uart0 := rover.uart0 ++ (baudBytes rover ++ frameGroup d rover.speed)
        calls := rover.calls ++ [d] } := by
  simp only [moveRover, sendBaudOnce_eq, foldl_roverUART, assignDir, frameGroup, baudBytes,
    List.append_assoc]

theorem frameGroup_length (d : Direction) (speed : UInt8) : (frameGroup d speed).length = 12 := by
  cases d <;> rfl

/-- The speeds change_speed can leave behind. The boot value is one of them. -/
def speedTable : List UInt8 := [0x00, 0x11, 0x22, 0x32, 0x42, 0x52]

theorem changeSpeed_in_table (s : Nat) {rover : Rover} (before : rover.speed ∈ speedTable) :
    (changeSpeed s rover).speed ∈ speedTable := by
  unfold changeSpeed
  split <;> first | exact before | simp [speedTable]

theorem changeSpeed_frame (s : Nat) (rover : Rover) :
    changeSpeed s rover = { rover with speed := (changeSpeed s rover).speed } := by
  unfold changeSpeed
  split <;> rfl

def Direction.Moving (d : Direction) : Prop := d ≠ .stop ∧ d ≠ .none

instance (d : Direction) : Decidable d.Moving :=
  inferInstanceAs (Decidable (d ≠ .stop ∧ d ≠ .none))

def Halted (group : List UInt8) : Prop :=
  group[2]? = some 0 ∧ group[6]? = some 0 ∧ group[10]? = some 0

instance (group : List UInt8) : Decidable (Halted group) :=
  inferInstanceAs (Decidable (_ ∧ _ ∧ _))

theorem halted_frameGroup_iff (d : Direction) (speed : UInt8) :
    Halted (frameGroup d speed) ↔ (d.Moving → speed = 0) := by
  cases d <;> simp [Halted, frameGroup, writes, Write.byte, Direction.Moving]

end RoverState
