import FirefighterRover.MotorStream

/-!
rover_state.c: the test drive of updateRoverState, a cycle of four waiting states that asks for a
direction at every positive time increment. Nothing in the firmware calls it. The test function
behind MQTT_GetDirection is not in the repository: `mqttGetDirection` says what its calls return.
-/
namespace RoverTestDrive
open EventRuns RoverState RoverCallback RoverMotorStream

/-! The values of the enum State. The field holds any int. -/
def stateInit : Int := 1
def stateWaitingForTime1 : Int := 2
def stateWaitingForTime2 : Int := 3
def stateWaitingForTime3 : Int := 4
def stateWaitingForTime4 : Int := 5

structure RoverState where
  state : Int
  curTime : Int
  dir : Direction
  deriving DecidableEq, Repr

/-- `asked` counts the calls of MQTT_GetDirection. -/
structure Drive where
  roverState : RoverState
  rover : Rover
  asked : Nat
  deriving DecidableEq, Repr

def isWaiting (state : Int) : Bool :=
  state = stateWaitingForTime1 ∨ state = stateWaitingForTime2 ∨ state = stateWaitingForTime3 ∨
    state = stateWaitingForTime4

variable (mqttGetDirection : Nat → Direction)

def updateRoverState (timeInc : Int) (drive : Drive) : Int × Drive :=
  if drive.roverState.state = stateInit then
    (1, { drive with roverState := ⟨stateWaitingForTime1, 0, drive.roverState.dir⟩ })
  else if isWaiting drive.roverState.state then
    if timeInc > 0 then
      let dir := mqttGetDirection drive.asked
      let state :=
        if drive.roverState.state = stateWaitingForTime4 then stateWaitingForTime1
        else drive.roverState.state + 1
      (1, ⟨⟨state, drive.roverState.curTime, dir⟩, moveRover dir drive.rover, drive.asked + 1⟩)
    else (1, drive)
  else (0, drive)

def step (drive : Drive) (timeInc : Int) : Drive := (updateRoverState mqttGetDirection timeInc drive).2

def moves (timeIncs : List Int) : Nat := timeIncs.countP fun timeInc => 0 < timeInc

def legs (speed : UInt8) (n : Nat) : List (Direction × UInt8) :=
  (List.range n).map fun k => (mqttGetDirection k, speed)

structure Driven (speed : UInt8) (history : List (Direction × UInt8)) (n : Nat) (drive : Drive) :
    Prop where
  state : drive.roverState.state = stateWaitingForTime1 + ((n % 4 : Nat) : Int)
  curTime : drive.roverState.curTime = 0
  asked : drive.asked = n
  last : ∀ k, n = k + 1 → drive.roverState.dir = mqttGetDirection k
  steady : drive.rover.speed = speed
  sent : Sent drive.rover (history ++ legs mqttGetDirection speed n)

section
variable {mqttGetDirection} {speed : UInt8} {history : List (Direction × UInt8)} {n : Nat}
  {drive : Drive}

theorem driven_phase (driven : Driven mqttGetDirection speed history n drive) :
    ¬ drive.roverState.state = stateInit ∧ isWaiting drive.roverState.state = true := by
  have state := driven.state
  have phase : n % 4 < 4 := Nat.mod_lt n (by decide)
  unfold stateWaitingForTime1 at state
  have kinds : drive.roverState.state = 2 ∨ drive.roverState.state = 3 ∨
      drive.roverState.state = 4 ∨ drive.roverState.state = 5 := by omega
  rcases kinds with same | same | same | same
  all_goals
    rw [same]
    decide

theorem driven_step (driven : Driven mqttGetDirection speed history n drive) (timeInc : Int) :
    (updateRoverState mqttGetDirection timeInc drive).1 = 1 ∧
      Driven mqttGetDirection speed history (n + moves [timeInc])
        (step mqttGetDirection drive timeInc) := by
  obtain ⟨started, waiting⟩ := driven_phase driven
  have state := driven.state
  unfold step updateRoverState
  rw [if_neg started, if_pos waiting]
  by_cases positive : timeInc > 0
  · have one : moves [timeInc] = 1 := by simp [moves, positive]
    rw [if_pos positive, one]
    refine ⟨rfl, ?_, driven.curTime, ?_, ?_, ?_, ?_⟩
    · dsimp only
      unfold stateWaitingForTime1 stateWaitingForTime4 at *
      split
      · omega
      · omega
    · exact congrArg (· + 1) driven.asked
    · intro k last
      obtain rfl : n = k := by omega
      exact congrArg mqttGetDirection driven.asked
    · dsimp only
      rw [moveRover_eq]
      exact driven.steady
    · have sent := moveRover_sent driven.sent (mqttGetDirection drive.asked)
      rw [driven.steady, driven.asked] at sent
      have longer : history ++ legs mqttGetDirection speed (n + 1) =
          history ++ legs mqttGetDirection speed n ++ [(mqttGetDirection n, speed)] := by
        rw [legs, List.range_succ, List.map_append, List.append_assoc]
        rfl
      rw [longer, driven.asked]
      exact sent
  · have none : moves [timeInc] = 0 := by simp [moves, Int.not_lt.mp positive]
    rw [if_neg positive, none]
    exact ⟨rfl, driven⟩

theorem driven_run (driven : Driven mqttGetDirection speed history n drive) (timeIncs : List Int) :
    Driven mqttGetDirection speed history (n + moves timeIncs)
      (run (step mqttGetDirection) drive timeIncs) := by
  induction timeIncs using List.reverseRecOn with
  | nil => exact driven
  | append_singleton timeIncs timeInc ih =>
    have next := (driven_step ih timeInc).2
    have sum : moves (timeIncs ++ [timeInc]) = moves timeIncs + moves [timeInc] :=
      List.countP_append
    rw [run_concat, sum, ← Nat.add_assoc]
    exact next

end

theorem lost_run {drive : Drive} (started : drive.roverState.state ≠ stateInit)
    (lost : isWaiting drive.roverState.state = false) (timeIncs : List Int) :
    run (step mqttGetDirection) drive timeIncs = drive := by
  have idle : ∀ timeInc, step mqttGetDirection drive timeInc = drive := by
    intro timeInc
    rw [step, updateRoverState, if_neg started, lost]
    rfl
  induction timeIncs with
  | nil => rfl
  | cons timeInc rest ih => rw [run_cons, idle, ih]

/-- A test drive on a rover that has carried out any MQTT events before, from STATE_INIT or from
    any other int. Each positive increment behind the first call moves the rover once, in the
    direction its call of MQTT_GetDirection returned, and the four states follow in a circle. -/
theorem test_drive (events : List Event) (start : RoverState) (first : Int) (timeIncs : List Int) :
    let rover := (run mqttClientCallback .boot events).rover
    let drive := run (step mqttGetDirection) ⟨start, rover, 0⟩ (first :: timeIncs)
    (start.state = stateInit → ∃ history, Sent rover history ∧
      Driven mqttGetDirection rover.speed history (moves timeIncs) drive ∧
      (updateRoverState mqttGetDirection first ⟨start, rover, 0⟩).1 = 1 ∧
      ∀ timeInc, (updateRoverState mqttGetDirection timeInc drive).1 = 1) ∧
    (start.state ≠ stateInit ∧ isWaiting start.state = false → drive = ⟨start, rover, 0⟩ ∧
      ∀ timeInc, (updateRoverState mqttGetDirection timeInc drive).1 = 0) := by
  intro rover drive
  constructor
  · intro fresh
    obtain ⟨history, sent⟩ : Wired _ := run_wired events
    have entered : Driven mqttGetDirection rover.speed history 0
        (step mqttGetDirection ⟨start, rover, 0⟩ first) := by
      rw [step, updateRoverState, if_pos fresh]
      refine ⟨rfl, rfl, rfl, ?_, rfl, ?_⟩
      · intro k impossible
        cases impossible
      · rw [legs, List.range_zero, List.map_nil, List.append_nil]
        exact sent
    have driven := driven_run entered timeIncs
    rw [Nat.zero_add] at driven
    refine ⟨history, sent, driven, ?_, fun timeInc => (driven_step driven timeInc).1⟩
    rw [updateRoverState, if_pos fresh]
  · rintro ⟨started, lost⟩
    have stays : drive = ⟨start, rover, 0⟩ := lost_run mqttGetDirection started lost (first :: timeIncs)
    refine ⟨stays, ?_⟩
    intro timeInc
    rw [stays, updateRoverState, if_neg started, lost]
    rfl

end RoverTestDrive
