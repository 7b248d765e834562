import FirefighterRover.MotorStream

/-!
Runs of the callback: what stops the rover and what keeps it stopped, and what each event
leaves alone.
-/
namespace RoverCallbackRuns
open CMemory EventRuns RoverState RoverCallback RoverCommands RoverMotorStream

def lastDirection (events : List Event) : Direction := (lastWrite decodes events).getD .none

def lastSpeed (events : List Event) : UInt8 :=
  (lastWrite (fun e => (requests e).map levelByte) events).getD 0x42

theorem run_dir (events : List Event) :
    (run mqttClientCallback .boot events).dir = lastDirection events :=
  register_after_run callback_dir .boot events

theorem run_speed (events : List Event) :
    (run mqttClientCallback .boot events).rover.speed = lastSpeed events :=
  register_after_run callback_speed .boot events

theorem commandGroup_cases {st : CallbackState} {e : Event} {g : List UInt8}
    (sent : commandGroup st e = some g) :
    (∃ level, requests e = some level ∧ level ≤ 5 ∧ decodes e = none ∧
      g = frameGroup st.dir (levelByte level)) ∨
    (∃ d, decodes e = some d ∧ requests e = none ∧ g = frameGroup d st.rover.speed) ∨
    (e = .disconnect ∧ g = frameGroup .stop st.rover.speed) := by
  unfold commandGroup at sent
  rcases command_cases e with ⟨c, _, _⟩ | ⟨level, c, known, w, n⟩ | ⟨d, c, n, w⟩ | ⟨c, same, _, _⟩
  · simp [c] at sent
  · simp only [c, Option.some.injEq, changeSpeed_speed known] at sent
    exact Or.inl ⟨level, w, known, n, sent.symm⟩
  · simp only [c, Option.some.injEq] at sent
    exact Or.inr (Or.inl ⟨d, w, n, sent.symm⟩)
  · simp only [c, Option.some.injEq] at sent
    exact Or.inr (Or.inr ⟨same, sent.symm⟩)

theorem unmoving_kept (st : CallbackState) (e : Event) (still : ¬ st.dir.Moving)
    (unreleased : ∀ d, decodes e = some d → ¬ d.Moving) :
    ¬ (mqttClientCallback st e).dir.Moving := by
  rw [callback_dir]
  cases found : decodes e with
  | none => exact still
  | some d => exact unreleased d found

theorem unmoving_group_halted {st : CallbackState} {e : Event} {g : List UInt8}
    (still : ¬ st.dir.Moving) (unreleased : ∀ d, decodes e = some d → ¬ d.Moving)
    (sent : commandGroup st e = some g) : Halted g := by
  rcases commandGroup_cases sent with ⟨level, _, _, _, rfl⟩ | ⟨d, found, _, rfl⟩ | ⟨_, rfl⟩
  · exact (halted_frameGroup_iff _ _).mpr (fun moving => absurd moving still)
  · exact (halted_frameGroup_iff _ _).mpr (fun moving => absurd moving (unreleased d found))
  · exact (halted_frameGroup_iff _ _).mpr (fun moving => absurd rfl moving.1)

theorem estop_latch (pre later : List Event) (stopEvent : Event)
    (stops : decodes stopEvent = some .stop)
    (unreleased : ∀ e ∈ later, ∀ d, decodes e = some d → ¬ d.Moving) :
    ∀ g ∈ groupsSent (run mqttClientCallback .boot pre) (stopEvent :: later), Halted g := by
  intro g mem
  obtain ⟨before, e, after, split, sent⟩ := (mem_groupsSent (run_wired pre) _ g).mp mem
  cases before with
  | nil =>
    obtain ⟨rfl, rfl⟩ := List.cons.inj split
    simp only [commandGroup, decodes_command stops, Option.some.injEq] at sent
    rw [← sent, halted_frameGroup_iff]
    exact fun moving => absurd rfl moving.1
  | cons first before =>
    obtain ⟨rfl, rfl⟩ := List.cons.inj split
    rw [run_cons] at sent
    have latched : ¬ (mqttClientCallback (run mqttClientCallback .boot pre) stopEvent).dir.Moving := by
      rw [callback_dir, stops]
      exact fun moving => absurd rfl moving.1
    have still := run_keeps (fun st : CallbackState => ¬ st.dir.Moving)
      (fun e => ∀ d, decodes e = some d → ¬ d.Moving) unmoving_kept before _ latched
      (fun x hx => unreleased x (by simp [hx]))
    exact unmoving_group_halted still (unreleased e (by simp)) sent

/-- A message as the broker delivers it, with NULs behind topic and payload. -/
def message (topic payload : String) : RecvMsg :=
  ⟨cstr (lit topic), (lit topic).length, cstr (lit payload), (lit payload).length,
    fun _ => ⟨.undefined, 0, 0, 0⟩⟩

def sensorForward : Event :=
  .recv (message "firefighter/sensor" "\x7b\"direction\": \"forward\"\x7d")

def sensorEstop : Event :=
  .recv (message "firefighter/sensor" "\x7b\"direction\": \"estop\"\x7d")

def speedThree : Event := .recv (message "firefighter/rover/speed" "\x7b\"speed\": 3\x7d")

theorem estop_latch_forward_estop_speed :
    decodes sensorEstop = some .stop ∧
    ∀ g ∈ groupsSent (run mqttClientCallback .boot [sensorForward]) [sensorEstop, speedThree],
      Halted g := by
  refine ⟨by decide, estop_latch [sensorForward] [speedThree] sensorEstop (by decide) ?_⟩
  intro e mem d decoded
  rw [List.mem_singleton.mp mem, show decodes speedThree = none by decide] at decoded
  cases decoded

def TopicIs (msg : RecvMsg) (topic : String) : Prop :=
  msg.topLen = (lit topic).length ∧ ∀ i, i < msg.topLen → msg.topic i = (lit topic).getD i 0

/-- A message on exactly this topic, accepted and decoded by the sensor handler. -/
def AcceptedOnSensor (e : Event) : Prop :=
  ∃ msg, e = .recv msg ∧ TopicIs msg "firefighter/sensor" ∧ (sensorMessage msg).isSome = true

def StaysStopped (events : List Event) : Prop :=
  ∀ pre later rest, events = pre ++ .disconnect :: (later ++ rest) →
    (∀ e ∈ later, ¬ AcceptedOnSensor e) →
    ∀ g ∈ groupsSent (run mqttClientCallback .boot (pre ++ [.disconnect])) later, Halted g

/-- After these events, `e` sets the motors in motion: it asks for a non-zero speed and
    the last decoded direction, a disconnect notwithstanding, is a moving one; or it
    decodes to a moving direction and the last speed is not zero. -/
def Resumes (events : List Event) (e : Event) : Prop :=
  (∃ level, requests e = some level ∧ level ≠ 0 ∧ (lastDirection events).Moving) ∨
  (∃ d, decodes e = some d ∧ d.Moving ∧ lastSpeed events ≠ 0)

theorem group_halted_iff {events : List Event} {e : Event} {g : List UInt8}
    (sent : commandGroup (run mqttClientCallback .boot events) e = some g) :
    Halted g ↔ ¬ Resumes events e := by
  unfold Resumes
  rcases commandGroup_cases sent with ⟨level, asked, known, n, rfl⟩ | ⟨d, asked, n, rfl⟩ | ⟨rfl, rfl⟩
  · rw [halted_frameGroup_iff, run_dir, levelByte_zero_iff known, asked, n]
    simp
    tauto
  · rw [halted_frameGroup_iff, run_speed, asked, n]
    simp
  · simp [halted_frameGroup_iff, Direction.Moving, requests, decodes]

theorem resumes_sends {events : List Event} {e : Event} (resumes : Resumes events e)
    (st : CallbackState) : ∃ g, commandGroup st e = some g := by
  unfold commandGroup
  rcases command_cases e with ⟨c, r, n⟩ | ⟨_, c, _⟩ | ⟨_, c, _⟩ | ⟨c, _⟩
  · simp [Resumes, r, n] at resumes
  all_goals exact ⟨_, by rw [c]⟩

/-- A disconnect stops the rover for good in exactly the runs where no event between it
    and the next accepted sensor message resumes the motion. -/
theorem disconnect_stops_iff (events : List Event) :
    StaysStopped events ↔
      ∀ pre mid e rest, events = pre ++ .disconnect :: (mid ++ e :: rest) →
        (∀ x ∈ mid ++ [e], ¬ AcceptedOnSensor x) →
        ¬ Resumes (pre ++ .disconnect :: mid) e := by
  have reached (pre mid : List Event) :
      run mqttClientCallback (run mqttClientCallback .boot (pre ++ [.disconnect])) mid =
        run mqttClientCallback .boot (pre ++ .disconnect :: mid) := by
    rw [← run_append, List.append_assoc, List.singleton_append]
  constructor
  · intro stopped pre mid e rest split unaccepted resumes
    obtain ⟨g, sent⟩ := resumes_sends resumes
      (run mqttClientCallback .boot (pre ++ .disconnect :: mid))
    have inRun : g ∈ groupsSent (run mqttClientCallback .boot (pre ++ [.disconnect]))
        (mid ++ [e]) := by
      rw [mem_groupsSent (run_wired _)]
      exact ⟨mid, e, [], rfl, by rw [reached]; exact sent⟩
    have halted := stopped pre (mid ++ [e]) rest (by rw [split]; simp) unaccepted g inRun
    exact (group_halted_iff sent).mp halted resumes
  · intro unresumed pre later rest split unaccepted g mem
    obtain ⟨mid, e, after, rfl, sent⟩ := (mem_groupsSent (run_wired _) later g).mp mem
    rw [reached] at sent
    rw [group_halted_iff sent]
    refine unresumed pre mid e (after ++ rest) (by rw [split]; simp) ?_
    intro x hx
    apply unaccepted x
    simp only [List.mem_append, List.mem_singleton] at hx
    rcases hx with inMid | rfl
    · simp [inMid]
    · simp

theorem speed_after_disconnect_moves :
    ¬ StaysStopped [sensorForward, .disconnect, speedThree] := by
  intro stopped
  have unaccepted : ∀ e ∈ [speedThree], ¬ AcceptedOnSensor e := by
    rintro e mem ⟨msg, rfl, _, found⟩
    obtain rfl := Event.recv.inj (List.mem_singleton.mp mem)
    exact absurd found (by decide)
  have halted := stopped [sensorForward] [speedThree] [] rfl unaccepted
  exact absurd halted (by decide)

def MotorEvent : Event → Prop
  | .disconnect => True
  | .recv msg =>
    (dispatch msg = .speed ∧ PassesChecks msg "speed") ∨
    (dispatch msg = .sensor ∧ PassesChecks msg "direction")
  | _ => False

def sensorDispatched : Event → Option RecvMsg
  | .recv msg => if dispatch msg = .sensor then some msg else none
  | _ => none

theorem speedMessage_isSome_iff (msg : RecvMsg) :
    (speedMessage msg).isSome = true ↔ dispatch msg = .speed ∧ PassesChecks msg "speed" := by
  rw [← acceptedValue_isSome_iff, speedMessage, Option.isSome_map, accepted]
  split <;> simp_all

theorem sensorMessage_isSome_iff (msg : RecvMsg) :
    (sensorMessage msg).isSome = true ↔ dispatch msg = .sensor ∧ PassesChecks msg "direction" := by
  rw [← acceptedValue_isSome_iff, sensorMessage, Option.isSome_map, accepted]
  split <;> simp_all

theorem command_none_iff (e : Event) : command e = none ↔ ¬ MotorEvent e := by
  cases e with
  | operation op => simp [command, MotorEvent]
  | disconnect => simp [command, MotorEvent]
  | other => simp [command, MotorEvent]
  | recv msg =>
    rw [MotorEvent, ← speedMessage_isSome_iff, ← sensorMessage_isSome_iff, command]
    cases speedMessage msg <;> cases sensorMessage msg <;> simp

theorem gpioLevel_sensor (events : List Event) : events.filterMap gpioLevel =
    (events.filterMap sensorDispatched).map fun msg =>
      (acceptedValue msg "direction").isSome := by
  rw [List.map_filterMap]
  congr 1
  funext e
  cases e with
  | recv msg => simp only [gpioLevel, sensorDispatched]; split <;> rfl
  | _ => rfl

/-- What each event of the callback leaves alone, in any state, and what it does otherwise:
    one call of moveRover. GPIO0 shows whether the last sensor message was rejected. -/
theorem callback_frame_atomic :
    (∀ st e, ¬ MotorEvent e → (mqttClientCallback st e).s = st.s ∧
      (mqttClientCallback st e).dir = st.dir ∧ (mqttClientCallback st e).rover = st.rover) ∧
    (∀ st e, MotorEvent e →
      ∃ d, (mqttClientCallback st e).rover.calls = st.rover.calls ++ [d]) ∧
    (∀ st msg, dispatch msg = .speed → (mqttClientCallback st (.recv msg)).dir = st.dir) ∧
    (∀ st msg, dispatch msg = .sensor → (mqttClientCallback st (.recv msg)).s = st.s ∧
      (mqttClientCallback st (.recv msg)).rover.speed = st.rover.speed) ∧
    (∀ st, (mqttClientCallback st .disconnect).s = st.s ∧
      (mqttClientCallback st .disconnect).rover.speed = st.rover.speed) ∧
    (∀ (st : CallbackState) events,
      (run mqttClientCallback { st with gpio0 := true } events).gpio0 = false ↔
        ∃ msg, (events.filterMap sensorDispatched).getLast? = some msg ∧
          ¬ PassesChecks msg "direction") := by
  refine ⟨?_, ?_, ?_, ?_, ?_, ?_⟩
  · intro st e quiet
    have refined := callback_drive st e
    rw [(command_none_iff e).mpr quiet] at refined
    exact ⟨congrArg Drive.s refined, congrArg Drive.dir refined, congrArg Drive.rover refined⟩
  · intro st e motor
    rw [callback_rover]
    cases asked : command e with
    | none => exact absurd motor ((command_none_iff e).mp asked)
    | some c =>
      cases c with
      | speed level =>
        refine ⟨st.dir, ?_⟩
        rw [performOption, Command.perform, moveRover_eq, changeSpeed_frame]
        rfl
      | direction d => exact ⟨d, by rw [performOption, Command.perform, moveRover_eq]; rfl⟩
      | halt => exact ⟨.stop, by rw [performOption, Command.perform, moveRover_eq]; rfl⟩
  · intro st msg route
    have unset : decodes (.recv msg) = none := by simp [decodes, sensorMessage, accepted, route]
    rw [callback_dir, unset]
    rfl
  · intro st msg route
    have unset : speedMessage msg = none := by simp [speedMessage, accepted, route]
    refine ⟨?_, ?_⟩
    · have refined := congrArg Drive.s (callback_drive st (.recv msg))
      simp only [drive, command, unset] at refined
      rw [refined]
      cases sensorMessage msg <;> rfl
    · have kept := callback_speed st (.recv msg)
      simpa [requests, unset] using kept
  · intro st
    exact ⟨rfl, callback_speed st .disconnect⟩
  · intro st events
    rw [register_after_run callback_gpio, lastWrite, gpioLevel_sensor, List.getLast?_map]
    cases (events.filterMap sensorDispatched).getLast? with
    | none => simp
    | some msg => simp [← acceptedValue_isSome_iff]

end RoverCallbackRuns
