import FirefighterRover.CallbackRuns
import FirefighterRover.PublishPath

/-!
What GenInfoTimerCallback may report wherever it interrupts the callback: the speed level and
the direction name it reads, encoded again, are the last group on the wire or the one the
running callback is sending.
-/
namespace RoverTelemetry
open CMemory EventRuns RoverQueues RoverState RoverCallback RoverCommands RoverMotorStream
  RoverCallbackRuns RoverCallbackSteps RoverMqttClient RoverSystem RoverPublishPath

def directionOf (name : List UInt8) : Option Direction :=
  [Direction.right, .left, .forward, .reverse, .stop, .none].find? fun d => directionName d = name

def speedOf (level : Int) : UInt8 := levelByte level.toNat

def sampleGroup (s : GeneralSample) : Option (List UInt8) :=
  (directionOf s.roverDir).map fun d => frameGroup d (speedOf s.speed)

theorem directionOf_name (d : Direction) : directionOf (directionName d) = some d := by
  cases d <;> decide

theorem speedOf_getSpeed {rover : Rover} (inTable : rover.speed ∈ speedTable) :
    speedOf (getSpeed rover) = rover.speed := by
  simp only [speedTable, List.mem_cons, List.not_mem_nil, or_false] at inTable
  rcases inTable with h | h | h | h | h | h <;> simp only [getSpeed, h] <;> rfl

def roverGroup (rover : Rover) : List UInt8 := frameGroup rover.dir rover.speed

theorem sampleGroup_rover {rover : Rover} (inTable : rover.speed ∈ speedTable) :
    sampleGroup ⟨getSpeed rover, getDirection rover⟩ = some (roverGroup rover) := by
  simp only [sampleGroup, getDirection, directionOf_name, speedOf_getSpeed inTable,
    Option.map_some]
  rfl

/-- The last group sent is that of the state of the motors, which keep the direction of the
    receive case unless a disconnect stopped them. -/
structure Coherent (cb : CallbackState) : Prop where
  wired : Wired cb
  last : ∀ g, (groups cb).getLast? = some g → g = roverGroup cb.rover
  dir : cb.rover.dir = cb.dir ∨ cb.rover.dir = .stop

theorem boot_coherent : Coherent .boot := by
  refine ⟨⟨[], boot_sent⟩, ?_, Or.inl rfl⟩
  intro g found
  exact absurd found (by simp [groups, CallbackState.boot, Rover.boot, SelfSyncFraming.blocks])

theorem getLast_toList {before : List (List UInt8)} {sent g : List UInt8}
    (found : (before ++ (some sent).toList).getLast? = some g) : g = sent := by
  simpa using found.symm

theorem callback_coherent (cb : CallbackState) (e : Event) (coherent : Coherent cb) :
    Coherent (mqttClientCallback cb e) := by
  obtain ⟨wired, last, dir⟩ := coherent
  have grown := groups_step wired e
  have moved := callback_rover cb e
  have decoded := callback_dir cb e
  refine ⟨callback_wired cb e wired, ?_, ?_⟩
  · intro g found
    rw [grown] at found
    rw [roverGroup, moved]
    unfold commandGroup at found
    rcases command_cases e with ⟨c, _, _⟩ | ⟨level, c, _, _, _⟩ | ⟨d, c, _, _⟩ | ⟨c, _, _, _⟩
    · simp only [c, Option.toList_none, List.append_nil] at found
      rw [c]
      exact last g found
    all_goals
      simp only [c] at found
      rw [c, getLast_toList found]
      simp only [performOption, Command.perform, moveRover_eq]
      rfl
  · rw [moved, decoded]
    rcases command_cases e with ⟨c, _, n⟩ | ⟨level, c, _, _, n⟩ | ⟨d, c, _, n⟩ | ⟨c, _, _, n⟩
    · rw [c, n]
      exact dir
    · rw [c, n]
      simp only [performOption, Command.perform, moveRover_eq]
      exact Or.inl rfl
    · rw [c, n]
      simp only [performOption, Command.perform, moveRover_eq]
      exact Or.inl rfl
    · rw [c]
      simp only [performOption, Command.perform, moveRover_eq]
      exact Or.inr trivial

theorem run_coherent (events : List Event) : Coherent (run mqttClientCallback .boot events) :=
  run_invariant Coherent callback_coherent events .boot boot_coherent

/-- In a callback entered in `entry` for `e`, the motors are in the state of the last group
    sent, or in that of the group of `e`. -/
structure Honest (entry : CallbackState) (e : Event) (frame : Frame) : Prop where
  inTable : frame.cb.rover.speed ∈ speedTable
  group : ∀ g, (groups frame.cb).getLast? = some g →
    g = roverGroup frame.cb.rover ∨ commandGroup entry e = some (roverGroup frame.cb.rover)

theorem coherent_honest {frame : Frame} (coherent : Coherent frame.cb) (entry : CallbackState)
    (e : Event) : Honest entry e frame := by
  obtain ⟨history, sent⟩ := coherent.wired
  exact ⟨sent.speed, fun g found => Or.inl (coherent.last g found)⟩

theorem same_rover_honest {entry : CallbackState} {e : Event} {before after : Frame}
    (honest : Honest entry e before) (same : after.cb.rover = before.cb.rover) :
    Honest entry e after := by
  obtain ⟨inTable, group⟩ := honest
  constructor
  · rw [same]
    exact inTable
  · simp only [groups, same] at group ⊢
    exact group

def Op.still : Op → Bool
  | .changeSpeed _ => false
  | .assignDir _ => false
  | .sendBaud => false
  | .send _ => false
  | _ => true

theorem exec_still (frame : Frame) {op : Op} (still : Op.still op = true) :
    (exec frame op).cb.rover = frame.cb.rover := by
  cases op with
  | changeSpeed s => cases still
  | assignDir d => cases still
  | sendBaud => cases still
  | send w => cases still
  | _ => rfl

theorem still_throughout {entry : CallbackState} {e : Event} {ops : List Op}
    (still : ∀ op ∈ ops, Op.still op = true) {frame : Frame} (honest : Honest entry e frame) :
    Throughout exec (Honest entry e) frame ops := by
  apply throughout_kept honest
  intro f op mem kept
  exact same_rover_honest kept (exec_still f (still op mem))

structure Committed (entry : CallbackState) (e : Event) (frame : Frame) : Prop where
  inTable : frame.cb.rover.speed ∈ speedTable
  group : commandGroup entry e = some (roverGroup frame.cb.rover)

theorem committed_honest {entry : CallbackState} {e : Event} {frame : Frame}
    (committed : Committed entry e frame) : Honest entry e frame :=
  ⟨committed.inTable, fun _ _ => Or.inr committed.group⟩

def Op.sends : Op → Bool
  | .sendBaud => true
  | .checksums _ => true
  | .send _ => true
  | _ => false

theorem exec_sends (frame : Frame) {op : Op} (sends : Op.sends op = true) :
    (exec frame op).cb.rover.dir = frame.cb.rover.dir ∧
    (exec frame op).cb.rover.speed = frame.cb.rover.speed := by
  cases op with
  | sendBaud => simp [exec, withRover, sendBaudOnce_eq]
  | checksums d => exact ⟨rfl, rfl⟩
  | send w => exact ⟨rfl, rfl⟩
  | _ => cases sends

theorem sends_committed {entry : CallbackState} {e : Event} {frame : Frame} {op : Op}
    (sends : Op.sends op = true) (committed : Committed entry e frame) :
    Committed entry e (exec frame op) := by
  obtain ⟨dir, speed⟩ := exec_sends frame sends
  obtain ⟨inTable, group⟩ := committed
  constructor
  · rw [speed]
    exact inTable
  · rw [group, roverGroup, roverGroup, dir, speed]

theorem moveRover_throughout {entry : CallbackState} {e : Event} {d : Direction} {frame : Frame}
    (honest : Honest entry e frame)
    (group : commandGroup entry e = some (frameGroup d frame.cb.rover.speed)) :
    Throughout exec (Honest entry e) frame (moveRoverOps d) := by
  have assigned : Committed entry e (exec frame (.assignDir d)) := ⟨honest.inTable, group⟩
  have committed : Throughout exec (Committed entry e)
      (exec frame (.assignDir d)) (.sendBaud :: .checksums d :: (writes d).map .send) := by
    apply throughout_kept assigned
    intro f op mem kept
    refine sends_committed ?_ kept
    simp only [List.mem_cons, List.mem_map] at mem
    rcases mem with rfl | rfl | ⟨w, _, rfl⟩ <;> rfl
  refine throughout_cons honest ?_
  exact fun pre inRun => committed_honest (committed pre inRun)

theorem command_of_speed {msg : RecvMsg} {value : RoverJsmn.JsmnTok}
    (route : dispatch msg = .speed) (checked : checkPayload msg (lit "speed") = .ok value) :
    command (.recv msg) = some (.speed (decodeSpeed (RoverJson.tokenValue msg.data value))) := by
  simp [command, speedMessage, accepted, acceptedValue, route, checked]

theorem command_of_sensor {msg : RecvMsg} {value : RoverJsmn.JsmnTok}
    (route : dispatch msg = .sensor) (checked : checkPayload msg (lit "direction") = .ok value) :
    command (.recv msg) =
      some (.direction (decodeDirection (RoverJson.tokenValue msg.data value))) := by
  simp [command, speedMessage, sensorMessage, accepted, acceptedValue, route, checked]

/-- Between change_speed and the assignment in moveRover. When the reported direction is not
    the handler's, the motors were stopped, and a stop group does not depend on the speed. -/
theorem changeSpeed_honest {entry : CallbackState} (coherent : Coherent entry) {e : Event}
    {level : Nat} (asked : command e = some (.speed level)) {frame : Frame}
    (changed : frame.cb.rover = changeSpeed level entry.rover) : Honest entry e frame := by
  obtain ⟨history, sent⟩ := coherent.wired
  have kept := changeSpeed_frame level entry.rover
  have dir : frame.cb.rover.dir = entry.rover.dir := by rw [changed, kept]
  have uart : groups frame.cb = groups entry := by rw [groups, groups, changed, kept]
  constructor
  · rw [changed]
    exact changeSpeed_in_table level sent.speed
  · intro g found
    rw [uart] at found
    have last := coherent.last g found
    rcases coherent.dir with same | stopped
    · right
      rw [commandGroup, asked, roverGroup, dir, same, changed]
    · left
      rw [last, roverGroup, roverGroup, dir, stopped]
      rfl

theorem speed_throughout {entry : CallbackState} (coherent : Coherent entry) {msg : RecvMsg}
    (route : dispatch msg = .speed) (sums : Checksums) :
    Throughout exec (Honest entry (.recv msg)) ⟨entry, sums⟩
      (speedOps msg entry.dir) := by
  have before : Honest entry (.recv msg) ⟨entry, sums⟩ := coherent_honest coherent entry _
  unfold speedOps
  cases checked : checkPayload msg (lit "speed") with
  | error r => cases r <;> exact still_throughout (by simp [Op.still]) before
  | ok value =>
    have asked := command_of_speed route checked
    refine throughout_cons before (throughout_cons (same_rover_honest before rfl)
      (throughout_cons (same_rover_honest before rfl) ?_))
    apply moveRover_throughout
    · exact changeSpeed_honest coherent asked rfl
    · rw [commandGroup, asked]
      rfl

theorem sensor_throughout {entry : CallbackState} (coherent : Coherent entry) {msg : RecvMsg}
    (route : dispatch msg = .sensor) (sums : Checksums) :
    Throughout exec (Honest entry (.recv msg)) ⟨entry, sums⟩ (sensorOps msg) := by
  have before : Honest entry (.recv msg) ⟨entry, sums⟩ := coherent_honest coherent entry _
  unfold sensorOps
  cases checked : checkPayload msg (lit "direction") with
  | error r => cases r <;> exact still_throughout (by simp [Op.still]) before
  | ok value =>
    have asked := command_of_sensor route checked
    refine throughout_cons before (throughout_cons (same_rover_honest before rfl)
      (throughout_cons (same_rover_honest before rfl) ?_))
    apply moveRover_throughout
    · exact same_rover_honest before rfl
    · rw [commandGroup, asked]
      rfl

theorem status_still (msg : RecvMsg) : ∀ op ∈ statusOps msg, Op.still op = true := by
  unfold statusOps
  split
  · simp [Op.still]
  · simp [Op.still]
  · split
    · simp [Op.still]
    · split <;> simp [Op.still]

theorem operation_still (op : Operation) : ∀ o ∈ operationOps op, Op.still o = true := by
  unfold operationOps
  repeat' split
  all_goals simp [Op.still]

theorem callback_throughout {entry : CallbackState} (coherent : Coherent entry) (e : Event)
    (sums : Checksums) :
    Throughout exec (Honest entry e) ⟨entry, sums⟩ (callbackOps entry.dir e) := by
  have before : Honest entry e ⟨entry, sums⟩ := coherent_honest coherent entry e
  cases e with
  | operation op => exact still_throughout (operation_still op) before
  | other => exact throughout_nil before
  | disconnect =>
    refine throughout_cons before ?_
    apply moveRover_throughout
    · exact same_rover_honest before rfl
    · rfl
  | recv msg =>
    simp only [callbackOps]
    cases route : dispatch msg with
    | arm => exact still_throughout (by simp [armOps, Op.still]) before
    | speed => exact speed_throughout coherent route sums
    | sensor => exact sensor_throughout coherent route sums
    | status => exact still_throughout (status_still msg) before
    | ignored => exact throughout_nil before

def runningGroup (σ : System) : Option (List UInt8) :=
  match σ.receiver with
  | .running entry event _ => commandGroup entry event
  | .idle => none

theorem sample_honest (acts : List Act) (g : List UInt8)
    (last : (groups (after acts).frame.cb).getLast? = some g) :
    sampleGroup (after acts).generalSample = some g ∨
    (sampleGroup (after acts).generalSample = runningGroup (after acts) ∧
      (runningGroup (after acts)).isSome = true) := by
  have at_step := always_at_step acts
  unfold AtStep at at_step
  cases now : (after acts).receiver with
  | idle =>
    simp only [now] at at_step
    have coherent : Coherent (after acts).frame.cb := by
      rw [at_step]
      exact run_coherent _
    have honest := coherent_honest coherent .boot .other
    left
    rw [coherent.last g last]
    exact sampleGroup_rover honest.inTable
  | running entry event rest =>
    simp only [now] at at_step
    obtain ⟨before, done, sums, _, entered, ops, reached⟩ := at_step
    have coherent : Coherent entry := by
      rw [entered]
      exact run_coherent before
    have prefixed : done <+: callbackOps entry.dir event := ⟨rest, ops.symm⟩
    have honest := callback_throughout coherent event sums done prefixed
    rw [← reached] at honest
    have sample := sampleGroup_rover honest.inTable
    rcases honest.group g last with sent | sending
    · left
      rw [sent]
      exact sample
    · right
      simp only [runningGroup, now, sending]
      exact ⟨sample, rfl⟩

/-- Telemetry never lies: every sample names the last group on the wire or the group the
    callback is sending, and what is published are samples, in the order they were taken. -/
theorem telemetry_honest (acts : List Act) :
    (∀ pre, pre ++ [.genInfoTimer] <+: acts → groups (after pre).frame.cb ≠ [] →
      ∃ g, sampleGroup (after pre).generalSample = some g ∧
        ((groups (after pre).frame.cb).getLast? = some g ∨ runningGroup (after pre) = some g)) ∧
    (∀ s, s ∈ (after acts).general ↔
      ∃ pre, pre ++ [.genInfoTimer] <+: acts ∧ s = (after pre).generalSample) ∧
    ∃ samples : List GeneralSample, samples.Sublist (after acts).general ∧
      (after acts).published.filterMap (onTopic directionTopic) =
        samples.map fun s => generalPayload s.speed s.roverDir := by
  refine ⟨?_, ?_, ?_⟩
  · intro pre _ some_sent
    obtain ⟨g, last⟩ := Option.isSome_iff_exists.mp (List.getLast?_isSome.mpr some_sent)
    rcases sample_honest pre g last with same | ⟨same, sending⟩
    · exact ⟨g, same, Or.inl last⟩
    · obtain ⟨g', found⟩ := Option.isSome_iff_exists.mp sending
      exact ⟨g', same.trans found, Or.inr found⟩
  · intro s
    rw [after, mem_log_iff samples_logged.2 rfl acts s]
    constructor
    · rintro ⟨pre, a, inRun, added⟩
      cases a with
      | genInfoTimer => exact ⟨pre, inRun, (Option.some.inj added).symm⟩
      | _ => cases added
    · rintro ⟨pre, inRun, rfl⟩
      exact ⟨pre, .genInfoTimer, inRun, rfl⟩
  · have inOrder := published_subsequence acts topics_distinct.2.2
    rw [offered, if_neg topics_distinct.2.1, if_pos rfl] at inOrder
    exact List.sublist_map_iff.mp inOrder

end RoverTelemetry
