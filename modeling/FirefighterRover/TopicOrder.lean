import Mathlib.Data.List.Forall2
import FirefighterRover.MessageBounds

/-!
Runs of received messages. MQTT gives no order across topics, and the two handlers share the
motors: the last accepted direction and the last accepted speed are all that is left of a run.
They are the same for the same delivered bytes, unless the last direction is an unfinished test.
-/
namespace RoverTopicOrder
open CMemory EventRuns RoverState RoverCallback RoverCommands RoverMotorStream RoverCallbackRuns
  RoverMessageBounds

def received (st : CallbackState) (msgs : List RecvMsg) : CallbackState :=
  run mqttClientCallback st (msgs.map .recv)

def acceptedSpeed (msgs : List RecvMsg) : List RecvMsg :=
  msgs.filter fun msg => (speedMessage msg).isSome

def acceptedSensor (msgs : List RecvMsg) : List RecvMsg :=
  msgs.filter fun msg => (sensorMessage msg).isSome

def lastAcceptedSpeed (msgs : List RecvMsg) : Option Nat :=
  (acceptedSpeed msgs).getLast?.bind speedMessage

def lastAcceptedDirection (msgs : List RecvMsg) : Option Direction :=
  (acceptedSensor msgs).getLast?.bind sensorMessage

def lastBytes (rover : Rover) : List UInt8 := rover.uart0.drop (rover.uart0.length - 12)

def lastCommand (st : CallbackState) (msgs : List RecvMsg) : List UInt8 :=
  frameGroup ((lastAcceptedDirection msgs).getD st.dir)
    (((lastAcceptedSpeed msgs).map levelByte).getD st.rover.speed)

theorem moveRover_lastBytes (d : Direction) (rover : Rover) :
    lastBytes (moveRover d rover) = frameGroup d rover.speed := by
  rw [moveRover_eq, lastBytes]
  simp only [← List.append_assoc]
  rw [List.length_append, frameGroup_length, Nat.add_sub_cancel, List.drop_left]

theorem filterMap_last {Value : Type} (read : RecvMsg → Option Value) (msgs : List RecvMsg) :
    (msgs.filterMap read).getLast? =
      (msgs.filter fun msg => (read msg).isSome).getLast?.bind read := by
  induction msgs using List.reverseRecOn with
  | nil => rfl
  | append_singleton msgs msg ih =>
    rw [List.filterMap_append, List.filter_append]
    cases value : read msg with
    | none => simpa [value] using ih
    | some v => simp [value]

theorem received_dir (st : CallbackState) (msgs : List RecvMsg) :
    (received st msgs).dir = (lastAcceptedDirection msgs).getD st.dir := by
  have decoded : (msgs.map Event.recv).filterMap decodes = msgs.filterMap sensorMessage :=
    List.filterMap_map
  rw [received, register_after_run callback_dir, lastWrite, decoded, filterMap_last]
  rfl

theorem received_speed (st : CallbackState) (msgs : List RecvMsg) :
    (received st msgs).rover.speed =
      ((lastAcceptedSpeed msgs).map levelByte).getD st.rover.speed := by
  have asked : (msgs.map Event.recv).filterMap (fun e => (requests e).map levelByte) =
      (msgs.filterMap speedMessage).map levelByte := by
    rw [List.filterMap_map, List.map_filterMap]
    rfl
  have written := register_after_run callback_speed st (msgs.map .recv)
  rw [lastWrite, asked, List.getLast?_map, filterMap_last] at written
  exact written

theorem recv_settles (st : CallbackState) (msg : RecvMsg) :
    let after := mqttClientCallback st (.recv msg)
    (speedMessage msg = none ∧ sensorMessage msg = none ∧ after.dir = st.dir ∧
      after.rover = st.rover) ∨
    (((speedMessage msg).isSome = true ∨ (sensorMessage msg).isSome = true) ∧
      after.rover.dir = after.dir ∧
      lastBytes after.rover = frameGroup after.dir after.rover.speed) := by
  intro after
  have refined : drive after = _ := callback_drive st (.recv msg)
  have dir := congrArg Drive.dir refined
  have rover := congrArg Drive.rover refined
  simp only [drive] at dir rover
  rcases command_cases (.recv msg) with ⟨c, r, n⟩ | ⟨level, c, _, r, _⟩ | ⟨d, c, _, n⟩ | ⟨_, e, _⟩
  · rw [c] at dir rover
    exact Or.inl ⟨r, n, dir, rover⟩
  · rw [c] at dir rover
    simp only [performOption, Command.perform] at dir rover
    refine Or.inr ⟨Or.inl (Option.isSome_of_eq_some r), ?_, ?_⟩
    · rw [dir, rover, moveRover_eq]
    · rw [dir, rover, moveRover_lastBytes, moveRover_eq]
  · rw [c] at dir rover
    simp only [performOption, Command.perform] at dir rover
    refine Or.inr ⟨Or.inr (Option.isSome_of_eq_some n), ?_, ?_⟩
    · rw [dir, rover, moveRover_eq]
    · rw [dir, rover, moveRover_lastBytes, moveRover_eq]
  · cases e

theorem received_settle (st : CallbackState) (msgs : List RecvMsg) :
    let after := received st msgs
    (acceptedSpeed msgs = [] ∧ acceptedSensor msgs = [] ∧ after.rover = st.rover) ∨
    ((acceptedSpeed msgs ≠ [] ∨ acceptedSensor msgs ≠ []) ∧ after.rover.dir = after.dir ∧
      lastBytes after.rover = frameGroup after.dir after.rover.speed) := by
  induction msgs using List.reverseRecOn with
  | nil => exact Or.inl ⟨rfl, rfl, rfl⟩
  | append_singleton msgs msg ih =>
    have step : received st (msgs ++ [msg]) = mqttClientCallback (received st msgs) (.recv msg) := by
      rw [received, List.map_append, List.map_singleton, run_concat]
      rfl
    simp only [step, acceptedSpeed, acceptedSensor, List.filter_append] at ih ⊢
    rcases recv_settles (received st msgs) msg with ⟨r, n, dir, rover⟩ | ⟨some, settled⟩
    · rw [dir, rover]
      simpa [r, n] using ih
    · refine Or.inr ⟨?_, settled⟩
      rcases some with r | n
      · simp [r]
      · simp [n]

/-- The same accepted messages on each of the two topics, byte for byte and in order. -/
structure SameAccepted (left right : List RecvMsg) : Prop where
  speed : List.Forall₂ SameMessage (acceptedSpeed left) (acceptedSpeed right)
  sensor : List.Forall₂ SameMessage (acceptedSensor left) (acceptedSensor right)

structure SettlesAlike (st : CallbackState) (left right : List RecvMsg) : Prop where
  dir : (received st left).rover.dir = (received st right).rover.dir
  speed : (received st left).rover.speed = (received st right).rover.speed
  getSpeed : RoverState.getSpeed (received st left).rover =
    RoverState.getSpeed (received st right).rover
  getDirection : RoverState.getDirection (received st left).rover =
    RoverState.getDirection (received st right).rover
  lastGroup : acceptedSpeed left ≠ [] ∨ acceptedSensor left ≠ [] →
    lastBytes (received st left).rover = lastBytes (received st right).rover ∧
      lastBytes (received st left).rover = lastCommand st left

def LastDirectionDangles (msgs : List RecvMsg) : Prop :=
  ∃ msg, (acceptedSensor msgs).getLast? = some msg ∧ DirectionDangles msg

theorem settlesAlike_of_last (st : CallbackState) {left right : List RecvMsg}
    (noSpeed : acceptedSpeed left = [] ↔ acceptedSpeed right = [])
    (noSensor : acceptedSensor left = [] ↔ acceptedSensor right = [])
    (speeds : lastAcceptedSpeed left = lastAcceptedSpeed right)
    (directions : lastAcceptedDirection left = lastAcceptedDirection right) :
    SettlesAlike st left right := by
  have handler : (received st left).dir = (received st right).dir := by
    rw [received_dir, received_dir, directions]
  have speed : (received st left).rover.speed = (received st right).rover.speed := by
    rw [received_speed, received_speed, speeds]
  have settledLeft := received_settle st left
  have settledRight := received_settle st right
  rw [ne_eq, ne_eq, ← noSpeed, ← noSensor] at settledRight
  rcases settledLeft with ⟨n, m, keptLeft⟩ | ⟨some, dirLeft, bytesLeft⟩
  · rcases settledRight with ⟨_, _, keptRight⟩ | ⟨some, _⟩
    · have same : (received st left).rover = (received st right).rover :=
        keptLeft.trans keptRight.symm
      refine ⟨congrArg _ same, speed, congrArg _ same, congrArg _ same, ?_⟩
      rintro (some | some)
      · exact absurd n some
      · exact absurd m some
    · simp [n, m] at some
  · rcases settledRight with ⟨n, m, _⟩ | ⟨_, dirRight, bytesRight⟩
    · simp [n, m] at some
    · have dir : (received st left).rover.dir = (received st right).rover.dir :=
        dirLeft.trans (handler.trans dirRight.symm)
      refine ⟨dir, speed, ?_, ?_, ?_⟩
      · rw [RoverState.getSpeed, RoverState.getSpeed, speed]
      · rw [RoverState.getDirection, RoverState.getDirection, dir]
      · intro _
        constructor
        · rw [bytesLeft, bytesRight, handler, speed]
        · rw [bytesLeft, received_dir, received_speed, lastCommand]

theorem forall₂_last {R : RecvMsg → RecvMsg → Prop} {left right : List RecvMsg}
    (related : List.Forall₂ R left right) :
    (left = [] ∧ right = []) ∨
      ∃ a b, left.getLast? = some a ∧ right.getLast? = some b ∧ R a b := by
  have reversed := List.forall₂_reverse_iff.mpr related
  rw [← List.head?_reverse, ← List.head?_reverse, ← @List.reverse_eq_nil_iff _ left,
    ← @List.reverse_eq_nil_iff _ right]
  generalize left.reverse = left at reversed ⊢
  generalize right.reverse = right at reversed ⊢
  cases reversed with
  | nil => exact Or.inl ⟨rfl, rfl⟩
  | cons ends _ => exact Or.inr ⟨_, _, rfl, rfl, ends⟩

theorem last_congr {Value : Type} {read : RecvMsg → Option Value} {left right : List RecvMsg}
    (related : List.Forall₂ SameMessage left right)
    (agree : ∀ msg other, left.getLast? = some msg → SameMessage msg other →
      read msg = read other) :
    (left = [] ↔ right = []) ∧ left.getLast?.bind read = right.getLast?.bind read := by
  rcases forall₂_last related with ⟨none, none'⟩ | ⟨msg, other, last, last', alike⟩
  · rw [none, none']
    exact ⟨Iff.rfl, rfl⟩
  · rw [last, last', Option.bind_some, Option.bind_some, agree msg other last alike]
    refine ⟨iff_of_false ?_ ?_, rfl⟩
    · rintro empty
      simp [empty] at last
    · rintro empty
      simp [empty] at last'

theorem lastSpeed_congr {left right : List RecvMsg} (same : SameAccepted left right) :
    (acceptedSpeed left = [] ↔ acceptedSpeed right = []) ∧
      lastAcceptedSpeed left = lastAcceptedSpeed right :=
  last_congr same.speed fun _ _ _ alike => speedMessage_congr alike

theorem lastDirection_congr {left right : List RecvMsg} (same : SameAccepted left right)
    (settled : ¬ LastDirectionDangles left) :
    (acceptedSensor left = [] ↔ acceptedSensor right = []) ∧
      lastAcceptedDirection left = lastAcceptedDirection right := by
  apply last_congr same.sensor
  intro msg other last alike
  have fixed : ¬ DirectionDangles msg := fun dangles => settled ⟨msg, last, dangles⟩
  exact sensorMessage_congr alike fixed

theorem sameMessage_refl (msg : RecvMsg) : SameMessage msg msg :=
  ⟨rfl, fun _ _ => rfl, rfl, fun _ _ => rfl⟩

theorem last_sensor {msgs : List RecvMsg} {msg : RecvMsg}
    (last : (acceptedSensor msgs).getLast? = some msg) :
    ∃ pre post, msgs = pre ++ msg :: post ∧ acceptedSensor post = [] := by
  obtain ⟨earlier, split⟩ := List.getLast?_eq_some_iff.mp last
  obtain ⟨front, back, rfl, _, kept⟩ := List.filter_eq_append_iff.mp split
  obtain ⟨between, post, rfl, _, _, none⟩ := List.filter_eq_cons_iff.mp kept
  exact ⟨front ++ between, post, (List.append_assoc front between _).symm, none⟩

section
variable {pre post : List RecvMsg} {msg other : RecvMsg} {d : Direction}

theorem sameAccepted_replaced (same : SameMessage msg other) (here : dispatch msg = .sensor)
    (reads : (sensorMessage msg).isSome = true) (reads' : (sensorMessage other).isSome = true) :
    SameAccepted (pre ++ msg :: post) (pre ++ other :: post) := by
  have itself (msgs : List RecvMsg) : List.Forall₂ SameMessage msgs msgs :=
    List.forall₂_same.mpr fun msg _ => sameMessage_refl msg
  have unread : speedMessage msg = none := by simp [speedMessage, accepted, here]
  have unread' : speedMessage other = none := (speedMessage_congr same).symm.trans unread
  constructor
  · simp only [acceptedSpeed, List.filter_append, List.filter_cons, unread, unread']
    exact itself _
  · simp only [acceptedSensor, List.filter_append, List.filter_cons, reads, reads', if_true]
    exact List.rel_append (itself _) (List.Forall₂.cons same (itself _))

theorem replaced_dir (st : CallbackState) (none : acceptedSensor post = [])
    (decoded : sensorMessage other = some d) :
    (received st (pre ++ other :: post)).rover.dir = d := by
  have last : (acceptedSensor (pre ++ other :: post)).getLast? = some other := by
    rw [acceptedSensor] at none
    simp [acceptedSensor, List.filter_append, decoded, none]
  rcases received_settle st (pre ++ other :: post) with ⟨_, empty, _⟩ | ⟨_, dir, _⟩
  · rw [empty] at last
    cases last
  · rw [dir, received_dir, lastAcceptedDirection, last, Option.bind_some, decoded]
    rfl

end

/-- However the topics and other messages are interleaved, the final command is that of the
    last accepted direction and the last accepted speed, for exactly the runs whose last
    direction is not decoded from bytes behind its payload. -/
theorem topics_confluent_iff (st : CallbackState) (left : List RecvMsg) :
    (∀ right, SameAccepted left right → SettlesAlike st left right) ↔
      ¬ LastDirectionDangles left := by
  constructor
  · rintro alike ⟨msg, last, here, tok, accepted, m, listed, dangling⟩
    obtain ⟨pre, post, rfl, none⟩ := last_sensor last
    have image (text : List UInt8) : SettlesAlike st (pre ++ msg :: post)
        (pre ++ behind msg tok.start.toNat text :: post) := by
      apply alike
      apply sameAccepted_replaced (behind_same msg tok.start.toNat text) here
      · exact (List.mem_filter.mp (List.mem_of_getLast? last)).2
      · rw [sensorMessage_behind here accepted]
        rfl
    have moves := sensorMessage_behind here accepted (lit m.test)
    have stops := sensorMessage_behind here accepted []
    rw [behind_completes accepted listed dangling] at moves
    rw [behind_stops accepted listed dangling] at stops
    have both := (image (lit m.test)).dir.symm.trans (image []).dir
    rw [replaced_dir st none moves, replaced_dir st none stops] at both
    exact moving_not_stop m listed both
  · intro settled right same
    obtain ⟨noSpeed, speeds⟩ := lastSpeed_congr same
    obtain ⟨noSensor, directions⟩ := lastDirection_congr same settled
    exact settlesAlike_of_last st noSpeed noSensor speeds directions

/-- A speed and the direction for, the second time in the other order and with the rest of
    the word behind the payload: first the rover stops, then it drives forward. -/
theorem unfinished_forward_diverges :
    ¬ ∀ events left right, SameAccepted left right →
      SettlesAlike (run mqttClientCallback .boot events) left right := by
  intro every
  let speed := message "firefighter/rover/speed" "\x7b\"speed\": 3\x7d"
  let cut := message "firefighter/sensor" "\x7b\"direction\"\x7dfor"
  let full := behind cut 13 (lit "forward")
  have asked : (speedMessage speed).isSome = true ∧ (speedMessage cut).isSome = false ∧
      (speedMessage full).isSome = false := by decide
  have decoded : (sensorMessage speed).isSome = false ∧ (sensorMessage cut).isSome = true ∧
      (sensorMessage full).isSome = true := by decide
  have same : SameAccepted [speed, cut] [full, speed] := by
    constructor
    · simpa [acceptedSpeed, asked] using sameMessage_refl speed
    · simpa [acceptedSensor, decoded] using behind_same cut 13 (lit "forward")
  have alike := (every [] [speed, cut] [full, speed] same).dir
  revert alike
  decide

end RoverTopicOrder
