import FirefighterRover.Commands

/-!
The byte stream on UART0. Over any run it is the baud byte followed by one group of three
frames for each call of moveRover; the frames carry their own address flag, so a receiver
resynchronises from any offset.
-/
namespace RoverMotorStream
open CMemory SelfSyncFraming EventRuns RoverState RoverCallback RoverCommands

/-- The stream so far is the encoding of a history of (direction, speed byte) pairs. -/
structure Sent (rover : Rover) (history : List (Direction × UInt8)) : Prop where
  calls : rover.calls = history.map Prod.fst
  speed : rover.speed ∈ speedTable
  speeds : ∀ h ∈ history, h.2 ∈ speedTable
  sendBaud : rover.sendBaud = history.isEmpty
  stream : rover.uart0 = (if history.isEmpty then [] else [baud]) ++
    (history.map fun h => frameGroup h.1 h.2).flatten

theorem boot_sent : Sent Rover.boot [] :=
  ⟨rfl, by decide, by simp, rfl, rfl⟩

theorem changeSpeed_sent {rover : Rover} {history : List (Direction × UInt8)}
    (sent : Sent rover history) (s : Nat) : Sent (changeSpeed s rover) history := by
  have inTable := changeSpeed_in_table s sent.speed
  rw [changeSpeed_frame] at inTable ⊢
  exact ⟨sent.calls, inTable, sent.speeds, sent.sendBaud, sent.stream⟩

theorem moveRover_sent {rover : Rover} {history : List (Direction × UInt8)}
    (sent : Sent rover history) (d : Direction) :
    Sent (moveRover d rover) (history ++ [(d, rover.speed)]) := by
  rw [moveRover_eq]
  refine ⟨?_, sent.speed, ?_, ?_, ?_⟩
  · simp [sent.calls]
  · intro h mem
    rcases List.mem_append.mp mem with old | new
    · exact sent.speeds h old
    · rw [List.mem_singleton.mp new]
      exact sent.speed
  · simp
  · have bytes := sent.stream
    have pending := sent.sendBaud
    cases history with
    | nil => simp_all [baudBytes]
    | cons h history => simp_all [baudBytes]

theorem perform_sent {v : Drive} {history : List (Direction × UInt8)}
    (sent : Sent v.rover history) (c : Command) :
    ∃ more, Sent (c.perform v).rover (history ++ more) := by
  cases c with
  | speed level => exact ⟨_, moveRover_sent (changeSpeed_sent sent level) v.dir⟩
  | direction d => exact ⟨_, moveRover_sent sent d⟩
  | halt => exact ⟨_, moveRover_sent sent .stop⟩

def Wired (st : CallbackState) : Prop := ∃ history, Sent st.rover history

theorem callback_wired (st : CallbackState) (e : Event) (wired : Wired st) :
    Wired (mqttClientCallback st e) := by
  obtain ⟨history, sent⟩ := wired
  simp only [Wired, callback_rover]
  cases command e with
  | none => exact ⟨history, sent⟩
  | some c =>
    obtain ⟨more, next⟩ := perform_sent (v := drive st) sent c
    exact ⟨history ++ more, next⟩

theorem run_wired (events : List Event) : Wired (run mqttClientCallback .boot events) :=
  run_invariant Wired callback_wired events .boot ⟨[], boot_sent⟩

def frame (motor cmd data : UInt8) : List UInt8 :=
  [motor, cmd, data, (checksum motor cmd.toUInt32 data).toUInt8]

def groupFrames (d : Direction) (speed : UInt8) : List (List UInt8) :=
  match d with
  | .forward => [frame motor1 0 0, frame motor2 1 speed, frame motor3 0 speed]
  | .left => [frame motor1 0 speed, frame motor2 0 speed, frame motor3 0 speed]
  | .right => [frame motor1 1 speed, frame motor2 1 speed, frame motor3 1 speed]
  | .reverse => [frame motor1 0 0, frame motor2 0 speed, frame motor3 1 speed]
  | .stop => [frame motor1 0 0, frame motor2 0 0, frame motor3 0 0]
  | .none => [frame motor1 0 0, frame motor2 0 0, frame motor3 0 0]

theorem frameGroup_frames (d : Direction) (speed : UInt8) :
    frameGroup d speed = (groupFrames d speed).flatten := by
  cases d <;> rfl

def ValidFrame (addr : UInt8) (f : List UInt8) : Prop :=
  ∃ cmd data chk : UInt8, f = [addr, cmd, data, chk] ∧ (cmd = 0 ∨ cmd = 1) ∧ data < 0x80 ∧
    chk.toNat = (addr.toNat + cmd.toNat + data.toNat) % 128

def ValidGroup (frames : List (List UInt8)) : Prop :=
  ∃ first second third, frames = [first, second, third] ∧
    ValidFrame 0x80 first ∧ ValidFrame 0x81 second ∧ ValidFrame 0x82 third

def isAddress (b : UInt8) : Bool := 0x80 ≤ b

theorem checksum_toNat (motor cmd data : UInt8) :
    (checksum motor cmd.toUInt32 data).toUInt8.toNat =
      (motor.toNat + cmd.toNat + data.toNat) % 128 := by
  have hm := motor.toNat_lt
  have hc := cmd.toNat_lt
  have hd := data.toNat_lt
  have mask (n : Nat) : n &&& 127 = n % 128 := Nat.and_two_pow_sub_one_eq_mod n 7
  simp only [checksum, checkSumMask, UInt32.toNat_toUInt8, UInt32.toNat_and, UInt32.toNat_add,
    UInt8.toNat_toUInt32, UInt32.toNat_ofNat, mask]
  omega

theorem frame_valid (motor : UInt8) {cmd data : UInt8} (command : cmd = 0 ∨ cmd = 1)
    (low : data < 0x80) : ValidFrame motor (frame motor cmd data) :=
  ⟨cmd, data, _, rfl, command, low, checksum_toNat motor cmd data⟩

theorem speedTable_low : ∀ b ∈ speedTable, b < 0x80 := by
  intro b mem
  simp only [speedTable, List.mem_cons, List.not_mem_nil, or_false] at mem
  rcases mem with rfl | rfl | rfl | rfl | rfl | rfl <;> decide

theorem group_valid (d : Direction) {speed : UInt8} (inTable : speed ∈ speedTable) :
    ValidGroup (groupFrames d speed) := by
  have low := speedTable_low speed inTable
  have zero : (0 : UInt8) < 0x80 := by decide
  cases d with
  | forward => exact ⟨_, _, _, rfl, frame_valid _ (.inl rfl) zero,
      frame_valid _ (.inr rfl) low, frame_valid _ (.inl rfl) low⟩
  | left => exact ⟨_, _, _, rfl, frame_valid _ (.inl rfl) low,
      frame_valid _ (.inl rfl) low, frame_valid _ (.inl rfl) low⟩
  | right => exact ⟨_, _, _, rfl, frame_valid _ (.inr rfl) low,
      frame_valid _ (.inr rfl) low, frame_valid _ (.inr rfl) low⟩
  | reverse => exact ⟨_, _, _, rfl, frame_valid _ (.inl rfl) zero,
      frame_valid _ (.inl rfl) low, frame_valid _ (.inr rfl) low⟩
  | stop => exact ⟨_, _, _, rfl, frame_valid _ (.inl rfl) zero,
      frame_valid _ (.inl rfl) zero, frame_valid _ (.inl rfl) zero⟩
  | none => exact ⟨_, _, _, rfl, frame_valid _ (.inl rfl) zero,
      frame_valid _ (.inl rfl) zero, frame_valid _ (.inl rfl) zero⟩

theorem valid_frame_framed {addr : UInt8} {f : List UInt8} (flagged : isAddress addr = true)
    (valid : ValidFrame addr f) : IsFrame isAddress 4 f := by
  obtain ⟨cmd, data, chk, rfl, command, low, sum⟩ := valid
  refine ⟨rfl, addr, [cmd, data, chk], rfl, flagged, ?_⟩
  have unflagged (b : UInt8) (h : b.toNat < 128) : isAddress b = false := by
    simp only [isAddress, decide_eq_false_iff_not, UInt8.le_iff_toNat_le]
    exact Nat.not_le.mpr h
  intro x mem
  simp only [List.mem_cons, List.not_mem_nil, or_false] at mem
  apply unflagged
  rcases mem with rfl | rfl | rfl
  · rcases command with rfl | rfl <;> decide
  · exact UInt8.lt_iff_toNat_lt.mp low
  · rw [sum]
    exact Nat.mod_lt _ (by decide)

theorem valid_group_framed {frames : List (List UInt8)} (valid : ValidGroup frames) :
    ∀ f ∈ frames, IsFrame isAddress 4 f := by
  obtain ⟨first, second, third, rfl, h₁, h₂, h₃⟩ := valid
  intro f mem
  simp only [List.mem_cons, List.not_mem_nil, or_false] at mem
  rcases mem with rfl | rfl | rfl
  · exact valid_frame_framed (by decide) h₁
  · exact valid_frame_framed (by decide) h₂
  · exact valid_frame_framed (by decide) h₃

theorem history_flatten (history : List (Direction × UInt8)) :
    (history.map fun h => frameGroup h.1 h.2).flatten =
      (history.map fun h => groupFrames h.1 h.2).flatten.flatten := by
  induction history with
  | nil => rfl
  | cons h history ih =>
    rw [List.map_cons, List.map_cons, List.flatten_cons, List.flatten_cons, List.flatten_append,
      ih, frameGroup_frames]

/-- The stream over any run of the callback: empty, or the baud byte and one valid group
    for each call of moveRover, with address bytes at frame starts only, and with every
    later frame recovered from any offset behind the baud byte. -/
theorem motor_stream_framed (events : List Event) :
    let rover := (run mqttClientCallback .boot events).rover
    (rover.uart0 = [] ∧ rover.calls = []) ∨
    ∃ groups : List (List (List UInt8)),
      rover.uart0 = 0xaa :: groups.flatten.flatten ∧
      (∀ g ∈ groups, ValidGroup g) ∧
      groups.length = rover.calls.length ∧
      (∀ (i : Nat) (b : UInt8), rover.uart0[i + 1]? = some b → (0x80 ≤ b ↔ i % 4 = 0)) ∧
      ∀ offset : Nat, decode isAddress 4 [] (rover.uart0.drop (offset + 1)) =
        groups.flatten.drop ((offset + 3) / 4) := by
  intro rover
  obtain ⟨history, sent⟩ : Wired _ := run_wired events
  change Sent rover history at sent
  by_cases empty : history.isEmpty = true
  · obtain rfl := List.isEmpty_iff.mp empty
    exact Or.inl ⟨sent.stream, sent.calls⟩
  · have started : history.isEmpty = false := Bool.not_eq_true _ ▸ empty
    let groups := history.map fun h => groupFrames h.1 h.2
    have stream : rover.uart0 = 0xaa :: groups.flatten.flatten := by
      rw [sent.stream, started, history_flatten]
      rfl
    have valid : ∀ g ∈ groups, ValidGroup g := by
      intro g mem
      obtain ⟨h, inHistory, rfl⟩ := List.mem_map.mp mem
      exact group_valid h.1 (sent.speeds h inHistory)
    have framed : ∀ f ∈ groups.flatten, IsFrame isAddress 4 f := by
      intro f mem
      obtain ⟨g, inGroups, inGroup⟩ := List.mem_flatten.mp mem
      exact valid_group_framed (valid g inGroups) f inGroup
    refine Or.inr ⟨groups, stream, valid, ?_, ?_, ?_⟩
    · rw [sent.calls, List.length_map, List.length_map]
    · intro i b found
      rw [stream, List.getElem?_cons_succ] at found
      rw [← flagged_iff_frame_start groups.flatten framed i b found]
      simp [isAddress]
    · intro offset
      rw [stream, List.drop_succ_cons]
      exact decode_drop (by decide) groups.flatten framed offset

def groups (st : CallbackState) : List (List UInt8) := blocks 12 (st.rover.uart0.drop 1)

def groupsSent (st : CallbackState) (events : List Event) : List (List UInt8) :=
  (groups (run mqttClientCallback st events)).drop (groups st).length

def commandGroup (st : CallbackState) (e : Event) : Option (List UInt8) :=
  match command e with
  | none => none
  | some (.speed level) => some (frameGroup st.dir (changeSpeed level st.rover).speed)
  | some (.direction d) => some (frameGroup d st.rover.speed)
  | some .halt => some (frameGroup .stop st.rover.speed)

theorem groups_of_sent {st : CallbackState} {history : List (Direction × UInt8)}
    (sent : Sent st.rover history) : groups st = history.map fun h => frameGroup h.1 h.2 := by
  have whole : ∀ g ∈ history.map fun h => frameGroup h.1 h.2, g.length = 12 := by
    intro g mem
    obtain ⟨h, _, rfl⟩ := List.mem_map.mp mem
    exact frameGroup_length h.1 h.2
  have body : st.rover.uart0.drop 1 = (history.map fun h => frameGroup h.1 h.2).flatten ++ [] := by
    rw [sent.stream]
    cases history <;> simp
  rw [groups, body, blocks_flatten (by decide) _ whole, blocks_short (by decide), List.append_nil]

theorem groups_step {st : CallbackState} (wired : Wired st) (e : Event) :
    groups (mqttClientCallback st e) = groups st ++ (commandGroup st e).toList := by
  obtain ⟨history, sent⟩ := wired
  have sentAfter (more : List (Direction × UInt8))
      (next : Sent (performOption (command e) (drive st)).rover (history ++ more)) :
      groups (mqttClientCallback st e) =
        groups st ++ more.map fun h => frameGroup h.1 h.2 := by
    rw [← callback_rover] at next
    rw [groups_of_sent sent, groups_of_sent next, List.map_append]
  unfold commandGroup
  cases asked : command e with
  | none => exact sentAfter [] (by rw [asked, List.append_nil]; exact sent)
  | some c =>
    rw [asked] at sentAfter
    cases c with
    | speed level => exact sentAfter _ (moveRover_sent (changeSpeed_sent sent level) st.dir)
    | direction d => exact sentAfter _ (moveRover_sent sent d)
    | halt => exact sentAfter _ (moveRover_sent sent .stop)

theorem groupsSent_nil (st : CallbackState) : groupsSent st [] = [] := by
  simp [groupsSent]

theorem groups_run {st : CallbackState} (wired : Wired st) (events : List Event) :
    groups (run mqttClientCallback st events) = groups st ++ groupsSent st events := by
  induction events using List.reverseRecOn with
  | nil => rw [groupsSent_nil, run_nil, List.append_nil]
  | append_singleton events e ih =>
    have reached : Wired (run mqttClientCallback st events) :=
      run_invariant Wired callback_wired events st wired
    have grown := groups_step reached e
    rw [ih, List.append_assoc] at grown
    rw [groupsSent, run_concat, grown, List.drop_left]

theorem groupsSent_concat {st : CallbackState} (wired : Wired st) (events : List Event)
    (e : Event) : groupsSent st (events ++ [e]) =
      groupsSent st events ++ (commandGroup (run mqttClientCallback st events) e).toList := by
  have reached : Wired (run mqttClientCallback st events) :=
    run_invariant Wired callback_wired events st wired
  have whole := groups_run wired (events ++ [e])
  rw [run_concat, groups_step reached, groups_run wired, List.append_assoc] at whole
  exact (List.append_cancel_left whole).symm

theorem mem_groupsSent {st : CallbackState} (wired : Wired st) (events : List Event)
    (g : List UInt8) : g ∈ groupsSent st events ↔
      ∃ before e after, events = before ++ e :: after ∧
        commandGroup (run mqttClientCallback st before) e = some g := by
  induction events using List.reverseRecOn with
  | nil => simp [groupsSent_nil]
  | append_singleton events last ih =>
    rw [groupsSent_concat wired, List.mem_append, ih, Option.mem_toList]
    constructor
    · rintro (⟨before, e, after, rfl, sent⟩ | sent)
      · exact ⟨before, e, after ++ [last], by simp, sent⟩
      · exact ⟨events, last, [], rfl, sent⟩
    · rintro ⟨before, e, after, split, sent⟩
      rcases after.eq_nil_or_concat with rfl | ⟨after, e', rfl⟩
      · obtain ⟨rfl, same⟩ := List.append_inj' split rfl
        simp only [List.cons.injEq, and_true] at same
        exact Or.inr (same ▸ sent)
      · rw [List.concat_eq_append, ← List.cons_append, ← List.append_assoc] at split
        obtain ⟨rfl, _⟩ := List.append_inj' split rfl
        exact Or.inl ⟨before, e, after, rfl, sent⟩

end RoverMotorStream
