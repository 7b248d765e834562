import FirefighterRover.NetworkIf

/-!
The events in the trace of the connecting task, and what its status word keeps of them: of
the connection since the call of sl_WlanConnect, and of everything else since the start.
-/
namespace RoverConnectionEvents
open EventRuns FlagWord RoverNetworkIf

def event? : Occurrence → Option NetEvent
  | .event e => some e
  | _ => none

def isWlanConnect : Occurrence → Bool
  | .wlanConnect _ _ => true
  | _ => false

def eventsOf (trace : List Occurrence) : List NetEvent := trace.filterMap event?

def sinceConnect (s : Task) : List Occurrence := since isWlanConnect s.trace

theorem eventsOf_append (trace more : List Occurrence) :
    eventsOf (trace ++ more) = eventsOf trace ++ eventsOf more := List.filterMap_append

theorem eventsOf_map (events : List NetEvent) :
    eventsOf (events.map Occurrence.event) = events := by
  rw [eventsOf, List.filterMap_map]
  exact List.filterMap_some

theorem eventsOf_silent {o : Occurrence} (silent : event? o = none) : eventsOf [o] = [] := by
  rw [eventsOf, List.filterMap_cons_none silent, List.filterMap_nil]

theorem deliver_all (events : List NetEvent) : ∀ s : Task, run Task.deliver s events =
    ⟨run handle s.status events, s.slept, s.trace ++ events.map Occurrence.event⟩ := by
  induction events with
  | nil => intro s; simp
  | cons e events ih =>
    intro s
    rw [run_cons, ih, Task.deliver]
    simp

theorem sleep_eq (sl : SimpleLink) (s : Task) : s.sleep sl =
    ⟨run handle s.status (sl.schedule s.slept), s.slept + 1,
      s.trace ++ (sl.schedule s.slept).map Occurrence.event⟩ := by
  rw [Task.sleep, deliver_all]

theorem sleep_events (sl : SimpleLink) (s : Task) :
    eventsOf (s.sleep sl).trace = eventsOf s.trace ++ sl.schedule s.slept := by
  rw [sleep_eq, eventsOf_append, eventsOf_map]

theorem sleep_since (sl : SimpleLink) (s : Task) : sinceConnect (s.sleep sl) =
    sinceConnect s ++ (sl.schedule s.slept).map Occurrence.event := by
  rw [sleep_eq]
  apply since_append
  intro o member
  obtain ⟨e, _, rfl⟩ := List.mem_map.mp member
  rfl

theorem note_events (s : Task) {o : Occurrence} (silent : event? o = none) :
    eventsOf (s.note o).trace = eventsOf s.trace := by
  rw [Task.note, eventsOf_append, eventsOf_silent silent, List.append_nil]

theorem note_since (s : Task) {o : Occurrence} (other : isWlanConnect o = false) :
    sinceConnect (s.note o) = sinceConnect s ++ [o] := by
  apply since_append
  intro x member
  rw [List.mem_singleton.mp member]
  exact other

theorem connect_since (s : Task) (ssid : List UInt8) (ret : Int) :
    sinceConnect (s.note (.wlanConnect ssid ret)) = [] :=
  since_concat isWlanConnect s.trace (.wlanConnect ssid ret)

def AgreesOn (bits : Nat → Prop) (status start : Status) (events : List NetEvent) : Prop :=
  ∀ bit, bits bit → status.getLsbD bit = (run handle start events).getLsbD bit

theorem agreesOn_run {bits : Nat → Prop} {status start : Status} {events : List NetEvent}
    (agree : AgreesOn bits status start events) (more : List NetEvent) :
    AgreesOn bits (run handle status more) start (events ++ more) := by
  intro bit within
  rw [run_append]
  exact register_congr (bit_register bit) (agree bit within) more

def ConnectionBit (bit : Nat) : Prop := bit = statusBitConnection ∨ bit = statusBitIpAcquired

theorem clear_connectionBit (s : Task) {bit : Nat} (cleared : ConnectionBit bit) :
    s.clearConnection.status.getLsbD bit = false := by
  rw [ConnectionBit] at cleared
  rw [Task.clearConnection, clearFlags_written, if_pos cleared]
  rfl

theorem clear_other (s : Task) {bit : Nat} (other : ¬ ConnectionBit bit) :
    s.clearConnection.status.getLsbD bit = s.status.getLsbD bit := by
  rw [ConnectionBit] at other
  rw [Task.clearConnection, clearFlags_written, if_neg other]
  rfl

/-- The trace holds the events delivered so far, and the other bits are as they left them. -/
structure Follows (sl : SimpleLink) (entry : Status) (s : Task) : Prop where
  delivered : eventsOf s.trace = (List.range s.slept).flatMap sl.schedule
  others : AgreesOn (fun bit => ¬ ConnectionBit bit) s.status entry (eventsOf s.trace)

theorem follows_enter (sl : SimpleLink) (entry : Status) : Follows sl entry (.enter entry) :=
  ⟨rfl, fun _ _ => rfl⟩

theorem follows_sleep {sl : SimpleLink} {entry : Status} {s : Task} (follows : Follows sl entry s) :
    Follows sl entry (s.sleep sl) := by
  constructor
  case delivered =>
    rw [sleep_events, follows.delivered, sleep_eq, List.range_succ, List.flatMap_append,
      List.flatMap_singleton]
  case others =>
    rw [sleep_events, sleep_eq]
    exact agreesOn_run follows.others (sl.schedule s.slept)

theorem follows_note {sl : SimpleLink} {entry : Status} {s : Task} (follows : Follows sl entry s)
    {o : Occurrence} (silent : event? o = none) : Follows sl entry (s.note o) := by
  constructor
  case delivered =>
    rw [note_events s silent]
    exact follows.delivered
  case others =>
    rw [note_events s silent]
    exact follows.others

theorem follows_clear {sl : SimpleLink} {entry : Status} {s : Task} (follows : Follows sl entry s) :
    Follows sl entry s.clearConnection := by
  constructor
  case delivered => exact follows.delivered
  case others =>
    intro bit other
    rw [clear_other s other]
    exact follows.others bit other

structure Renewed (s : Task) : Prop where
  called : ∃ ssid ret, .wlanConnect ssid ret ∈ s.trace
  bits : AgreesOn ConnectionBit s.status 0#32 (eventsOf (sinceConnect s))

theorem renewed_connect (s : Task) (ssid : List UInt8) (ret : Int) :
    Renewed (s.clearConnection.note (.wlanConnect ssid ret)) := by
  constructor
  case called => exact ⟨ssid, ret, List.mem_append_right _ (List.mem_singleton.mpr rfl)⟩
  case bits =>
    intro bit cleared
    rw [connect_since]
    exact (clear_connectionBit s cleared).trans BitVec.getLsbD_zero.symm

theorem renewed_sleep {sl : SimpleLink} {s : Task} (renewed : Renewed s) :
    Renewed (s.sleep sl) := by
  constructor
  case called =>
    obtain ⟨ssid, ret, member⟩ := renewed.called
    rw [sleep_eq]
    exact ⟨ssid, ret, List.mem_append_left _ member⟩
  case bits =>
    rw [sleep_since, eventsOf_append, eventsOf_map, sleep_eq]
    exact agreesOn_run renewed.bits (sl.schedule s.slept)

theorem renewed_note {s : Task} (renewed : Renewed s) {o : Occurrence} (silent : event? o = none)
    (other : isWlanConnect o = false) : Renewed (s.note o) := by
  constructor
  case called =>
    obtain ⟨ssid, ret, member⟩ := renewed.called
    exact ⟨ssid, ret, List.mem_append_left _ member⟩
  case bits =>
    rw [note_since s other, eventsOf_append, eventsOf_silent silent, List.append_nil]
    exact renewed.bits

def isDisconnect (e : NetEvent) : Bool := e == .wlan .disconnect

def connects (e : NetEvent) : Bool := e == .wlan .connect || e == .wlan .staAdded

def acquiresIp (e : NetEvent) : Bool := e == .netApp .ipv4Acquired || e == .netApp .ipv6Acquired

/-- After the last disconnect event, if any, the device connected and acquired an address. -/
def Fresh (events : List NetEvent) : Prop :=
  (∃ e ∈ since isDisconnect events, connects e = true) ∧
    ∃ e ∈ since isDisconnect events, acquiresIp e = true

theorem disconnect_spoils {bit : Nat} (cleared : ConnectionBit bit) :
    ∀ e, isDisconnect e = true → ∃ other, written bit e = some other ∧ other ≠ true := by
  intro e disconnect
  obtain rfl : e = .wlan .disconnect := eq_of_beq disconnect
  exact ⟨false, if_pos cleared, Bool.false_ne_true⟩

theorem connects_of_written {e : NetEvent} (set : written statusBitConnection e = some true) :
    connects e = true := by
  rcases e with e | e <;> cases e <;> first | rfl | exact absurd set (by decide)

theorem acquiresIp_of_written {e : NetEvent} (set : written statusBitIpAcquired e = some true) :
    acquiresIp e = true := by
  rcases e with e | e <;> cases e <;> first | rfl | exact absurd set (by decide)

theorem renewed_write {s : Task} (renewed : Renewed s) {bit : Nat} (cleared : ConnectionBit bit)
    (set : s.status.getLsbD bit = true) :
    ∃ e ∈ since isDisconnect (eventsOf (sinceConnect s)), written bit e = some true := by
  apply lastWrite_since (disconnect_spoils cleared)
  have read := register_after_run (bit_register bit) 0#32 (eventsOf (sinceConnect s))
  rw [← renewed.bits bit cleared, set] at read
  cases last : lastWrite (written bit) (eventsOf (sinceConnect s)) with
  | none =>
    rw [last] at read
    exact absurd read.symm (by simp)
  | some v =>
    rw [last] at read
    exact congrArg some read.symm

theorem renewed_fresh {s : Task} (renewed : Renewed s) (up : s.isUp = true) :
    Fresh (eventsOf (sinceConnect s)) := by
  obtain ⟨connected, ipAcquired⟩ := Bool.and_eq_true_iff.mp up
  rw [isConnected, testFlag_eq (by decide)] at connected
  rw [isIpAcquired, testFlag_eq (by decide)] at ipAcquired
  obtain ⟨e, recent, set⟩ := renewed_write renewed (Or.inl rfl) connected
  obtain ⟨e', recent', set'⟩ := renewed_write renewed (Or.inr rfl) ipAcquired
  exact ⟨⟨e, recent, connects_of_written set⟩, e', recent', acquiresIp_of_written set'⟩

end RoverConnectionEvents
