import FirefighterRover.ConnectionEvents

/-!
What a call of Network_IF_ConnectAP returns, for every schedule of events.
-/
namespace RoverApConnection
open EventRuns FlagWord Waiting RoverNetworkIf RoverConnectionEvents

section
variable {sl : SimpleLink} {wlanDisconnect : Int} {s : Task}

theorem disconnect_idle (clear : isConnected s.status = false) (fuel : Nat) :
    networkIfDisconnectFromAP sl wlanDisconnect fuel s = some (0, s) := by
  rw [networkIfDisconnectFromAP, clear]
  rfl

theorem disconnect_refused (connected : isConnected s.status = true)
    (refused : wlanDisconnect ≠ 0) (fuel : Nat) :
    networkIfDisconnectFromAP sl wlanDisconnect fuel s =
      some (wlanDisconnect, s.note (.wlanDisconnect wlanDisconnect)) := by
  rw [networkIfDisconnectFromAP, if_pos connected, if_neg refused]

theorem disconnect_waits (connected : isConnected s.status = true)
    (accepted : wlanDisconnect = 0) (fuel : Nat) :
    networkIfDisconnectFromAP sl wlanDisconnect fuel s =
      (waitUntil (fun s => !isConnected s.status) (Task.sleep sl) fuel
        (s.note (.wlanDisconnect wlanDisconnect))).map fun s => (0, s) := by
  rw [networkIfDisconnectFromAP, if_pos connected, if_pos accepted]

theorem disconnect_mono {fuel more : Nat} (enough : fuel ≤ more) {out : Int × Task}
    (ends : networkIfDisconnectFromAP sl wlanDisconnect fuel s = some out) :
    networkIfDisconnectFromAP sl wlanDisconnect more s = some out := by
  cases connected : isConnected s.status with
  | false =>
    rw [disconnect_idle connected] at ends ⊢
    exact ends
  | true =>
    by_cases accepted : wlanDisconnect = 0
    · rw [disconnect_waits connected accepted] at ends ⊢
      obtain ⟨t, waited, rfl⟩ := Option.map_eq_some_iff.mp ends
      rw [waitUntil_mono enough waited]
      rfl
    · rw [disconnect_refused connected accepted] at ends ⊢
      exact ends

theorem disconnect_follows {entry : Status} (follows : Follows sl entry s) {fuel : Nat} {ret : Int}
    {t : Task} (ends : networkIfDisconnectFromAP sl wlanDisconnect fuel s = some (ret, t)) :
    Follows sl entry t := by
  have noted : Follows sl entry (s.note (.wlanDisconnect wlanDisconnect)) :=
    follows_note follows rfl
  cases connected : isConnected s.status with
  | false =>
    rw [disconnect_idle connected] at ends
    obtain rfl : s = t := congrArg Prod.snd (Option.some.inj ends)
    exact follows
  | true =>
    by_cases accepted : wlanDisconnect = 0
    · rw [disconnect_waits connected accepted] at ends
      obtain ⟨u, waited, same⟩ := Option.map_eq_some_iff.mp ends
      obtain rfl : u = t := congrArg Prod.snd same
      exact waitUntil_keeps (Follows sl entry) (fun _ h => follows_sleep h) noted waited
    · rw [disconnect_refused connected accepted] at ends
      obtain rfl : s.note _ = t := congrArg Prod.snd (Option.some.inj ends)
      exact noted

def statusAfter (sl : SimpleLink) (s : Task) (n : Nat) : Status :=
  run handle s.status ((List.range n).flatMap fun k => sl.schedule (s.slept + k))

theorem sleeps_status (s : Task) (n : Nat) : ((Task.sleep sl)^[n] s).slept = s.slept + n ∧
    ((Task.sleep sl)^[n] s).status = statusAfter sl s n := by
  induction n with
  | zero => exact ⟨rfl, rfl⟩
  | succ n ih =>
    obtain ⟨slept, status⟩ := ih
    rw [Function.iterate_succ_apply', sleep_eq, slept, status, statusAfter, statusAfter,
      List.range_succ, List.flatMap_append, run_append, List.flatMap_singleton]
    exact ⟨rfl, rfl⟩

def WaitEnds (sl : SimpleLink) (wlanDisconnect : Int) (s : Task) : Prop :=
  wlanDisconnect ≠ 0 ∨ ∃ n, isConnected (statusAfter sl s n) = false

theorem disconnect_ends_iff : (∃ fuel out,
    networkIfDisconnectFromAP sl wlanDisconnect fuel s = some out) ↔
      WaitEnds sl wlanDisconnect s := by
  cases connected : isConnected s.status with
  | false =>
    have now : WaitEnds sl wlanDisconnect s := Or.inr ⟨0, connected⟩
    exact iff_of_true ⟨0, _, disconnect_idle connected 0⟩ now
  | true =>
    by_cases accepted : wlanDisconnect = 0
    · have loop := waitUntil_ends_iff (fun s => !isConnected s.status) (Task.sleep sl)
        (s.note (.wlanDisconnect wlanDisconnect))
      have status : ∀ n, ((Task.sleep sl)^[n] (s.note (.wlanDisconnect wlanDisconnect))).status =
          statusAfter sl s n := fun n => (sleeps_status _ n).2
      simp only [status, Bool.not_eq_true'] at loop
      constructor
      · rintro ⟨fuel, out, ends⟩
        rw [disconnect_waits connected accepted] at ends
        obtain ⟨t, waited, _⟩ := Option.map_eq_some_iff.mp ends
        exact Or.inr (loop.mp ⟨fuel, t, waited⟩)
      · rintro (refused | clear)
        · exact absurd accepted refused
        · obtain ⟨fuel, t, waited⟩ := loop.mpr clear
          refine ⟨fuel, (0, t), ?_⟩
          rw [disconnect_waits connected accepted, waited]
          rfl
    · exact iff_of_true ⟨0, _, disconnect_refused connected accepted 0⟩ (Or.inl accepted)

end

/-- A call that found the status word `entry` returns `ret` and leaves the task as `s`. -/
def Returns (sl : SimpleLink) (pcSsid : Option (List UInt8)) (entry : Status) (ret : Int)
    (s : Task) : Prop :=
  ∃ fuel, networkIfConnectAP sl pcSsid fuel (.enter entry) = some (ret, s)

def Polled (sl : SimpleLink) (pcSsid : Option (List UInt8)) (entry : Status) (p : Task) : Prop :=
  ∃ fuel ret s ssid,
    networkIfDisconnectFromAP sl sl.disconnectBefore fuel (.enter entry) = some (ret, s) ∧
    pcSsid = some ssid ∧ 0 ≤ sl.wlanConnect ∧
    p = pollUntil Task.isUp (Task.pollPass sl) 10
      (s.clearConnection.note (.wlanConnect ssid sl.wlanConnect))

section
variable {sl : SimpleLink} {pcSsid : Option (List UInt8)} {entry : Status}

theorem connectAP_polls {fuel : Nat} {ret : Int} {s : Task} {ssid : List UInt8}
    (ends : networkIfDisconnectFromAP sl sl.disconnectBefore fuel (.enter entry) = some (ret, s))
    (accepted : 0 ≤ sl.wlanConnect) : networkIfConnectAP sl (some ssid) fuel (.enter entry) =
      checkConnection sl fuel (pollUntil Task.isUp (Task.pollPass sl) 10
        (s.clearConnection.note (.wlanConnect ssid sl.wlanConnect))) := by
  simp only [networkIfConnectAP, ends, if_neg (Int.not_lt.mpr accepted)]

theorem returns_cases {ret : Int} {t : Task} (returns : Returns sl pcSsid entry ret t) :
    ret < 0 ∨ ∃ p fuel, Polled sl pcSsid entry p ∧ checkConnection sl fuel p = some (ret, t) := by
  obtain ⟨fuel, ends⟩ := returns
  cases first : networkIfDisconnectFromAP sl sl.disconnectBefore fuel (.enter entry) with
  | none =>
    simp only [networkIfConnectAP, first] at ends
    exact absurd ends (by simp)
  | some out =>
    obtain ⟨before, s⟩ := out
    cases pcSsid with
    | none =>
      simp only [networkIfConnectAP, first] at ends
      have value := congrArg Prod.fst (Option.some.inj ends)
      exact Or.inl (by omega)
    | some ssid =>
      by_cases refused : sl.wlanConnect < 0
      · simp only [networkIfConnectAP, first, if_pos refused] at ends
        obtain rfl : sl.wlanConnect = ret := congrArg Prod.fst (Option.some.inj ends)
        exact Or.inl refused
      · have accepted := Int.not_lt.mp refused
        rw [connectAP_polls first accepted] at ends
        exact Or.inr ⟨_, fuel, ⟨fuel, before, s, ssid, first, rfl, accepted, rfl⟩, ends⟩

theorem check_up {p : Task} (up : p.isUp = true) (fuel : Nat) : checkConnection sl fuel p =
    some (if sl.netCfgGet < 0 then sl.netCfgGet else 0, p.note (.netCfgGet sl.netCfgGet)) := by
  obtain ⟨connected, ipAcquired⟩ := Bool.and_eq_true_iff.mp up
  rw [checkConnection, connected, ipAcquired]
  by_cases failed : sl.netCfgGet < 0
  · simp [failed]
  · simp [failed]

theorem check_down {p : Task} (down : p.isUp = false) (fuel : Nat) : checkConnection sl fuel p =
    (networkIfDisconnectFromAP sl sl.disconnectAfter fuel p).map fun (_, s) =>
      (-1, s.clearConnection) := by
  rw [Task.isUp] at down
  rw [checkConnection, ← Bool.not_and, down]
  rfl

theorem check_mono {fuel more : Nat} (enough : fuel ≤ more) {p : Task} {out : Int × Task}
    (ends : checkConnection sl fuel p = some out) : checkConnection sl more p = some out := by
  cases up : p.isUp with
  | true =>
    rw [check_up up] at ends ⊢
    exact ends
  | false =>
    rw [check_down up] at ends ⊢
    obtain ⟨u, disconnected, rfl⟩ := Option.map_eq_some_iff.mp ends
    rw [disconnect_mono enough disconnected]
    rfl

theorem returns_iff_check {p : Task} (polled : Polled sl pcSsid entry p) (ret : Int) (t : Task) :
    Returns sl pcSsid entry ret t ↔ ∃ fuel, checkConnection sl fuel p = some (ret, t) := by
  obtain ⟨fuel, before, s, ssid, first, rfl, accepted, rfl⟩ := polled
  constructor
  · rintro ⟨more, ends⟩
    have long := disconnect_mono (Nat.le_max_left fuel more) first
    cases again : networkIfDisconnectFromAP sl sl.disconnectBefore more (.enter entry) with
    | none =>
      simp only [networkIfConnectAP, again] at ends
      exact absurd ends (by simp)
    | some out =>
      rw [disconnect_mono (Nat.le_max_right fuel more) again] at long
      rw [Option.some.inj long] at again
      rw [connectAP_polls again accepted] at ends
      exact ⟨more, ends⟩
  · rintro ⟨more, ends⟩
    refine ⟨max fuel more, ?_⟩
    rw [connectAP_polls (disconnect_mono (Nat.le_max_left fuel more) first) accepted]
    exact check_mono (Nat.le_max_right fuel more) ends

theorem gaveUp_returns_iff {p : Task} (polled : Polled sl pcSsid entry p) (down : p.isUp = false) :
    (∃ ret t, Returns sl pcSsid entry ret t) ↔ WaitEnds sl sl.disconnectAfter p := by
  rw [← disconnect_ends_iff]
  simp only [returns_iff_check polled, check_down down, Option.map_eq_some_iff]
  constructor
  · rintro ⟨ret, t, fuel, out, ends, _⟩
    exact ⟨fuel, out, ends⟩
  · rintro ⟨fuel, out, ends⟩
    exact ⟨_, _, fuel, out, ends, rfl⟩

theorem polled_follows {p : Task} (polled : Polled sl pcSsid entry p) : Follows sl entry p := by
  obtain ⟨fuel, ret, s, ssid, first, rfl, accepted, rfl⟩ := polled
  have disconnected : Follows sl entry s := disconnect_follows (follows_enter sl entry) first
  apply pollUntil_keeps (Follows sl entry) (fun _ h => follows_note (follows_sleep h) rfl)
  exact follows_note (follows_clear disconnected) rfl

theorem polled_renewed {p : Task} (polled : Polled sl pcSsid entry p) : Renewed p := by
  obtain ⟨fuel, ret, s, ssid, first, rfl, accepted, rfl⟩ := polled
  apply pollUntil_keeps Renewed (fun _ h => renewed_note (renewed_sleep h) rfl rfl)
  exact renewed_connect s ssid sl.wlanConnect

theorem pollPass_since (s : Task) : sinceConnect (s.pollPass sl) =
    sinceConnect s ++ (sl.schedule s.slept).map Occurrence.event ++ [.poll] := by
  rw [Task.pollPass, note_since _ rfl, sleep_since]

theorem pollPasses_count (s : Task) (n : Nat) :
    (sinceConnect ((Task.pollPass sl)^[n] s)).count .poll = (sinceConnect s).count .poll + n := by
  induction n with
  | zero => rfl
  | succ n ih =>
    have none : ∀ events : List NetEvent, (events.map Occurrence.event).count .poll = 0 := by
      intro events
      apply List.count_eq_zero.mpr
      intro member
      obtain ⟨e, _, same⟩ := List.mem_map.mp member
      exact absurd same (by simp)
    rw [Function.iterate_succ_apply', pollPass_since, List.count_append, List.count_append, none,
      ih]
    rfl

theorem polled_looks {p : Task} (polled : Polled sl pcSsid entry p) :
    (sinceConnect p).getLast? = some .poll ∧ (sinceConnect p).count .poll ≤ 10 := by
  obtain ⟨fuel, ret, s, ssid, first, rfl, accepted, rfl⟩ := polled
  obtain ⟨n, within, reached⟩ := pollUntil_ticks Task.isUp (Task.pollPass sl)
    (by decide : 0 < 10) (s.clearConnection.note (.wlanConnect ssid sl.wlanConnect))
  rw [reached]
  constructor
  · rw [Function.iterate_succ_apply', pollPass_since, List.getLast?_concat]
  · rw [pollPasses_count, connect_since]
    exact (Nat.zero_add (n + 1)).le.trans within

end

/-- At no look of the loop had the device connected and acquired an address since the call of
    sl_WlanConnect and the last disconnect event. -/
def NeverFresh (p : Task) : Prop :=
  ∀ looked, looked <+: sinceConnect p → looked.getLast? = some .poll → ¬ Fresh (eventsOf looked)

theorem neverFresh_down {sl : SimpleLink} {pcSsid : Option (List UInt8)} {entry : Status} {p : Task}
    (polled : Polled sl pcSsid entry p) (never : NeverFresh p) : p.isUp = false := by
  by_contra up
  have fresh := renewed_fresh (polled_renewed polled) (Bool.not_eq_false _ ▸ up)
  exact never (sinceConnect p) List.prefix_rfl (polled_looks polled).1 fresh

section
variable {sl : SimpleLink} {pcSsid : Option (List UInt8)} {entry : Status}

theorem returns_fresh {ret : Int} {t : Task} (returns : Returns sl pcSsid entry ret t)
    (succeeded : 0 ≤ ret) :
    (∃ ssid ret, .wlanConnect ssid ret ∈ t.trace) ∧ Fresh (eventsOf (sinceConnect t)) := by
  rcases returns_cases returns with failed | ⟨p, fuel, polled, ends⟩
  · exact absurd failed (Int.not_lt.mpr succeeded)
  · cases up : p.isUp with
    | false =>
      rw [check_down up] at ends
      obtain ⟨out, _, same⟩ := Option.map_eq_some_iff.mp ends
      have value : -1 = ret := congrArg Prod.fst same
      omega
    | true =>
      rw [check_up up] at ends
      obtain rfl : p.note _ = t := congrArg Prod.snd (Option.some.inj ends)
      have renewed : Renewed (p.note (.netCfgGet sl.netCfgGet)) :=
        renewed_note (polled_renewed polled) rfl rfl
      exact ⟨renewed.called, renewed_fresh renewed up⟩

theorem gaveUp_result {p : Task} (polled : Polled sl pcSsid entry p) (down : p.isUp = false)
    {ret : Int} {t : Task} (returns : Returns sl pcSsid entry ret t) :
    ret = -1 ∧ isConnected t.status = false ∧ isIpAcquired t.status = false ∧
      Follows sl entry t := by
  obtain ⟨fuel, ends⟩ := (returns_iff_check polled ret t).mp returns
  rw [check_down down] at ends
  obtain ⟨⟨_, u⟩, disconnected, same⟩ := Option.map_eq_some_iff.mp ends
  obtain ⟨rfl, rfl⟩ : -1 = ret ∧ u.clearConnection = t := Prod.mk.inj same
  have follows : Follows sl entry u := disconnect_follows (polled_follows polled) disconnected
  refine ⟨rfl, ?_, ?_, follows_clear follows⟩
  · exact (testFlag_eq (by decide) _).trans (clear_connectionBit u (Or.inl rfl))
  · exact (testFlag_eq (by decide) _).trans (clear_connectionBit u (Or.inr rfl))

end

/-- A call that reached the end of its loop in `p` gives up: it disconnects, waits for that
    where it has to, and then fails with the two bits clear. -/
structure GivesUp (sl : SimpleLink) (pcSsid : Option (List UInt8)) (entry : Status) (p : Task) :
    Prop where
  returns : (∃ ret t, Returns sl pcSsid entry ret t) ↔ WaitEnds sl sl.disconnectAfter p
  result : ∀ ret t, Returns sl pcSsid entry ret t →
    ret = -1 ∧ isConnected t.status = false ∧ isIpAcquired t.status = false ∧ Follows sl entry t

structure ConnectOutcome (sl : SimpleLink) (pcSsid : Option (List UInt8)) (entry : Status) :
    Prop where
  success : ∀ t, Returns sl pcSsid entry 0 t →
    (∃ ssid ret, .wlanConnect ssid ret ∈ t.trace) ∧ Fresh (eventsOf (sinceConnect t))
  looks : ∀ p, Polled sl pcSsid entry p → (sinceConnect p).count .poll ≤ 10
  stale : ∀ p, Polled sl pcSsid entry p → NeverFresh p → p.isUp = false
  gaveUp : ∀ p, Polled sl pcSsid entry p → p.isUp = false → GivesUp sl pcSsid entry p

theorem connectAP_outcome (sl : SimpleLink) (pcSsid : Option (List UInt8)) (entry : Status) :
    ConnectOutcome sl pcSsid entry := by
  constructor
  case success => intro t returns; exact returns_fresh returns (Int.le_refl 0)
  case looks => intro p polled; exact (polled_looks polled).2
  case stale => intro p polled never; exact neverFresh_down polled never
  case gaveUp =>
    intro p polled down
    constructor
    case returns => exact gaveUp_returns_iff polled down
    case result => intro ret t returns; exact gaveUp_result polled down returns

/-- Bits left from an earlier connection, a disconnection, and then a connection. -/
example : (networkIfConnectAP ⟨fun n => if n = 0 then [.wlan .disconnect]
    else [.wlan .connect, .netApp .ipv4Acquired], 0, 0, 0, 0⟩ (some ssidName) 2
      (.enter 0xA#32)).map Prod.fst = some 0 := by decide

theorem mqttIfConnect_fresh {sl : SimpleLink} {entry : Status} {initDriver : Int} {fuel : Nat}
    {ret : Int} {t : Task} (ends : mqttIfConnect sl initDriver fuel (.enter entry) = some (ret, t))
    (succeeded : 0 ≤ ret) : ret = 0 ∧ Fresh (eventsOf (sinceConnect t)) := by
  rw [mqttIfConnect] at ends
  by_cases started : initDriver < 0
  · rw [if_pos started] at ends
    have value : -1 = ret := congrArg Prod.fst (Option.some.inj ends)
    omega
  · rw [if_neg started] at ends
    obtain ⟨⟨value, s⟩, call, same⟩ := Option.map_eq_some_iff.mp ends
    by_cases failed : value < 0
    · obtain ⟨rfl, rfl⟩ := Prod.mk.inj ((if_pos failed).symm.trans same)
      exact absurd succeeded (by decide)
    · obtain ⟨rfl, rfl⟩ := Prod.mk.inj ((if_neg failed).symm.trans same)
      exact ⟨rfl, (returns_fresh ⟨fuel, call⟩ (Int.not_lt.mp failed)).2⟩

/-- It accepts the connection in the first second, and the driver takes every request, but no
    other event is ever delivered. -/
def silentAp : SimpleLink where
  schedule n := if n = 0 then [.wlan .connect] else []
  disconnectBefore := 0
  wlanConnect := 0
  disconnectAfter := 0
  netCfgGet := 0

def silentApPolled : Task :=
  pollUntil Task.isUp (Task.pollPass silentAp) 10
    ((Task.enter 0#32).clearConnection.note (.wlanConnect ssidName 0))

theorem silentAp_polled : Polled silentAp (some ssidName) 0#32 silentApPolled :=
  ⟨0, 0, .enter 0#32, ssidName, by decide, rfl, by decide, rfl⟩

theorem silentAp_stays (n : Nat) : isConnected (statusAfter silentAp silentApPolled n) = true := by
  have slept : silentApPolled.slept = 10 := by decide
  have quiet : ((List.range n).flatMap fun k =>
      silentAp.schedule (silentApPolled.slept + k)) = [] := by
    apply List.flatMap_eq_nil_iff.mpr
    intro k _
    rw [slept]
    exact if_neg (by omega)
  have connected : isConnected silentApPolled.status = true := by decide
  rw [statusAfter, quiet]
  exact connected

theorem silentAp_never_returns : ∃ sl pcSsid entry p, Polled sl pcSsid entry p ∧ NeverFresh p ∧
    ∀ ret t, ¬ Returns sl pcSsid entry ret t := by
  refine ⟨silentAp, some ssidName, 0#32, silentApPolled, silentAp_polled, ?_, ?_⟩
  · intro looked inTrace _ fresh
    obtain ⟨e, recent, acquired⟩ := fresh.2
    have delivered := (since_suffix isDisconnect (eventsOf looked)).subset recent
    obtain ⟨o, looks, event⟩ := List.mem_filterMap.mp delivered
    have none : ∀ o ∈ sinceConnect silentApPolled, ((event? o).all fun e => !acquiresIp e) = true :=
      List.all_eq_true.mp (by decide)
    have other := none o (inTrace.subset looks)
    rw [event, Option.all_some, acquired] at other
    exact absurd other (by decide)
  · intro ret t returns
    have down : silentApPolled.isUp = false := by decide
    have ends := (gaveUp_returns_iff silentAp_polled down).mp ⟨ret, t, returns⟩
    rcases ends with refused | ⟨n, clear⟩
    · exact refused rfl
    · rw [silentAp_stays n] at clear
      exact absurd clear (by decide)

end RoverApConnection
