import FirefighterRover.ApConnection
import FirefighterRover.Startup

/-!
The boot of mainThread from the SimpleLink task to the MQTT thread: network_if.c
Network_IF_InitDriver, main_task.c Mqtt_IF_Connect and the calls of mainThread before it.
-/
namespace RoverBringUp
open EventRuns Waiting RoverNetworkIf RoverConnectionEvents RoverApConnection RoverStartup

/-- The driver: its two role numbers, what each of its calls returns, and the events it delivers
    to the handlers during a call or a sleep. Calls and sleeps are counted together. -/
structure Driver where
  roleSta : Nat
  roleAp : Nat
  distinct : roleSta ≠ roleAp
  start : Nat → Int
  stop : Nat → Int
  wlanSetMode : Nat → Int
  netCfgGet : Nat → Int
  events : Nat → List NetEvent

inductive DriverCall where
  | start (ret : Int)
  | stop (ret : Int)
  | wlanSetMode (mode : Nat) (ret : Int)
  | netCfgGet (ret : Int)
  | usleep
  deriving DecidableEq, Repr

/-- `received` is a history: the events since the status word was last reset. -/
structure Boot where
  status : Status
  received : List NetEvent
  calls : List DriverCall
  deriving DecidableEq, Repr

def Boot.fresh : Boot := ⟨0#32, [], []⟩

def Boot.now (s : Boot) : Nat := s.calls.length

def Boot.call (driver : Driver) (c : DriverCall) (s : Boot) : Boot where
  status := run handle s.status (driver.events s.now)
  received := s.received ++ driver.events s.now
  calls := s.calls ++ [c]

def slStart (driver : Driver) (s : Boot) : Int × Boot :=
  (driver.start s.now, s.call driver (.start (driver.start s.now)))

def slStop (driver : Driver) (s : Boot) : Int × Boot :=
  (driver.stop s.now, s.call driver (.stop (driver.stop s.now)))

def slWlanSetMode (driver : Driver) (mode : Nat) (s : Boot) : Int × Boot :=
  (driver.wlanSetMode s.now, s.call driver (.wlanSetMode mode (driver.wlanSetMode s.now)))

def slNetCfgGet (driver : Driver) (s : Boot) : Int × Boot :=
  (driver.netCfgGet s.now, s.call driver (.netCfgGet (driver.netCfgGet s.now)))

/-- `halted` is LOOP_FOREVER and epicFail, `waiting` a loop the fuel does not reach the end of. -/
inductive Ending where
  | returned (ret : Int)
  | halted
  | waiting
  deriving DecidableEq, Repr

/-- InitializeAppVariables, and Network_IF_ResetMCUStateMachine -/
def resetStatus (s : Boot) : Boot := { s with status := 0#32, received := [] }

/-- Network_IF_InitDriver once the device has come up in the mode asked for. -/
def cameUp (driver : Driver) (fuel : Nat) (role : Int) (s : Boot) : Ending × Boot :=
  if role = driver.roleAp then
    match waitUntil (fun s => isIpAcquired s.status) (Boot.call driver .usleep) fuel s with
    | some s => (.returned 0, s)
    | none => (.waiting, s)
  else (.returned 0, s)

/-- Network_IF_InitDriver from its second sl_Start on. -/
def restart (driver : Driver) (uiMode fuel : Nat) (s : Boot) : Ending × Boot :=
  let (role, s) := slStart driver s
  if role < 0 then (.returned role, s)
  else if role = uiMode then cameUp driver fuel role s
  else (.halted, s)

def networkIfInitDriver (driver : Driver) (uiMode fuel : Nat) (s : Boot) : Ending × Boot :=
  let s := resetStatus s
  let (role, s) := slStart driver s
  if role < 0 then (.halted, s)
  else if (uiMode : Int) ≠ role then
    let (ret, s) := slWlanSetMode driver uiMode s
    if ret < 0 then (.returned ret, s)
    else
      -- the result of this sl_Stop is overwritten
      let (_, s) := slStop driver s
      restart driver uiMode fuel s
  else cameUp driver fuel role s

structure Attempt where
  ending : Ending
  boot : Boot
  task : Option Task

def mqttIfConnect (driver : Driver) (sl : SimpleLink) (fuel : Nat) (s : Boot) : Attempt :=
  match networkIfInitDriver driver driver.roleSta fuel (resetStatus s) with
  | (.returned ret, s) =>
    match RoverNetworkIf.mqttIfConnect sl ret fuel (.enter s.status) with
    | some (ret, task) => ⟨.returned ret, s, some task⟩
    | none => ⟨.waiting, s, none⟩
  | (ending, s) => ⟨ending, s, none⟩

/-- mainThread up to the value of gApConnectionState. `spawn` is the thread of sl_Task. -/
def mainThread (spawn : ThreadCalls) (driver : Driver) (sl : SimpleLink) (fuel : Nat) : Attempt :=
  if spawn.attributes ≠ 0 then ⟨.halted, .fresh, none⟩
  else if spawn.create ≠ 0 then ⟨.halted, .fresh, none⟩
  else
    let (ret, s) := slStart driver .fresh
    if ret < 0 then ⟨.halted, s, none⟩
    else
      -- SetClientIdNamefromMacAddress, whose result is not looked at
      let (_, s) := slNetCfgGet driver s
      let (ret, s) := slStop driver s
      if ret < 0 then ⟨.halted, s, none⟩
      else mqttIfConnect driver sl fuel s

def roleOf : DriverCall → Option Int
  | .start ret => some ret
  | _ => none

def lastRole (calls : List DriverCall) : Option Int := lastWrite roleOf calls

theorem lastRole_call (driver : Driver) (s : Boot) (c : DriverCall) :
    lastRole (s.call driver c).calls = (roleOf c).or (lastRole s.calls) :=
  lastWrite_concat roleOf s.calls c

def Recorded (s : Boot) : Prop := s.status = run handle 0#32 s.received

theorem recorded_call (driver : Driver) (c : DriverCall) {s : Boot} (recorded : Recorded s) :
    Recorded (s.call driver c) := by
  unfold Recorded Boot.call at *
  dsimp only
  rw [recorded, run_append]

theorem recorded_acquired {s : Boot} (recorded : Recorded s)
    (acquired : isIpAcquired s.status = true) :
    ∃ e ∈ since isDisconnect s.received, acquiresIp e = true := by
  rw [isIpAcquired, FlagWord.testFlag_eq (by decide)] at acquired
  have read := register_after_run (bit_register statusBitIpAcquired) 0#32 s.received
  rw [← recorded, acquired] at read
  obtain ⟨e, recent, set⟩ : ∃ e ∈ since isDisconnect s.received,
      written statusBitIpAcquired e = some true := by
    apply lastWrite_since (disconnect_spoils (Or.inr rfl))
    cases last : lastWrite (written statusBitIpAcquired) s.received with
    | none =>
      rw [last] at read
      exact absurd read.symm (by simp)
    | some v =>
      rw [last] at read
      exact congrArg some read.symm
  exact ⟨e, recent, acquiresIp_of_written set⟩

structure InitOutcome (driver : Driver) (uiMode fuel : Nat) (out : Ending × Boot) : Prop where
  success : out.1 = .returned 0 → lastRole out.2.calls = some (uiMode : Int) ∧
    (uiMode = driver.roleAp → ∃ e ∈ since isDisconnect out.2.received, acquiresIp e = true)
  failure : ∀ ret, out.1 = .returned ret → ret ≠ 0 → ret < 0 ∧
    (out.2.calls.getLast? = some (.wlanSetMode uiMode ret) ∨
      out.2.calls.getLast? = some (.start ret))
  halt : out.1 = .halted → ∃ ret, out.2.calls.getLast? = some (.start ret) ∧ ret ≠ uiMode
  wait : out.1 = .waiting → uiMode = driver.roleAp ∧ lastRole out.2.calls = some (uiMode : Int) ∧
    ∀ n, n < fuel → isIpAcquired ((Boot.call driver .usleep)^[n] out.2).status = false

theorem cameUp_outcome {driver : Driver} {uiMode fuel : Nat} {s : Boot} (recorded : Recorded s)
    (up : lastRole s.calls = some (uiMode : Int)) :
    InitOutcome driver uiMode fuel (cameUp driver fuel uiMode s) := by
  unfold cameUp
  by_cases ap : (uiMode : Int) = driver.roleAp
  · rw [if_pos ap]
    cases waited : waitUntil (fun s => isIpAcquired s.status) (Boot.call driver .usleep) fuel s with
    | none =>
      refine ⟨by simp, by simp, by simp, fun _ => ⟨Int.ofNat.inj ap, up, ?_⟩⟩
      intro n inTime
      by_contra acquired
      obtain ⟨t, ends⟩ := @waitUntil_of_ready Boot (fun s => isIpAcquired s.status) _ n _
        (Bool.not_eq_false _ ▸ acquired)
      rw [waitUntil_mono inTime ends] at waited
      cases waited
    | some t =>
      have kept : Recorded t ∧ lastRole t.calls = some (uiMode : Int) := by
        refine waitUntil_keeps (fun s => Recorded s ∧ lastRole s.calls = some (uiMode : Int)) ?_
          ⟨recorded, up⟩ waited
        rintro s ⟨recorded, up⟩
        exact ⟨recorded_call driver .usleep recorded, (lastRole_call driver s .usleep).trans up⟩
      have acquired := recorded_acquired kept.1 (waitUntil_ends waited).1
      exact ⟨fun _ => ⟨kept.2, fun _ => acquired⟩, by simp, by simp, by simp⟩
  · rw [if_neg ap]
    have other : uiMode ≠ driver.roleAp := fun same => ap (congrArg Int.ofNat same)
    exact ⟨fun _ => ⟨up, fun same => absurd same other⟩, by simp, by simp, by simp⟩

theorem called_last (driver : Driver) (s : Boot) (c : DriverCall) :
    (s.call driver c).calls.getLast? = some c := List.getLast?_concat

theorem restart_outcome {driver : Driver} {uiMode fuel : Nat} {s : Boot} (recorded : Recorded s) :
    InitOutcome driver uiMode fuel (restart driver uiMode fuel s) := by
  unfold restart slStart
  dsimp only
  by_cases failed : driver.start s.now < 0
  · rw [if_pos failed]
    refine ⟨?_, ?_, by simp, by simp⟩
    · intro same
      simp only [Ending.returned.injEq] at same
      omega
    · intro ret same _
      obtain rfl := Ending.returned.inj same
      exact ⟨failed, Or.inr (called_last driver s _)⟩
  rw [if_neg failed]
  by_cases switched : driver.start s.now = uiMode
  · rw [if_pos switched, switched]
    exact cameUp_outcome (recorded_call driver _ recorded) (lastRole_call driver s _)
  · rw [if_neg switched]
    exact ⟨by simp, by simp, fun _ => ⟨_, called_last driver s _, switched⟩, by simp⟩

theorem initDriver_outcome (driver : Driver) (uiMode fuel : Nat) (s : Boot) :
    InitOutcome driver uiMode fuel (networkIfInitDriver driver uiMode fuel s) := by
  have reset : Recorded (resetStatus s) := rfl
  unfold networkIfInitDriver slStart slWlanSetMode slStop
  generalize resetStatus s = s at reset ⊢
  dsimp only
  by_cases dead : driver.start s.now < 0
  · rw [if_pos dead]
    refine ⟨by simp, by simp, fun _ => ⟨driver.start s.now, called_last driver s _, ?_⟩, by simp⟩
    omega
  rw [if_neg dead]
  have started := recorded_call driver (.start (driver.start s.now)) reset
  have role := lastRole_call driver s (.start (driver.start s.now))
  by_cases asked : (uiMode : Int) = driver.start s.now
  · rw [if_neg (not_not.mpr asked), ← asked]
    rw [← asked] at started role
    exact cameUp_outcome started role
  rw [if_pos asked]
  generalize s.call driver (.start (driver.start s.now)) = s at started ⊢
  by_cases refused : driver.wlanSetMode s.now < 0
  · rw [if_pos refused]
    refine ⟨?_, ?_, by simp, by simp⟩
    · intro same
      simp only [Ending.returned.injEq] at same
      omega
    · intro ret same _
      obtain rfl := Ending.returned.inj same
      exact ⟨refused, Or.inl (called_last driver s _)⟩
  rw [if_neg refused]
  have set := recorded_call driver (.wlanSetMode uiMode (driver.wlanSetMode s.now)) started
  generalize s.call driver (.wlanSetMode uiMode (driver.wlanSetMode s.now)) = s at set ⊢
  exact restart_outcome (recorded_call driver (.stop (driver.stop s.now)) set)

/-- Whether the driver runs after a call. A refused sl_Stop leaves it running. -/
def power (running : Bool) : DriverCall → Bool
  | .start ret => decide (0 ≤ ret)
  | .stop ret => decide (ret < 0)
  | _ => running

def permitted (running : Bool) : DriverCall → Bool
  | .start _ => !running
  | _ => running

def running (s : Boot) : Bool := run power false s.calls

def Legal (calls : List DriverCall) : Prop :=
  ∀ before c, before ++ [c] <+: calls → permitted (run power false before) c = true

structure Kept (s : Boot) (power : Bool) : Prop where
  legal : Legal s.calls
  running : running s = power

theorem kept_call (driver : Driver) {s : Boot} {on : Bool} (kept : Kept s on) {c : DriverCall}
    (allowed : permitted on c = true) : Kept (s.call driver c) (power on c) := by
  constructor
  · intro before c' inCalls
    rcases List.prefix_concat_iff.mp inCalls with whole | earlier
    · obtain ⟨rfl, same⟩ := List.append_inj' whole rfl
      obtain rfl := (List.cons.inj same).1
      have here := kept.running
      unfold running at here
      rw [here]
      exact allowed
    · exact kept.legal before c' earlier
  · have here := kept.running
    unfold running at here ⊢
    rw [Boot.call, run_concat, here]

theorem kept_reset {s : Boot} {on : Bool} (kept : Kept s on) : Kept (resetStatus s) on :=
  ⟨kept.legal, kept.running⟩

theorem cameUp_kept {driver : Driver} {fuel : Nat} {role : Int} {s : Boot} (kept : Kept s true) :
    Kept (cameUp driver fuel role s).2 true := by
  unfold cameUp
  split
  · cases waited : waitUntil (fun s => isIpAcquired s.status) (Boot.call driver .usleep) fuel s with
    | none => exact kept
    | some t =>
      exact waitUntil_keeps (fun s => Kept s true) (fun _ h => kept_call driver h rfl) kept waited
  · exact kept

structure LeavesRunning (out : Ending × Boot) : Prop where
  legal : Legal out.2.calls
  up : out.1 = .returned 0 → running out.2 = true

theorem cameUp_leaves {driver : Driver} {fuel : Nat} {role : Int} {s : Boot} (kept : Kept s true) :
    LeavesRunning (cameUp driver fuel role s) :=
  ⟨(cameUp_kept kept).legal, fun _ => (cameUp_kept kept).running⟩

def Accepted (calls : List DriverCall) : Prop := ∀ ret, .stop ret ∈ calls → 0 ≤ ret

theorem accepted_earlier {a b : List DriverCall} (inCalls : a <+: b) (accepted : Accepted b) :
    Accepted a := fun ret member => accepted ret (inCalls.subset member)

theorem cameUp_calls (driver : Driver) (fuel : Nat) (role : Int) (s : Boot) :
    s.calls <+: (cameUp driver fuel role s).2.calls := by
  unfold cameUp
  split
  · cases waited : waitUntil (fun s => isIpAcquired s.status) (Boot.call driver .usleep) fuel s with
    | none => exact List.prefix_rfl
    | some t =>
      exact waitUntil_keeps (fun t : Boot => s.calls <+: t.calls)
        (fun _ h => h.trans (List.prefix_append _ _)) List.prefix_rfl waited
  · exact List.prefix_rfl

theorem restart_leaves {driver : Driver} {uiMode fuel : Nat} {s : Boot} (kept : Kept s false) :
    LeavesRunning (restart driver uiMode fuel s) := by
  unfold restart slStart
  dsimp only
  have started := kept_call driver kept (c := .start (driver.start s.now)) rfl
  by_cases failed : driver.start s.now < 0
  · rw [if_pos failed]
    refine ⟨started.legal, fun zero => ?_⟩
    simp only [Ending.returned.injEq] at zero
    omega
  have up : power false (.start (driver.start s.now)) = true :=
    decide_eq_true (Int.not_lt.mp failed)
  rw [up] at started
  rw [if_neg failed]
  split
  · exact cameUp_leaves started
  · exact ⟨started.legal, fun _ => started.running⟩

theorem restart_calls (driver : Driver) (uiMode fuel : Nat) (s : Boot) :
    s.calls <+: (restart driver uiMode fuel s).2.calls := by
  unfold restart slStart
  dsimp only
  have behind : s.calls <+: (s.call driver (.start (driver.start s.now))).calls :=
    List.prefix_append _ _
  split
  · exact behind
  · split
    · exact behind.trans (cameUp_calls driver fuel _ _)
    · exact behind

theorem initDriver_leaves {driver : Driver} {uiMode fuel : Nat} {s : Boot} (kept : Kept s false)
    (accepted : Accepted (networkIfInitDriver driver uiMode fuel s).2.calls) :
    LeavesRunning (networkIfInitDriver driver uiMode fuel s) := by
  have reset := kept_reset kept
  unfold networkIfInitDriver slStart slWlanSetMode slStop at *
  generalize resetStatus s = s at reset accepted ⊢
  dsimp only at accepted ⊢
  have started := kept_call driver reset (c := .start (driver.start s.now)) rfl
  by_cases dead : driver.start s.now < 0
  · rw [if_pos dead]
    exact ⟨started.legal, by simp⟩
  have up : power false (.start (driver.start s.now)) = true := decide_eq_true (Int.not_lt.mp dead)
  rw [up] at started
  rw [if_neg dead] at accepted ⊢
  by_cases asked : (uiMode : Int) = driver.start s.now
  · rw [if_neg (not_not.mpr asked)]
    exact cameUp_leaves started
  rw [if_pos asked] at accepted ⊢
  generalize s.call driver (.start (driver.start s.now)) = s at started accepted ⊢
  have set : Kept _ true :=
    kept_call driver started (c := .wlanSetMode uiMode (driver.wlanSetMode s.now)) rfl
  by_cases refused : driver.wlanSetMode s.now < 0
  · rw [if_pos refused]
    exact ⟨set.legal, fun _ => set.running⟩
  rw [if_neg refused] at accepted ⊢
  generalize s.call driver (.wlanSetMode uiMode (driver.wlanSetMode s.now)) = s at set accepted ⊢
  have stopped := kept_call driver set (c := .stop (driver.stop s.now)) rfl
  have last : DriverCall.stop (driver.stop s.now) ∈
      (s.call driver (.stop (driver.stop s.now))).calls := by
    simp [Boot.call]
  have down : power true (.stop (driver.stop s.now)) = false :=
    decide_eq_false (Int.not_lt.mpr
      (accepted_earlier (restart_calls driver uiMode fuel _) accepted _ last))
  rw [down] at stopped
  exact restart_leaves stopped

structure StationUp (driver : Driver) (s : Boot) : Prop where
  role : lastRole s.calls = some (driver.roleSta : Int)
  running : Accepted s.calls → running s = true

structure BringUpOutcome (driver : Driver) (sl : SimpleLink) (fuel : Nat) (a : Attempt) : Prop where
  legal : Accepted a.boot.calls → Legal a.boot.calls
  result : ∀ ap, a.ending = .returned ap → ap = 0 ∨ ap = -1
  connected : a.ending = .returned 0 → StationUp driver a.boot ∧
    ∃ t, a.task = some t ∧ Fresh (eventsOf (sinceConnect t))
  unconnected : a.ending = .returned (-1) →
    (∃ ret, ret < 0 ∧ (a.boot.calls.getLast? = some (.wlanSetMode driver.roleSta ret) ∨
      a.boot.calls.getLast? = some (.start ret))) ∨
    StationUp driver a.boot ∧ ∃ ret t, ret < 0 ∧ Returns sl (some ssidName) a.boot.status ret t
  halt : a.ending = .halted → a.boot.calls = [] ∨
    (∃ ret, a.boot.calls.getLast? = some (.stop ret) ∧ ret < 0) ∨
    ∃ ret, a.boot.calls.getLast? = some (.start ret) ∧ ret ≠ driver.roleSta
  wait : a.ending = .waiting → StationUp driver a.boot ∧
    networkIfConnectAP sl (some ssidName) fuel (.enter a.boot.status) = none

theorem connect_outcome {driver : Driver} {sl : SimpleLink} {fuel : Nat} {s : Boot}
    (kept : Kept s false) : BringUpOutcome driver sl fuel (mqttIfConnect driver sl fuel s) := by
  have init := initDriver_outcome driver driver.roleSta fuel (resetStatus s)
  have leaves := @initDriver_leaves driver driver.roleSta fuel _ (kept_reset kept)
  unfold mqttIfConnect
  generalize networkIfInitDriver driver driver.roleSta fuel (resetStatus s) = out at init leaves ⊢
  obtain ⟨ending, s⟩ := out
  have legal := fun accepted => (leaves accepted).legal
  cases ending with
  | halted =>
    exact ⟨legal, by simp, by simp, by simp, fun _ => Or.inr (Or.inr (init.halt rfl)), by simp⟩
  | waiting => exact absurd (init.wait rfl).1 driver.distinct
  | returned ret =>
    dsimp only at init leaves legal ⊢
    by_cases failed : ret < 0
    · have called := (init.failure ret rfl (by omega)).2
      rw [RoverNetworkIf.mqttIfConnect, if_pos failed]
      exact ⟨legal, by simp, by simp, fun _ => Or.inl ⟨ret, failed, called⟩, by simp, by simp⟩
    · have zero : ret = 0 := by
        by_contra other
        exact failed (init.failure ret rfl other).1
      subst zero
      have up : StationUp driver s :=
        ⟨(init.success rfl).1, fun accepted => (leaves accepted).up rfl⟩
      rw [RoverNetworkIf.mqttIfConnect, if_neg failed]
      cases call : networkIfConnectAP sl (some ssidName) fuel (.enter s.status) with
      | none => exact ⟨legal, by simp, by simp, by simp, by simp, fun _ => ⟨up, call⟩⟩
      | some out =>
        obtain ⟨value, t⟩ := out
        have returns : Returns sl (some ssidName) s.status value t := ⟨fuel, call⟩
        simp only [Option.map_some]
        by_cases refused : value < 0
        · rw [if_pos refused]
          exact ⟨legal, by simp, by simp, fun _ => Or.inr ⟨up, value, t, refused, returns⟩,
            by simp, by simp⟩
        · rw [if_neg refused]
          have fresh := (returns_fresh returns (Int.not_lt.mp refused)).2
          exact ⟨legal, by simp, fun _ => ⟨up, t, rfl, fresh⟩, by simp, by simp, by simp⟩

theorem halted_outcome (driver : Driver) (sl : SimpleLink) (fuel : Nat) {s : Boot} {on : Bool}
    (kept : Kept s on) (why : s.calls = [] ∨
      (∃ ret, s.calls.getLast? = some (.stop ret) ∧ ret < 0) ∨
      ∃ ret, s.calls.getLast? = some (.start ret) ∧ ret ≠ driver.roleSta) :
    BringUpOutcome driver sl fuel ⟨.halted, s, none⟩ :=
  ⟨fun _ => kept.legal, by simp, by simp, by simp, fun _ => why, by simp⟩

theorem fresh_kept : Kept .fresh false := by
  constructor
  · intro before c inCalls
    exact absurd (List.prefix_nil.mp inCalls) (by simp)
  · rfl

theorem mainThread_outcome (spawn : ThreadCalls) (driver : Driver) (sl : SimpleLink) (fuel : Nat) :
    BringUpOutcome driver sl fuel (mainThread spawn driver sl fuel) := by
  unfold mainThread slStart slNetCfgGet slStop
  dsimp only
  have started := kept_call driver fresh_kept (c := .start (driver.start Boot.fresh.now)) rfl
  split
  · exact halted_outcome driver sl fuel fresh_kept (Or.inl rfl)
  split
  · exact halted_outcome driver sl fuel fresh_kept (Or.inl rfl)
  by_cases dead : driver.start Boot.fresh.now < 0
  · rw [if_pos dead]
    refine halted_outcome driver sl fuel started (Or.inr (Or.inr ⟨_, called_last driver _ _, ?_⟩))
    omega
  have up : power false (.start (driver.start Boot.fresh.now)) = true :=
    decide_eq_true (Int.not_lt.mp dead)
  rw [up] at started
  rw [if_neg dead]
  generalize Boot.fresh.call driver (.start (driver.start Boot.fresh.now)) = s at started ⊢
  have named : Kept _ true := kept_call driver started (c := .netCfgGet (driver.netCfgGet s.now)) rfl
  generalize s.call driver (.netCfgGet (driver.netCfgGet s.now)) = s at named ⊢
  have stopped := kept_call driver named (c := .stop (driver.stop s.now)) rfl
  by_cases refused : driver.stop s.now < 0
  · rw [if_pos refused]
    exact halted_outcome driver sl fuel stopped
      (Or.inr (Or.inl ⟨_, called_last driver s _, refused⟩))
  have down : power true (.stop (driver.stop s.now)) = false := decide_eq_false refused
  rw [down] at stopped
  rw [if_neg refused]
  exact connect_outcome stopped

variable {Handle : Type}

theorem connect_needs_ap {o : Outcomes Handle} {records : List (RoverQueues.PublishMsg × CMemory.Ptr)}
    {handle : Handle} {result : Int} (called : .connect handle result ∈ mqttStart o records) :
    0 ≤ o.apConnection := by
  by_contra none
  unfold mqttStart mqttClient at called
  rw [if_neg none] at called
  split at called
  · simp at called
  · split at called
    · simp at called
    · rcases mem_publishLoop called with ⟨_, same⟩ | same | same <;> cases same

/-- The boot, whatever the driver, the network and the threads do: the driver is started only when
    it is stopped and used only when it runs, as long as it stops when told to; the driver comes up
    in the mode asked for, or not at all; and a broker is connected to only by a station that was
    connected and had an address since its sl_WlanConnect. -/
theorem bring_up (spawn : ThreadCalls) (driver : Driver) (sl : SimpleLink) (fuel : Nat)
    (o : Outcomes Handle) (records : List (RoverQueues.PublishMsg × CMemory.Ptr)) :
    let a := mainThread spawn driver sl fuel
    BringUpOutcome driver sl fuel a ∧
    (∀ uiMode s, InitOutcome driver uiMode fuel (networkIfInitDriver driver uiMode fuel s)) ∧
    ∀ ap, a.ending = .returned ap → ∀ handle result,
      .connect handle result ∈ mqttStart { o with apConnection := ap } records →
      ap = 0 ∧ StationUp driver a.boot ∧
        ∃ t, a.task = some t ∧ Fresh (eventsOf (sinceConnect t)) := by
  intro a
  have outcome := mainThread_outcome spawn driver sl fuel
  refine ⟨outcome, fun uiMode s => initDriver_outcome driver uiMode fuel s, ?_⟩
  intro ap ends handle result called
  have positive : 0 ≤ ap := connect_needs_ap called
  have zero : ap = 0 := by
    rcases outcome.result ap ends with zero | failed
    · exact zero
    · omega
  rw [zero] at ends
  exact ⟨zero, outcome.connected ends⟩

end RoverBringUp
