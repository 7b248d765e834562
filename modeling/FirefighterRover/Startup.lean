import FirefighterRover.MqttClient

/-!
main_task.c: Mqtt_start, MqttClient_start and MqttClient as the calls they make for every
outcome of the calls outside the repository, and when its publishes use a live connection.
-/
namespace RoverStartup
open CMemory RoverJson RoverQueues RoverMqttClient
variable {Handle : Type}

structure ThreadCalls where
  setschedparam : UInt32
  setstacksize : UInt32
  setdetachstate : UInt32
  create : UInt32

structure Outcomes (Handle : Type) where
  apConnection : Int
  mqttThread : ThreadCalls
  create : Option Handle
  rxThread : ThreadCalls
  connect : Int
  subscribe : Int

/-- The calls made, with what they returned. A publish may use a NULL handle. -/
inductive Call (Handle : Type) where
  | print (line : List UInt8)
  | create (handle : Option Handle)
  | connect (handle : Handle) (result : Int)
  | subscribe (handle : Handle) (topics : List String) (result : Int)
  | disconnect (handle : Handle)
  | publish (handle : Option Handle) (p : Publication)
  | incrementPublishAttempts
  | exit

def subscriptionTopics : List String :=
  ["firefighter/status", "firefighter/arm/do_something", "firefighter/sensor",
   "firefighter/rover/speed"]

structure Start (Handle : Type) where
  result : Int
  gMqttClient : Option Handle
  calls : List (Call Handle)

def ThreadCalls.attributes (t : ThreadCalls) : UInt32 :=
  t.setschedparam ||| t.setstacksize ||| t.setdetachstate

def mqttClientStart (o : Outcomes Handle) : Start Handle :=
  match o.create with
  | none => ⟨-1, none, [.create none]⟩
  | some handle =>
    if o.rxThread.attributes ||| o.rxThread.create ≠ 0 then
      ⟨-1, some handle,
        [.create (some handle), .print (report (lit "Client Thread Create Failed failed\n"))]⟩
    else if 0 ≤ o.apConnection then
      if o.connect < 0 then
        ⟨0, some handle,
          [.create (some handle), .connect handle o.connect,
           .print (report (lit "Connection to broker failed: " ++ decimal o.connect ++ lit "\n"))]⟩
      else if o.subscribe < 0 then
        ⟨0, some handle,
          [.create (some handle), .connect handle o.connect,
           .subscribe handle subscriptionTopics o.subscribe,
           .print (report (lit "Error subscribing\n")), .disconnect handle]⟩
      else
        ⟨0, some handle,
          [.create (some handle), .connect handle o.connect,
           .subscribe handle subscriptionTopics o.subscribe] ++
          subscriptionTopics.map fun topic =>
            .print (report (lit "Client subscribed on " ++ lit topic ++ lit "\n"))⟩
    else ⟨0, some handle, [.create (some handle)]⟩

def publishLoop (gMqttClient : Option Handle) : List (PublishMsg × Ptr) → List (Call Handle)
  | [] => []
  | (msg, stack) :: rest =>
    match publication stack msg with
    | some p => .publish gMqttClient p :: .incrementPublishAttempts :: publishLoop gMqttClient rest
    | none => [.exit]

/-- gMqttClient is NULL before MqttClient_start. -/
def mqttClient (o : Outcomes Handle) (records : List (PublishMsg × Ptr)) : List (Call Handle) :=
  if 0 ≤ o.apConnection then
    let start := mqttClientStart o
    if start.result = -1 then
      start.calls ++ [.print (report (lit "MQTT Client lib initialization failed\n")), .exit]
    else start.calls ++ publishLoop start.gMqttClient records
  else publishLoop none records

def mqttStart (o : Outcomes Handle) (records : List (PublishMsg × Ptr)) : List (Call Handle) :=
  if o.mqttThread.attributes ≠ 0 then [.print (report (lit "MQTT thread create fail\n"))]
  else if o.mqttThread.create ≠ 0 then [.print (report (lit "MQTT thread create fail\n"))]
  else mqttClient o records

/-- `handle` is not NULL, MQTTClient_create returned it, MQTTClient_connect on it returned a
    value >= 0, and there was no MQTTClient_disconnect on it since. -/
def Live (calls : List (Call Handle)) (handle : Option Handle) : Prop :=
  ∃ h before result since, handle = some h ∧ calls = before ++ .connect h result :: since ∧
    .create (some h) ∈ before ∧ 0 ≤ result ∧ .disconnect h ∉ since

def Call.Publishes : Call Handle → Prop
  | .publish _ _ => True
  | .incrementPublishAttempts => True
  | _ => False

def setUp (o : Outcomes Handle) : Start Handle :=
  if 0 ≤ o.apConnection then mqttClientStart o else ⟨0, none, []⟩

structure PublishesLive (start : Start Handle) (calls : List (Call Handle)) : Prop where
  live : ∀ before handle p rest, calls = before ++ .publish handle p :: rest → Live before handle
  silent : ¬ Live start.calls start.gMqttClient → ∀ c ∈ calls, ¬ c.Publishes

theorem live_append {calls more : List (Call Handle)} {handle : Option Handle}
    (live : Live calls handle) (connected : ∀ h, .disconnect h ∉ more) :
    Live (calls ++ more) handle := by
  obtain ⟨h, before, result, since, same, split, created, success, kept⟩ := live
  refine ⟨h, before, result, since ++ more, same, by simp [split], created, success, ?_⟩
  intro closed
  rcases List.mem_append.mp closed with earlier | later
  · exact kept earlier
  · exact connected h later

theorem disconnected_not_live (calls : List (Call Handle)) (handle : Handle) :
    ¬ Live (calls ++ [.disconnect handle]) (some handle) := by
  rintro ⟨h, before, result, since, same, split, _, _, kept⟩
  obtain rfl := Option.some.inj same
  rcases since.eq_nil_or_concat with rfl | ⟨since, last, rfl⟩
  · have ends := (List.append_inj' split rfl).2
    simp at ends
  · rw [List.concat_eq_append, ← List.cons_append, ← List.append_assoc] at split
    have ends := (List.append_inj' split rfl).2
    obtain rfl := (List.cons.inj ends).1
    simp at kept

theorem unconnected_not_live {calls : List (Call Handle)}
    (refused : ∀ h result, .connect h result ∈ calls → result < 0) (handle : Option Handle) :
    ¬ Live calls handle := by
  rintro ⟨h, before, result, since, _, split, _, success, _⟩
  have failed := refused h result (by simp [split])
  omega

theorem mem_publishLoop {gMqttClient : Option Handle} {records : List (PublishMsg × Ptr)}
    {c : Call Handle} (mem : c ∈ publishLoop gMqttClient records) :
    (∃ p, c = .publish gMqttClient p) ∨ c = .incrementPublishAttempts ∨ c = .exit := by
  induction records with
  | nil => cases mem
  | cons record rest ih =>
    obtain ⟨msg, stack⟩ := record
    simp only [publishLoop] at mem
    cases call : publication stack msg with
    | none =>
      rw [call] at mem
      exact Or.inr (Or.inr (List.mem_singleton.mp mem))
    | some p =>
      simp only [call, List.mem_cons] at mem
      rcases mem with rfl | rfl | mem
      · exact Or.inl ⟨p, rfl⟩
      · exact Or.inr (Or.inl rfl)
      · exact ih mem

theorem silent_publishesLive (start : Start Handle) {calls : List (Call Handle)}
    (silent : ∀ c ∈ calls, ¬ c.Publishes) : PublishesLive start calls := by
  constructor
  · intro before handle p rest split
    exact absurd trivial (silent (.publish handle p) (by simp [split]))
  · exact fun _ => silent

theorem publication_none_iff (stack : Ptr) (msg : PublishMsg) :
    publication stack msg = none ↔ msg.type = .stopThread := by
  unfold publication
  split <;> simp_all

def FirstPublished (records : List (PublishMsg × Ptr)) : Prop :=
  ∃ msg stack rest, records = (msg, stack) :: rest ∧ msg.type ≠ .stopThread

theorem unpublished_silent {records : List (PublishMsg × Ptr)} (first : ¬ FirstPublished records)
    (handle : Option Handle) : ∀ c ∈ publishLoop handle records, ¬ c.Publishes := by
  cases records with
  | nil => simp [publishLoop]
  | cons record rest =>
    obtain ⟨msg, stack⟩ := record
    have stopped : msg.type = .stopThread := by
      by_contra published
      exact first ⟨msg, stack, rest, rfl, published⟩
    simp [publishLoop, (publication_none_iff stack msg).mpr stopped, Call.Publishes]

theorem live_loop {start : Start Handle} (silent : ∀ c ∈ start.calls, ¬ c.Publishes)
    (live : Live start.calls start.gMqttClient) (records : List (PublishMsg × Ptr)) :
    PublishesLive start (start.calls ++ publishLoop start.gMqttClient records) := by
  obtain ⟨result, handle, calls⟩ := start
  dsimp only at silent live ⊢
  constructor
  · intro before used p rest split
    rcases List.append_eq_append_iff.mp split with ⟨done, rfl, loop⟩ | ⟨more, rfl, loop⟩
    · have called : .publish used p ∈ publishLoop handle records := by simp [loop]
      have same : used = handle := by
        rcases mem_publishLoop called with ⟨q, same⟩ | same | same
        · injection same
        · cases same
        · cases same
      rw [same]
      apply live_append live
      intro h closed
      have inLoop : .disconnect h ∈ publishLoop handle records := by simp [loop, closed]
      rcases mem_publishLoop inLoop with ⟨_, same⟩ | same | same <;> cases same
    · cases more with
      | nil =>
        have called : .publish used p ∈ publishLoop handle records := by
          rw [← List.nil_append (publishLoop handle records), ← loop]
          simp
        rcases mem_publishLoop called with ⟨q, same⟩ | same | same
        · injection same with sameHandle
          rw [sameHandle, ← List.append_nil before]
          exact live
        · cases same
        · cases same
      | cons c more =>
        obtain ⟨rfl, _⟩ := List.cons.inj loop
        exact absurd trivial (silent (.publish used p) (by simp))
  · exact fun dead => absurd live dead

theorem loop_live_iff {start : Start Handle} (silent : ∀ c ∈ start.calls, ¬ c.Publishes)
    (records : List (PublishMsg × Ptr)) :
    PublishesLive start (start.calls ++ publishLoop start.gMqttClient records) ↔
      Live start.calls start.gMqttClient ∨ ¬ FirstPublished records := by
  constructor
  · intro publishes
    by_cases first : FirstPublished records
    · left
      obtain ⟨msg, stack, rest, rfl, published⟩ := first
      cases call : publication stack msg with
      | none => exact absurd ((publication_none_iff stack msg).mp call) published
      | some p =>
        simp only [publishLoop, call] at publishes
        exact publishes.live start.calls start.gMqttClient p _ rfl
    · exact Or.inr first
  · rintro (live | unpublished)
    · exact live_loop silent live records
    · apply silent_publishesLive start
      intro c mem
      rcases List.mem_append.mp mem with inStart | inLoop
      · exact silent c inStart
      · exact unpublished_silent unpublished start.gMqttClient c inLoop

theorem start_silent (o : Outcomes Handle) : ∀ c ∈ (mqttClientStart o).calls, ¬ c.Publishes := by
  unfold mqttClientStart
  repeat' split
  all_goals simp [Call.Publishes, subscriptionTopics]

def StartFails (o : Outcomes Handle) : Prop :=
  o.create = none ∨ o.rxThread.attributes ||| o.rxThread.create ≠ 0

theorem start_result (o : Outcomes Handle) : (mqttClientStart o).result = -1 ↔ StartFails o := by
  unfold mqttClientStart StartFails
  cases o.create with
  | none => simp
  | some handle =>
    dsimp only
    split
    · exact iff_of_true rfl (Or.inr ‹_›)
    · rename_i threads
      have started : ¬ (some handle = none ∨ o.rxThread.attributes ||| o.rxThread.create ≠ 0) := by
        rintro (null | failed)
        · cases null
        · exact threads failed
      refine iff_of_false ?_ started
      repeat' split
      all_goals simp

theorem start_live_iff {o : Outcomes Handle} (ap : 0 ≤ o.apConnection) (started : ¬ StartFails o) :
    Live (mqttClientStart o).calls (mqttClientStart o).gMqttClient ↔
      0 ≤ o.connect ∧ 0 ≤ o.subscribe := by
  unfold StartFails at started
  unfold mqttClientStart
  cases created : o.create with
  | none => exact absurd (Or.inl created) started
  | some handle =>
    have threads : ¬ o.rxThread.attributes ||| o.rxThread.create ≠ 0 :=
      fun failed => started (Or.inr failed)
    simp only [if_neg threads, if_pos ap]
    by_cases connect : o.connect < 0
    · rw [if_pos connect]
      refine iff_of_false ?_ (by omega)
      apply unconnected_not_live
      intro h result called
      simp only [List.mem_cons, Call.connect.injEq, reduceCtorEq, List.not_mem_nil, false_or,
        or_false] at called
      rw [called.2]
      exact connect
    · rw [if_neg connect]
      by_cases subscribe : o.subscribe < 0
      · rw [if_pos subscribe]
        refine iff_of_false ?_ (by omega)
        exact disconnected_not_live
          [.create (some handle), .connect handle o.connect,
            .subscribe handle subscriptionTopics o.subscribe, .print (report (lit "Error subscribing\n"))]
          handle
      · rw [if_neg subscribe]
        refine iff_of_true ?_ (by omega)
        refine ⟨handle, [.create (some handle)], o.connect, _, rfl, rfl, ?_, by omega, ?_⟩
        · exact List.mem_singleton.mpr rfl
        · simp [subscriptionTopics]

/-- The outcomes after which every publish is on a live connection, or there is none. -/
def SetUpSound (o : Outcomes Handle) : Prop :=
  (o.mqttThread.attributes ≠ 0 ∨ o.mqttThread.create ≠ 0) ∨
  (0 ≤ o.apConnection ∧ (StartFails o ∨ (0 ≤ o.connect ∧ 0 ≤ o.subscribe)))

theorem publishes_live_iff (o : Outcomes Handle) (records : List (PublishMsg × Ptr)) :
    PublishesLive (setUp o) (mqttStart o records) ↔ SetUpSound o ∨ ¬ FirstPublished records := by
  unfold mqttStart SetUpSound
  by_cases attributes : o.mqttThread.attributes ≠ 0
  · rw [if_pos attributes]
    exact iff_of_true (silent_publishesLive _ (by simp [Call.Publishes]))
      (Or.inl (Or.inl (Or.inl attributes)))
  by_cases thread : o.mqttThread.create ≠ 0
  · rw [if_neg attributes, if_pos thread]
    exact iff_of_true (silent_publishesLive _ (by simp [Call.Publishes]))
      (Or.inl (Or.inl (Or.inr thread)))
  rw [if_neg attributes, if_neg thread, mqttClient, setUp]
  have running : ¬ (o.mqttThread.attributes ≠ 0 ∨ o.mqttThread.create ≠ 0) := by tauto
  by_cases ap : 0 ≤ o.apConnection
  · rw [if_pos ap, if_pos ap]
    by_cases fails : StartFails o
    · simp only [if_pos ((start_result o).mpr fails)]
      refine iff_of_true (silent_publishesLive _ ?_) (Or.inl (Or.inr ⟨ap, Or.inl fails⟩))
      intro c mem
      rcases List.mem_append.mp mem with inStart | last
      · exact start_silent o c inStart
      · simp only [List.mem_cons, List.not_mem_nil, or_false] at last
        rcases last with rfl | rfl <;> exact id
    · have entered : (mqttClientStart o).result ≠ -1 := fun r => fails ((start_result o).mp r)
      simp only [if_neg entered]
      rw [loop_live_iff (start_silent o), start_live_iff ap fails]
      tauto
  · rw [if_neg ap, if_neg ap]
    have unstarted : ∀ c ∈ (⟨0, none, []⟩ : Start Handle).calls, ¬ c.Publishes := by simp
    have dead : ¬ Live ([] : List (Call Handle)) none := by
      apply unconnected_not_live
      intro h result called
      cases called
    have entered := loop_live_iff unstarted records
    rw [List.nil_append] at entered
    rw [entered]
    tauto

theorem publish_without_access_point :
    let outcomes : Outcomes Nat := ⟨-1, ⟨0, 0, 0, 0⟩, some 1, ⟨0, 0, 0, 0⟩, 0, 0⟩
    ¬ PublishesLive (setUp outcomes) (mqttStart outcomes [(publishStatisticsFromISR 0 0, cstr [])]) := by
  intro outcomes publishes
  have entered : mqttStart outcomes [(publishStatisticsFromISR 0 0, cstr [])] =
      publishLoop none [(publishStatisticsFromISR 0 0, cstr [])] := by
    simp [mqttStart, mqttClient, outcomes, ThreadCalls.attributes]
  have called : publication (cstr []) (publishStatisticsFromISR 0 0) =
      some ⟨statisticsTopic, statisticsPayload 0 0⟩ :=
    publication_statistics (by decide) (by decide) _
  rw [entered, publishLoop, called] at publishes
  obtain ⟨h, _, _, _, null, _⟩ := publishes.live [] none _ _ rfl
  cases null

end RoverStartup
