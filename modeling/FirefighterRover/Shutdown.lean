import FirefighterRover.Lib.Scheduling
import FirefighterRover.PublishOrder
import FirefighterRover.Startup
import FirefighterRover.StatusPipeline

/-!
Mqtt_Stop beside the running program. What is queued before the record of stopPublishThread is
still published, nothing behind it ever is, and MqttClient ends. From then on nobody empties
publishQueue, and the threads that fill it block one after the other.
-/
namespace RoverShutdown
open CMemory EventRuns Scheduling BoundedFifo RoverJson RoverQueues RoverState RoverCallback
  RoverCommands RoverCallbackSteps RoverMqttClient RoverSystem RoverPublishPath RoverPublishOrder
  RoverStartup RoverStatusPipeline

inductive StopCall where
  | unsubscribe (topics : List String)
  | print (line : List UInt8)
  | delete
  | stopPublishThread
  | slStop (timeout : Nat)
  deriving DecidableEq, Repr

def mqttClientStop (_ : Nat) : List StopCall :=
  .unsubscribe subscriptionTopics ::
    subscriptionTopics.map (fun topic =>
      .print (report (lit "Unsubscribed from the topic " ++ lit topic ++ lit "\r\n"))) ++ [.delete]

def slStopTimeout : Nat := 200

def mqttStop (gApConnectionState : Int) : List StopCall :=
  (if 0 ≤ gApConnectionState then mqttClientStop 1 else []) ++ [.stopPublishThread, .slStop slStopTimeout]

/-- The program and a thread that calls Mqtt_Stop, with the calls it has yet to make and those
    it has made. MQTT events may still arrive after MQTTClient_delete. -/
structure Program where
  system : System
  stopping : List StopCall
  calls : List StopCall

def Program.boot : Program := ⟨.boot, [], []⟩

inductive Turn where
  | act (a : Act)
  | mqttStop (gApConnectionState : Int)
  | stopper

def queueStop (σ : System) : System :=
  { σ with publishQueue := σ.publishQueue ++ [stopPublishThread] }

def stopperStep (p : Program) : Program :=
  match p.stopping with
  | [] => p
  | .stopPublishThread :: rest =>
    if HasRoom queueLength p.system.publishQueue then
      ⟨queueStop p.system, rest, p.calls ++ [.stopPublishThread]⟩
    else p
  | call :: rest => ⟨p.system, rest, p.calls ++ [call]⟩

def perform (p : Program) : Turn → Program
  | .act a => { p with system := step p.system a }
  | .mqttStop gApConnectionState =>
    match p.stopping with
    | [] => { p with stopping := mqttStop gApConnectionState }
    | _ :: _ => p
  | .stopper => stopperStep p

def reached (turns : List Turn) : Program := run perform .boot turns

def arrival (p : Program) : Turn → Option PublishMsg
  | .act a => admission p.system a
  | .mqttStop _ => none
  | .stopper =>
    match p.stopping with
    | .stopPublishThread :: _ =>
      if HasRoom queueLength p.system.publishQueue then some stopPublishThread else none
    | _ => none

def arrived (turns : List Turn) : List PublishMsg := trace perform arrival .boot turns

inductive Move (p : Program) : Turn → Prop where
  | act (a : Act) : Move p (.act a)
  | aside {t : Turn} (same : (perform p t).system = p.system) (silent : arrival p t = none)
      (unsent : .stopPublishThread ∈ (perform p t).calls → .stopPublishThread ∈ p.calls) : Move p t
  | send (room : HasRoom queueLength p.system.publishQueue)
      (sent : (perform p .stopper).system = queueStop p.system)
      (queued : arrival p .stopper = some stopPublishThread) : Move p .stopper

theorem perform_move (p : Program) (t : Turn) : Move p t := by
  cases t with
  | act a => exact .act a
  | mqttStop gApConnectionState =>
    have same : (perform p (.mqttStop gApConnectionState)).system = p.system ∧
        (perform p (.mqttStop gApConnectionState)).calls = p.calls := by
      simp only [perform]
      split <;> exact ⟨rfl, rfl⟩
    exact .aside same.1 rfl (by rw [same.2]; exact id)
  | stopper =>
    obtain ⟨σ, stopping, calls⟩ := p
    rcases stopping with _ | ⟨call, rest⟩
    · exact .aside rfl rfl id
    · cases call with
      | stopPublishThread =>
        by_cases room : HasRoom queueLength σ.publishQueue
        · exact .send room (by simp [perform, stopperStep, room]) (if_pos room)
        · exact .aside (by simp [perform, stopperStep, room]) (if_neg room)
            (by simp [perform, stopperStep, room])
      | _ => exact .aside rfl rfl (by simp [perform, stopperStep])

theorem throughout (inv : System → Prop) (start : inv .boot)
    (kept : ∀ σ a τ, inv σ → Change σ a τ → inv τ)
    (queued : ∀ σ, HasRoom queueLength σ.publishQueue → inv σ → inv (queueStop σ))
    (turns : List Turn) : inv (reached turns).system := by
  apply run_invariant (fun p : Program => inv p.system) _ turns .boot start
  intro p t holds
  cases perform_move p t with
  | act a => exact kept p.system a _ holds (step_change p.system a)
  | aside same =>
    rw [same]
    exact holds
  | send room sent =>
    rw [sent]
    exact queued p.system room holds

theorem always_counters (turns : List Turn) : Counters (reached turns).system :=
  throughout Counters ⟨by decide, by decide⟩ change_counters
    (fun _ _ counters => ⟨counters.attempts, counters.successes⟩) turns

theorem arrived_concat (turns : List Turn) (t : Turn) :
    arrived (turns ++ [t]) = arrived turns ++ (arrival (reached turns) t).toList :=
  trace_concat perform arrival turns t .boot

theorem reached_concat (turns : List Turn) (t : Turn) :
    reached (turns ++ [t]) = perform (reached turns) t :=
  run_concat perform .boot turns t

def Canonical (msg : PublishMsg) : Prop := ∀ stack, publication stack msg = publicationOf msg

theorem genuine_canonical {msg : PublishMsg} (genuine : Genuine msg) : Canonical msg := by
  intro stack
  obtain ⟨p, call, canonical⟩ := genuine_publication genuine stack
  rw [call, publicationOf, canonical]

theorem admission_canonical {σ : System} {a : Act} {msg : PublishMsg} (counters : Counters σ)
    (queued : admission σ a = some msg) : Canonical msg := by
  apply genuine_canonical
  cases a with
  | mainThread =>
    cases now : σ.main with
    | waiting => simp [admission, now] at queued
    | holding status =>
      simp only [admission, now, Option.ite_none_right_eq_some, Option.some.injEq] at queued
      rw [← queued.2]
      exact .status status
  | statisticsTimer =>
    simp only [admission, Option.ite_none_right_eq_some, Option.some.injEq] at queued
    rw [← queued.2]
    exact .statistics (attempts_isInt32 counters) (successes_isInt32 counters)
  | genInfoTimer =>
    simp only [admission, Option.ite_none_right_eq_some, Option.some.injEq] at queued
    rw [← queued.2]
    exact .general _ (getSpeed_isInt32 _)
  | _ => simp [admission] at queued

theorem arrived_canonical (turns : List Turn) : ∀ msg ∈ arrived turns, Canonical msg := by
  induction turns using List.reverseRecOn with
  | nil => intro msg member; cases member
  | append_singleton turns t ih =>
    intro msg member
    rw [arrived_concat, List.mem_append, Option.mem_toList] at member
    rcases member with earlier | queued
    · exact ih msg earlier
    · cases perform_move (reached turns) t with
      | act a => exact admission_canonical (always_counters turns) queued
      | aside _ silent =>
        rw [silent] at queued
        cases queued
      | send _ _ stop =>
        rw [stop] at queued
        obtain rfl := Option.some.inj queued
        intro stack
        rfl

def isStop (msg : PublishMsg) : Bool := msg.type == .stopThread

theorem publicationOf_stop (msg : PublishMsg) : publicationOf msg = none ↔ isStop msg = true := by
  rw [publicationOf, publication_none_iff, isStop, beq_iff_eq]

def Turn.isClient : Turn → Bool
  | .act (.mqttClient _) => true
  | _ => false

theorem client_turn {t : Turn} (who : t.isClient = true) :
    ∃ stack, t = .act (.mqttClient stack) := by
  unfold Turn.isClient at who
  split at who
  · exact ⟨_, rfl⟩
  · cases who

theorem turn_outside (p : Program) (t : Turn) (other : t.isClient = false) :
    Outside p.system (perform p t).system (arrival p t) := by
  cases perform_move p t with
  | act a =>
    apply step_outside p.system a
    rintro stack rfl
    cases other
  | aside same silent =>
    rw [same, silent]
    exact ⟨rfl, rfl, (List.append_nil _).symm⟩
  | send _ sent queued =>
    rw [sent, queued]
    exact ⟨rfl, rfl, rfl⟩

inductive InHand : Publisher → List PublishMsg → Prop where
  | waiting : InHand .waiting []
  | publishing : InHand .publishing []
  | holding (msg : PublishMsg) : InHand (.holding msg) [msg]
  | exited {msg : PublishMsg} (stop : isStop msg = true) : InHand .exited [msg]

/-- All records that found room: those published, the one in hand and those still queued. -/
structure Passage (σ : System) (records out hand : List PublishMsg) : Prop where
  records : records = out ++ (hand ++ σ.publishQueue)
  inHand : InHand σ.publisher hand
  published : σ.published.map some = out.map publicationOf

theorem outside_passage {σ τ : System} {queued : Option PublishMsg}
    {records out hand : List PublishMsg} (outside : Outside σ τ queued)
    (passage : Passage σ records out hand) : Passage τ (records ++ queued.toList) out hand := by
  constructor
  · rw [passage.records, outside.queue, List.append_assoc, List.append_assoc]
  · rw [outside.publisher]
    exact passage.inHand
  · rw [outside.published]
    exact passage.published

theorem client_passage {σ τ : System} {stack : Ptr} {records out hand : List PublishMsg}
    (canonical : ∀ msg ∈ records, Canonical msg) (passage : Passage σ records out hand)
    (change : Change σ (.mqttClient stack) τ) :
    ∃ out' hand', Passage τ records out' hand' := by
  obtain ⟨split, inHand, published⟩ := passage
  cases change with
  | blocked => exact ⟨out, hand, split, inHand, published⟩
  | @clientReceive msg rest _ waiting first =>
    rw [waiting] at inHand
    cases inHand
    exact ⟨out, [msg], by rw [split, first]; rfl, .holding msg, published⟩
  | @clientPublish msg _ q holding call =>
    rw [holding] at inHand
    cases inHand
    have wire : publicationOf msg = some q := by
      rw [← canonical msg (by simp [split]) stack, call]
    refine ⟨out ++ [msg], [], ?_, .publishing, ?_⟩
    · rw [split, List.append_assoc]
      rfl
    · simp [published, wire]
  | @clientExit msg _ holding stopped =>
    rw [holding] at inHand
    cases inHand
    have stop : isStop msg = true := by
      rw [← publicationOf_stop, ← canonical msg (by simp [split]) stack, stopped]
    exact ⟨out, [msg], split, .exited stop, published⟩
  | clientCount _ publishing =>
    rw [publishing] at inHand
    cases inHand
    exact ⟨out, [], split, .waiting, published⟩

theorem always_passage (turns : List Turn) :
    ∃ out hand, Passage (reached turns).system (arrived turns) out hand := by
  induction turns using List.reverseRecOn with
  | nil => exact ⟨[], [], rfl, .waiting, rfl⟩
  | append_singleton turns t ih =>
    obtain ⟨out, hand, passage⟩ := ih
    rw [reached_concat, arrived_concat]
    cases who : t.isClient with
    | false => exact ⟨out, hand, outside_passage (turn_outside _ t who) passage⟩
    | true =>
      obtain ⟨stack, rfl⟩ := client_turn who
      simp only [arrival, admission, Option.toList_none, List.append_nil]
      exact client_passage (arrived_canonical turns) passage
        (mqttClient_change stack (reached turns).system)

theorem out_publishes {σ : System} {records out hand : List PublishMsg}
    (passage : Passage σ records out hand) : ∀ msg ∈ out, isStop msg = false := by
  intro msg member
  cases stop : isStop msg with
  | false => rfl
  | true =>
    have none_published : none ∈ σ.published.map some := by
      rw [passage.published, ← (publicationOf_stop msg).mpr stop]
      exact List.mem_map_of_mem member
    simp at none_published

def beforeStop (records : List PublishMsg) : List PublishMsg := records.takeWhile (!isStop ·)

theorem beforeStop_append {out rest : List PublishMsg} (publishes : ∀ msg ∈ out, isStop msg = false) :
    beforeStop (out ++ rest) = out ++ beforeStop rest :=
  List.takeWhile_append_of_pos (by simpa using publishes)

/-- While MqttClient runs, it publishes what found room in publishQueue, in order. It ends at the
    first stop record, and then everything in front of that has been published and nothing else. -/
theorem published_before_stop (turns : List Turn) :
    let σ := (reached turns).system
    (σ.publisher ≠ .exited → σ.published.map some ++
      (σ.held ++ σ.publishQueue).map publicationOf = (arrived turns).map publicationOf) ∧
    (σ.publisher = .exited → ∃ stop ∈ arrived turns, isStop stop = true ∧
      σ.published.map some = (beforeStop (arrived turns)).map publicationOf) := by
  obtain ⟨out, hand, passage⟩ := always_passage turns
  have publishes := out_publishes passage
  obtain ⟨split, inHand, published⟩ := passage
  constructor
  · intro runs
    have held : hand = (reached turns).system.held := by
      unfold System.held
      generalize (reached turns).system.publisher = publisher at inHand runs
      cases inHand with
      | exited => exact absurd rfl runs
      | _ => rfl
    rw [published, split, held, ← List.map_append]
  · intro ended
    rw [ended] at inHand
    cases inHand with
    | @exited msg stop =>
      refine ⟨msg, by simp [split], stop, ?_⟩
      have first : beforeStop ([msg] ++ (reached turns).system.publishQueue) = [] := by
        simp [beforeStop, stop]
      rw [published, split, beforeStop_append publishes, first, List.append_nil]

theorem published_before_stop_between :
    let client := Turn.act (.mqttClient fun _ => 0)
    let turns := [.act .genInfoTimer, .mqttStop (-1), .stopper, .act .statisticsTimer] ++
      List.replicate 5 client
    (reached turns).system.published.map some =
      (beforeStop (arrived turns)).map publicationOf := by
  intro client turns
  obtain ⟨_, _, _, published⟩ := (published_before_stop turns).2 rfl
  exact published

def Stopping (σ : System) : Prop :=
  σ.publisher = .exited ∨ ∃ msg ∈ σ.held ++ σ.publishQueue, isStop msg = true

def ahead (σ : System) : List PublishMsg :=
  match σ.publisher with
  | .exited => []
  | _ => beforeStop (σ.held ++ σ.publishQueue)

def phase : Publisher → Nat
  | .waiting => 2
  | .holding _ => 1
  | .publishing => 3
  | .exited => 0

def turnsLeft (σ : System) : Nat := 3 * (ahead σ).length + phase σ.publisher

theorem beforeStop_of_mem {records : List PublishMsg} (more : List PublishMsg) :
    (∃ msg ∈ records, isStop msg = true) → beforeStop (records ++ more) = beforeStop records ∧
      (beforeStop records).length < records.length := by
  induction records with
  | nil =>
    rintro ⟨msg, member, _⟩
    cases member
  | cons first rest ih =>
    rintro ⟨msg, member, stop⟩
    rw [beforeStop, beforeStop, List.cons_append]
    by_cases here : isStop first = true
    · simp [here]
    · rcases List.mem_cons.mp member with rfl | later
      · exact absurd stop here
      · obtain ⟨same, shorter⟩ := ih ⟨msg, later, stop⟩
        rw [beforeStop, beforeStop] at same
        rw [beforeStop] at shorter
        rw [List.takeWhile_cons_of_pos (by simpa using here),
          List.takeWhile_cons_of_pos (by simpa using here), same]
        exact ⟨rfl, Nat.succ_lt_succ shorter⟩

theorem outside_stopping {σ τ : System} {queued : Option PublishMsg} (stopping : Stopping σ)
    (outside : Outside σ τ queued) :
    Stopping τ ∧ turnsLeft τ = turnsLeft σ ∧ ahead τ = ahead σ := by
  have line : τ.held ++ τ.publishQueue = (σ.held ++ σ.publishQueue) ++ queued.toList := by
    rw [outside_held outside, outside.queue, List.append_assoc]
  have same : ahead τ = ahead σ := by
    rw [ahead, ahead, outside.publisher, line]
    rcases stopping with ended | coming
    · rw [ended]
    · rw [(beforeStop_of_mem queued.toList coming).1]
  refine ⟨?_, by rw [turnsLeft, turnsLeft, same, outside.publisher], same⟩
  rcases stopping with ended | ⟨msg, member, stop⟩
  · exact Or.inl (outside.publisher.trans ended)
  · refine Or.inr ⟨msg, ?_, stop⟩
    rw [line]
    exact List.mem_append_left _ member

theorem client_stopping (stack : Ptr) {σ : System} (stopping : Stopping σ) :
    Stopping (mqttClientStep stack σ) ∧
    turnsLeft (mqttClientStep stack σ) = turnsLeft σ - 1 ∧
    (mqttClientStep stack σ).published.length + (ahead (mqttClientStep stack σ)).length =
      σ.published.length + (ahead σ).length := by
  unfold mqttClientStep
  cases now : σ.publisher with
  | waiting =>
    cases queue : σ.publishQueue with
    | nil => simp [Stopping, System.held, now, queue] at stopping
    | cons msg rest =>
      have coming : ∃ x ∈ msg :: rest, isStop x = true := by
        simpa [Stopping, System.held, now, queue] using stopping
      refine ⟨Or.inr coming, ?_, ?_⟩ <;> simp [turnsLeft, ahead, phase, System.held, now, queue]
  | holding msg =>
    have coming : ∃ x ∈ msg :: σ.publishQueue, isStop x = true := by
      simpa only [Stopping, System.held, now, List.singleton_append, reduceCtorEq, false_or]
        using stopping
    cases call : publication stack msg with
    | none =>
      have stop : isStop msg = true := by
        rw [isStop, beq_iff_eq, ← publication_none_iff stack, call]
      simp only [call]
      refine ⟨Or.inl rfl, ?_, ?_⟩ <;>
        simp [turnsLeft, ahead, phase, System.held, now, beforeStop, stop]
    | some p =>
      have publishes : isStop msg = false := by
        rw [← Bool.not_eq_true, isStop, beq_iff_eq, ← publication_none_iff stack, call]
        exact Option.some_ne_none p
      have later : ∃ x ∈ σ.publishQueue, isStop x = true := by
        obtain ⟨x, member, stop⟩ := coming
        rcases List.mem_cons.mp member with rfl | behind
        · rw [publishes] at stop
          cases stop
        · exact ⟨x, behind, stop⟩
      simp only [call]
      refine ⟨Or.inr later, ?_, ?_⟩ <;>
        simp [turnsLeft, ahead, phase, System.held, now, beforeStop, publishes] <;> omega
  | publishing =>
    have coming : ∃ x ∈ σ.publishQueue, isStop x = true := by
      simpa [Stopping, System.held, now] using stopping
    refine ⟨Or.inr coming, ?_, ?_⟩ <;> simp [turnsLeft, ahead, phase, System.held, now]
  | exited => refine ⟨Or.inl now, ?_, rfl⟩; simp [turnsLeft, ahead, phase, now]

theorem turn_stopping (p : Program) (t : Turn) (stopping : Stopping p.system) :
    Stopping (perform p t).system ∧
    turnsLeft (perform p t).system = turnsLeft p.system - t.isClient.toNat ∧
    (perform p t).system.published.length + (ahead (perform p t).system).length =
      p.system.published.length + (ahead p.system).length := by
  cases who : t.isClient with
  | false =>
    have outside := turn_outside p t who
    obtain ⟨still, turns, same⟩ := outside_stopping stopping outside
    exact ⟨still, turns, by rw [same, outside.published]⟩
  | true =>
    obtain ⟨stack, rfl⟩ := client_turn who
    exact client_stopping stack stopping

theorem turns_countdown : Countdown perform (fun p => Stopping p.system)
    (fun p => turnsLeft p.system) Turn.isClient := by
  constructor
  · intro p t stopping
    exact (turn_stopping p t stopping).1
  · intro p t stopping
    exact Nat.le_of_eq (turn_stopping p t stopping).2.1

theorem run_stopping (turns : List Turn) {p : Program} (stopping : Stopping p.system) :
    Stopping (run perform p turns).system ∧
    (run perform p turns).system.published.length + (ahead (run perform p turns).system).length =
      p.system.published.length + (ahead p.system).length := by
  induction turns using List.reverseRecOn with
  | nil => exact ⟨stopping, rfl⟩
  | append_singleton turns t ih =>
    obtain ⟨still, _, account⟩ := turn_stopping (run perform p turns) t ih.1
    rw [run_concat]
    exact ⟨still, account.trans ih.2⟩

theorem always_bounded (turns : List Turn) : Bounded (reached turns).system := by
  refine throughout Bounded ⟨by decide, by decide⟩ change_bounded ?_ turns
  intro σ room bounded
  refine ⟨bounded.mainQueue, ?_⟩
  simp only [HasRoom] at room
  simp only [queueStop, List.length_append, List.length_singleton]
  omega

theorem turns_bound {σ : System} (bounded : Bounded σ) (stopping : Stopping σ) :
    (ahead σ).length ≤ queueLength ∧ turnsLeft σ ≤ 3 * queueLength + 1 := by
  have queue := bounded.publishQueue
  rcases stopping with ended | coming
  · simp [turnsLeft, ahead, phase, ended]
  · have shorter := (beforeStop_of_mem [] coming).2
    rw [List.length_append] at shorter
    cases now : σ.publisher with
    | exited => simp [turnsLeft, ahead, phase, now]
    | holding msg =>
      simp only [System.held, now, List.length_singleton] at shorter
      simp only [turnsLeft, ahead, phase, System.held, now]
      omega
    | _ =>
      simp only [System.held, now, List.length_nil] at shorter
      simp only [turnsLeft, ahead, phase, System.held, now]
      omega

theorem sent_arrived (turns : List Turn) :
    .stopPublishThread ∈ (reached turns).calls → ∃ msg ∈ arrived turns, isStop msg = true := by
  induction turns using List.reverseRecOn with
  | nil => intro sent; cases sent
  | append_singleton turns t ih =>
    rw [reached_concat, arrived_concat]
    intro sent
    have earlier (before : .stopPublishThread ∈ (reached turns).calls) :
        ∃ msg ∈ arrived turns ++ (arrival (reached turns) t).toList, isStop msg = true := by
      obtain ⟨msg, member, stop⟩ := ih before
      exact ⟨msg, List.mem_append_left _ member, stop⟩
    cases perform_move (reached turns) t with
    | act a => exact earlier sent
    | aside _ _ unsent => exact earlier (unsent sent)
    | send _ _ queued => exact ⟨stopPublishThread, by simp [queued], rfl⟩

theorem sent_stopping {turns : List Turn}
    (sent : .stopPublishThread ∈ (reached turns).calls) : Stopping (reached turns).system := by
  obtain ⟨out, hand, passage⟩ := always_passage turns
  obtain ⟨msg, member, stop⟩ := sent_arrived turns sent
  rw [passage.records] at member
  rcases List.mem_append.mp member with gone | coming
  · rw [out_publishes passage msg gone] at stop
    cases stop
  · have inHand := passage.inHand
    unfold Stopping System.held
    generalize (reached turns).system.publisher = publisher at inHand
    cases inHand with
    | exited => exact Or.inl rfl
    | _ => exact Or.inr ⟨msg, coming, stop⟩

/-- Once the send in stopPublishThread has returned, at most ten more records are published,
    whatever arrives. After 31 turns MqttClient has ended, and has published exactly what was
    queued in front of the stop record. -/
theorem stop_ends_publishing (turns more : List Turn)
    (sent : .stopPublishThread ∈ (reached turns).calls) :
    let σ := (reached turns).system
    let τ := (reached (turns ++ more)).system
    τ.published.length ≤ σ.published.length + queueLength ∧
    (3 * queueLength + 1 ≤ more.countP Turn.isClient → τ.publisher = .exited ∧
      τ.published.map some = (beforeStop (arrived turns)).map publicationOf) := by
  intro σ τ
  have stopping : Stopping σ := sent_stopping sent
  obtain ⟨few, soon⟩ : (ahead σ).length ≤ queueLength ∧ turnsLeft σ ≤ 3 * queueLength + 1 :=
    turns_bound (always_bounded turns) stopping
  have onward : reached (turns ++ more) = run perform (reached turns) more :=
    run_append perform .boot turns more
  have account : τ.published.length + (ahead τ).length = σ.published.length + (ahead σ).length := by
    simp only [τ, onward]
    exact (run_stopping more stopping).2
  have left : turnsLeft τ ≤ turnsLeft σ - more.countP Turn.isClient := by
    simp only [τ, onward]
    exact countdown_run turns_countdown more (reached turns) stopping
  refine ⟨by omega, ?_⟩
  intro enough
  have spent : turnsLeft τ = 0 := by omega
  have ended : τ.publisher = .exited := by
    cases now : τ.publisher with
    | exited => rfl
    | _ => simp [turnsLeft, phase, now] at spent
  obtain ⟨_, _, _, published⟩ := (published_before_stop (turns ++ more)).2 ended
  refine ⟨ended, ?_⟩
  rw [published, arrived, trace_append]
  exact congrArg _ (beforeStop_of_mem _ (sent_arrived turns sent)).1

theorem stop_ends_publishing_between :
    let turns := [Turn.act .genInfoTimer, .mqttStop (-1), .stopper]
    let more := Turn.act .statisticsTimer :: List.replicate 31 (.act (.mqttClient fun _ => 0))
    let σ := (reached turns).system
    let τ := (reached (turns ++ more)).system
    τ.published.length ≤ σ.published.length + queueLength ∧ τ.publisher = .exited ∧
      τ.published.map some = (beforeStop (arrived turns)).map publicationOf := by
  intro turns more σ τ
  have ends := stop_ends_publishing turns more (by decide)
  exact ⟨ends.1, ends.2 (by decide)⟩

def statuses (σ : System) : Nat := (σ.delivered.filterMap statusCommand).length

def waiting (σ : System) : Nat := (upstream σ).length + σ.publishQueue.length

def OneReport (σ : System) : Prop := (callbackHeld σ).length ≤ 1

theorem change_oneReport (σ : System) (a : Act) (τ : System) (one : OneReport σ)
    (change : Change σ a τ) : OneReport τ := by
  cases change with
  | deliver event idle =>
    simp only [OneReport, callbackHeld, (callbackOps_accounts _ event).1]
    cases statusCommand event with
    | none => exact Nat.zero_le 1
    | some status => exact Nat.le_refl 1
  | returns done => exact Nat.zero_le 1
  | op next _ _ | puback next | updateStatus next _ =>
    simp only [OneReport, callbackHeld, next] at one ⊢
    exact Nat.le_trans ((List.sublist_cons_self _ _).filterMap _).length_le one
  | _ => exact one

theorem waiting_bound (turns : List Turn) :
    waiting (reached turns).system ≤ 2 * queueLength + 2 := by
  have one : OneReport (reached turns).system :=
    throughout OneReport (Nat.zero_le 1) change_oneReport (fun _ _ one => one) turns
  obtain ⟨mainQueue, publishQueue⟩ := always_bounded turns
  have held : (mainHeld (reached turns).system).length ≤ 1 := by
    unfold mainHeld
    split
    · exact Nat.le_refl 1
    · exact Nat.zero_le 1
  simp only [OneReport] at one
  simp only [waiting, upstream, List.length_append, List.length_map]
  omega

theorem offer_grows (queue : List PublishMsg) (msg : PublishMsg) :
    queue.length ≤ (offer queueLength queue msg).length := by
  rw [offer_toList, List.length_append]
  exact Nat.le_add_right _ _

structure Backed (σ τ : System) : Prop where
  ended : τ.publisher = .exited
  published : τ.published = σ.published
  backed : statuses τ + waiting σ ≤ statuses σ + waiting τ

theorem change_backed {σ τ : System} {a : Act} (ended : σ.publisher = .exited)
    (change : Change σ a τ) : Backed σ τ := by
  cases change with
  | clientReceive _ waits | clientPublish _ waits | clientExit _ waits | clientCount _ waits =>
    rw [waits] at ended
    cases ended
  | deliver event idle =>
    refine ⟨ended, rfl, ?_⟩
    simp only [statuses, waiting, upstream, mainHeld, callbackHeld, idle, List.filterMap_append,
      (callbackOps_accounts _ event).1, List.length_append, List.length_nil]
    cases found : statusCommand event with
    | none => simp [found]
    | some status =>
      simp [found]
      omega
  | returns done =>
    refine ⟨ended, rfl, Nat.le_of_eq ?_⟩
    simp [statuses, waiting, upstream, mainHeld, callbackHeld, done]
  | @op _ _ op _ next other _ =>
    refine ⟨ended, rfl, Nat.le_of_eq ?_⟩
    have silent : op.status = none := by
      cases op with
      | updateStatus status => exact absurd rfl (other status)
      | _ => rfl
    simp [statuses, waiting, upstream, mainHeld, callbackHeld, next, silent]
  | puback next =>
    refine ⟨ended, rfl, Nat.le_of_eq ?_⟩
    simp [statuses, waiting, upstream, mainHeld, callbackHeld, next]
    rfl
  | updateStatus next room =>
    refine ⟨ended, rfl, Nat.le_of_eq ?_⟩
    simp [statuses, waiting, upstream, mainHeld, callbackHeld, next, Op.status]
  | mainReceive waits first =>
    refine ⟨ended, rfl, Nat.le_of_eq ?_⟩
    simp [statuses, waiting, upstream, mainHeld, waits, first, callbackHeld]
  | mainSend holding room =>
    refine ⟨ended, rfl, Nat.le_of_eq ?_⟩
    simp [statuses, waiting, upstream, mainHeld, holding, callbackHeld]
    omega
  | statistics =>
    refine ⟨ended, rfl, Nat.add_le_add_left (Nat.add_le_add_left ?_ _) _⟩
    exact offer_grows _ _
  | general =>
    refine ⟨ended, rfl, Nat.add_le_add_left (Nat.add_le_add_left ?_ _) _⟩
    exact offer_grows _ _
  | blocked => exact ⟨ended, rfl, Nat.le_refl _⟩

theorem turn_backed (p : Program) (t : Turn) (ended : p.system.publisher = .exited) :
    Backed p.system (perform p t).system := by
  cases perform_move p t with
  | act a => exact change_backed ended (step_change p.system a)
  | aside same =>
    rw [same]
    exact ⟨ended, rfl, Nat.le_refl _⟩
  | send _ sent =>
    rw [sent]
    refine ⟨ended, rfl, Nat.add_le_add_left (Nat.add_le_add_left ?_ _) _⟩
    simp [queueStop]

theorem run_backed (turns : List Turn) {p : Program} (ended : p.system.publisher = .exited) :
    Backed p.system (run perform p turns).system := by
  induction turns using List.reverseRecOn with
  | nil => exact ⟨ended, rfl, Nat.le_refl _⟩
  | append_singleton turns t ih =>
    have last := turn_backed (run perform p turns) t ih.ended
    have before := ih.backed
    have now := last.backed
    rw [run_concat]
    exact ⟨last.ended, last.published.trans ih.published, by omega⟩

/-- Once MqttClient has ended nothing is published any more, and of the status commands behind it
    at most 22 are ever taken from the MQTT library, fewer when something already waits: then the
    callback does not return again. -/
theorem ended_blocks (turns more : List Turn)
    (ended : (reached turns).system.publisher = .exited) :
    let σ := (reached turns).system
    let τ := (reached (turns ++ more)).system
    τ.published = σ.published ∧
      statuses τ + waiting σ ≤ statuses σ + (2 * queueLength + 2) := by
  intro σ τ
  have onward : reached (turns ++ more) = run perform (reached turns) more :=
    run_append perform .boot turns more
  have backed : Backed σ τ := by
    simp only [τ, onward]
    exact run_backed more ended
  have bound : waiting τ ≤ 2 * queueLength + 2 := waiting_bound (turns ++ more)
  have grown := backed.backed
  exact ⟨backed.published, by omega⟩

def startCommand : Event :=
  .recv ⟨cstr (lit "firefighter/status"), 18, cstr (lit "\x7b\"status\":\"start\"\x7d"), 18,
    fun _ => ⟨.undefined, 0, 0, 0⟩⟩

def commandTurns : List Turn :=
  [.act (.deliver startCommand), .act .receiver, .act .receiver, .act .receiver, .act .mainThread,
    .act .mainThread]

set_option maxRecDepth 4000 in
theorem ended_blocks_commands :
    let turns := [Turn.mqttStop (-1), .stopper, .act (.mqttClient fun _ => 0),
      .act (.mqttClient fun _ => 0)]
    let more := (List.replicate 24 commandTurns).flatten
    statuses (reached (turns ++ more)).system = 22 ∧
    (reached (turns ++ more)).system.published = (reached turns).system.published ∧
      statuses (reached (turns ++ more)).system + waiting (reached turns).system ≤
        statuses (reached turns).system + 22 := by
  intro turns more
  constructor
  · decide +kernel
  · exact ended_blocks turns more rfl

end RoverShutdown
