import FirefighterRover.Lib.Scheduling
import FirefighterRover.PublishOrder
import FirefighterRover.StatusPipeline
import FirefighterRover.Statistics

/-!
The program never deadlocks: as long as its threads are scheduled it works off what events and
interrupts have left it, within a number of rounds known in advance, and all of it is published.
-/
namespace RoverDraining
open CMemory EventRuns Scheduling BoundedFifo RoverQueues RoverState RoverCallback RoverCommands
  RoverCallbackSteps RoverMqttClient RoverSystem RoverPublishPath RoverPublishOrder
  RoverStatusPipeline RoverStatistics

def recordSteps : Nat := 3

def publisherSteps : Publisher → Nat
  | .waiting => 0
  | .holding _ => 2
  | .publishing => 1
  | .exited => 0

def mainSteps : MainThread → Nat
  | .waiting => 0
  | .holding _ => 1 + recordSteps

def statusSteps : Nat := 2 + recordSteps

def opSteps (op : Op) : Nat :=
  match op.status with
  | none => 1
  | some _ => 1 + statusSteps

def opsSteps (ops : List Op) : Nat := totalWork opSteps ops

def receiverSteps : Receiver → Nat
  | .idle => 0
  | .running _ _ rest => opsSteps rest + 1

def backlog (σ : System) : Nat :=
  receiverSteps σ.receiver + statusSteps * σ.mainQueue.length + mainSteps σ.main +
    recordSteps * σ.publishQueue.length + publisherSteps σ.publisher

/-- What the environment adds to the backlog, and the step it does so in. -/
def work : Act → Nat
  | .deliver event => opsSteps (callbackOps .none event) + 2
  | .statisticsTimer => recordSteps + 1
  | .genInfoTimer => recordSteps + 1
  | _ => 0

theorem opsSteps_append (a b : List Op) : opsSteps (a ++ b) = opsSteps a + opsSteps b :=
  totalWork_append opSteps a b

theorem moveRover_steps (d : Direction) :
    opsSteps (moveRoverOps d) = opsSteps (moveRoverOps .none) := by
  cases d <;> rfl

theorem callback_steps (dir : Direction) (event : Event) :
    opsSteps (callbackOps dir event) = opsSteps (callbackOps .none event) := by
  cases event with
  | recv msg =>
    simp only [callbackOps]
    cases dispatch msg with
    | speed =>
      simp only [speedOps]
      cases checkPayload msg (lit "speed") with
      | error r => cases r <;> rfl
      | ok value =>
        dsimp only
        rw [opsSteps_append, opsSteps_append, moveRover_steps]
    | _ => rfl
  | _ => rfl

theorem offer_steps (queue : List PublishMsg) (msg : PublishMsg) :
    (offer queueLength queue msg).length ≤ queue.length + 1 := by
  rcases offer_cases queueLength queue msg with sent | dropped
  · rw [sent, List.length_append, List.length_singleton]
  · rw [dropped]
    exact Nat.le_succ _

theorem change_paid {σ τ : System} {a : Act} (change : Change σ a τ) :
    τ = σ ∨ backlog τ < backlog σ + work a := by
  cases change with
  | blocked => exact Or.inl rfl
  | deliver event idle =>
    right
    simp only [backlog, receiverSteps, idle, work, callback_steps]
    omega
  | returns done =>
    right
    simp only [backlog, receiverSteps, done, opsSteps, totalWork, work]
    omega
  | @op _ _ op _ next other _ =>
    right
    have silent : op.status = none := by
      cases op with
      | updateStatus status => exact absurd rfl (other status)
      | _ => rfl
    simp only [backlog, receiverSteps, next, opsSteps, totalWork, opSteps, silent, work]
    omega
  | puback next =>
    right
    simp only [backlog, receiverSteps, next, opsSteps, totalWork, opSteps, Op.status, work]
    omega
  | updateStatus next room =>
    right
    simp only [backlog, receiverSteps, next, opsSteps, totalWork, opSteps, Op.status, work,
      List.length_append, List.length_singleton, Nat.mul_add]
    omega
  | mainReceive waiting first =>
    right
    simp only [backlog, mainSteps, waiting, first, statusSteps, work, List.length_cons, Nat.mul_add]
    omega
  | mainSend holding room =>
    right
    simp only [backlog, mainSteps, holding, work, List.length_append, List.length_singleton,
      Nat.mul_add]
    omega
  | clientReceive stack waiting first =>
    right
    simp only [backlog, publisherSteps, waiting, first, recordSteps, work, List.length_cons]
    omega
  | clientPublish stack holding call =>
    right
    simp only [backlog, publisherSteps, holding, work]
    omega
  | clientExit stack holding stopped =>
    right
    simp only [backlog, publisherSteps, holding, work]
    omega
  | clientCount stack publishing =>
    right
    simp only [backlog, publisherSteps, publishing, work]
    omega
  | statistics =>
    right
    have queued := offer_steps σ.publishQueue
      (publishStatisticsFromISR σ.publishAttempts σ.publishSuccesses)
    simp only [backlog, statisticsTimerCallback, recordSteps, work]
    omega
  | general =>
    right
    have queued := offer_steps σ.publishQueue
      (publishGeneralMessageFromISR (getSpeed σ.rover) (getDirection σ.rover))
    simp only [backlog, genInfoTimerCallback, recordSteps, work]
    omega

theorem steps_paid : Paid step backlog work := fun σ a => change_paid (step_change σ a)

/-- A round in which each thread gets the processor at least once. -/
structure Round (round : List Act) : Prop where
  receiver : .receiver ∈ round
  mainThread : .mainThread ∈ round
  mqttClient : ∃ stack, .mqttClient stack ∈ round

structure Drained (σ : System) : Prop where
  receiver : σ.receiver = .idle
  mainQueue : σ.mainQueue = []
  main : σ.main = .waiting
  publishQueue : σ.publishQueue = []
  publisher : σ.publisher = .waiting

theorem client_stuck {σ : System} {stack : Ptr} (serving : Serving σ)
    (stuck : mqttClientStep stack σ = σ) : σ.publisher = .waiting ∧ σ.publishQueue = [] := by
  unfold mqttClientStep at stuck
  cases now : σ.publisher with
  | waiting =>
    simp only [now] at stuck
    cases queue : σ.publishQueue with
    | nil => exact ⟨rfl, rfl⟩
    | cons msg rest =>
      simp only [queue] at stuck
      have moved := congrArg System.publisher stuck
      rw [now] at moved
      cases moved
  | holding msg =>
    simp only [now] at stuck
    cases call : publication stack msg with
    | none =>
      simp only [call] at stuck
      have moved := congrArg System.publisher stuck
      rw [now] at moved
      cases moved
    | some p =>
      simp only [call] at stuck
      have moved := congrArg System.publisher stuck
      rw [now] at moved
      cases moved
  | publishing =>
    simp only [now] at stuck
    have moved := congrArg System.publisher stuck
    rw [now] at moved
    cases moved
  | exited => exact absurd now serving

theorem main_stuck {σ : System} (room : HasRoom queueLength σ.publishQueue)
    (stuck : mainThreadStep σ = σ) : σ.main = .waiting ∧ σ.mainQueue = [] := by
  unfold mainThreadStep at stuck
  cases now : σ.main with
  | waiting =>
    simp only [now] at stuck
    cases queue : σ.mainQueue with
    | nil => exact ⟨rfl, rfl⟩
    | cons msg rest =>
      simp only [queue] at stuck
      have moved := congrArg System.main stuck
      rw [now] at moved
      cases moved
  | holding status =>
    simp only [now, if_pos room] at stuck
    have moved := congrArg System.main stuck
    rw [now] at moved
    cases moved

theorem receiver_stuck {σ : System} (room : HasRoom queueLength σ.mainQueue)
    (stuck : receiverStep σ = σ) : σ.receiver = .idle := by
  have shorter := congrArg (fun τ : System => receiverSteps τ.receiver) stuck
  unfold receiverStep at shorter
  cases now : σ.receiver with
  | idle => rfl
  | running entry event rest =>
    exfalso
    cases rest with
    | nil => simp [now, receiverSteps, opsSteps] at shorter
    | cons op rest =>
      have positive : 0 < opSteps op := by
        unfold opSteps
        split <;> omega
      cases op <;>
        simp only [now, room, if_true, receiverSteps, opsSteps, totalWork]
          at shorter <;>
        omega

theorem stuck_drained {σ : System} {round : List Act} (serving : Serving σ) (fair : Round round)
    (quiet : Quiet step σ round) : Drained σ := by
  obtain ⟨stack, scheduled⟩ := fair.mqttClient
  obtain ⟨publisher, publishQueue⟩ := client_stuck serving (quiet _ scheduled)
  have room : HasRoom queueLength σ.publishQueue := by
    rw [publishQueue]
    decide
  obtain ⟨main, mainQueue⟩ := main_stuck room (quiet _ fair.mainThread)
  have mainRoom : HasRoom queueLength σ.mainQueue := by
    rw [mainQueue]
    decide
  have receiver := receiver_stuck mainRoom (quiet _ fair.receiver)
  exact ⟨receiver, mainQueue, main, publishQueue, publisher⟩

/-- Every event delivered in `acts` is handled, every status command announced, every record
    that found room published and counted. -/
structure Settled (acts : List Act) : Prop where
  drained : Drained (after acts)
  handled : (after acts).frame.cb = run mqttClientCallback .boot (after acts).delivered
  announced : (after acts).published.filterMap (onTopic statusTopic) =
    ((after acts).delivered.filterMap statusCommand).map announcement
  published : (after acts).published.map some = (admitted acts).map publicationOf
  counted : (after acts).published.length = (after acts).counted
  acknowledged : (after acts).delivered.countP isPuback = (after acts).pubacks

theorem drained_settled {acts : List Act} (drained : Drained (after acts)) : Settled acts := by
  have order := (line_trace acts).trans (trace_map publicationOf step admission acts .boot)
  have conserved := (always (fun σ => (Counters σ ∧ GenuineRecords σ) ∧ Conserved σ)
    ⟨boot_genuine, rfl⟩ change_conserved acts).2
  have accounts := always_accounts acts
  have empty : (after acts).held = [] := by rw [System.held, drained.publisher]
  refine ⟨drained, idle_refines drained.receiver, ?_, ?_, ?_, ?_⟩
  · rw [Conserved, payloads, empty, drained.publishQueue, upstream, mainHeld, drained.main,
      drained.mainQueue, callbackHeld, drained.receiver] at conserved
    simpa [flow] using conserved
  · rw [line, empty, drained.publishQueue] at order
    simpa [admitted] using order
  · have published := accounts.published
    rw [uncounted, drained.publisher] at published
    exact published
  · have pubacks := accounts.pubacks
    rw [unhandled, drained.receiver] at pubacks
    exact pubacks

/-- From any reachable state, however threads, deliveries and interrupts interleave: among more
    rounds than the backlog and the work that arrives account for, the program has at some
    point done everything it was given. -/
theorem backlog_drains (acts : List Act) (rounds : List (List Act))
    (fair : ∀ round ∈ rounds, Round round)
    (long : backlog (after acts) + totalWork work rounds.flatten < rounds.length) :
    ∃ before later, rounds = before ++ later ∧ later ≠ [] ∧ Settled (acts ++ before.flatten) := by
  obtain ⟨before, round, later, split, quiet⟩ := quiet_round steps_paid rounds (after acts) long
  have reached : run step (after acts) before.flatten = after (acts ++ before.flatten) :=
    (run_append step .boot acts before.flatten).symm
  rw [reached] at quiet
  have scheduled : round ∈ rounds := by simp [split]
  have drained := stuck_drained (always_serving _) (fair round scheduled) quiet
  exact ⟨before, round :: later, split, List.cons_ne_nil _ _, drained_settled drained⟩

theorem backlog_drains_disconnect :
    let acts := [Act.deliver .disconnect]
    let rounds := List.replicate 17 [Act.receiver, .mainThread, .mqttClient fun _ => 0] ++
      [[.genInfoTimer, .receiver, .mainThread, .mqttClient fun _ => 0]] ++
      List.replicate 5 [Act.receiver, .mainThread, .mqttClient fun _ => 0]
    ∃ before later, rounds = before ++ later ∧ later ≠ [] ∧ Settled (acts ++ before.flatten) := by
  apply backlog_drains
  · intro round member
    have known : round = [.receiver, .mainThread, .mqttClient fun _ => 0] ∨
        round = [.genInfoTimer, .receiver, .mainThread, .mqttClient fun _ => 0] := by
      simp only [List.mem_append, List.mem_replicate, List.mem_singleton] at member
      tauto
    rcases known with rfl | rfl
    · exact ⟨by simp, by simp, fun _ => 0, by simp⟩
    · exact ⟨by simp, by simp, fun _ => 0, by simp⟩
  · decide

end RoverDraining
