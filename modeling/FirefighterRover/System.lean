import FirefighterRover.Lib.BoundedFifo
import FirefighterRover.CallbackSteps
import FirefighterRover.MqttClient

/-!
The running program: the receive thread inside MqttClientCallback, mainThread, MqttClient and
the two timer interrupts, taking steps in any order over the two queues. A step that a full
or an empty queue blocks leaves the state as it is. The fields after `mainConsole` are
histories: nothing the program does depends on them.
-/
namespace RoverSystem
open CMemory EventRuns BoundedFifo RoverJson RoverQueues RoverState RoverCallback RoverCallbackSteps
  RoverMqttClient

inductive Receiver where
  | idle
  | running (entry : CallbackState) (event : Event) (rest : List Op)

inductive MainThread where
  | waiting
  | holding (status : StatusType)

/-- `publishing` is MqttClient between MQTTClient_publish and incrementPublishAttempts. -/
inductive Publisher where
  | waiting
  | holding (msg : PublishMsg)
  | publishing
  | exited

/-- The arguments of one call of publishStatisticsFromISR, and what they stand for: the
    publish calls counted and the PUBACK events handled when the interrupt fired. -/
structure StatisticsSample where
  publishAttempts : Int
  publishSuccesses : Int
  counted : Nat
  pubacks : Nat

structure GeneralSample where
  speed : Int
  roverDir : List UInt8
  deriving DecidableEq, Repr

structure System where
  frame : Frame
  receiver : Receiver
  mainQueue : List MainMsg
  main : MainThread
  publishQueue : List PublishMsg
  publisher : Publisher
  publishAttempts : Int
  mainConsole : List (List UInt8)
  delivered : List Event
  published : List Publication
  counted : Nat
  pubacks : Nat
  statistics : List StatisticsSample
  general : List GeneralSample

def System.publishSuccesses (σ : System) : Int := σ.frame.cb.publishSuccesses

def System.rover (σ : System) : Rover := σ.frame.cb.rover

def System.statisticsSample (σ : System) : StatisticsSample :=
  ⟨σ.publishAttempts, σ.publishSuccesses, σ.counted, σ.pubacks⟩

def System.generalSample (σ : System) : GeneralSample := ⟨getSpeed σ.rover, getDirection σ.rover⟩

def System.boot : System where
  frame := ⟨.boot, ⟨0, 0, 0⟩⟩
  receiver := .idle
  mainQueue := []
  main := .waiting
  publishQueue := []
  publisher := .waiting
  publishAttempts := 0
  mainConsole := []
  delivered := []
  published := []
  counted := 0
  pubacks := 0
  statistics := []
  general := []

inductive Act where
  | deliver (event : Event)
  | receiver
  | mainThread
  | mqttClient (stack : Ptr)
  | statisticsTimer
  | genInfoTimer

def deliver (event : Event) (σ : System) : System :=
  match σ.receiver with
  | .idle =>
    { σ with
      receiver := .running σ.frame.cb event (callbackOps σ.frame.cb.dir event)
      delivered := σ.delivered ++ [event] }
  | .running .. => σ

/-- updateStatus waits for room in mainQueue. -/
def receiverStep (σ : System) : System :=
  match σ.receiver with
  | .idle => σ
  | .running _ _ [] => { σ with receiver := .idle }
  | .running entry event (op :: rest) =>
    let τ := { σ with receiver := .running entry event rest, frame := exec σ.frame op }
    match op with
    | .updateStatus status =>
      if HasRoom queueLength σ.mainQueue then
        { τ with mainQueue := σ.mainQueue ++ [⟨status⟩] }
      else σ
    | .incrementPublishSuccesses => { τ with pubacks := σ.pubacks + 1 }
    | _ => τ

/-- publishBoardStatus waits for room in publishQueue. -/
def mainThreadStep (σ : System) : System :=
  match σ.main with
  | .waiting =>
    match σ.mainQueue with
    | [] => σ
    | msg :: rest =>
      { σ with
        mainQueue := rest
        main := .holding msg.status
        mainConsole := σ.mainConsole ++
          [report (lit "Got status update: " ++ decimal (statusCode msg.status) ++ lit "\n")] }
  | .holding status =>
    if HasRoom queueLength σ.publishQueue then
      { σ with
        main := .waiting
        publishQueue := σ.publishQueue ++ [publishBoardStatus (boardStatus status)] }
    else σ

def mqttClientStep (stack : Ptr) (σ : System) : System :=
  match σ.publisher with
  | .waiting =>
    match σ.publishQueue with
    | [] => σ
    | msg :: rest => { σ with publishQueue := rest, publisher := .holding msg }
  | .holding msg =>
    match publication stack msg with
    | some p => { σ with publisher := .publishing, published := σ.published ++ [p] }
    | none => { σ with publisher := .exited }
  | .publishing =>
    { σ with
      publisher := .waiting
      publishAttempts := wrap32 (σ.publishAttempts + 1)
      counted := σ.counted + 1 }
  | .exited => σ

def statisticsTimerCallback (σ : System) : System :=
  { σ with
    publishQueue := offer queueLength σ.publishQueue
      (publishStatisticsFromISR σ.publishAttempts σ.publishSuccesses)
    statistics := σ.statistics ++ [σ.statisticsSample] }

def genInfoTimerCallback (σ : System) : System :=
  { σ with
    publishQueue := offer queueLength σ.publishQueue
      (publishGeneralMessageFromISR (getSpeed σ.rover) (getDirection σ.rover))
    general := σ.general ++ [σ.generalSample] }

def step (σ : System) : Act → System
  | .deliver event => deliver event σ
  | .receiver => receiverStep σ
  | .mainThread => mainThreadStep σ
  | .mqttClient stack => mqttClientStep stack σ
  | .statisticsTimer => statisticsTimerCallback σ
  | .genInfoTimer => genInfoTimerCallback σ

def after (acts : List Act) : System := run step .boot acts

def Act.isInterrupt : Act → Bool
  | .statisticsTimer => true
  | .genInfoTimer => true
  | _ => false

/-- What a step can do, with its guards. Only threads are ever blocked. -/
inductive Change (σ : System) : Act → System → Prop where
  | blocked (a : Act) (thread : a.isInterrupt = false) : Change σ a σ
  | deliver (event : Event) (idle : σ.receiver = .idle) : Change σ (.deliver event) { σ with
      receiver := .running σ.frame.cb event (callbackOps σ.frame.cb.dir event)
      delivered := σ.delivered ++ [event] }
  | returns {entry : CallbackState} {event : Event} (done : σ.receiver = .running entry event []) :
    Change σ .receiver { σ with receiver := .idle }
  | op {entry : CallbackState} {event : Event} {op : Op} {rest : List Op}
      (next : σ.receiver = .running entry event (op :: rest))
      (other : ∀ status, op ≠ .updateStatus status) (uncounted : op ≠ .incrementPublishSuccesses) :
    Change σ .receiver { σ with receiver := .running entry event rest, frame := exec σ.frame op }
  | puback {entry : CallbackState} {event : Event} {rest : List Op}
      (next : σ.receiver = .running entry event (.incrementPublishSuccesses :: rest)) :
    Change σ .receiver { σ with
      receiver := .running entry event rest
      frame := exec σ.frame .incrementPublishSuccesses
      pubacks := σ.pubacks + 1 }
  | updateStatus {entry : CallbackState} {event : Event} {status : StatusType} {rest : List Op}
      (next : σ.receiver = .running entry event (.updateStatus status :: rest))
      (room : HasRoom queueLength σ.mainQueue) :
    Change σ .receiver { σ with
      receiver := .running entry event rest
      frame := exec σ.frame (.updateStatus status)
      mainQueue := σ.mainQueue ++ [⟨status⟩] }
  | mainReceive {msg : MainMsg} {rest : List MainMsg} (waiting : σ.main = .waiting)
      (first : σ.mainQueue = msg :: rest) : Change σ .mainThread { σ with
      mainQueue := rest
      main := .holding msg.status
      mainConsole := σ.mainConsole ++
        [report (lit "Got status update: " ++ decimal (statusCode msg.status) ++ lit "\n")] }
  | mainSend {status : StatusType} (holding : σ.main = .holding status)
      (room : HasRoom queueLength σ.publishQueue) : Change σ .mainThread { σ with
      main := .waiting
      publishQueue := σ.publishQueue ++ [publishBoardStatus (boardStatus status)] }
  | clientReceive {msg : PublishMsg} {rest : List PublishMsg} (stack : Ptr)
      (waiting : σ.publisher = .waiting) (first : σ.publishQueue = msg :: rest) :
    Change σ (.mqttClient stack) { σ with publishQueue := rest, publisher := .holding msg }
  | clientPublish {msg : PublishMsg} (stack : Ptr) {p : Publication}
      (holding : σ.publisher = .holding msg) (call : publication stack msg = some p) :
    Change σ (.mqttClient stack) { σ with publisher := .publishing, published := σ.published ++ [p] }
  | clientExit {msg : PublishMsg} (stack : Ptr) (holding : σ.publisher = .holding msg)
      (stopped : publication stack msg = none) :
    Change σ (.mqttClient stack) { σ with publisher := .exited }
  | clientCount (stack : Ptr) (publishing : σ.publisher = .publishing) :
    Change σ (.mqttClient stack) { σ with
      publisher := .waiting
      publishAttempts := wrap32 (σ.publishAttempts + 1)
      counted := σ.counted + 1 }
  | statistics : Change σ .statisticsTimer (statisticsTimerCallback σ)
  | general : Change σ .genInfoTimer (genInfoTimerCallback σ)

theorem receiver_change (σ : System) : Change σ .receiver (receiverStep σ) := by
  unfold receiverStep
  split
  · exact .blocked _ rfl
  · exact .returns ‹_›
  · rename_i entry event op rest next
    cases op with
    | updateStatus status =>
      dsimp only
      split
      · exact .updateStatus next ‹_›
      · exact .blocked _ rfl
    | incrementPublishSuccesses => exact .puback next
    | _ => exact .op next (by simp) (by simp)

theorem mainThread_change (σ : System) : Change σ .mainThread (mainThreadStep σ) := by
  unfold mainThreadStep
  split
  · rename_i waiting
    split
    · exact .blocked _ rfl
    · exact .mainReceive waiting ‹_›
  · rename_i holding
    split
    · exact .mainSend holding ‹_›
    · exact .blocked _ rfl

theorem mqttClient_change (stack : Ptr) (σ : System) :
    Change σ (.mqttClient stack) (mqttClientStep stack σ) := by
  unfold mqttClientStep
  split
  · rename_i waiting
    split
    · exact .blocked _ rfl
    · exact .clientReceive stack waiting ‹_›
  · rename_i holding
    split
    · exact .clientPublish stack holding ‹_›
    · exact .clientExit stack holding ‹_›
  · exact .clientCount stack ‹_›
  · exact .blocked _ rfl

theorem step_change (σ : System) (a : Act) : Change σ a (step σ a) := by
  cases a with
  | deliver event =>
    simp only [step, deliver]
    split
    · exact .deliver event ‹_›
    · exact .blocked _ rfl
  | receiver => exact receiver_change σ
  | mainThread => exact mainThread_change σ
  | mqttClient stack => exact mqttClient_change stack σ
  | statisticsTimer => exact .statistics
  | genInfoTimer => exact .general

theorem always (inv : System → Prop) (start : inv .boot)
    (kept : ∀ σ a τ, inv σ → Change σ a τ → inv τ) (acts : List Act) : inv (after acts) :=
  run_invariant inv (fun σ a h => kept σ a _ h (step_change σ a)) acts .boot start

theorem after_concat (acts : List Act) (a : Act) : after (acts ++ [a]) = step (after acts) a :=
  run_concat step .boot acts a

def AtStep (σ : System) : Prop :=
  match σ.receiver with
  | .idle => σ.frame.cb = run mqttClientCallback .boot σ.delivered
  | .running entry event rest =>
    ∃ before done sums, σ.delivered = before ++ [event] ∧
      entry = run mqttClientCallback .boot before ∧
      callbackOps entry.dir event = done ++ rest ∧ σ.frame = run exec ⟨entry, sums⟩ done

theorem op_at_step {σ : System} {entry : CallbackState} {event : Event} {op : Op}
    {rest : List Op} (at_step : AtStep σ) (next : σ.receiver = .running entry event (op :: rest)) :
    ∃ before done sums, σ.delivered = before ++ [event] ∧
      entry = run mqttClientCallback .boot before ∧ callbackOps entry.dir event = done ++ rest ∧
      exec σ.frame op = run exec ⟨entry, sums⟩ done := by
  simp only [AtStep, next] at at_step
  obtain ⟨before, done, sums, split, entered, ops, reached⟩ := at_step
  exact ⟨before, done ++ [op], sums, split, entered, by rw [ops, List.append_assoc]; rfl,
    by rw [run_concat, reached]⟩

theorem change_at_step (σ : System) (a : Act) (τ : System) (at_step : AtStep σ)
    (change : Change σ a τ) : AtStep τ := by
  cases change with
  | deliver event idle =>
    simp only [AtStep, idle] at at_step
    exact ⟨σ.delivered, [], σ.frame.sums, rfl, at_step, rfl, rfl⟩
  | @returns entry event done =>
    simp only [AtStep, done] at at_step
    obtain ⟨before, ops, sums, split, entered, all, reached⟩ := at_step
    have whole := run_callbackOps ⟨entry, sums⟩ event
    rw [List.append_nil] at all
    rw [all, ← reached] at whole
    simp only [AtStep]
    rw [whole, split, run_concat, entered]
  | op next _ _ => exact op_at_step at_step next
  | puback next => exact op_at_step at_step next
  | updateStatus next _ => exact op_at_step at_step next
  | _ => exact at_step

theorem always_at_step (acts : List Act) : AtStep (after acts) :=
  always AtStep rfl change_at_step acts

/-- Between two events the program has done what the callback run event by event does. -/
theorem idle_refines {acts : List Act} (idle : (after acts).receiver = .idle) :
    (after acts).frame.cb = run mqttClientCallback .boot (after acts).delivered := by
  have at_step := always_at_step acts
  simpa only [AtStep, idle] using at_step

def statisticsEntry (σ : System) : Act → Option StatisticsSample
  | .statisticsTimer => some σ.statisticsSample
  | _ => none

def generalEntry (σ : System) : Act → Option GeneralSample
  | .genInfoTimer => some σ.generalSample
  | _ => none

theorem change_samples {σ τ : System} {a : Act} (change : Change σ a τ) :
    τ.statistics = σ.statistics ++ (statisticsEntry σ a).toList ∧
    τ.general = σ.general ++ (generalEntry σ a).toList := by
  cases change with
  | statistics => exact ⟨rfl, (List.append_nil _).symm⟩
  | general => exact ⟨(List.append_nil _).symm, rfl⟩
  | blocked a thread =>
    cases a with
    | statisticsTimer => cases thread
    | genInfoTimer => cases thread
    | _ => exact ⟨(List.append_nil _).symm, (List.append_nil _).symm⟩
  | _ => exact ⟨(List.append_nil _).symm, (List.append_nil _).symm⟩

theorem samples_logged : IsLog step System.statistics statisticsEntry ∧
    IsLog step System.general generalEntry := by
  constructor
  · intro σ a
    exact (change_samples (step_change σ a)).1
  · intro σ a
    exact (change_samples (step_change σ a)).2

def System.held (σ : System) : List PublishMsg :=
  match σ.publisher with
  | .holding msg => [msg]
  | _ => []

structure Bounded (σ : System) : Prop where
  mainQueue : σ.mainQueue.length ≤ queueLength
  publishQueue : σ.publishQueue.length ≤ queueLength

theorem change_bounded (σ : System) (a : Act) (τ : System) (bounded : Bounded σ)
    (change : Change σ a τ) : Bounded τ := by
  obtain ⟨main, publish⟩ := bounded
  cases change with
  | updateStatus _ room =>
    refine ⟨?_, publish⟩
    simp only [HasRoom] at room
    simp only [List.length_append, List.length_singleton]
    omega
  | mainReceive _ first =>
    rw [first, List.length_cons] at main
    exact ⟨by dsimp only; omega, publish⟩
  | mainSend _ room =>
    refine ⟨main, ?_⟩
    simp only [HasRoom] at room
    simp only [List.length_append, List.length_singleton]
    omega
  | clientReceive _ _ first =>
    rw [first, List.length_cons] at publish
    exact ⟨main, by dsimp only; omega⟩
  | statistics => exact ⟨main, offer_length publish _⟩
  | general => exact ⟨main, offer_length publish _⟩
  | _ => exact ⟨main, publish⟩

theorem always_bounded (acts : List Act) : Bounded (after acts) :=
  always Bounded ⟨by decide, by decide⟩ change_bounded acts

end RoverSystem
