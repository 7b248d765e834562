import FirefighterRover.PublishPath

/-!
All three senders of publishQueue together: whatever threads and interrupts do, MqttClient
publishes the records that found room, each one once, in the order in which they were queued.
-/
namespace RoverPublishOrder
open CMemory EventRuns BoundedFifo RoverQueues RoverState RoverCallback RoverMqttClient
  RoverSystem RoverPublishPath

def admission (σ : System) : Act → Option PublishMsg
  | .mainThread =>
    match σ.main with
    | .waiting => none
    | .holding status =>
      if HasRoom queueLength σ.publishQueue then some (publishBoardStatus (boardStatus status))
      else none
  | .statisticsTimer =>
    if HasRoom queueLength σ.publishQueue then
      some (publishStatisticsFromISR σ.publishAttempts σ.publishSuccesses)
    else none
  | .genInfoTimer =>
    if HasRoom queueLength σ.publishQueue then
      some (publishGeneralMessageFromISR (getSpeed σ.rover) (getDirection σ.rover))
    else none
  | _ => none

def admitted (acts : List Act) : List PublishMsg := trace step admission .boot acts

def publicationOf (msg : PublishMsg) : Option Publication := publication (fun _ => 0) msg

/-- What is published, then what the records under way will be published as. -/
def line (σ : System) : List (Option Publication) :=
  σ.published.map some ++ (σ.held ++ σ.publishQueue).map publicationOf

theorem offer_toList (capacity : Nat) (queue : List PublishMsg) (msg : PublishMsg) :
    offer capacity queue msg =
      queue ++ (if HasRoom capacity queue then some msg else none).toList := by
  unfold offer
  split
  · rfl
  · exact (List.append_nil queue).symm

structure Outside (σ τ : System) (queued : Option PublishMsg) : Prop where
  publisher : τ.publisher = σ.publisher
  published : τ.published = σ.published
  queue : τ.publishQueue = σ.publishQueue ++ queued.toList

theorem outside_held {σ τ : System} {queued : Option PublishMsg} (outside : Outside σ τ queued) :
    τ.held = σ.held := by
  rw [System.held, System.held, outside.publisher]

theorem receiver_outside {σ τ : System} (change : Change σ .receiver τ) : Outside σ τ none := by
  cases change <;> exact ⟨rfl, rfl, (List.append_nil _).symm⟩

theorem mainThread_outside (σ : System) :
    Outside σ (mainThreadStep σ) (admission σ .mainThread) := by
  simp only [mainThreadStep, admission]
  cases σ.main with
  | waiting =>
    cases σ.mainQueue with
    | nil => exact ⟨rfl, rfl, (List.append_nil _).symm⟩
    | cons msg rest => exact ⟨rfl, rfl, (List.append_nil _).symm⟩
  | holding status =>
    dsimp only
    split
    · exact ⟨rfl, rfl, rfl⟩
    · exact ⟨rfl, rfl, (List.append_nil _).symm⟩

theorem step_outside (σ : System) (a : Act) (other : ∀ stack, a ≠ .mqttClient stack) :
    Outside σ (step σ a) (admission σ a) := by
  cases a with
  | deliver event =>
    simp only [step, deliver]
    split <;> exact ⟨rfl, rfl, (List.append_nil _).symm⟩
  | receiver => exact receiver_outside (receiver_change σ)
  | mainThread => exact mainThread_outside σ
  | mqttClient stack => exact absurd rfl (other stack)
  | statisticsTimer => exact ⟨rfl, rfl, offer_toList _ _ _⟩
  | genInfoTimer => exact ⟨rfl, rfl, offer_toList _ _ _⟩

theorem outside_line {σ τ : System} {queued : Option PublishMsg} (outside : Outside σ τ queued) :
    line τ = line σ ++ (queued.map publicationOf).toList := by
  rw [line, line, outside_held outside, outside.published, outside.queue]
  cases queued <;> simp

theorem client_line {σ τ : System} {stack : Ptr} (genuine : GenuineRecords σ)
    (change : Change σ (.mqttClient stack) τ) : line τ = line σ := by
  cases change with
  | blocked => rfl
  | clientReceive _ waiting first => simp [line, System.held, waiting, first]
  | clientCount _ publishing => simp [line, System.held, publishing]
  | @clientPublish msg _ p holding call =>
    obtain ⟨q, whatever, canonical⟩ := held_publication genuine holding stack
    obtain rfl : q = p := Option.some.inj (whatever.symm.trans call)
    have wire : publicationOf msg = some q := canonical
    simp [line, System.held, holding, wire]
  | @clientExit msg _ holding stopped =>
    obtain ⟨p, call, _⟩ := held_publication genuine holding stack
    cases stopped.symm.trans call

theorem step_line (σ : System) (a : Act) (genuine : GenuineRecords σ) :
    line (step σ a) = line σ ++ ((admission σ a).map publicationOf).toList := by
  by_cases client : ∃ stack, a = .mqttClient stack
  · obtain ⟨stack, rfl⟩ := client
    rw [step, client_line genuine (mqttClient_change stack σ)]
    exact (List.append_nil _).symm
  · exact outside_line (step_outside σ a fun stack same => client ⟨stack, same⟩)

theorem step_genuine (σ : System) (a : Act) (inv : Counters σ ∧ GenuineRecords σ) :
    Counters (step σ a) ∧ GenuineRecords (step σ a) :=
  change_genuine σ a _ inv (step_change σ a)

theorem line_trace (acts : List Act) :
    line (after acts) = trace step (fun σ a => (admission σ a).map publicationOf) .boot acts := by
  have grown := run_trace (fun σ => Counters σ ∧ GenuineRecords σ) step_genuine line
    (fun σ a inv => step_line σ a inv.2) acts boot_genuine
  exact grown.trans (List.nil_append _)

def Serving (σ : System) : Prop := σ.publisher ≠ .exited

theorem change_serving (σ : System) (a : Act) (τ : System)
    (inv : (Counters σ ∧ GenuineRecords σ) ∧ Serving σ) (change : Change σ a τ) :
    (Counters τ ∧ GenuineRecords τ) ∧ Serving τ := by
  obtain ⟨sound, serving⟩ := inv
  refine ⟨change_genuine σ a τ sound change, ?_⟩
  cases change with
  | clientReceive => simp [Serving]
  | clientPublish => simp [Serving]
  | clientCount => simp [Serving]
  | @clientExit msg stack holding stopped =>
    obtain ⟨p, call, _⟩ := held_publication sound.2 holding stack
    cases stopped.symm.trans call
  | _ => exact serving

theorem always_serving (acts : List Act) : Serving (after acts) := by
  have inv := always (fun σ => (Counters σ ∧ GenuineRecords σ) ∧ Serving σ)
    ⟨boot_genuine, by simp [Serving, System.boot]⟩ change_serving acts
  exact inv.2

/-- Across all topics: what is published, then what is under way, is what found room in
    publishQueue, in that order. The loop that does it never ends. -/
theorem published_in_order (acts : List Act) :
    (after acts).published.map some ++
        ((after acts).held ++ (after acts).publishQueue).map publicationOf =
      (admitted acts).map publicationOf ∧
    (after acts).publisher ≠ .exited :=
  ⟨(line_trace acts).trans (trace_map publicationOf step admission acts .boot),
    always_serving acts⟩

end RoverPublishOrder
