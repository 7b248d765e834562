import FirefighterRover.System

/-!
The path of a record through publishQueue. MqttClient publishes what was queued, in order:
blocking senders lose nothing, and what an interrupt offers arrives as a subsequence.
-/
namespace RoverPublishPath
open CMemory EventRuns BoundedFifo RoverJson RoverQueues RoverState RoverCallback
  RoverCallbackSteps RoverMqttClient RoverSystem

structure Counters (σ : System) : Prop where
  attempts : σ.publishAttempts = wrap32 σ.counted
  successes : σ.publishSuccesses = wrap32 σ.pubacks

theorem wrap32_succ (n : Nat) : wrap32 (wrap32 n + 1) = wrap32 (n + 1 : Nat) := by
  simp only [wrap32]
  omega

theorem exec_publishSuccesses (frame : Frame) {op : Op} (other : op ≠ .incrementPublishSuccesses) :
    (exec frame op).cb.publishSuccesses = frame.cb.publishSuccesses := by
  cases op with
  | incrementPublishSuccesses => exact absurd rfl other
  | _ => rfl

theorem change_counters (σ : System) (a : Act) (τ : System) (counters : Counters σ)
    (change : Change σ a τ) : Counters τ := by
  obtain ⟨attempts, successes⟩ := counters
  simp only [System.publishSuccesses] at successes
  cases change with
  | @op _ _ op _ _ _ other =>
    refine ⟨attempts, ?_⟩
    simp only [System.publishSuccesses, exec_publishSuccesses σ.frame other, successes]
  | puback =>
    refine ⟨attempts, ?_⟩
    simp only [System.publishSuccesses, exec, incrementPublishSuccesses, successes]
    exact wrap32_succ σ.pubacks
  | clientCount =>
    refine ⟨?_, successes⟩
    simp only [attempts]
    exact wrap32_succ σ.counted
  | _ => exact ⟨attempts, successes⟩

theorem always_counters (acts : List Act) : Counters (after acts) :=
  always Counters ⟨by decide, by decide⟩ change_counters acts

theorem attempts_isInt32 {σ : System} (counters : Counters σ) : IsInt32 σ.publishAttempts := by
  rw [counters.attempts]
  exact wrap32_isInt32 _

theorem successes_isInt32 {σ : System} (counters : Counters σ) : IsInt32 σ.publishSuccesses := by
  rw [counters.successes]
  exact wrap32_isInt32 _

theorem getSpeed_isInt32 (rover : Rover) : IsInt32 (getSpeed rover) := by
  unfold getSpeed
  repeat' split
  all_goals decide

def GenuineRecords (σ : System) : Prop := ∀ msg ∈ σ.held ++ σ.publishQueue, Genuine msg

theorem genuine_offer {σ : System} (genuine : GenuineRecords σ) {msg : PublishMsg}
    (new : Genuine msg) :
    ∀ x ∈ σ.held ++ offer queueLength σ.publishQueue msg, Genuine x := by
  intro x mem
  rcases offer_cases queueLength σ.publishQueue msg with sent | dropped
  · rw [sent, ← List.append_assoc, List.mem_append, List.mem_singleton] at mem
    rcases mem with old | rfl
    · exact genuine x old
    · exact new
  · rw [dropped] at mem
    exact genuine x mem

theorem change_genuine (σ : System) (a : Act) (τ : System)
    (inv : Counters σ ∧ GenuineRecords σ) (change : Change σ a τ) : Counters τ ∧ GenuineRecords τ := by
  obtain ⟨counters, genuine⟩ := inv
  refine ⟨change_counters σ a τ counters change, ?_⟩
  cases change with
  | @mainSend status holding room =>
    intro x mem
    have split : x ∈ (σ.held ++ σ.publishQueue) ++ [publishBoardStatus (boardStatus status)] := by
      rw [List.append_assoc]
      exact mem
    rcases List.mem_append.mp split with old | new
    · exact genuine x old
    · rw [List.mem_singleton.mp new]
      exact .status status
  | clientReceive stack waiting first =>
    intro x mem
    apply genuine x
    simpa [System.held, waiting, first] using mem
  | clientPublish stack holding call =>
    intro x mem
    exact genuine x (List.mem_append_right _ mem)
  | clientExit stack holding stopped =>
    intro x mem
    exact genuine x (List.mem_append_right _ mem)
  | clientCount stack publishing =>
    intro x mem
    exact genuine x (List.mem_append_right _ mem)
  | statistics =>
    exact genuine_offer genuine
      (.statistics (attempts_isInt32 counters) (successes_isInt32 counters))
  | general => exact genuine_offer genuine (.general _ (getSpeed_isInt32 _))
  | _ => exact genuine

theorem held_publication {σ : System} (genuine : GenuineRecords σ) {msg : PublishMsg}
    (holding : σ.publisher = .holding msg) (stack : Ptr) :
    ∃ p, publication stack msg = some p ∧ publication (fun _ => 0) msg = some p :=
  genuine_publication (genuine msg (by simp [System.held, holding])) stack

/-- The payloads published on a topic, then those of the records under way. -/
def payloads (σ : System) (topic : List UInt8) : List (List UInt8) :=
  flow (recordPayload topic)
    (flow (recordPayload topic) (σ.published.filterMap (onTopic topic)) σ.held) σ.publishQueue

theorem client_payloads {σ τ : System} {stack : Ptr} (genuine : GenuineRecords σ)
    (change : Change σ (.mqttClient stack) τ) (topic : List UInt8) :
    payloads τ topic = payloads σ topic := by
  cases change with
  | blocked => rfl
  | clientReceive _ waiting first =>
    simp only [payloads, System.held, waiting, first, flow_nil]
    exact (flow_receive _ _ _ _).symm
  | clientCount _ publishing => simp only [payloads, System.held, publishing]
  | @clientPublish msg _ p holding call =>
    obtain ⟨q, whatever, canonical⟩ := held_publication genuine holding stack
    obtain rfl : q = p := Option.some.inj (whatever.symm.trans call)
    have wire : onTopic topic q = recordPayload topic msg := by simp [recordPayload, canonical]
    have published : (σ.published ++ [q]).filterMap (onTopic topic) =
        σ.published.filterMap (onTopic topic) ++ (onTopic topic q).toList := by
      rw [List.filterMap_append]
      cases h : onTopic topic q <;> simp [h]
    simp only [payloads, System.held, holding, published, flow_nil, flow_leave _ _ wire]
  | @clientExit msg _ holding stopped =>
    obtain ⟨p, call, _⟩ := held_publication genuine holding stack
    cases stopped.symm.trans call

def statisticsSamplePayload (s : StatisticsSample) : List UInt8 :=
  statisticsPayload s.publishAttempts s.publishSuccesses

def generalSamplePayload (s : GeneralSample) : List UInt8 := generalPayload s.speed s.roverDir

def offered (σ : System) (topic : List UInt8) : List (List UInt8) :=
  if statisticsTopic = topic then σ.statistics.map statisticsSamplePayload
  else if directionTopic = topic then σ.general.map generalSamplePayload
  else []

theorem statistics_offered {σ : System} (counters : Counters σ) (topic : List UInt8) :
    offered (statisticsTimerCallback σ) topic = offered σ topic ++
      (recordPayload topic
        (publishStatisticsFromISR σ.publishAttempts σ.publishSuccesses)).toList := by
  rw [recordPayload_statistics (attempts_isInt32 counters) (successes_isInt32 counters)]
  unfold offered
  split
  · simp [statisticsTimerCallback, statisticsSamplePayload, System.statisticsSample]
  · simp [statisticsTimerCallback]

theorem general_offered (σ : System) (topic : List UInt8) :
    offered (genInfoTimerCallback σ) topic = offered σ topic ++
      (recordPayload topic
        (publishGeneralMessageFromISR (getSpeed σ.rover) (getDirection σ.rover))).toList := by
  rw [getDirection, recordPayload_general _ (getSpeed_isInt32 σ.rover)]
  unfold offered
  split
  · rename_i statistics
    have other : directionTopic ≠ topic := by
      rw [← statistics]
      exact topics_distinct.2.1.symm
    simp [genInfoTimerCallback, other]
  · split
    · simp [genInfoTimerCallback, getDirection, generalSamplePayload, System.generalSample]
    · simp

def InOrder (topic : List UInt8) (σ : System) : Prop :=
  (payloads σ topic).Sublist (offered σ topic)

theorem kept_inOrder {topic : List UInt8} {σ τ : System} (inOrder : InOrder topic σ)
    (kept : payloads τ topic = payloads σ topic)
    (offers : offered τ topic = offered σ topic) : InOrder topic τ := by
  rw [InOrder, kept, offers]
  exact inOrder

theorem change_inOrder {topic : List UInt8} (interrupt : statusTopic ≠ topic) (σ : System)
    (a : Act) (τ : System) (inv : (Counters σ ∧ GenuineRecords σ) ∧ InOrder topic σ)
    (change : Change σ a τ) :
    (Counters τ ∧ GenuineRecords τ) ∧ InOrder topic τ := by
  obtain ⟨sound, inOrder⟩ := inv
  refine ⟨change_genuine σ a τ sound change, ?_⟩
  obtain ⟨counters, genuine⟩ := sound
  cases change with
  | @mainSend status holding room =>
    refine kept_inOrder inOrder ?_ rfl
    have other : recordPayload topic (publishBoardStatus (boardStatus status)) = none := by
      rw [recordPayload_status, if_neg interrupt]
    rw [payloads, flow_send, other]
    exact List.append_nil _
  | clientReceive stack waiting first =>
    exact kept_inOrder inOrder
      (client_payloads genuine (.clientReceive stack waiting first) topic) rfl
  | clientPublish stack holding call =>
    exact kept_inOrder inOrder
      (client_payloads genuine (.clientPublish stack holding call) topic) rfl
  | clientExit stack holding stopped =>
    exact kept_inOrder inOrder
      (client_payloads genuine (.clientExit stack holding stopped) topic) rfl
  | clientCount stack publishing =>
    exact kept_inOrder inOrder (client_payloads genuine (.clientCount stack publishing) topic) rfl
  | statistics =>
    rw [InOrder, statistics_offered counters]
    exact flow_offer_sublist _ _ _ _ _ inOrder
  | general =>
    rw [InOrder, general_offered]
    exact flow_offer_sublist _ _ _ _ _ inOrder
  | _ => exact inOrder

theorem boot_genuine : Counters .boot ∧ GenuineRecords .boot :=
  ⟨⟨by decide, by decide⟩, by intro x mem; simp [System.held, System.boot] at mem⟩

/-- What is published on the topic of an interrupt is a subsequence of its samples. -/
theorem published_subsequence (acts : List Act) {topic : List UInt8}
    (interrupt : statusTopic ≠ topic) :
    ((after acts).published.filterMap (onTopic topic)).Sublist
      (offered (after acts) topic) := by
  have inv := always (fun σ => (Counters σ ∧ GenuineRecords σ) ∧ InOrder topic σ)
    ⟨boot_genuine, List.nil_sublist _⟩ (change_inOrder interrupt) acts
  have inOrder : (payloads (after acts) topic).Sublist (offered (after acts) topic) := inv.2
  simp only [payloads, flow, List.append_assoc] at inOrder
  exact (List.sublist_append_left _ _).trans inOrder

end RoverPublishPath
