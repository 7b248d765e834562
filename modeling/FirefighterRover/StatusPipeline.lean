import FirefighterRover.PublishPath

/-!
The way of a status command: callback, mainQueue, mainThread, publishQueue, MqttClient. Both
sends block, so nothing is lost, and the interrupts only put other records in between.
-/
namespace RoverStatusPipeline
open CMemory EventRuns BoundedFifo RoverQueues RoverState RoverCallback RoverCommands
  RoverCallbackSteps RoverMqttClient RoverSystem RoverPublishPath

def announcement (status : StatusType) : List UInt8 := statusPayload (boardStatus status)

example : announcement .start = lit "\x7b\"status\":\"Starting up\"\x7d" := by decide

def mainHeld (σ : System) : List StatusType :=
  match σ.main with
  | .holding status => [status]
  | .waiting => []

def callbackHeld (σ : System) : List StatusType :=
  match σ.receiver with
  | .running _ _ rest => rest.filterMap Op.status
  | .idle => []

def upstream (σ : System) : List StatusType :=
  mainHeld σ ++ σ.mainQueue.map MainMsg.status ++ callbackHeld σ

def Conserved (σ : System) : Prop :=
  payloads σ statusTopic ++ (upstream σ).map announcement =
    (σ.delivered.filterMap statusCommand).map announcement

theorem kept_conserved {σ τ : System} (conserved : Conserved σ)
    (downstream : payloads τ statusTopic = payloads σ statusTopic)
    (same : upstream τ = upstream σ) (delivered : τ.delivered = σ.delivered) :
    Conserved τ := by
  rw [Conserved, downstream, same, delivered]
  exact conserved

theorem recordPayload_announcement (status : StatusType) :
    recordPayload statusTopic (publishBoardStatus (boardStatus status)) =
      some (announcement status) := by
  rw [recordPayload_status, if_pos rfl]
  rfl

theorem sent_conserved {σ τ : System} (status : StatusType) (conserved : Conserved σ)
    (sent : payloads τ statusTopic = payloads σ statusTopic ++
      (recordPayload statusTopic (publishBoardStatus (boardStatus status))).toList)
    (moved : upstream σ = status :: upstream τ) (delivered : τ.delivered = σ.delivered) :
    Conserved τ := by
  rw [Conserved, moved, List.map_cons] at conserved
  rw [Conserved, sent, delivered, recordPayload_announcement, List.append_assoc]
  exact conserved

theorem change_conserved (σ : System) (a : Act) (τ : System)
    (inv : (Counters σ ∧ GenuineRecords σ) ∧ Conserved σ) (change : Change σ a τ) :
    (Counters τ ∧ GenuineRecords τ) ∧ Conserved τ := by
  obtain ⟨sound, conserved⟩ := inv
  refine ⟨change_genuine σ a τ sound change, ?_⟩
  obtain ⟨counters, genuine⟩ := sound
  cases change with
  | blocked => exact conserved
  | deliver event idle =>
    simp only [Conserved, upstream, callbackHeld, idle, List.append_nil] at conserved
    simp only [Conserved, upstream, callbackHeld, (callbackOps_accounts _ event).1,
      List.filterMap_append, List.map_append, ← conserved]
    cases found : statusCommand event with
    | none => simp [payloads, System.held, mainHeld, found]
    | some status => simp [payloads, System.held, mainHeld, found]
  | returns done =>
    refine kept_conserved conserved rfl ?_ rfl
    simp [upstream, mainHeld, callbackHeld, done]
  | @op _ _ op _ next other _ =>
    refine kept_conserved conserved rfl ?_ rfl
    have silent : op.status = none := by
      cases op with
      | updateStatus status => exact absurd rfl (other status)
      | _ => rfl
    simp [upstream, mainHeld, callbackHeld, next, silent]
  | puback next =>
    refine kept_conserved conserved rfl ?_ rfl
    simp [upstream, mainHeld, callbackHeld, next]
    rfl
  | updateStatus next room =>
    refine kept_conserved conserved rfl ?_ rfl
    simp [upstream, mainHeld, callbackHeld, next, Op.status]
  | mainReceive waiting first =>
    refine kept_conserved conserved rfl ?_ rfl
    simp [upstream, mainHeld, callbackHeld, waiting, first]
  | @mainSend status holding room =>
    refine sent_conserved status conserved ?_ ?_ rfl
    · exact flow_send _ _ _ _
    · simp [upstream, mainHeld, callbackHeld, holding]
  | clientReceive stack waiting first =>
    exact kept_conserved conserved
      (client_payloads genuine (.clientReceive stack waiting first) statusTopic) rfl rfl
  | clientPublish stack holding call =>
    exact kept_conserved conserved
      (client_payloads genuine (.clientPublish stack holding call) statusTopic) rfl rfl
  | clientExit stack holding stopped =>
    exact kept_conserved conserved
      (client_payloads genuine (.clientExit stack holding stopped) statusTopic) rfl rfl
  | clientCount stack publishing =>
    exact kept_conserved conserved
      (client_payloads genuine (.clientCount stack publishing) statusTopic) rfl rfl
  | statistics =>
    refine kept_conserved conserved ?_ rfl rfl
    apply flow_offer_other
    rw [recordPayload_statistics (attempts_isInt32 counters) (successes_isInt32 counters),
      if_neg topics_distinct.1]
  | general =>
    refine kept_conserved conserved ?_ rfl rfl
    apply flow_offer_other
    rw [getDirection, recordPayload_general _ (getSpeed_isInt32 _),
      if_neg topics_distinct.2.2.symm]

/-- In every reachable state the status publishes, then the records and commands under way
    from MqttClient back to the callback, are the accepted commands in order. -/
theorem status_commands_conserved (acts : List Act) :
    let σ := after acts
    σ.published.filterMap (onTopic statusTopic) ++
      σ.held.filterMap (recordPayload statusTopic) ++
      σ.publishQueue.filterMap (recordPayload statusTopic) ++
      (mainHeld σ).map announcement ++
      (σ.mainQueue.map MainMsg.status).map announcement ++
      (callbackHeld σ).map announcement =
    (σ.delivered.filterMap statusCommand).map announcement := by
  intro σ
  have inv := always (fun σ => (Counters σ ∧ GenuineRecords σ) ∧ Conserved σ)
    ⟨boot_genuine, rfl⟩ change_conserved acts
  have conserved : Conserved σ := inv.2
  rw [← conserved]
  simp only [payloads, flow, upstream, List.map_append, List.append_assoc]

end RoverStatusPipeline
