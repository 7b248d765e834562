import FirefighterRover.Queues
import FirefighterRover.RoverState

/-!
main_task.c: what MqttClient publishes for a record of publishQueue, and the text mainThread
sends for a status. `stack` is what lies behind the record on the stack of MqttClient.
-/
namespace RoverMqttClient
open CMemory RoverJson RoverQueues RoverState

structure Publication where
  topic : List UInt8
  payload : List UInt8
  deriving DecidableEq, Repr

def statisticsTopic : List UInt8 := lit "firefighter/rover/statistics"
def statusTopic : List UInt8 := lit "firefighter/rover/status"
def directionTopic : List UInt8 := lit "firefighter/rover/direction"

def statisticsPayload (publishAttempts publishSuccesses : Int) : List UInt8 :=
  snprintf 256 (lit "\x7b\"publishAttempts\":" ++ decimal publishAttempts ++
    lit ",\"publishSuccesses\":" ++ decimal publishSuccesses ++ lit "\x7d")

def statusPayload (status : List UInt8) : List UInt8 :=
  snprintf 128 (lit "\x7b\"status\":\"" ++ status ++ lit "\"\x7d")

/-- The switch of MqttClient. MSG_PUBLISH_STOP_THREAD ends the thread instead. -/
def publication (stack : Ptr) (msg : PublishMsg) : Option Publication :=
  match msg.type with
  | .statistics =>
    some ⟨statisticsTopic, statisticsPayload msg.publishAttempts msg.publishSuccesses⟩
  | .status => some ⟨statusTopic, statusPayload (strn (msg.mem stack) 128)⟩
  | .general => some ⟨directionTopic, createGenStatusJson (msg.mem stack) msg.speed⟩
  | .stopThread => none

def boardStatus : StatusType → List UInt8
  | .start => lit "Starting up"
  | .stop => lit "Shutting down"

def statusCode : StatusType → Int
  | .start => 0
  | .stop => 1

inductive Genuine : PublishMsg → Prop where
  | statistics {attempts successes : Int} (a : IsInt32 attempts) (s : IsInt32 successes) :
    Genuine (publishStatisticsFromISR attempts successes)
  | status (status : StatusType) : Genuine (publishBoardStatus (boardStatus status))
  | general (d : Direction) {speed : Int} (s : IsInt32 speed) :
    Genuine (publishGeneralMessageFromISR speed (directionName d))

theorem boardStatus_text (status : StatusType) :
    (boardStatus status).length < 64 ∧ ∀ c ∈ boardStatus status, c ≠ 0 := by
  constructor
  · cases status <;> decide
  · apply clean_of_all
    cases status <;> decide

theorem directionName_text (d : Direction) :
    (directionName d).length < 16 ∧ ∀ c ∈ directionName d, c ≠ 0 := by
  constructor
  · cases d <;> decide
  · apply clean_of_all
    cases d <;> decide

theorem publication_statistics {attempts successes : Int} (a : IsInt32 attempts)
    (s : IsInt32 successes) (stack : Ptr) :
    publication stack (publishStatisticsFromISR attempts successes) =
      some ⟨statisticsTopic, statisticsPayload attempts successes⟩ := by
  have read : publication stack (publishStatisticsFromISR attempts successes) =
      some ⟨statisticsTopic, statisticsPayload
        (publishStatisticsFromISR attempts successes).publishAttempts
        (publishStatisticsFromISR attempts successes).publishSuccesses⟩ := rfl
  rw [read, statistics_attempts a, statistics_successes _ s]

theorem publication_of_status {msg : PublishMsg} (type : msg.type = .status)
    {status : List UInt8} (short : status.length < 64) (clean : ∀ c ∈ status, c ≠ 0)
    (stored : ∀ i (inside : i ≤ status.length),
      msg.body ⟨i, Nat.lt_of_le_of_lt inside short⟩ = status.getD i 0) (stack : Ptr) :
    publication stack msg = some ⟨statusTopic, statusPayload status⟩ := by
  have read : strn (msg.mem stack) 128 = status := stored_text short clean stored stack (by omega)
  simp only [publication, type, read]

theorem publication_status (status : StatusType) (stack : Ptr) :
    publication stack (publishBoardStatus (boardStatus status)) =
      some ⟨statusTopic, statusPayload (boardStatus status)⟩ := by
  obtain ⟨short, clean⟩ := boardStatus_text status
  exact publication_of_status rfl short clean (fun _ _ => rfl) stack

def generalPayload (speed : Int) (roverDir : List UInt8) : List UInt8 :=
  createGenStatusJson (cstr roverDir) speed

theorem cstr_text {text : List UInt8} (clean : ∀ c ∈ text, c ≠ 0) {n : Nat}
    (room : text.length < n) : strn (cstr text) n = text :=
  strn_text text (cstr text) n room clean (fun _ _ => rfl)

theorem publication_of_general {msg : PublishMsg} (type : msg.type = .general)
    {roverDir : List UInt8} (short : roverDir.length < 64) (clean : ∀ c ∈ roverDir, c ≠ 0)
    (stored : ∀ i (inside : i ≤ roverDir.length),
      msg.body ⟨i, Nat.lt_of_le_of_lt inside short⟩ = roverDir.getD i 0)
    {speed : Int} (level : msg.speed = speed) (stack : Ptr) :
    publication stack msg = some ⟨directionTopic, generalPayload speed roverDir⟩ := by
  have read : strn (msg.mem stack) 256 = roverDir :=
    stored_text short clean stored stack (by omega)
  have alone : strn (cstr roverDir) 256 = roverDir := cstr_text clean (by omega)
  simp only [publication, type, generalPayload, createGenStatusJson, read, alone, level]

theorem publication_general (d : Direction) {speed : Int} (s : IsInt32 speed) (stack : Ptr) :
    publication stack (publishGeneralMessageFromISR speed (directionName d)) =
      some ⟨directionTopic, generalPayload speed (directionName d)⟩ := by
  obtain ⟨short, clean⟩ := directionName_text d
  exact publication_of_general rfl (by omega) clean (fun _ inside => general_stored speed inside)
    (general_speed s short) stack

theorem genuine_publication {msg : PublishMsg} (genuine : Genuine msg) (stack : Ptr) :
    ∃ p, publication stack msg = some p ∧ publication (fun _ => 0) msg = some p := by
  cases genuine with
  | statistics a s =>
    exact ⟨_, publication_statistics a s stack, publication_statistics a s _⟩
  | status status => exact ⟨_, publication_status status stack, publication_status status _⟩
  | general d s => exact ⟨_, publication_general d s stack, publication_general d s _⟩

def onTopic (topic : List UInt8) (p : Publication) : Option (List UInt8) :=
  if p.topic = topic then some p.payload else none

def recordPayload (topic : List UInt8) (msg : PublishMsg) : Option (List UInt8) :=
  (publication (fun _ => 0) msg).bind (onTopic topic)

theorem topics_distinct : statisticsTopic ≠ statusTopic ∧ statisticsTopic ≠ directionTopic ∧
    statusTopic ≠ directionTopic := by decide

theorem recordPayload_statistics {attempts successes : Int} (a : IsInt32 attempts)
    (s : IsInt32 successes) (topic : List UInt8) :
    recordPayload topic (publishStatisticsFromISR attempts successes) =
      if statisticsTopic = topic then some (statisticsPayload attempts successes) else none := by
  rw [recordPayload, publication_statistics a s]
  rfl

theorem recordPayload_status (status : StatusType) (topic : List UInt8) :
    recordPayload topic (publishBoardStatus (boardStatus status)) =
      if statusTopic = topic then some (statusPayload (boardStatus status)) else none := by
  rw [recordPayload, publication_status]
  rfl

theorem recordPayload_general (d : Direction) {speed : Int} (s : IsInt32 speed)
    (topic : List UInt8) :
    recordPayload topic (publishGeneralMessageFromISR speed (directionName d)) =
      if directionTopic = topic then some (generalPayload speed (directionName d)) else none := by
  rw [recordPayload, publication_general d s]
  rfl

end RoverMqttClient
