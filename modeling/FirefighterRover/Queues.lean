import FirefighterRover.JsonParser

/-!
queues.c and queues.h: the records of the two FreeRTOS queues. The union of a PublishMsg
is its 64-byte image, written by the senders and read back by MqttClient field by field.
-/
namespace RoverQueues
open CMemory RoverJson

inductive PublishMsgType where
  | statistics
  | status
  | stopThread
  | general
  deriving DecidableEq, Repr

structure PublishMsg where
  type : PublishMsgType
  body : Fin 64 → UInt8

inductive StatusType where
  | start
  | stop
  deriving DecidableEq, Repr

structure MainMsg where
  status : StatusType
  deriving DecidableEq, Repr

def queueLength : Nat := 10

/-- A received record in memory, with what lies behind it on the stack of its receiver. -/
def PublishMsg.mem (msg : PublishMsg) (stack : Ptr) : Ptr :=
  fun i => if h : i < 64 then msg.body ⟨i, h⟩ else stack (i - 64)

theorem mem_inside (msg : PublishMsg) (stack : Ptr) {i : Nat} (inside : i < 64) :
    msg.mem stack i = msg.body ⟨i, inside⟩ := by simp [PublishMsg.mem, inside]

/-- The fields of the union: status and rover_dir at 0, the two counters at 0 and 4, and
    gen_info.speed behind rover_dir[15] and one byte of padding. -/
def PublishMsg.field (msg : PublishMsg) (offset : Nat) : Int :=
  readInt ((msg.mem fun _ => 0).add offset)

def PublishMsg.publishAttempts (msg : PublishMsg) : Int := msg.field 0
def PublishMsg.publishSuccesses (msg : PublishMsg) : Int := msg.field 4
def PublishMsg.speed (msg : PublishMsg) : Int := msg.field 16

/-- strncpy of 64 bytes: padded with NULs, and unterminated when there is no room for one. -/
def publishBoardStatus (status : List UInt8) : PublishMsg :=
  ⟨.status, fun i => status.getD i 0⟩

def publishStatisticsFromISR (publishAttempts publishSuccesses : Int) : PublishMsg :=
  ⟨.statistics, fun i =>
    if i.val < 4 then intByte publishAttempts i
    else if i.val < 8 then intByte publishSuccesses (i - 4)
    else 0⟩

/-- strcpy into rover_dir runs over the field behind it when the name is too long. -/
def publishGeneralMessageFromISR (speed : Int) (roverDir : List UInt8) : PublishMsg :=
  ⟨.general, fun i =>
    if i.val ≤ roverDir.length then roverDir.getD i 0
    else if 16 ≤ i.val ∧ i.val < 20 then intByte speed (i - 16)
    else 0⟩

def stopPublishThread : PublishMsg := ⟨.stopThread, fun _ => 0⟩

theorem field_of_image {msg : PublishMsg} {offset : Nat} {n : Int} (fits : IsInt32 n)
    (inside : offset + 4 ≤ 64)
    (image : ∀ k (h : k < 4), msg.body ⟨offset + k, by omega⟩ = intByte n k) :
    msg.field offset = n := by
  apply readInt_of_image fits
  intro k hk
  rw [Ptr.add, mem_inside msg _ (by omega : offset + k < 64)]
  exact image k hk

theorem statistics_attempts {a : Int} (fits : IsInt32 a) (b : Int) :
    (publishStatisticsFromISR a b).publishAttempts = a := by
  apply field_of_image fits (by decide)
  intro k hk
  simp [publishStatisticsFromISR, hk]

theorem statistics_successes (a : Int) {b : Int} (fits : IsInt32 b) :
    (publishStatisticsFromISR a b).publishSuccesses = b := by
  apply field_of_image fits (by decide)
  intro k hk
  have second : ¬ 4 + k < 4 := by omega
  have within : 4 + k < 8 := by omega
  simp [publishStatisticsFromISR, second, within]

theorem general_speed {speed : Int} (fits : IsInt32 speed) {roverDir : List UInt8}
    (short : roverDir.length < 16) :
    (publishGeneralMessageFromISR speed roverDir).speed = speed := by
  apply field_of_image fits (by decide)
  intro k hk
  have behind : ¬ 16 + k ≤ roverDir.length := by omega
  have within : 16 + k < 20 := by omega
  simp [publishGeneralMessageFromISR, behind, within]

theorem stored_text {msg : PublishMsg} {text : List UInt8} (short : text.length < 64)
    (clean : ∀ c ∈ text, c ≠ 0)
    (stored : ∀ i (inside : i ≤ text.length),
      msg.body ⟨i, Nat.lt_of_le_of_lt inside short⟩ = text.getD i 0)
    (stack : Ptr) {n : Nat} (room : text.length < n) : strn (msg.mem stack) n = text := by
  apply strn_text text _ n room clean
  intro i inside
  rw [mem_inside _ stack (Nat.lt_of_le_of_lt inside short)]
  exact stored i inside

theorem general_stored (speed : Int) {roverDir : List UInt8} {i : Fin 64}
    (inside : i.val ≤ roverDir.length) :
    (publishGeneralMessageFromISR speed roverDir).body i = roverDir.getD i 0 := if_pos inside

end RoverQueues
