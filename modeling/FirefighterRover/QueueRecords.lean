import FirefighterRover.MqttClient
import Mathlib.Data.List.GetD

/-!
The records of publishQueue that carry a string: when the array of a record holds the whole
string it was filled from, so that MqttClient needs nothing else to publish it.
-/
namespace RoverQueueRecords
open CMemory RoverQueues RoverMqttClient

inductive Sender where
  | boardStatus
  | generalFromISR (speed : Int)

def Sender.record : Sender → List UInt8 → PublishMsg
  | .boardStatus, text => publishBoardStatus text
  | .generalFromISR speed, text => publishGeneralMessageFromISR speed text

def Sender.capacity : Sender → Nat
  | .boardStatus => 64
  | .generalFromISR _ => 15

def Sender.type : Sender → PublishMsgType
  | .boardStatus => .status
  | .generalFromISR _ => .general

def Sender.HoldsSpeed : Sender → PublishMsg → Prop
  | .boardStatus, _ => True
  | .generalFromISR speed, msg => msg.speed = speed

def Sender.SameSpeed : Sender → PublishMsg → PublishMsg → Prop
  | .boardStatus, _, _ => True
  | .generalFromISR _, msg, other => other.speed = msg.speed

def Sender.IntArgument : Sender → Prop
  | .boardStatus => True
  | .generalFromISR speed => IsInt32 speed

def Sender.publishes : Sender → List UInt8 → Publication
  | .boardStatus, text => ⟨statusTopic, statusPayload text⟩
  | .generalFromISR speed, text => ⟨directionTopic, generalPayload speed text⟩

theorem capacity_le (s : Sender) : s.capacity ≤ 64 := by
  cases s with
  | boardStatus => exact Nat.le_refl 64
  | generalFromISR speed => exact (by decide : 15 ≤ 64)

structure Sender.Agree (s : Sender) (msg other : PublishMsg) : Prop where
  type : other.type = msg.type
  array : ∀ i : Fin 64, i.val < s.capacity → other.body i = msg.body i
  speed : s.SameSpeed msg other

theorem agree_refl (s : Sender) (msg : PublishMsg) : s.Agree msg msg := by
  constructor
  case type => rfl
  case array => intro i _; rfl
  case speed => cases s <;> trivial

/-- What a record made from `text` needs to be read on its own. -/
structure Sender.SelfContained (s : Sender) (text : List UInt8) : Prop where
  terminated : ∃ i : Fin 64, i.val < s.capacity ∧ (s.record text).body i = 0
  type : (s.record text).type = s.type
  speed : s.HoldsSpeed (s.record text)
  payload : ∀ stack, ∃ start, start <+: text ∧
    publication stack (s.record text) = some (s.publishes start)
  array : ∀ stack stack' other, s.Agree (s.record text) other →
    publication stack' other = publication stack (s.record text)

theorem record_stored (s : Sender) (text : List UInt8) {i : Fin 64} (inside : i.val ≤ text.length) :
    (s.record text).body i = text.getD i 0 := by
  cases s with
  | boardStatus => rfl
  | generalFromISR speed => exact general_stored speed inside

theorem record_speed {s : Sender} (argument : s.IntArgument) {text : List UInt8}
    (short : text.length < s.capacity) : s.HoldsSpeed (s.record text) := by
  cases s with
  | boardStatus => trivial
  | generalFromISR speed => exact general_speed argument (Nat.lt_succ_of_lt short)

theorem publication_of_agree {s : Sender} (argument : s.IntArgument) {text : List UInt8}
    (clean : ∀ c ∈ text, c ≠ 0) (short : text.length < s.capacity) {msg : PublishMsg}
    (agree : s.Agree (s.record text) msg) (stack : Ptr) :
    publication stack msg = some (s.publishes text) := by
  have reach := capacity_le s
  have stored : ∀ i (inside : i ≤ text.length),
      msg.body ⟨i, by omega⟩ = text.getD i 0 := by
    intro i inside
    rw [agree.array ⟨i, by omega⟩ (Nat.lt_of_le_of_lt inside short), record_stored s text inside]
  have given := record_speed argument short
  have same := agree.speed
  cases s with
  | boardStatus => exact publication_of_status agree.type short clean stored stack
  | generalFromISR speed =>
    exact publication_of_general agree.type (by omega) clean stored (same.trans given) stack

theorem short_of_terminated {s : Sender} {text : List UInt8} (clean : ∀ c ∈ text, c ≠ 0)
    (terminated : ∃ i : Fin 64, i.val < s.capacity ∧ (s.record text).body i = 0) :
    text.length < s.capacity := by
  obtain ⟨i, within, zero⟩ := terminated
  by_contra long
  have inside : i.val < text.length := by omega
  rw [record_stored s text (Nat.le_of_lt inside), List.getD_eq_getElem text 0 inside] at zero
  exact clean _ (List.getElem_mem inside) zero

theorem selfContained_iff_fits {s : Sender} (argument : s.IntArgument) {text : List UInt8}
    (clean : ∀ c ∈ text, c ≠ 0) : s.SelfContained text ↔ text.length < s.capacity := by
  constructor
  · intro self
    exact short_of_terminated clean self.terminated
  · intro short
    have reach := capacity_le s
    have itself : s.Agree (s.record text) (s.record text) := agree_refl s (s.record text)
    have read : ∀ msg stack, s.Agree (s.record text) msg →
        publication stack msg = some (s.publishes text) :=
      fun msg stack agree => publication_of_agree argument clean short agree stack
    constructor
    case terminated =>
      refine ⟨⟨text.length, by omega⟩, short, ?_⟩
      rw [record_stored s text (Nat.le_refl _)]
      exact List.getD_eq_default text 0 (Nat.le_refl _)
    case type => cases s <;> rfl
    case speed => exact record_speed argument short
    case payload =>
      intro stack
      exact ⟨text, List.prefix_rfl, read _ stack itself⟩
    case array =>
      intro stack stack' other agree
      rw [read other stack' agree, read _ stack itself]

theorem selfContained_at_boundary : Sender.boardStatus.SelfContained (lit "Starting up") ∧
    ¬ (Sender.generalFromISR 3).SelfContained (lit "straight ahead.") := by
  have none : Sender.boardStatus.IntArgument := trivial
  have level : (Sender.generalFromISR 3).IntArgument := (by decide : IsInt32 3)
  have status : ∀ c ∈ lit "Starting up", c ≠ 0 := clean_of_all rfl
  have roverDir : ∀ c ∈ lit "straight ahead.", c ≠ 0 := clean_of_all rfl
  constructor
  · exact (selfContained_iff_fits none status).mpr (by decide)
  · intro self
    exact absurd ((selfContained_iff_fits level roverDir).mp self) (by decide)

/-- A status of 64 characters is published with what lies behind the record, and the NUL of a
    direction of 16 characters is the low byte of the speed. -/
theorem long_strings_spill : ¬ Sender.boardStatus.SelfContained (List.replicate 64 (chr 'a')) ∧
    ¬ (Sender.generalFromISR 1).SelfContained (lit "straight forward") := by
  constructor
  · intro self
    have same := self.array (cstr []) (cstr (lit "b")) _ (agree_refl _ _)
    exact absurd same (by decide)
  · intro self
    exact absurd self.speed (by decide : (publishGeneralMessageFromISR 1
      (lit "straight forward")).speed ≠ 1)

end RoverQueueRecords
