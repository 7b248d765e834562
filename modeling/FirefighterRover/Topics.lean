import FirefighterRover.CallbackRuns
import FirefighterRover.Startup

/-!
Which topics reach which handler. The tests of the callback are bounded by the length of
the received topic, so a handler is also reached by every proper prefix of its topic.
-/
namespace RoverTopics
open CMemory RoverCallback RoverCallbackRuns RoverStartup

def topicBytes (msg : RecvMsg) : List UInt8 := Ptr.image msg.topic msg.topLen

def namedHandler (topic : List UInt8) : Handler :=
  if topic = lit "firefighter/arm/do_something" then .arm
  else if topic = lit "firefighter/rover/speed" then .speed
  else if topic = lit "firefighter/sensor" then .sensor
  else if topic = lit "firefighter/status" then .status
  else .ignored

def DispatchedByName (msg : RecvMsg) : Prop :=
  dispatch msg = namedHandler (topicBytes msg) ∧
    (namedHandler (topicBytes msg) = .ignored →
      ∀ st, mqttClientCallback st (.recv msg) = st)

def ProperPrefix (topic name : List UInt8) : Prop := topic <+: name ∧ topic ≠ name

instance (topic name : List UInt8) : Decidable (ProperPrefix topic name) :=
  inferInstanceAs (Decidable (topic <+: name ∧ topic ≠ name))

theorem prefix_iff {topic name : List UInt8} (proper : ¬ ProperPrefix topic name) :
    topic <+: name ↔ topic = name := by
  constructor
  · intro starts
    by_contra differ
    exact proper ⟨starts, differ⟩
  · rintro rfl
    exact List.prefix_rfl

theorem names_apart : ∀ name ∈ subscriptionTopics, ∀ other ∈ subscriptionTopics,
    ¬ ProperPrefix (lit name) (lit other) := by
  decide

theorem dispatch_starts {msg : RecvMsg} (clean : ∀ i, i < msg.topLen → msg.topic i ≠ 0) :
    dispatch msg =
      if topicBytes msg <+: lit "firefighter/arm/do_something" then .arm
      else if topicBytes msg <+: lit "firefighter/rover/speed" then .speed
      else if topicBytes msg <+: lit "firefighter/sensor" then .sensor
      else if topicBytes msg <+: lit "firefighter/status" then .status
      else .ignored := by
  unfold dispatch
  exact if_congr (strncmp_starts clean) rfl (if_congr (strncmp_starts clean) rfl
    (if_congr (strncmp_starts clean) rfl (if_congr (strncmp_starts clean) rfl rfl)))

theorem dispatch_ignored {msg : RecvMsg} (clean : ∀ i, i < msg.topLen → msg.topic i ≠ 0)
    (ignored : dispatch msg = .ignored) :
    ∀ name ∈ subscriptionTopics, ¬ topicBytes msg <+: lit name := by
  rw [dispatch_starts clean] at ignored
  split at ignored
  · cases ignored
  rename_i arm
  split at ignored
  · cases ignored
  rename_i speed
  split at ignored
  · cases ignored
  rename_i sensor
  split at ignored
  · cases ignored
  rename_i status
  simp only [subscriptionTopics, List.forall_mem_cons]
  exact ⟨status, arm, sensor, speed, by simp⟩

theorem namedHandler_of_not_mem {topic : List UInt8}
    (unnamed : ∀ name ∈ subscriptionTopics, topic ≠ lit name) :
    namedHandler topic = .ignored := by
  simp only [subscriptionTopics, List.forall_mem_cons] at unnamed
  simp [namedHandler, unnamed]

theorem ignored_unchanged {msg : RecvMsg} (ignored : dispatch msg = .ignored) (st : CallbackState) :
    mqttClientCallback st (.recv msg) = st := by
  simp only [mqttClientCallback, ignored]

theorem named_dispatch {msg : RecvMsg} (clean : ∀ i, i < msg.topLen → msg.topic i ≠ 0)
    (apart : ∀ name ∈ subscriptionTopics, ¬ ProperPrefix (topicBytes msg) (lit name)) :
    dispatch msg = namedHandler (topicBytes msg) := by
  simp only [subscriptionTopics, List.forall_mem_cons] at apart
  obtain ⟨status, arm, sensor, speed, _⟩ := apart
  rw [dispatch_starts clean, namedHandler]
  simp only [prefix_iff arm, prefix_iff speed, prefix_iff sensor, prefix_iff status]

/-- Messages are dispatched by the name of their topic exactly when the topic is no proper
    prefix, the empty one included, of a subscribed topic. -/
theorem dispatchedByName_iff {msg : RecvMsg} (clean : ∀ i, i < msg.topLen → msg.topic i ≠ 0) :
    DispatchedByName msg ↔
      ∀ name ∈ subscriptionTopics, ¬ ProperPrefix (topicBytes msg) (lit name) := by
  constructor
  · rintro ⟨named, _⟩ name member proper
    have unnamed : ∀ other ∈ subscriptionTopics, topicBytes msg ≠ lit other := by
      intro other listed same
      rw [same] at proper
      exact names_apart other listed name member proper
    have ignored := named.trans (namedHandler_of_not_mem unnamed)
    exact dispatch_ignored clean ignored name member proper.1
  · intro apart
    have named := named_dispatch clean apart
    constructor
    · exact named
    · intro ignored st
      exact ignored_unchanged (named.trans ignored) st

theorem prefix_topic_drives :
    ¬ ∀ msg : RecvMsg, (∀ i, i < msg.topLen → msg.topic i ≠ 0) → DispatchedByName msg := by
  intro every
  have clean : ∀ i, i < 17 → (message "firefighter/rover" "\x7b\"speed\": 5\x7d").topic i ≠ 0 := by
    decide
  have named := (every (message "firefighter/rover" "\x7b\"speed\": 5\x7d") clean).1
  exact absurd named (by decide)

theorem dispatchedByName_sensor :
    let msg := message "firefighter/sensor" "\x7b\"direction\": \"stop\"\x7d"
    (∀ i, i < msg.topLen → msg.topic i ≠ 0) ∧ DispatchedByName msg := by
  intro msg
  have clean : ∀ i, i < msg.topLen → msg.topic i ≠ 0 := by decide
  have apart : ∀ name ∈ subscriptionTopics, ¬ ProperPrefix (topicBytes msg) (lit name) := by decide
  exact ⟨clean, (dispatchedByName_iff clean).mpr apart⟩

end RoverTopics
