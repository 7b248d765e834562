import FirefighterRover.PublishPath
import Mathlib.Algebra.Group.Nat.Defs
import Mathlib.Data.List.Infix

/-!
The counters of statistics.c across the threads that advance them and the interrupt that
samples them: which law the samples obey, and what the published ones say.
-/
namespace RoverStatistics
open CMemory EventRuns RoverQueues RoverState RoverCallback RoverCommands RoverCallbackSteps
  RoverMqttClient RoverSystem RoverPublishPath

def uncounted (σ : System) : Nat :=
  match σ.publisher with
  | .publishing => 1
  | _ => 0

def unhandled (σ : System) : Nat :=
  match σ.receiver with
  | .running _ _ rest => rest.countP Op.acknowledges
  | .idle => 0

structure Accounts (σ : System) : Prop where
  published : σ.published.length = σ.counted + uncounted σ
  pubacks : σ.delivered.countP isPuback = σ.pubacks + unhandled σ

theorem change_accounts (σ : System) (a : Act) (τ : System) (accounts : Accounts σ)
    (change : Change σ a τ) : Accounts τ := by
  obtain ⟨published, pubacks⟩ := accounts
  cases change with
  | deliver event idle =>
    refine ⟨published, ?_⟩
    simp only [unhandled, idle] at pubacks
    simp only [unhandled, List.countP_append, (callbackOps_accounts _ event).2, pubacks]
    cases event with
    | operation op => cases op <;> rfl
    | _ => rfl
  | returns done =>
    simp only [unhandled, done, List.countP_nil] at pubacks
    exact ⟨published, pubacks⟩
  | @op _ _ op _ next _ other =>
    have silent : op.acknowledges = false := by cases op <;> first | rfl | exact absurd rfl other
    simp only [unhandled, next, List.countP_cons, silent] at pubacks
    exact ⟨published, pubacks⟩
  | puback next =>
    simp only [unhandled, next, List.countP_cons, Op.acknowledges, ↓reduceIte] at pubacks
    refine ⟨published, ?_⟩
    simp only [unhandled]
    omega
  | updateStatus next _ =>
    simp only [unhandled, next, List.countP_cons, Op.acknowledges] at pubacks
    exact ⟨published, pubacks⟩
  | clientReceive _ waiting _ =>
    simp only [uncounted, waiting] at published
    exact ⟨published, pubacks⟩
  | clientPublish _ holding _ =>
    simp only [uncounted, holding] at published
    refine ⟨?_, pubacks⟩
    simp only [uncounted, List.length_append, List.length_singleton]
    omega
  | clientExit _ holding _ =>
    simp only [uncounted, holding] at published
    exact ⟨published, pubacks⟩
  | clientCount _ publishing =>
    simp only [uncounted, publishing] at published
    exact ⟨published, pubacks⟩
  | _ => exact ⟨published, pubacks⟩

theorem always_accounts (acts : List Act) : Accounts (after acts) :=
  always Accounts ⟨rfl, rfl⟩ change_accounts acts

theorem attempts_exact {acts : List Act} (few : (after acts).counted < 2 ^ 31) :
    (after acts).publishAttempts = (after acts).counted := by
  rw [(always_counters acts).attempts]
  apply wrap32_of_isInt32
  simp only [IsInt32]
  omega

theorem successes_exact {acts : List Act} (few : (after acts).pubacks < 2 ^ 31) :
    (after acts).publishSuccesses = (after acts).pubacks := by
  rw [(always_counters acts).successes]
  apply wrap32_of_isInt32
  simp only [IsInt32]
  omega

def Precedes (a b : StatisticsSample) : Prop := a.counted ≤ b.counted ∧ a.pubacks ≤ b.pubacks

structure Ordered (σ : System) : Prop where
  counters : Counters σ
  tallied : ∀ s ∈ σ.statistics,
    s.publishAttempts = wrap32 s.counted ∧ s.publishSuccesses = wrap32 s.pubacks
  past : ∀ s ∈ σ.statistics, s.counted ≤ σ.counted ∧ s.pubacks ≤ σ.pubacks
  ordered : σ.statistics.Pairwise Precedes

theorem change_ordered (σ : System) (a : Act) (τ : System) (inv : Ordered σ)
    (change : Change σ a τ) : Ordered τ := by
  obtain ⟨counters, tallied, past, ordered⟩ := inv
  have counters' := change_counters σ a τ counters change
  cases change with
  | puback next =>
    refine ⟨counters', tallied, ?_, ordered⟩
    intro s mem
    obtain ⟨counted, pubacks⟩ := past s mem
    exact ⟨counted, Nat.le_succ_of_le pubacks⟩
  | clientCount _ publishing =>
    refine ⟨counters', tallied, ?_, ordered⟩
    intro s mem
    obtain ⟨counted, pubacks⟩ := past s mem
    exact ⟨Nat.le_succ_of_le counted, pubacks⟩
  | statistics =>
    refine ⟨counters', ?_, ?_, ?_⟩
    · intro s mem
      rcases List.mem_append.mp mem with old | new
      · exact tallied s old
      · rw [List.mem_singleton.mp new]
        exact ⟨counters.attempts, counters.successes⟩
    · intro s mem
      rcases List.mem_append.mp mem with old | new
      · exact past s old
      · rw [List.mem_singleton.mp new]
        exact ⟨Nat.le_refl _, Nat.le_refl _⟩
    · simp only [statisticsTimerCallback, List.pairwise_append, List.mem_singleton]
      refine ⟨ordered, List.pairwise_singleton _ _, ?_⟩
      rintro s mem _ rfl
      exact past s mem
  | _ => exact ⟨counters', tallied, past, ordered⟩

theorem always_ordered (acts : List Act) : Ordered (after acts) := by
  have start : Ordered .boot := by
    refine ⟨⟨by decide, by decide⟩, ?_, ?_, List.Pairwise.nil⟩
    · intro s mem
      cases mem
    · intro s mem
      cases mem
  exact always Ordered start change_ordered acts

theorem sample_taken {acts : List Act} {s : StatisticsSample}
    (taken : s ∈ (after acts).statistics) :
    ∃ pre, pre ++ [.statisticsTimer] <+: acts ∧ s = (after pre).statisticsSample := by
  obtain ⟨pre, a, inRun, added⟩ := (mem_log_iff samples_logged.1 rfl acts s).mp taken
  cases a with
  | statisticsTimer => exact ⟨pre, inRun, (Option.some.inj added).symm⟩
  | _ => cases added

theorem published_samples (acts : List Act) :
    ∃ samples : List StatisticsSample, samples.Sublist (after acts).statistics ∧
      (after acts).published.filterMap (onTopic statisticsTopic) =
        samples.map statisticsSamplePayload := by
  have inOrder := published_subsequence acts topics_distinct.1.symm
  rw [offered, if_pos rfl] at inOrder
  exact List.sublist_map_iff.mp inOrder

theorem statistics_snapshots (acts : List Act)
    (publishes : (after acts).published.length < 2 ^ 31)
    (pubacks : (after acts).delivered.countP isPuback < 2 ^ 31) :
    ∃ samples : List StatisticsSample,
      (after acts).published.filterMap (onTopic statisticsTopic) =
        samples.map (fun s => statisticsPayload s.counted s.pubacks) ∧
      samples.Sublist (after acts).statistics ∧
      samples.Pairwise (fun a b => a.counted ≤ b.counted ∧ a.pubacks ≤ b.pubacks) ∧
      ∀ s ∈ samples, ∃ pre, pre ++ [.statisticsTimer] <+: acts ∧
        s.counted = (after pre).counted ∧ s.pubacks = (after pre).pubacks := by
  obtain ⟨samples, kept, payloads⟩ := published_samples acts
  obtain ⟨_, tallied, past, ordered⟩ := always_ordered acts
  obtain ⟨calls, events⟩ := always_accounts acts
  refine ⟨samples, ?_, kept, ordered.sublist kept, ?_⟩
  · rw [payloads]
    apply List.map_congr_left
    intro s mem
    obtain ⟨attempts, successes⟩ := tallied s (kept.subset mem)
    obtain ⟨counted, handled⟩ := past s (kept.subset mem)
    have attemptsFit : IsInt32 s.counted := by
      simp only [IsInt32]
      omega
    have successesFit : IsInt32 s.pubacks := by
      simp only [IsInt32]
      omega
    rw [statisticsSamplePayload, attempts, successes, wrap32_of_isInt32 attemptsFit,
      wrap32_of_isInt32 successesFit]
  · intro s mem
    obtain ⟨pre, fired, same⟩ := sample_taken (kept.subset mem)
    exact ⟨pre, fired, congrArg StatisticsSample.counted same,
      congrArg StatisticsSample.pubacks same⟩

theorem statistics_snapshots_two_ticks :
    let tick : List Act := [.statisticsTimer, .mqttClient (cstr []), .mqttClient (cstr []),
      .mqttClient (cstr [])]
    ∃ samples : List StatisticsSample,
      (after (tick ++ tick)).published.filterMap (onTopic statisticsTopic) =
        samples.map (fun s => statisticsPayload s.counted s.pubacks) ∧
      samples.Pairwise (fun a b => a.counted ≤ b.counted ∧ a.pubacks ≤ b.pubacks) := by
  intro tick
  obtain ⟨samples, payloads, _, ordered, _⟩ :=
    statistics_snapshots (tick ++ tick) (by decide) (by decide)
  exact ⟨samples, payloads, ordered⟩

/-- The broker acknowledges only publish calls that were made, each at most once. -/
def Acknowledged (acts : List Act) : Prop :=
  ∀ pre, pre <+: acts → (after pre).delivered.countP isPuback ≤ (after pre).published.length

/-- The next step of the callback counts a PUBACK, while MqttClient has made a publish call
    it has not counted and every call it has counted is already acknowledged. -/
def EarlyPuback (σ : System) : Prop :=
  σ.publisher = .publishing ∧ σ.counted ≤ σ.pubacks ∧
    ∃ entry event rest, σ.receiver = .running entry event (.incrementPublishSuccesses :: rest)

def CountedFirst (acts : List Act) : Prop :=
  ∀ pre, pre ++ [.receiver] <+: acts → ¬ EarlyPuback (after pre)

theorem puback_allowed {σ : System} (accounts : Accounts σ)
    (acknowledged : σ.delivered.countP isPuback ≤ σ.published.length)
    (timely : ¬ EarlyPuback σ) {entry : CallbackState} {event : Event} {rest : List Op}
    (next : σ.receiver = .running entry event (.incrementPublishSuccesses :: rest)) :
    σ.pubacks + 1 ≤ σ.counted := by
  obtain ⟨published, pubacks⟩ := accounts
  simp only [unhandled, next, List.countP_cons, Op.acknowledges, ↓reduceIte] at pubacks
  by_cases publishing : σ.publisher = .publishing
  · have behind : ¬ σ.counted ≤ σ.pubacks := fun late =>
      timely ⟨publishing, late, entry, event, rest, next⟩
    omega
  · have counted : uncounted σ = 0 := by
      unfold uncounted
      split
      · exact absurd ‹_› publishing
      · rfl
    omega

theorem change_pubacks {σ τ : System} {a : Act} (change : Change σ a τ)
    (lawful : σ.pubacks ≤ σ.counted) : τ.pubacks ≤ τ.counted ∨
      (a = .receiver ∧ ∃ entry event rest,
        σ.receiver = .running entry event (.incrementPublishSuccesses :: rest) ∧
        τ.pubacks = σ.pubacks + 1 ∧ τ.counted = σ.counted) := by
  cases change with
  | puback next => exact Or.inr ⟨rfl, _, _, _, next, rfl, rfl⟩
  | clientCount _ _ => exact Or.inl (Nat.le_succ_of_le lawful)
  | _ => exact Or.inl lawful

theorem pubacks_le_counted {acts : List Act} (acknowledged : Acknowledged acts)
    (timely : CountedFirst acts) :
    ∀ pre, pre <+: acts → (after pre).pubacks ≤ (after pre).counted := by
  have kept (pre : List Act) (a : Act) (inRun : pre ++ [a] <+: acts)
      (lawful : (after pre).pubacks ≤ (after pre).counted) :
      (step (after pre) a).pubacks ≤ (step (after pre) a).counted := by
    rcases change_pubacks (step_change (after pre) a) lawful with
      same | ⟨rfl, _, _, _, next, handled, counted⟩
    · exact same
    · rw [handled, counted]
      have earlier := (List.prefix_append pre [.receiver]).trans inRun
      exact puback_allowed (always_accounts pre) (acknowledged pre earlier) (timely pre inRun) next
  exact run_prefix_keeps (fun σ : System => σ.pubacks ≤ σ.counted) acts (Nat.le_refl 0) kept

theorem early_puback_overtakes {σ : System} (early : EarlyPuback σ) :
    (receiverStep σ).counted < (receiverStep σ).pubacks := by
  obtain ⟨_, late, entry, event, rest, next⟩ := early
  simp only [receiverStep, next]
  omega

theorem change_published {σ τ : System} {a : Act} (change : Change σ a τ) :
    σ.published.length ≤ τ.published.length := by
  cases change with
  | clientPublish => simp
  | _ => exact Nat.le_refl _

theorem prefix_published {pre acts : List Act} (inRun : pre <+: acts) :
    (after pre).published.length ≤ (after acts).published.length := by
  obtain ⟨rest, rfl⟩ := inRun
  rw [after, after, run_append]
  exact run_invariant
    (fun σ : System => (run step .boot pre).published.length ≤ σ.published.length)
    (fun σ a long => Nat.le_trans long (change_published (step_change σ a))) rest _ (Nat.le_refl _)

/-- Exactly when no PUBACK is counted early do the counters obey the law in every state an
    interrupt can sample; then every sample and every published payload obeys it. -/
theorem successes_le_attempts_iff (acts : List Act) (acknowledged : Acknowledged acts)
    (few : (after acts).published.length < 2 ^ 31) :
    ((∀ pre, pre <+: acts → (after pre).publishSuccesses ≤ (after pre).publishAttempts) ↔
      CountedFirst acts) ∧
    (CountedFirst acts →
      (∀ s ∈ (after acts).statistics, s.publishSuccesses ≤ s.publishAttempts) ∧
      ∀ payload ∈ (after acts).published.filterMap (onTopic statisticsTopic),
        ∃ attempts successes, payload = statisticsPayload attempts successes ∧
          successes ≤ attempts) := by
  have exact (pre : List Act) (inRun : pre <+: acts) :
      (after pre).publishAttempts = (after pre).counted ∧
      (after pre).publishSuccesses = (after pre).pubacks := by
    obtain ⟨calls, events⟩ := always_accounts pre
    have issued := prefix_published inRun
    have allowed := acknowledged pre inRun
    exact ⟨attempts_exact (by omega), successes_exact (by omega)⟩
  have lawful (timely : CountedFirst acts) (pre : List Act) (inRun : pre <+: acts) :
      (after pre).publishSuccesses ≤ (after pre).publishAttempts := by
    obtain ⟨attempts, successes⟩ := exact pre inRun
    rw [attempts, successes]
    exact Int.ofNat_le.mpr (pubacks_le_counted acknowledged timely pre inRun)
  have sampled (timely : CountedFirst acts) (s : StatisticsSample)
      (taken : s ∈ (after acts).statistics) : s.publishSuccesses ≤ s.publishAttempts := by
    obtain ⟨pre, fired, rfl⟩ := sample_taken taken
    exact lawful timely pre ((List.prefix_append pre _).trans fired)
  refine ⟨⟨?_, lawful⟩, fun timely => ⟨sampled timely, ?_⟩⟩
  · intro always pre inRun early
    have overtaken := early_puback_overtakes early
    obtain ⟨attempts, successes⟩ := exact (pre ++ [.receiver]) inRun
    have law := always (pre ++ [.receiver]) inRun
    rw [attempts, successes, after_concat] at law
    exact absurd (Int.ofNat_le.mp law) (Nat.not_le.mpr overtaken)
  · intro payload mem
    obtain ⟨samples, kept, payloads⟩ := published_samples acts
    rw [payloads] at mem
    obtain ⟨s, inSamples, rfl⟩ := List.mem_map.mp mem
    exact ⟨_, _, rfl, sampled timely s (kept.subset inSamples)⟩

theorem acknowledged_of_inits {acts : List Act}
    (each : ∀ pre ∈ acts.inits, (after pre).delivered.countP isPuback ≤
      (after pre).published.length) : Acknowledged acts :=
  fun pre inRun => each pre ((List.mem_inits pre acts).mpr inRun)

def earlyRun : List Act :=
  [.statisticsTimer, .mqttClient (cstr []), .mqttClient (cstr []),
   .deliver (.operation .puback), .receiver, .statisticsTimer,
   .mqttClient (cstr []), .mqttClient (cstr []), .mqttClient (cstr [])]

theorem puback_overtakes_attempt : Acknowledged earlyRun ∧
    (∃ s ∈ (after earlyRun).statistics, s.publishAttempts < s.publishSuccesses) ∧
    (after earlyRun).published.filterMap (onTopic statisticsTopic) =
      [statisticsPayload 0 0, statisticsPayload 0 1] := by
  refine ⟨acknowledged_of_inits ?_, ?_, ?_⟩
  · decide
  · decide
  · decide

theorem successes_le_attempts_in_turn :
    let acts : List Act :=
      [.statisticsTimer, .mqttClient (cstr []), .mqttClient (cstr []), .mqttClient (cstr []),
       .deliver (.operation .puback), .receiver, .statisticsTimer]
    (after acts).publishSuccesses = 1 ∧ ∀ pre, pre <+: acts →
      (after pre).publishSuccesses ≤ (after pre).publishAttempts := by
  intro acts
  have acknowledged : Acknowledged acts := acknowledged_of_inits (by decide)
  have timely : CountedFirst acts := by
    intro pre inRun early
    obtain ⟨publishing, _, _, _, _, running⟩ := early
    have listed := (List.mem_inits pre acts).mpr ((List.prefix_append pre _).trans inRun)
    simp only [acts, List.inits, List.map_cons, List.map_nil, List.mem_cons, List.not_mem_nil,
      or_false] at listed
    -- the callback is idle while the call is under way
    rcases listed with rfl | rfl | rfl | rfl | rfl | rfl | rfl | rfl
    all_goals first | (cases publishing; done) | cases running
  constructor
  · decide
  · exact (successes_le_attempts_iff acts acknowledged (by decide)).1.mpr timely

end RoverStatistics
