import Mathlib.Data.List.DropRight
import Mathlib.Data.List.Induction

/-!
Finite runs of a deterministic step function, invariants of such runs, and registers:
state components that every event either overwrites or leaves alone. A register holds
its last write after a run, whatever the other events were.
-/
namespace EventRuns
variable {State Event Value : Type}

def run (step : State → Event → State) (start : State) (events : List Event) : State :=
  events.foldl step start

@[simp] theorem run_nil (step : State → Event → State) (start : State) :
    run step start [] = start := rfl

@[simp] theorem run_cons (step : State → Event → State) (start : State) (e : Event)
    (rest : List Event) : run step start (e :: rest) = run step (step start e) rest := rfl

theorem run_append (step : State → Event → State) (start : State) (a b : List Event) :
    run step start (a ++ b) = run step (run step start a) b := by
  simp [run, List.foldl_append]

theorem run_concat (step : State → Event → State) (start : State) (a : List Event) (e : Event) :
    run step start (a ++ [e]) = step (run step start a) e := by
  simp [run_append]

theorem run_keeps {step : State → Event → State} (inv : State → Prop) (allowed : Event → Prop)
    (kept : ∀ s e, inv s → allowed e → inv (step s e)) (events : List Event) :
    ∀ s, inv s → (∀ e ∈ events, allowed e) → inv (run step s events) := by
  induction events with
  | nil => intro s start _; exact start
  | cons e rest ih =>
    intro s start all
    have next := kept s e start (all e (by simp))
    exact ih (step s e) next (fun x hx => all x (by simp [hx]))

theorem run_invariant {step : State → Event → State} (inv : State → Prop)
    (kept : ∀ s e, inv s → inv (step s e)) (events : List Event) (s : State) (start : inv s) :
    inv (run step s events) :=
  run_keeps inv (fun _ => True) (fun s e hs _ => kept s e hs) events s start (fun _ _ => trivial)

theorem run_prefix_keeps {step : State → Event → State} {start : State} (inv : State → Prop)
    (events : List Event) (base : inv start)
    (kept : ∀ pre e, pre ++ [e] <+: events → inv (run step start pre) →
      inv (step (run step start pre) e)) :
    ∀ pre, pre <+: events → inv (run step start pre) := by
  intro pre
  induction pre using List.reverseRecOn with
  | nil => intro _; exact base
  | append_singleton pre e ih =>
    intro inRun
    have before := ih ((List.prefix_append pre [e]).trans inRun)
    rw [run_concat]
    exact kept pre e inRun before

def Throughout (step : State → Event → State) (P : State → Prop) (s : State)
    (events : List Event) : Prop :=
  ∀ pre, pre <+: events → P (run step s pre)

theorem throughout_nil {step : State → Event → State} {P : State → Prop} {s : State}
    (first : P s) : Throughout step P s [] := by
  intro pre inRun
  rw [List.prefix_nil.mp inRun]
  exact first

theorem throughout_cons {step : State → Event → State} {P : State → Prop} {s : State} {e : Event}
    {events : List Event} (first : P s) (rest : Throughout step P (step s e) events) :
    Throughout step P s (e :: events) := by
  intro pre inRun
  rcases List.prefix_cons_iff.mp inRun with rfl | ⟨pre, rfl, inRest⟩
  · exact first
  · exact rest pre inRest

theorem throughout_kept {step : State → Event → State} {P : State → Prop} {s : State}
    {events : List Event} (first : P s) (kept : ∀ s e, e ∈ events → P s → P (step s e)) :
    Throughout step P s events := by
  intro pre inRun
  apply run_keeps P (fun e => e ∈ events) (fun s e holds mem => kept s e mem holds) pre s first
  intro e mem
  exact inRun.subset mem

/-- A history that grows by what `entry` says each event adds to it. -/
def IsLog (step : State → Event → State) (log : State → List Value)
    (entry : State → Event → Option Value) : Prop :=
  ∀ s e, log (step s e) = log s ++ (entry s e).toList

theorem mem_log_iff {step : State → Event → State} {log : State → List Value}
    {entry : State → Event → Option Value} (isLog : IsLog step log entry) {start : State}
    (empty : log start = []) (events : List Event) (x : Value) :
    x ∈ log (run step start events) ↔
      ∃ pre e, pre ++ [e] <+: events ∧ entry (run step start pre) e = some x := by
  induction events using List.reverseRecOn with
  | nil => simp [empty]
  | append_singleton events e ih =>
    rw [run_concat, isLog, List.mem_append, Option.mem_toList, ih]
    constructor
    · rintro (⟨pre, e', inRun, added⟩ | added)
      · exact ⟨pre, e', inRun.trans (List.prefix_append events [e]), added⟩
      · exact ⟨events, e, List.prefix_rfl, added⟩
    · rintro ⟨pre, e', inRun, added⟩
      rcases List.prefix_concat_iff.mp inRun with whole | earlier
      · obtain ⟨rfl, same⟩ := List.append_inj' whole rfl
        obtain rfl := (List.cons.inj same).1
        exact Or.inr added
      · exact Or.inl ⟨pre, e', earlier, added⟩

def trace (step : State → Event → State) (entry : State → Event → Option Value) :
    State → List Event → List Value
  | _, [] => []
  | s, e :: rest => (entry s e).toList ++ trace step entry (step s e) rest

theorem trace_append (step : State → Event → State) (entry : State → Event → Option Value)
    (a b : List Event) : ∀ s : State,
    trace step entry s (a ++ b) = trace step entry s a ++ trace step entry (run step s a) b := by
  induction a with
  | nil => intro s; rfl
  | cons e rest ih =>
    intro s
    rw [List.cons_append, trace, trace, ih, run_cons, List.append_assoc]

theorem trace_concat (step : State → Event → State) (entry : State → Event → Option Value)
    (events : List Event) (e : Event) (s : State) :
    trace step entry s (events ++ [e]) =
      trace step entry s events ++ (entry (run step s events) e).toList := by
  rw [trace_append, trace, trace, List.append_nil]

theorem trace_map {Image : Type} (f : Value → Image)
    (step : State → Event → State) (entry : State → Event → Option Value) (events : List Event) :
    ∀ s, trace step (fun s e => (entry s e).map f) s events =
      (trace step entry s events).map f := by
  induction events with
  | nil => intro s; rfl
  | cons e rest ih =>
    intro s
    rw [trace, trace, ih, List.map_append]
    cases entry s e <;> rfl

theorem run_trace {step : State → Event → State} {entry : State → Event → Option Value}
    (inv : State → Prop) (kept : ∀ s e, inv s → inv (step s e)) (read : State → List Value)
    (grows : ∀ s e, inv s → read (step s e) = read s ++ (entry s e).toList)
    (events : List Event) {s : State} (start : inv s) :
    read (run step s events) = read s ++ trace step entry s events := by
  induction events using List.reverseRecOn with
  | nil => exact (List.append_nil _).symm
  | append_singleton events e ih =>
    have here := run_invariant inv kept events s start
    rw [run_concat, grows _ e here, ih, trace_concat, List.append_assoc]

/-- The component read off by `read` changes only by the writes of the events. -/
def IsRegister (step : State → Event → State) (read : State → Value)
    (write : Event → Option Value) : Prop :=
  ∀ s e, read (step s e) = (write e).getD (read s)

def lastWrite (write : Event → Option Value) (events : List Event) : Option Value :=
  (events.filterMap write).getLast?

theorem lastWrite_concat (write : Event → Option Value) (events : List Event) (e : Event) :
    lastWrite write (events ++ [e]) = (write e).or (lastWrite write events) := by
  cases h : write e <;> simp [lastWrite, List.filterMap_append, h]

theorem register_after_run {step : State → Event → State} {read : State → Value}
    {write : Event → Option Value} (reg : IsRegister step read write) (s : State)
    (events : List Event) :
    read (run step s events) = (lastWrite write events).getD (read s) := by
  induction events using List.reverseRecOn with
  | nil => rfl
  | append_singleton events e ih =>
    rw [run_concat, reg, ih, lastWrite_concat]
    cases write e <;> rfl

theorem register_congr {step : State → Event → State} {read : State → Value}
    {write : Event → Option Value} (reg : IsRegister step read write) {s t : State}
    (same : read s = read t) (events : List Event) :
    read (run step s events) = read (run step t events) := by
  rw [register_after_run reg, register_after_run reg, same]

/-- The events behind the last one for which `p` holds, all of them when there is none. -/
def since (p : Event → Bool) (events : List Event) : List Event :=
  events.rtakeWhile fun e => !p e

theorem since_suffix (p : Event → Bool) (events : List Event) : since p events <:+ events :=
  List.rtakeWhile_suffix _ events

theorem since_concat (p : Event → Bool) (events : List Event) (e : Event) :
    since p (events ++ [e]) = if p e then [] else since p events ++ [e] := by
  rw [since, List.rtakeWhile_concat]
  cases p e <;> rfl

theorem since_append (p : Event → Bool) (a : List Event) {b : List Event}
    (none : ∀ e ∈ b, p e = false) : since p (a ++ b) = since p a ++ b := by
  induction b using List.reverseRecOn with
  | nil => rw [List.append_nil, List.append_nil]
  | append_singleton b e ih =>
    have last : p e = false := none e (by simp)
    rw [← List.append_assoc, since_concat, last, ih (fun x member => none x (by simp [member]))]
    exact List.append_assoc _ b [e]

/-- A register that holds `v` got it after the last event that writes something else. -/
theorem lastWrite_since {write : Event → Option Value} {v : Value} {p : Event → Bool}
    (spoils : ∀ e, p e = true → ∃ other, write e = some other ∧ other ≠ v) {events : List Event}
    (last : lastWrite write events = some v) : ∃ e ∈ since p events, write e = some v := by
  induction events using List.reverseRecOn with
  | nil => exact absurd last (by simp [lastWrite])
  | append_singleton events e ih =>
    rw [lastWrite_concat] at last
    rw [since_concat]
    cases spoiler : p e with
    | true =>
      obtain ⟨other, written, differs⟩ := spoils e spoiler
      rw [written] at last
      exact absurd (Option.some.inj last) differs
    | false =>
      cases written : write e with
      | some u =>
        rw [written] at last
        exact ⟨e, by simp, written.trans last⟩
      | none =>
        rw [written] at last
        obtain ⟨x, member, wrote⟩ := ih last
        exact ⟨x, List.mem_append_left [e] member, wrote⟩

end EventRuns
