import Mathlib.Data.List.Basic

/-!
A FIFO of bounded capacity. A blocking sender waits for room, a non-blocking one drops
its record when the queue is full. What has left the queue, followed by what is in it,
is all of what blocking senders sent, and a subsequence of what the others offered.
-/
namespace BoundedFifo
variable {Record Kind : Type}

def HasRoom (capacity : Nat) (queue : List Record) : Prop := queue.length < capacity

instance (capacity : Nat) (queue : List Record) : Decidable (HasRoom capacity queue) :=
  inferInstanceAs (Decidable (queue.length < capacity))

def offer (capacity : Nat) (queue : List Record) (x : Record) : List Record :=
  if HasRoom capacity queue then queue ++ [x] else queue

theorem offer_cases (capacity : Nat) (queue : List Record) (x : Record) :
    offer capacity queue x = queue ++ [x] ∨ offer capacity queue x = queue := by
  unfold offer
  split
  · exact Or.inl rfl
  · exact Or.inr rfl

theorem offer_length {capacity : Nat} {queue : List Record} (bound : queue.length ≤ capacity)
    (x : Record) : (offer capacity queue x).length ≤ capacity := by
  unfold offer
  split
  · rename_i room
    simp only [HasRoom] at room
    simp only [List.length_append, List.length_singleton]
    omega
  · exact bound

/-- What has left the queue, then what the records in it stand for. -/
def flow (seen : Record → Option Kind) (out : List Kind) (queue : List Record) : List Kind :=
  out ++ queue.filterMap seen

variable (seen : Record → Option Kind) (out : List Kind) (queue : List Record)

@[simp] theorem flow_nil : flow seen out [] = out := List.append_nil out

theorem flow_send (x : Record) :
    flow seen out (queue ++ [x]) = flow seen out queue ++ (seen x).toList := by
  rw [flow, flow, List.filterMap_append, ← List.append_assoc]
  cases h : seen x <;> simp [h]

theorem flow_receive (x : Record) :
    flow seen out (x :: queue) = flow seen (flow seen out [x]) queue := by
  simp only [flow, List.append_assoc, ← List.filterMap_append, List.singleton_append]

theorem flow_leave {x : Record} {left : Option Kind} (same : left = seen x) :
    out ++ left.toList = flow seen out [x] := by
  rw [same]
  cases h : seen x <;> simp [flow, h]

theorem flow_offer (capacity : Nat) (x : Record) :
    flow seen out (offer capacity queue x) = flow seen out queue ∨
    flow seen out (offer capacity queue x) = flow seen out queue ++ (seen x).toList := by
  rcases offer_cases capacity queue x with sent | dropped
  · rw [sent]
    exact Or.inr (flow_send seen out queue x)
  · rw [dropped]
    exact Or.inl rfl

theorem flow_offer_other (capacity : Nat) {x : Record} (other : seen x = none) :
    flow seen out (offer capacity queue x) = flow seen out queue := by
  rcases flow_offer seen out queue capacity x with dropped | sent
  · exact dropped
  · rw [sent, other]
    exact List.append_nil _

theorem flow_offer_sublist (capacity : Nat) (x : Record) {offered : List Kind}
    (before : (flow seen out queue).Sublist offered) :
    (flow seen out (offer capacity queue x)).Sublist (offered ++ (seen x).toList) := by
  rcases flow_offer seen out queue capacity x with dropped | sent
  · rw [dropped]
    exact before.trans (List.sublist_append_left offered _)
  · rw [sent]
    exact before.append (List.Sublist.refl _)

end BoundedFifo
