import Mathlib.Order.Bounds.Basic
import Mathlib.Data.Set.Insert

/-!
# Sets of keys as abstract queues

The abstract state of a priority queue or a set is the set of its keys.  A `Change` adds a key,
removes one, or does nothing; `SetStep` are the changes a set makes, `MinStep` those of a priority
queue, which removes its least key only.
-/

namespace ConcurrentPQ.KeySet

/-- What a step does to the set of keys. -/
inductive Change (α : Type*) where
  | add (k : α)
  | remove (k : α)
  | keep

variable {α : Type*}

/-- A set that gains a key it did not have, loses one it had, or stays the same. -/
def SetStep (L : Set α) : Change α → Set α → Prop
  | .add k, L' => k ∉ L ∧ L' = insert k L
  | .remove k, L' => k ∈ L ∧ L' = L \ {k}
  | .keep, L' => L' = L

/-- A priority queue loses its least key only. -/
def MinStep [LE α] (L : Set α) : Change α → Set α → Prop
  | .add k, L' => k ∉ L ∧ L' = insert k L
  | .remove k, L' => IsLeast L k ∧ L' = L \ {k}
  | .keep, L' => L' = L

theorem MinStep.setStep [LE α] {L L' : Set α} {c : Change α} (h : MinStep L c L') :
    SetStep L c L' := by
  cases c with
  | add k => exact h
  | remove k => exact ⟨h.1.1, h.2⟩
  | keep => exact h

end ConcurrentPQ.KeySet
