import Linearizability.Reference.Basic
import Linearizability.Value.Printer

/-!
# The first-in first-out queue

The front of the queue is the head of its list of items. There is one reversal for each applied
operation, the latest first, also for one that changed nothing.
-/

namespace Linearizability

inductive Queue.Op (α : Type) where
  | enqueue (item : α)
  | dequeue
  deriving DecidableEq

inductive Queue.Ret (α : Type) where
  | enqueued
  | dequeued (item : Option α)
  deriving DecidableEq

inductive Queue.Reversal (α : Type) where
  | removeBack
  | restoreFront (item : α)
  | nothing
  deriving DecidableEq

structure Queue (α : Type) where
  items : List α := []
  reversals : List (Queue.Reversal α) := []
  deriving DecidableEq

namespace Queue

variable {α : Type}

/-- The items are there from the start, so there is nothing to undo. -/
def ofList (items : List α) : Queue α := { items }

def apply (q : Queue α) : Op α → Ret α × Queue α
  | .enqueue item => (.enqueued, ⟨q.items ++ [item], .removeBack :: q.reversals⟩)
  | .dequeue =>
    match q.items with
    | item :: items => (.dequeued (some item), ⟨items, .restoreFront item :: q.reversals⟩)
    | [] => (.dequeued none, ⟨[], .nothing :: q.reversals⟩)

def undo (q : Queue α) : Except NothingToUndo Unit × Queue α :=
  match q.reversals with
  | [] => (.error ⟨⟩, q)
  | .removeBack :: rest => (.ok (), ⟨q.items.dropLast, rest⟩)
  | .restoreFront item :: rest => (.ok (), ⟨item :: q.items, rest⟩)
  | .nothing :: rest => (.ok (), ⟨q.items, rest⟩)

instance : ReferenceObject (Queue α) (Op α) (Ret α) where
  apply := apply
  undo := undo

theorem undo_apply (q : Queue α) (op : Op α) : (q.apply op).2.undo = (.ok (), q) := by
  obtain ⟨items, rest⟩ := q
  cases op with
  | enqueue item => simp [apply, undo]
  | dequeue => cases items <;> simp [apply, undo]

instance : LawfulUndo (Queue α) := ⟨undo_apply⟩

instance [DecidableEq (Ret α)] : LawfulCheck (Queue α) := ⟨fun _ _ _ => rfl⟩

instance [ConstructorForm α] : ConstructorForm (Ret α) where
  constructorForm
    | .enqueued => "EnqueueOk".toList
    | .dequeued item => Text.applied "DequeueOk" (constructorForm item)

end Queue
end Linearizability
