import Linearizability.Reference.Basic
import Linearizability.Value.Printer

/-!
# The last-in first-out stack

The top of the stack is the head of its list of items. There is one reversal for each applied
operation, the latest first, also for one that changed nothing.
-/

namespace Linearizability

inductive Stack.Op (α : Type) where
  | push (item : α)
  | pop
  | size
  deriving DecidableEq

inductive Stack.Ret (α : Type) where
  | pushed
  | popped (item : Option α)
  | size (n : UInt64)
  deriving DecidableEq

inductive Stack.Reversal (α : Type) where
  | removeTop
  | restoreTop (item : α)
  | nothing
  deriving DecidableEq

structure Stack (α : Type) where
  items : List α := []
  reversals : List (Stack.Reversal α) := []
  deriving DecidableEq

namespace Stack

variable {α : Type}

def apply (s : Stack α) : Op α → Ret α × Stack α
  | .push item => (.pushed, ⟨item :: s.items, .removeTop :: s.reversals⟩)
  | .pop =>
    match s.items with
    | item :: items => (.popped (some item), ⟨items, .restoreTop item :: s.reversals⟩)
    | [] => (.popped none, ⟨[], .nothing :: s.reversals⟩)
  | .size => (.size (.ofNat s.items.length), ⟨s.items, .nothing :: s.reversals⟩)

def undo (s : Stack α) : Except NothingToUndo Unit × Stack α :=
  match s.reversals with
  | [] => (.error ⟨⟩, s)
  | .removeTop :: rest => (.ok (), ⟨s.items.tail, rest⟩)
  | .restoreTop item :: rest => (.ok (), ⟨item :: s.items, rest⟩)
  | .nothing :: rest => (.ok (), ⟨s.items, rest⟩)

/-- The items are pushed in turn, so each of them can be undone. -/
def ofPushes (items : List α) : Stack α :=
  items.foldl (fun s item => (s.apply (.push item)).2) {}

/-- The items from the bottom to the top. -/
def bottomUp (s : Stack α) : List α := s.items.reverse

instance : ReferenceObject (Stack α) (Op α) (Ret α) where
  apply := apply
  undo := undo

theorem undo_apply (s : Stack α) (op : Op α) : (s.apply op).2.undo = (.ok (), s) := by
  obtain ⟨items, rest⟩ := s
  cases op with
  | push item => simp [apply, undo]
  | pop => cases items <;> simp [apply, undo]
  | size => simp [apply, undo]

instance : LawfulUndo (Stack α) := ⟨undo_apply⟩

instance [DecidableEq (Ret α)] : LawfulCheck (Stack α) := ⟨fun _ _ _ => rfl⟩

instance [ConstructorForm α] : ConstructorForm (Ret α) where
  constructorForm
    | .pushed => "PushOk".toList
    | .popped item => Text.applied "PopOk" (constructorForm item)
    | .size n => Text.applied "LenOk" (Text.decimal n.toNat)

end Stack
end Linearizability
