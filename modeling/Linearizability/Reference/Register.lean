import Linearizability.Reference.Basic
import Linearizability.Value.Printer

/-!
# The register

A register holds one value. The reversal of a write is the overwritten value, and that of a read is
nothing; the latest reversal comes first. A step is checked without building the result that it
would return.
-/

namespace Linearizability

inductive Register.Op (α : Type) where
  | write (value : α)
  | read
  deriving DecidableEq

inductive Register.Ret (α : Type) where
  | written
  | read (value : α)
  deriving DecidableEq

structure Register (α : Type) where
  value : α
  reversals : List (Option α) := []
  deriving DecidableEq

namespace Register

variable {α : Type}

def apply (r : Register α) : Op α → Ret α × Register α
  | .write value => (.written, ⟨value, some r.value :: r.reversals⟩)
  | .read => (.read r.value, ⟨r.value, none :: r.reversals⟩)

def undo (r : Register α) : Except NothingToUndo Unit × Register α :=
  match r.reversals with
  | [] => (.error ⟨⟩, r)
  | some value :: rest => (.ok (), ⟨value, rest⟩)
  | none :: rest => (.ok (), ⟨r.value, rest⟩)

def checkStep [DecidableEq (Ret α)] (r : Register α) (op : Op α) (ret : Ret α) :
    Bool × Register α :=
  match op, ret with
  | .write value, .written => (true, ⟨value, some r.value :: r.reversals⟩)
  | .read, .read value => (Ret.read r.value = .read value, ⟨r.value, none :: r.reversals⟩)
  | op, ret => ((r.apply op).1 = ret, (r.apply op).2)

instance : ReferenceObject (Register α) (Op α) (Ret α) where
  apply := apply
  undo := undo
  checkStep := checkStep

theorem undo_apply (r : Register α) (op : Op α) : (r.apply op).2.undo = (.ok (), r) := by
  cases op <;> simp [apply, undo]

instance : LawfulUndo (Register α) := ⟨undo_apply⟩

theorem checkStep_eq [DecidableEq (Ret α)] (r : Register α) (op : Op α) (ret : Ret α) :
    r.checkStep op ret = (decide ((r.apply op).1 = ret), (r.apply op).2) := by
  cases op with
  | write value =>
    cases ret with
    | written => simp [checkStep, apply]
    | read value' => rfl
  | read => cases ret <;> rfl

instance [DecidableEq (Ret α)] : LawfulCheck (Register α) := ⟨checkStep_eq⟩

instance [ConstructorForm α] : ConstructorForm (Ret α) where
  constructorForm
    | .written => "WriteOk".toList
    | .read value => Text.applied "ReadOk" (constructorForm value)

end Register
end Linearizability
