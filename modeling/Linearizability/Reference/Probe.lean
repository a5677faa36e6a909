import Linearizability.Reference.Basic

/-!
# Watched reference objects

A probe passes every call on to the object that it watches and notes it. It can be told to run out
of undos, and to request cancellation during one of the applications.
-/

namespace Linearizability

inductive Probe.Entry (Op Ret : Type) where
  | applied (op : Op) (ret : Ret)
  | undone

structure Probe (σ Op Ret : Type) where
  object : σ
  /-- Undos beyond this number fail and leave the object alone. -/
  undoLimit : Option Nat := none
  /-- The application that requests cancellation, counted from one. -/
  cancelAt : Option Nat := none
  cancelled : Bool := false
  applies : Nat := 0
  undos : Nat := 0
  /-- The latest entry comes first. -/
  log : List (Probe.Entry Op Ret) := []

namespace Probe

variable {σ Op Ret : Type} [ReferenceObject σ Op Ret]

def apply (p : Probe σ Op Ret) (op : Op) : Ret × Probe σ Op Ret :=
  let (ret, object) := ReferenceObject.apply p.object op
  let applies := p.applies + 1
  let cancelled := p.cancelled || p.cancelAt == some applies
  (ret, { p with object, applies, cancelled, log := .applied op ret :: p.log })

/-- An undo within the limit is noted before it is passed on. -/
def undo (p : Probe σ Op Ret) : Except NothingToUndo Unit × Probe σ Op Ret :=
  if p.undoLimit.any (· ≤ p.undos) then (.error ⟨⟩, p)
  else
    let (answer, object) := ReferenceObject.undo p.object
    (answer, { p with object, undos := p.undos + 1, log := .undone :: p.log })

instance : ReferenceObject (Probe σ Op Ret) Op Ret where
  apply := apply
  undo := undo

end Probe
end Linearizability
