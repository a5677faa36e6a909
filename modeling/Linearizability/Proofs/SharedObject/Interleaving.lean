import Linearizability.Proofs.Recorder.Log
import Linearizability.Proofs.SharedObject.Convention

/-!
# Processes that share an object

Each process makes one call after another. It records the invocation, carries out the call on the
shared object at once, and records the value that reports the result; the steps of different
processes may come in any order. Calls outside the vocabulary leave the object alone and may return
anything.
-/

namespace Linearizability.SharedObject

variable {σ Op Ret : Type} [ReferenceObject σ Op Ret]

/-- What a process is doing. -/
inductive Stage (Ret : Type) where
  | resting
  /-- The invocation of the call is recorded. -/
  | called (call : Call)
  /-- The operation took effect, and its result is still to be recorded. -/
  | effective (ret : Ret)
  /-- A call outside the vocabulary was carried out, and is still to return. -/
  | ineffective

structure State (σ Ret : Type) where
  object : σ
  recorder : Recorder
  stages : ProcessId → Stage Ret := fun _ => .resting
  /-- The number of calls that were made. -/
  calls : Nat := 0

namespace State

def enter (s : State σ Ret) (p : ProcessId) (stage : Stage Ret) : State σ Ret :=
  { s with stages := fun q => if q = p then stage else s.stages q }

/-- No operation took effect without its return being recorded. -/
def Settled (s : State σ Ret) : Prop := ∀ p ret, s.stages p ≠ .effective ret

end State

inductive Step (c : Convention σ Op Ret) (s : State σ Ret) : State σ Ret → Prop
  | invoke (p : ProcessId) (call : Call) {id recorder} (hp : s.stages p = .resting)
      (hargs : ∀ arg ∈ call.args, c.Plain arg) (hcalls : s.calls + 1 < 2 ^ 32)
      (hr : s.recorder.invoke? p call = some (id, recorder)) :
      Step c s { s.enter p (.called call) with recorder, calls := s.calls + 1 }
  | effect (p : ProcessId) {call op} (hp : s.stages p = .called call)
      (hop : c.vocabulary.translate call = some op) :
      Step c s { s.enter p (.effective (ReferenceObject.apply s.object op).1) with
        object := (ReferenceObject.apply s.object op).2 }
  | outside (p : ProcessId) {call} (hp : s.stages p = .called call)
      (hop : c.vocabulary.translate call = none) : Step c s (s.enter p .ineffective)
  | ret (p : ProcessId) (value : Value) {ret recorder} (hp : s.stages p = .effective ret)
      (hvalue : c.Reports ret value) (hr : s.recorder.ret? p value = some recorder) :
      Step c s { s.enter p .resting with recorder }
  | retOutside (p : ProcessId) (value : Value) {recorder} (hp : s.stages p = .ineffective)
      (hr : s.recorder.ret? p value = some recorder) :
      Step c s { s.enter p .resting with recorder }

/-- The states that the processes come to, by any interleaving of their steps. -/
inductive Reachable (c : Convention σ Op Ret) (object : σ) (kind : RecorderKind)
    (processes : Nat) : State σ Ret → Prop
  | start : Reachable c object kind processes { object, recorder := .new kind processes }
  | step {s s'} (h : Reachable c object kind processes s) (hs : Step c s s') :
      Reachable c object kind processes s'

namespace Reachable

variable {c : Convention σ Op Ret} {object : σ} {kind : RecorderKind} {processes : Nat}
variable {s : State σ Ret} {p : ProcessId}

theorem isSome_account? (hs : Reachable c object kind processes s) :
    (s.recorder.account? p).isSome ↔ p.toNat < processes := by
  induction hs with
  | start => exact Recorder.isSome_account?_new kind processes
  | step _ hstep ih =>
    cases hstep with
    | invoke q call hq hargs hcalls hr =>
      rw [Recorder.isSome_account?_of_invoke? hr]
      exact ih
    | effect | outside => exact ih
    | ret q value hq hvalue hr =>
      rw [Recorder.isSome_account?_of_ret? hr]
      exact ih
    | retOutside q value hq hr =>
      rw [Recorder.isSome_account?_of_ret? hr]
      exact ih

/-- The recorder holds nobody up: each of the processes can record its next invocation or return. -/
theorem recorder_accepts (hs : Reachable c object kind processes s) (hp : p.toNat < processes) :
    (∀ call, (s.recorder.invoke? p call).isSome) ∧ ∀ value, (s.recorder.ret? p value).isSome := by
  have haccount := hs.isSome_account?.2 hp
  refine ⟨fun call => ?_, fun value => ?_⟩
  · rw [Recorder.isSome_invoke?, haccount]
  · rw [Recorder.isSome_ret?, haccount]

end Reachable
end Linearizability.SharedObject
