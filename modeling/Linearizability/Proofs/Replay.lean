import Linearizability.Reference.Queue
import Linearizability.Reference.Register
import Linearizability.Reference.Stack
import Mathlib.Data.List.Induction

/-!
# Checking a sequential history

A history of operations with their results is checked by performing the operations. The main
statement is that the check accepts exactly the results that the operations give one after another,
and that it leaves the object as if the operations had been applied up to the first one that gives
another result, which is the last one to stay applied. A register, which has its own way to check a
step, comes to the same.
-/

namespace Linearizability

namespace ReferenceObject

variable {σ Op Ret : Type} [ReferenceObject σ Op Ret]

/-- What the operations return when they are applied one after another. -/
def answers : σ → List Op → List Ret
  | _, [] => []
  | object, op :: ops => (apply object op).1 :: answers (apply object op).2 ops

def applyAll (object : σ) (ops : List Op) : σ :=
  ops.foldl (fun object op => (apply object op).2) object

theorem applyAll_concat (object : σ) (ops : List Op) (op : Op) :
    applyAll object (ops ++ [op]) = (apply (applyAll object ops) op).2 :=
  List.foldl_append

theorem undoTimes_applyAll [LawfulUndo σ] (object : σ) (ops : List Op) :
    undoTimes ops.length (applyAll object ops) = (.ok (), object) := by
  induction ops using List.reverseRecOn with
  | nil => rfl
  | append_singleton ops op ih =>
    rw [List.length_append, List.length_singleton, undoTimes, applyAll_concat,
      LawfulUndo.undo_apply]
    exact ih

variable [DecidableEq Ret]

/-- How many operations return what the history says before one returns something else. -/
def firstMismatch (object : σ) (history : List (Op × Ret)) : Nat :=
  ((answers object (history.map Prod.fst)).zip (history.map Prod.snd)).findIdx
    fun (given, told) => given ≠ told

/-- The operations up to and including the first one that returns something else, or all of them. -/
def performed (object : σ) (history : List (Op × Ret)) : List Op :=
  (history.map Prod.fst).take (firstMismatch object history + 1)

/-- The check of the history is a replay of its operations, and can be undone. -/
structure Replays (object : σ) (history : List (Op × Ret)) : Prop where
  accepts_iff : (checkHistory object history).1 = true ↔
    answers object (history.map Prod.fst) = history.map Prod.snd
  leaves : (checkHistory object history).2 = applyAll object (performed object history)
  undoes : undoTimes (performed object history).length (checkHistory object history).2 =
    (.ok (), object)

section Check

variable {object : σ} {op : Op} {ret : Ret} {history : List (Op × Ret)}

theorem performed_cons_of_eq (h : (apply object op).1 = ret) :
    performed object ((op, ret) :: history) = op :: performed (apply object op).2 history := by
  simp [performed, firstMismatch, answers, List.findIdx_cons, h]

theorem performed_cons_of_ne (h : (apply object op).1 ≠ ret) :
    performed object ((op, ret) :: history) = [op] := by
  simp [performed, firstMismatch, answers, List.findIdx_cons, h]

variable [LawfulCheck σ]

theorem checkHistory_accepts_iff (object : σ) (history : List (Op × Ret)) :
    (checkHistory object history).1 = true ↔
      answers object (history.map Prod.fst) = history.map Prod.snd := by
  induction history generalizing object with
  | nil => simp [checkHistory, answers]
  | cons step history ih =>
    obtain ⟨op, ret⟩ := step
    rw [checkHistory_cons]
    split
    · rename_i hret
      simp [answers, hret, ih]
    · rename_i hret
      simp [answers, hret]

theorem checkHistory_object (object : σ) (history : List (Op × Ret)) :
    (checkHistory object history).2 = applyAll object (performed object history) := by
  induction history generalizing object with
  | nil => rfl
  | cons step history ih =>
    obtain ⟨op, ret⟩ := step
    rw [checkHistory_cons]
    split
    · rename_i hret
      rw [performed_cons_of_eq hret]
      exact ih _
    · rename_i hret
      rw [performed_cons_of_ne hret]
      rfl

theorem replays [LawfulUndo σ] (object : σ) (history : List (Op × Ret)) :
    Replays object history where
  accepts_iff := checkHistory_accepts_iff object history
  leaves := checkHistory_object object history
  undoes := by
    rw [checkHistory_object]
    exact undoTimes_applyAll object _

end Check

/-- Queues, stacks and registers replay every history, whatever they hold at the start. A register
checks each step as any object does that applies the operation and compares the results. -/
theorem objects_replay (α : Type) [DecidableEq α] :
    (∀ (q : Queue α) (history : List (Queue.Op α × Queue.Ret α)), Replays q history) ∧
      (∀ (s : Stack α) (history : List (Stack.Op α × Stack.Ret α)), Replays s history) ∧
      (∀ (r : Register α) (history : List (Register.Op α × Register.Ret α)), Replays r history) ∧
      ∀ (r : Register α) (op : Register.Op α) (ret : Register.Ret α),
        checkStep r op ret = (decide ((apply r op).1 = ret), (apply r op).2) :=
  ⟨replays, replays, replays, Register.checkStep_eq⟩

/-- The second operation has not read what was written, so it is the last one to be applied. -/
example :
    let history : List (Register.Op Nat × Register.Ret Nat) :=
      [(.write 1, .written), (.read, .read 0), (.write 2, .written)]
    checkHistory ({ value := 0 } : Register Nat) history = (false, ⟨1, [none, some 0]⟩) ∧
      performed ({ value := 0 } : Register Nat) history = [.write 1, .read] := by
  decide

end ReferenceObject
end Linearizability
