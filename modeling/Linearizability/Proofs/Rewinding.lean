import Linearizability.Reference.Queue
import Linearizability.Reference.Register
import Linearizability.Reference.Stack
import Mathlib.Data.List.Induction

/-!
# Operations and undos in any order

Operations may be applied and undone in any order, and more may be undone than was applied. An undo
cancels the latest operation that is still in effect; if there is none, it takes a reversal that the
object held from the start. What the object becomes depends only on how many of those were taken and
on the operations that were not cancelled.
-/

namespace Linearizability.ReferenceObject

inductive Edit (Op : Type) where
  | apply (op : Op)
  | undo
  deriving DecidableEq

/-- What edits amount to. -/
structure Residue (Op : Type) where
  /-- The operations that no undo cancels, the latest first. -/
  surviving : List Op := []
  /-- The number of undos that found no operation to cancel. -/
  beyond : Nat := 0
  deriving DecidableEq

section Definitions

variable {σ Op Ret ρ : Type}

def Residue.add : Residue Op → Edit Op → Residue Op
  | ⟨surviving, beyond⟩, .apply op => ⟨op :: surviving, beyond⟩
  | ⟨_ :: surviving, beyond⟩, .undo => ⟨surviving, beyond⟩
  | ⟨[], beyond⟩, .undo => ⟨[], beyond + 1⟩

def residue (edits : List (Edit Op)) : Residue Op := edits.foldl Residue.add {}

/-- First these undos, and then the surviving operations in the order in which they were applied. -/
def Residue.toEdits (residue : Residue Op) (undos : Nat) : List (Edit Op) :=
  List.replicate undos .undo ++ residue.surviving.reverse.map .apply

variable [ReferenceObject σ Op Ret]

def Edit.perform (object : σ) : Edit Op → σ
  | .apply op => (ReferenceObject.apply object op).2
  | .undo => (ReferenceObject.undo object).2

/-- A failing undo does not keep the edits after it from being performed. -/
def performAll (object : σ) (edits : List (Edit Op)) : σ := edits.foldl Edit.perform object

/-- The object has a log of reversals. Every operation adds one, every undo takes the latest, and
without one an undo fails and changes nothing. -/
structure KeepsLog (log : σ → List ρ) : Prop where
  apply : ∀ object op, ∃ reversal, log (ReferenceObject.apply object op).2 = reversal :: log object
  undo : ∀ object reversal rest, log object = reversal :: rest →
    (ReferenceObject.undo object).1 = .ok () ∧ log (ReferenceObject.undo object).2 = rest
  undo_nil : ∀ object, log object = [] → ReferenceObject.undo object = (.error ⟨⟩, object)

/-- After these edits the object is the one at the start with some of its reversals taken and the
surviving operations applied, its log is as long as this takes, and it can be undone further unless
its log is empty. -/
structure Rewinds (log : σ → List ρ) (start : σ) (edits : List (Edit Op)) : Prop where
  object : performAll start edits = performAll start
    ((residue edits).toEdits (min (residue edits).beyond (log start).length))
  length : (log (performAll start edits)).length + min (residue edits).beyond (log start).length =
    (log start).length + (residue edits).surviving.length
  fails_iff : ReferenceObject.undo (performAll start edits) = (.error ⟨⟩, performAll start edits) ↔
    log (performAll start edits) = []
  succeeds_iff : (ReferenceObject.undo (performAll start edits)).1 = .ok () ↔
    log (performAll start edits) ≠ []

end Definitions

section Residues

variable {Op : Type} {edits : List (Edit Op)}

theorem residue_concat (edits : List (Edit Op)) (edit : Edit Op) :
    residue (edits ++ [edit]) = (residue edits).add edit := by
  simp [residue]

theorem Residue.toEdits_add_apply (residue : Residue Op) (op : Op) (undos : Nat) :
    (residue.add (.apply op)).toEdits undos = residue.toEdits undos ++ [.apply op] := by
  simp [Residue.add, Residue.toEdits]

/-- With no operation in effect there are undos only. -/
theorem Residue.toEdits_of_nil {residue : Residue Op} (h : residue.surviving = []) (undos : Nat) :
    residue.toEdits undos = List.replicate undos .undo := by
  simp [Residue.toEdits, h]

end Residues

variable {σ Op Ret ρ : Type} [ReferenceObject σ Op Ret] {log : σ → List ρ}
variable {object start : σ} {edits : List (Edit Op)} {op : Op} {undos : Nat}

theorem performAll_append (object : σ) (edits more : List (Edit Op)) :
    performAll object (edits ++ more) = performAll (performAll object edits) more :=
  List.foldl_append

theorem performAll_concat (object : σ) (edits : List (Edit Op)) (edit : Edit Op) :
    performAll object (edits ++ [edit]) = edit.perform (performAll object edits) :=
  performAll_append object edits [edit]

namespace KeepsLog

variable (h : KeepsLog log)

include h

theorem log_undo (object : σ) : log (ReferenceObject.undo object).2 = (log object).tail := by
  cases hlog : log object with
  | nil => simp [h.undo_nil object hlog, hlog]
  | cons reversal rest => exact (h.undo object reversal rest hlog).2

theorem log_undos (object : σ) (undos : Nat) :
    log (performAll object (List.replicate undos .undo)) = (log object).drop undos := by
  induction undos with
  | zero => rfl
  | succ undos ih =>
    rw [List.replicate_succ', performAll_concat, Edit.perform, h.log_undo, ih, List.tail_drop]

theorem length_log_applies (object : σ) (ops : List Op) :
    (log (performAll object (ops.map .apply))).length = (log object).length + ops.length := by
  induction ops generalizing object with
  | nil => rfl
  | cons op ops ih =>
    obtain ⟨reversal, hlog⟩ := h.apply object op
    have hrest := ih (ReferenceObject.apply object op).2
    rw [hlog, List.length_cons] at hrest
    rw [List.length_cons, List.map_cons, performAll, List.foldl_cons, ← performAll, Edit.perform,
      hrest]
    omega

theorem length_log_toEdits (start : σ) (residue : Residue Op)
    (hundos : undos ≤ (log start).length) :
    (log (performAll start (residue.toEdits undos))).length + undos =
      (log start).length + residue.surviving.length := by
  rw [Residue.toEdits, performAll_append, h.length_log_applies, h.log_undos, List.length_drop,
    List.length_reverse]
  omega

/-- An undo that finds no operation in effect takes a reversal from the start, if one is left. -/
theorem undo_undos (start : σ) (beyond : Nat) :
    Edit.perform (performAll start (List.replicate (min beyond (log start).length) .undo)) .undo =
      performAll start (List.replicate (min (beyond + 1) (log start).length) .undo) := by
  by_cases hlt : beyond < (log start).length
  · rw [Nat.min_eq_left (Nat.le_of_lt hlt), Nat.min_eq_left hlt, List.replicate_succ',
      performAll_concat]
  · have hle : (log start).length ≤ beyond := Nat.le_of_not_lt hlt
    have hnil := h.log_undos start (log start).length
    rw [List.drop_length] at hnil
    rw [Nat.min_eq_right hle, Nat.min_eq_right (Nat.le_succ_of_le hle), Edit.perform,
      h.undo_nil _ hnil]

theorem performAll_eq [LawfulUndo σ] (start : σ) (edits : List (Edit Op)) :
    performAll start edits = performAll start
      ((residue edits).toEdits (min (residue edits).beyond (log start).length)) := by
  induction edits using List.reverseRecOn with
  | nil => simp [residue, Residue.toEdits]
  | append_singleton edits edit ih =>
    rw [performAll_concat, ih, residue_concat]
    generalize residue edits = residue
    cases edit with
    | apply op => rw [Residue.toEdits_add_apply, performAll_concat]; rfl
    | undo =>
      obtain ⟨surviving, beyond⟩ := residue
      cases surviving with
      | nil =>
        rw [Residue.toEdits_of_nil rfl, h.undo_undos]
        exact (congrArg _ (Residue.toEdits_of_nil rfl _)).symm
      | cons op surviving =>
        -- The undo reverses the latest operation in effect, which was applied last.
        have hlast :=
          Residue.toEdits_add_apply ⟨surviving, beyond⟩ op (min beyond (log start).length)
        simp only [Residue.add] at hlast ⊢
        rw [hlast, performAll_concat, Edit.perform, Edit.perform, LawfulUndo.undo_apply]

theorem undo_eq_error_iff (object : σ) :
    ReferenceObject.undo object = (.error ⟨⟩, object) ↔ log object = [] := by
  constructor
  · intro herror
    cases hlog : log object with
    | nil => rfl
    | cons reversal rest =>
      have hok := (h.undo object reversal rest hlog).1
      rw [herror] at hok
      simp at hok
  · exact h.undo_nil object

theorem undo_eq_ok_iff (object : σ) :
    (ReferenceObject.undo object).1 = .ok () ↔ log object ≠ [] := by
  constructor
  · intro hok hnil
    rw [h.undo_nil object hnil] at hok
    simp at hok
  · intro hne
    obtain ⟨reversal, rest, hlog⟩ := List.exists_cons_of_ne_nil hne
    exact (h.undo object reversal rest hlog).1

theorem rewinds [LawfulUndo σ] (start : σ) (edits : List (Edit Op)) : Rewinds log start edits where
  object := h.performAll_eq start edits
  length := by
    rw [h.performAll_eq start edits]
    exact h.length_log_toEdits start _ (Nat.min_le_right _ _)
  fails_iff := h.undo_eq_error_iff _
  succeeds_iff := h.undo_eq_ok_iff _

end KeepsLog

theorem keepsLog_queue (α : Type) : KeepsLog (Queue.reversals (α := α)) where
  apply q op := by
    obtain ⟨items, log⟩ := q
    cases op with
    | enqueue item => exact ⟨_, rfl⟩
    | dequeue => cases items <;> exact ⟨_, rfl⟩
  undo q reversal rest hlog := by
    obtain ⟨items, log⟩ := q
    obtain rfl : log = reversal :: rest := hlog
    cases reversal <;> exact ⟨rfl, rfl⟩
  undo_nil q hlog := by
    obtain ⟨items, log⟩ := q
    obtain rfl : log = [] := hlog
    rfl

theorem keepsLog_stack (α : Type) : KeepsLog (Stack.reversals (α := α)) where
  apply s op := by
    obtain ⟨items, log⟩ := s
    cases op with
    | push item => exact ⟨_, rfl⟩
    | pop => cases items <;> exact ⟨_, rfl⟩
    | size => exact ⟨_, rfl⟩
  undo s reversal rest hlog := by
    obtain ⟨items, log⟩ := s
    obtain rfl : log = reversal :: rest := hlog
    cases reversal <;> exact ⟨rfl, rfl⟩
  undo_nil s hlog := by
    obtain ⟨items, log⟩ := s
    obtain rfl : log = [] := hlog
    rfl

theorem keepsLog_register (α : Type) : KeepsLog (Register.reversals (α := α)) where
  apply r op := by cases op <;> exact ⟨_, rfl⟩
  undo r reversal rest hlog := by
    obtain ⟨value, log⟩ := r
    obtain rfl : log = reversal :: rest := hlog
    cases reversal <;> exact ⟨rfl, rfl⟩
  undo_nil r hlog := by
    obtain ⟨value, log⟩ := r
    obtain rfl : log = [] := hlog
    rfl

/-- Queues, stacks and registers keep track of any edits, whatever they hold at the start. -/
theorem objects_rewind (α : Type) :
    (∀ (q : Queue α) edits, Rewinds Queue.reversals q edits) ∧
      (∀ (s : Stack α) edits, Rewinds Stack.reversals s edits) ∧
      ∀ (r : Register α) edits, Rewinds Register.reversals r edits :=
  ⟨(keepsLog_queue α).rewinds, (keepsLog_stack α).rewinds, (keepsLog_register α).rewinds⟩

/-- The first of the last two undos cancels the enqueuing, and the second takes the reversal of a
dequeuing from the start. -/
example :
    let edits : List (Edit (Queue.Op Nat)) :=
      [.apply .dequeue, .undo, .apply (.enqueue 3), .undo, .undo]
    residue edits = ⟨[], 1⟩ ∧
      performAll { items := [2], reversals := [.restoreFront 1] } edits = Queue.ofList [1, 2] := by
  decide

end Linearizability.ReferenceObject
