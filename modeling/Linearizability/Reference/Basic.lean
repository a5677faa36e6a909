/-!
# Reference objects

A reference object fixes what each operation returns, by performing it. Every application can be
reversed, the latest first, so a search can try an operation and take it back without copying the
object.
-/

namespace Linearizability

/-- No applied operation remains to be reversed. -/
structure NothingToUndo where
  deriving DecidableEq, Inhabited

instance : ToString NothingToUndo := ⟨fun _ => "undo called with an empty undo log"⟩

class ReferenceObject (σ : Type) (Op Ret : outParam Type) where
  apply : σ → Op → Ret × σ
  /-- A failing undo may leave another object behind. -/
  undo : σ → Except NothingToUndo Unit × σ
  /-- Whether the operation returns this result. It stays applied either way. -/
  checkStep [DecidableEq Ret] : σ → Op → Ret → Bool × σ :=
    fun object op ret => ((apply object op).1 = ret, (apply object op).2)

namespace ReferenceObject

variable {σ Op Ret : Type} [ReferenceObject σ Op Ret]

/-- Stops after the first operation that returns something else, which stays applied. -/
def checkHistory [DecidableEq Ret] (object : σ) : List (Op × Ret) → Bool × σ
  | [] => (true, object)
  | (op, ret) :: rest =>
    match checkStep object op ret with
    | (true, object) => checkHistory object rest
    | (false, object) => (false, object)

end ReferenceObject

/-- Undo exactly reverses the application before it. -/
class LawfulUndo (σ : Type) {Op Ret : outParam Type} [ReferenceObject σ Op Ret] : Prop where
  undo_apply (object : σ) (op : Op) :
    ReferenceObject.undo (ReferenceObject.apply object op).2 = (.ok (), object)

/-- To check a step is to perform its operation and to compare the result. -/
class LawfulCheck (σ : Type) {Op Ret : outParam Type} [ReferenceObject σ Op Ret]
    [DecidableEq Ret] : Prop where
  checkStep_eq (object : σ) (op : Op) (ret : Ret) :
    ReferenceObject.checkStep object op ret =
      (decide ((ReferenceObject.apply object op).1 = ret), (ReferenceObject.apply object op).2)

section Histories

variable {σ Op Ret : Type} [ReferenceObject σ Op Ret]

/-- Undoes this many operations, the latest first, unless an undo fails. -/
def undoTimes : Nat → σ → Except NothingToUndo Unit × σ
  | 0, object => (.ok (), object)
  | n + 1, object =>
    match ReferenceObject.undo object with
    | (.ok (), object) => undoTimes n object
    | (.error cause, object) => (.error cause, object)

theorem checkHistory_cons [DecidableEq Ret] [LawfulCheck σ] (object : σ) (op : Op) (ret : Ret)
    (rest : List (Op × Ret)) : ReferenceObject.checkHistory object ((op, ret) :: rest) =
      if (ReferenceObject.apply object op).1 = ret then
        ReferenceObject.checkHistory (ReferenceObject.apply object op).2 rest
      else (false, (ReferenceObject.apply object op).2) := by
  rw [ReferenceObject.checkHistory, LawfulCheck.checkStep_eq]
  by_cases hret : (ReferenceObject.apply object op).1 = ret <;> simp [hret]

end Histories

end Linearizability
