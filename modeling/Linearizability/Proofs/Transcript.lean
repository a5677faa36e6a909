import Linearizability.Proofs.Search.Bisimulation

/-!
# Calls and their answers

A transcript passes every call on to the object that it holds, and notes the answer. The main
statement is that a search makes no call after an undo that failed, and that it reports an undo as
failed exactly if one has.
-/

namespace Linearizability

inductive Transcript.Entry (Op Ret : Type) where
  | applied (op : Op) (ret : Ret)
  | undone (answer : Except NothingToUndo Unit)

structure Transcript (σ Op Ret : Type) where
  object : σ
  /-- The latest call comes first. -/
  calls : List (Transcript.Entry Op Ret) := []

variable {σ Op Ret : Type} [ReferenceObject σ Op Ret]

namespace Transcript

instance : ReferenceObject (Transcript σ Op Ret) Op Ret where
  apply t op :=
    let (ret, object) := ReferenceObject.apply t.object op
    (ret, ⟨object, .applied op ret :: t.calls⟩)
  undo t :=
    let (answer, object) := ReferenceObject.undo t.object
    (answer, ⟨object, .undone answer :: t.calls⟩)

/-- A transcript cannot be told from the object that it holds. -/
theorem bisimulation : Bisimulation fun (object : σ) (t : Transcript σ Op Ret) =>
    t.object = object where
  apply := by
    rintro _ t rfl op
    exact ⟨rfl, rfl⟩
  undo := by
    rintro _ t rfl
    exact ⟨rfl, rfl⟩

/-- The operations that no undo has taken back, the latest first, each with the number of its call.
Calls are numbered from zero in the order of time. -/
def inEffect : List (Entry Op Ret) → List (Nat × Op)
  | [] => []
  | .applied op _ :: calls => (calls.length, op) :: inEffect calls
  | .undone _ :: calls => (inEffect calls).tail

/-- None of these calls is an undo that failed. -/
def NoFailure (calls : List (Entry Op Ret)) : Prop := ∀ cause, .undone (.error cause) ∉ calls

variable {t t' : Transcript σ Op Ret} {cause : NothingToUndo}

omit [ReferenceObject σ Op Ret] in
theorem noFailure_nil : NoFailure ([] : List (Entry Op Ret)) := by simp [NoFailure]

theorem NoFailure.apply (h : NoFailure t.calls) (op : Op) :
    NoFailure (ReferenceObject.apply t op).2.calls := by
  intro cause hmem
  rcases List.mem_cons.1 hmem with heq | hmem
  · cases heq
  · exact h cause hmem

theorem calls_undo {answer : Except NothingToUndo Unit}
    (hu : ReferenceObject.undo t = (answer, t')) : t'.calls = .undone answer :: t.calls := by
  cases hu
  rfl

theorem answer_undo {answer : Except NothingToUndo Unit}
    (hu : ReferenceObject.undo t = (answer, t')) : (ReferenceObject.undo t.object).1 = answer := by
  cases hu
  rfl

theorem NoFailure.undo (h : NoFailure t.calls) (hu : ReferenceObject.undo t = (.ok (), t')) :
    NoFailure t'.calls := by
  rw [calls_undo hu]
  intro cause hmem
  rcases List.mem_cons.1 hmem with heq | hmem
  · cases heq
  · exact h cause hmem

end Transcript

namespace Search

open Transcript

/-- The same moments to stop, for an object whose calls are noted. -/
def Limits.noted (limits : Limits σ) : Limits (Transcript σ Op Ret) where
  maxSteps := limits.maxSteps
  cancelled steps t := limits.cancelled steps t.object

/-- If an undo failed it is the latest call, and the outcome says so. -/
inductive Reports : Except Fault (Verdict Ret) → List (Entry Op Ret) → Prop
  | none {outcome calls} (h : NoFailure calls)
      (hne : ∀ i cause, outcome ≠ .error (.undoFailed i cause)) : Reports outcome calls
  | failed {i cause calls} (h : NoFailure calls) :
      Reports (.error (.undoFailed i cause)) (.undone (.error cause) :: calls)

omit [ReferenceObject σ Op Ret] in
theorem Reports.eq_of_mem {outcome : Except Fault (Verdict Ret)} {calls : List (Entry Op Ret)}
    {cause : NothingToUndo} (h : Reports outcome calls)
    (hmem : .undone (.error cause) ∈ calls) :
    (∃ i, outcome = .error (.undoFailed i cause)) ∧
      calls.head? = some (.undone (.error cause)) := by
  cases h with
  | none h _ => exact absurd hmem (h cause)
  | @failed i cause' calls h =>
    rcases List.mem_cons.1 hmem with heq | hmem
    · cases heq
      exact ⟨⟨i, rfl⟩, rfl⟩
    · exact absurd hmem (h cause)

omit [ReferenceObject σ Op Ret] in
theorem Reports.noFailure {verdict : Verdict Ret} {calls : List (Entry Op Ret)}
    (h : Reports (.ok verdict) calls) : NoFailure calls := by
  cases h with
  | none h _ => exact h

omit [ReferenceObject σ Op Ret] in
theorem Reports.exists_failed {outcome : Except Fault (Verdict Ret)} {calls : List (Entry Op Ret)}
    {i : Nat} {cause : NothingToUndo} (h : Reports outcome calls)
    (hfailed : outcome = .error (.undoFailed i cause)) :
    ∃ earlier, calls = .undone (.error cause) :: earlier ∧ NoFailure earlier := by
  cases h with
  | none _ hne => exact absurd hfailed (hne i cause)
  | @failed _ _ earlier h => exact ⟨earlier, rfl, h⟩

variable {t left : Transcript σ Op Ret} {path : List Marker}
variable {s s' : Search (Transcript σ Op Ret) Ret} {events : List (Event Op Ret)}
variable {outcome : Except Fault (Verdict Ret)}

theorem reports_restore (h : NoFailure t.calls) (verdict : Verdict Ret) :
    Reports ((restore path t).1.map fun _ => verdict) (restore path t).2.calls := by
  induction path generalizing t with
  | nil => exact .none h (by simp [restore, Except.map])
  | cons marker path ih =>
    cases marker with
    | invoked => exact ih h
    | linearized r i k process before =>
      cases before with
      | idle | committed => exact ih h
      | pending q =>
        cases hu : ReferenceObject.undo t with
        | mk answer t' =>
          cases answer with
          | ok _ =>
            simp only [restore, hu]
            exact ih (h.undo hu)
          | error cause =>
            simp only [restore, hu, calls_undo hu]
            exact .failed h

theorem reports_conclude (h : NoFailure s.object.calls) (verdict : Verdict Ret) :
    Reports (s.conclude verdict).1 (s.conclude verdict).2.calls := by
  have hrestore : Reports _ (restore s.path s.object).2.calls := reports_restore h verdict
  unfold conclude
  generalize restore s.path s.object = left at hrestore ⊢
  obtain ⟨answer, object⟩ := left
  cases answer with
  | ok | error => exact hrestore

theorem reports_halt (h : NoFailure s.object.calls) (hh : Halt events s outcome left) :
    Reports outcome left.calls := by
  rcases hh.object_cases with heq | ⟨rfl, hne⟩ | ⟨i, cause, rfl, ⟨op, hu⟩ | hu⟩
  · obtain ⟨rfl, rfl⟩ := Prod.mk.inj heq
    exact reports_conclude h _
  · exact .none h hne
  · rw [calls_undo hu]
    exact .failed (h.apply op)
  · rw [calls_undo hu]
    exact .failed h

variable [DecidableEq Ret]

theorem noFailure_move (h : NoFailure s.object.calls) (hm : Move events s s') :
    NoFailure s'.object.calls := by
  rcases hm.object_cases with heq | ⟨op, heq⟩ | ⟨op, hu⟩ | hu
  · rwa [heq]
  · rw [heq]
    exact h.apply op
  · exact (h.apply op).undo hu
  · exact h.undo hu

theorem reports_run (events : List (Event Op Ret)) (limits : Limits (Transcript σ Op Ret)) (n : Nat)
    (h : NoFailure s.object.calls) :
    Reports (run events.toArray limits n s).outcome
      (run events.toArray limits n s).object.calls := by
  refine run_induct (motive := fun _ s result => NoFailure s.object.calls →
    Reports result.outcome result.object.calls) ?_ ?_ ?_ ?_ n s h
  · intro n s _ h
    exact reports_conclude h _
  · intro n s _ h
    exact reports_conclude h _
  · intro n s s' result hm ih h
    exact ih (noFailure_move h hm)
  · intro n s outcome left hh h
    exact reports_halt h hh

/-- To note the calls of a search changes nothing about it. -/
theorem run_noted (object : σ) (limits : Limits σ) (events : List (Event Op Ret)) :
    ResultRelated (fun object (t : Transcript σ Op Ret) => t.object = object)
      (run events.toArray limits 0 (start object events))
      (run events.toArray limits.noted 0 (start { object } events)) :=
  run_related Transcript.bisimulation limits limits.noted rfl (fun n object t h => by subst h; rfl)
    events.toArray 0 (start object events) { object } rfl

theorem reports_noted (object : σ) (limits : Limits σ) (events : List (Event Op Ret)) :
    let noted := run events.toArray limits.noted 0
      (start ({ object } : Transcript σ Op Ret) events)
    Reports noted.outcome noted.object.calls :=
  reports_run events limits.noted 0 noFailure_nil

end Search
end Linearizability
