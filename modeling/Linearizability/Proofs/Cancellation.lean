import Linearizability.Proofs.Search.Visits
import Linearizability.Proofs.Transcript
import Linearizability.Reference.Probe
import Linearizability.Reference.Register
import Linearizability.Tester

/-!
# Cancellation

A search asks whether cancellation is requested before each of its steps, and a step applies at most
one operation. The main statement is that the application during which the request is made is the
last one of the search. Whatever that application would have led to, the search only takes back what
is in effect and is interrupted, or reports an undo that fails.
-/

namespace Linearizability

open Transcript

variable {σ Op Ret : Type} [ReferenceObject σ Op Ret]

namespace Search

section Keeps

variable {events : List (Event Op Ret)} {s s' : Search σ Ret} {object left : σ}
variable {motive : σ → Prop}
variable (undo : ∀ object, motive object → motive (ReferenceObject.undo object).2)

include undo

theorem undo_keeps {answer : Except NothingToUndo Unit} (h : motive object)
    (hu : ReferenceObject.undo object = (answer, left)) : motive left := by
  have hundo := undo object h
  rwa [hu] at hundo

theorem restore_keeps (path : List Marker) (h : motive object) :
    motive (restore path object).2 := by
  induction path generalizing object with
  | nil => exact h
  | cons marker path ih =>
    cases marker with
    | invoked => exact ih h
    | linearized r i k p before =>
      cases before with
      | idle | committed => exact ih h
      | pending q =>
        simp only [restore]
        split
        · exact ih (undo_keeps undo h ‹_›)
        · exact undo_keeps undo h ‹_›

/-- A verdict is given after nothing but undos. -/
theorem conclude_keeps (verdict : Verdict Ret) (h : motive s.object) :
    motive (s.conclude verdict).2 := by
  have hrestore := restore_keeps undo s.path h
  unfold conclude
  split <;> simp_all

variable (apply : ∀ object op, motive object → motive (ReferenceObject.apply object op).2)

include apply

theorem halt_keeps {outcome : Except Fault (Verdict Ret)} (h : motive s.object)
    (hh : Halt events s outcome left) : motive left := by
  rcases hh.object_cases with heq | ⟨rfl, -⟩ | ⟨_, _, -, ⟨op, hu⟩ | hu⟩
  · obtain ⟨-, rfl⟩ := Prod.mk.inj heq
    exact conclude_keeps undo _ h
  · exact h
  · exact undo_keeps undo (apply _ op h) hu
  · exact undo_keeps undo h hu

variable [DecidableEq Ret]

theorem move_keeps (h : motive s.object) (hm : Move events s s') : motive s'.object := by
  rcases hm.object_cases with heq | ⟨op, heq⟩ | ⟨op, hu⟩ | hu
  · rwa [heq]
  · rw [heq]
    exact apply _ op h
  · exact undo_keeps undo (apply _ op h) hu
  · exact undo_keeps undo h hu

/-- What every call on the object keeps, a run keeps. -/
theorem run_keeps (events : List (Event Op Ret)) (limits : Limits σ) (n : Nat)
    (h : motive s.object) : motive (run events.toArray limits n s).object := by
  refine run_induct (motive := fun _ s result => motive s.object → motive result.object)
    ?_ ?_ ?_ ?_ n s h
  · intro n s _ h
    exact conclude_keeps undo _ h
  · intro n s _ h
    exact conclude_keeps undo _ h
  · intro n s s' result hm ih h
    exact ih (move_keeps undo apply h hm)
  · intro n s outcome left hh h
    exact halt_keeps undo apply h hh

end Keeps

section Outcomes

theorem restore_cases (path : List Marker) (object : σ) : (restore path object).1 = .ok () ∨
    ∃ i cause, (restore path object).1 = .error (.undoFailed i cause) := by
  induction path generalizing object with
  | nil => exact .inl rfl
  | cons marker path ih =>
    cases marker with
    | invoked => exact ih object
    | linearized r i k p before =>
      cases before with
      | idle | committed => exact ih object
      | pending q =>
        simp only [restore]
        split
        · exact ih _
        · exact .inr ⟨i, _, rfl⟩

/-- Only an undo that fails can keep a search from giving its verdict. -/
theorem conclude_cases (s : Search σ Ret) (verdict : Verdict Ret) :
    (s.conclude verdict).1 = .ok verdict ∨
      ∃ i cause, (s.conclude verdict).1 = .error (.undoFailed i cause) := by
  have hrestore := restore_cases s.path s.object
  unfold conclude
  split <;> simp_all

end Outcomes

end Search

namespace Probe

variable {p : Probe σ Op Ret} {c : Nat}

/-- The probe requests cancellation during its `c`-th application, and has done so once that is
made. -/
structure Raises (p : Probe σ Op Ret) (c : Nat) : Prop where
  cancelAt : p.cancelAt = some c
  cancelled_iff : p.cancelled = true ↔ 0 < c ∧ c ≤ p.applies

/-- An undo neither counts as an application nor changes the request. -/
theorem undo_leaves (p : Probe σ Op Ret) : (ReferenceObject.undo p).2.applies = p.applies ∧
    (ReferenceObject.undo p).2.cancelled = p.cancelled ∧
    (ReferenceObject.undo p).2.cancelAt = p.cancelAt := by
  simp only [ReferenceObject.undo, Probe.undo]
  split <;> exact ⟨rfl, rfl, rfl⟩

namespace Raises

omit [ReferenceObject σ Op Ret] in
theorem start (object : σ) (undoLimit : Option Nat) (c : Nat) :
    Raises ({ object, undoLimit, cancelAt := some c } : Probe σ Op Ret) c where
  cancelAt := rfl
  cancelled_iff := iff_of_false Bool.false_ne_true fun ⟨hpos, hle⟩ => Nat.not_le.2 hpos hle

theorem apply (h : p.Raises c) (op : Op) : (ReferenceObject.apply p op).2.Raises c where
  cancelAt := h.cancelAt
  cancelled_iff := by
    have hiff := h.cancelled_iff
    simp only [ReferenceObject.apply, Probe.apply, h.cancelAt, Bool.or_eq_true, hiff,
      beq_iff_eq, Option.some.injEq]
    omega

theorem undo (h : p.Raises c) : (ReferenceObject.undo p).2.Raises c := by
  obtain ⟨happlies, hcancelled, hcancelAt⟩ := p.undo_leaves
  exact ⟨hcancelAt ▸ h.cancelAt, by rw [hcancelled, happlies, h.cancelled_iff]⟩

omit [ReferenceObject σ Op Ret] in
/-- With one application more, a request that is new has been made by that application. -/
theorem applies_eq {p' : Probe σ Op Ret} (h : p.Raises c) (hno : ¬ p.cancelled = true)
    (h' : p'.Raises c) (hle : p'.applies ≤ p.applies + 1) (hraised : p'.cancelled = true) :
    p'.applies = c := by
  rw [h.cancelled_iff] at hno
  rw [h'.cancelled_iff] at hraised
  omega

end Raises
end Probe

namespace Search

open Probe

/-- Nothing but the probe requests cancellation. -/
def Limits.flagged (maxSteps : Option Nat) : Limits (Probe σ Op Ret) where
  maxSteps
  cancelled _ p := p.cancelled

section Flagged

variable {events : List (Event Op Ret)} {s s' : Search (Probe σ Op Ret) Ret}
variable {left : Probe σ Op Ret} {outcome : Except Fault (Verdict Ret)} {c : Nat}

theorem conclude_leaves (s : Search (Probe σ Op Ret) Ret) (verdict : Verdict Ret) :
    (s.conclude verdict).2.applies = s.object.applies ∧
      (s.conclude verdict).2.cancelled = s.object.cancelled := by
  refine conclude_keeps (motive := fun p : Probe σ Op Ret => p.applies = s.object.applies ∧
    p.cancelled = s.object.cancelled) (fun p h => ?_) verdict ⟨rfl, rfl⟩
  obtain ⟨happlies, hcancelled, -⟩ := p.undo_leaves
  exact ⟨happlies.trans h.1, hcancelled.trans h.2⟩

theorem raises_halt (h : s.object.Raises c) (hh : Halt events s outcome left) : left.Raises c :=
  halt_keeps (motive := (Raises · c)) (fun _ h => h.undo) (fun _ op h => h.apply op) h hh

theorem applies_of_undo {p p' : Probe σ Op Ret} {answer : Except NothingToUndo Unit}
    (hu : ReferenceObject.undo p = (answer, p')) : p'.applies = p.applies := by
  have happlies := p.undo_leaves.1
  rwa [hu] at happlies

/-- A search halts with an application only when it cannot take that back. -/
theorem applies_halt (hh : Halt events s outcome left) : left.applies = s.object.applies ∨
    left.applies = s.object.applies + 1 ∧ ∃ i cause, outcome = .error (.undoFailed i cause) := by
  rcases hh.object_cases with heq | ⟨rfl, -⟩ | ⟨i, cause, hfailed, ⟨op, hu⟩ | hu⟩
  · obtain ⟨-, rfl⟩ := Prod.mk.inj heq
    exact .inl (conclude_leaves s _).1
  · exact .inl rfl
  · exact .inr ⟨applies_of_undo hu, i, cause, hfailed⟩
  · exact .inl (applies_of_undo hu)

variable [DecidableEq Ret]

theorem applies_move_le (hm : Move events s s') :
    s'.object.applies ≤ s.object.applies + 1 := by
  rcases hm.object_cases with heq | ⟨op, heq⟩ | ⟨op, hu⟩ | hu
  · rw [heq]
    exact Nat.le_succ _
  · rw [heq]
    exact Nat.le_refl _
  · exact (applies_of_undo hu).le
  · exact (applies_of_undo hu).le.trans (Nat.le_succ _)

theorem raises_move (h : s.object.Raises c) (hm : Move events s s') : s'.object.Raises c :=
  move_keeps (motive := (Raises · c)) (fun _ h => h.undo) (fun _ op h => h.apply op) h hm

theorem applies_le_run (events : List (Event Op Ret)) (limits : Limits (Probe σ Op Ret)) (n : Nat)
    (s : Search (Probe σ Op Ret) Ret) :
    s.object.applies ≤ (run events.toArray limits n s).object.applies :=
  run_keeps (motive := fun p => s.object.applies ≤ p.applies)
    (fun p h => h.trans p.undo_leaves.1.ge) (fun _ _ h => h.trans (Nat.le_succ _)) events limits n
    (Nat.le_refl _)

/-- No application is made once cancellation is requested, and the outcome is as it should be. -/
structure Obeys (c : Nat) (result : Result (Probe σ Op Ret) Ret) : Prop where
  applies : result.object.applies = c
  outcome : result.outcome = .ok .interrupted ∨
    ∃ i cause, result.outcome = .error (.undoFailed i cause)

/-- Whenever the search asks, a request that it finds was made by the latest application. -/
theorem obeys_run (events : List (Event Op Ret)) (maxSteps : Option Nat) (n : Nat)
    (h : s.object.Raises c) (hlast : s.object.cancelled = true → s.object.applies = c)
    (hraised : (run events.toArray (.flagged maxSteps) n s).object.cancelled = true) :
    Obeys c (run events.toArray (.flagged maxSteps) n s) := by
  fun_induction run events.toArray (.flagged maxSteps) n s with
  | case1 n s hc =>
    exact ⟨(conclude_leaves s _).1.trans (hlast hc), conclude_cases s _⟩
  | case2 n s hc hx => exact absurd ((conclude_leaves s _).2.symm.trans hraised) hc
  | case3 n s hc hx s' hstep ih =>
    have hm := move_of_step hstep
    have h' := raises_move h hm
    exact ih h' (h.applies_eq hc h' (applies_move_le hm)) hraised
  | case4 n s hc hx outcome left hstep =>
    have hh := halt_of_step hstep
    have h' := raises_halt h hh
    rcases applies_halt hh with heq | ⟨heq, hfailed⟩
    · exact absurd (h.cancelled_iff.2 (heq ▸ h'.cancelled_iff.1 hraised)) hc
    · exact ⟨h.applies_eq hc h' heq.le hraised, .inr hfailed⟩

/-- The request is made if the search comes to make that application when nothing is requested. -/
theorem cancelled_run_iff (events : List (Event Op Ret)) (maxSteps : Option Nat) (n : Nat)
    (h : s.object.Raises c) :
    (run events.toArray (.flagged maxSteps) n s).object.cancelled = true ↔
      0 < c ∧ c ≤ (run events.toArray { maxSteps } n s).object.applies := by
  fun_induction run events.toArray (.flagged maxSteps) n s with
  | case1 n s hc =>
    obtain ⟨hpos, hle⟩ := h.cancelled_iff.1 hc
    have hle' := hle.trans (applies_le_run events { maxSteps } n s)
    exact iff_of_true ((conclude_leaves s _).2.trans hc) ⟨hpos, hle'⟩
  | case2 n s hc hx =>
    have hx : maxSteps.any (· < n + 1) = true := hx
    rw [run_eq, if_neg (by simp), if_pos hx, stop, (conclude_leaves s _).1, ← h.cancelled_iff]
    exact Bool.eq_iff_iff.1 (conclude_leaves s _).2
  | case3 n s hc hx s' hstep ih =>
    have hx : ¬ maxSteps.any (· < n + 1) = true := hx
    rw [run_eq _ { maxSteps }, if_neg (by simp), if_neg hx, hstep]
    exact ih (raises_move h (move_of_step hstep))
  | case4 n s hc hx outcome left hstep =>
    have hx : ¬ maxSteps.any (· < n + 1) = true := hx
    rw [run_eq, if_neg (by simp), if_neg hx, hstep]
    exact (raises_halt h (halt_of_step hstep)).cancelled_iff

end Flagged
end Search

namespace Tester

open Search Probe

variable [DecidableEq Ret]

/-- A request that is made ahead of the search leaves it nothing to do. -/
theorem judge_of_cancelled {t : Tester σ} (h : t.limits.cancelled 0 t.object = true)
    (events : List (Event Op Ret)) :
    t.judge events = (.ok .interrupted, { t with steps := 0 }) := by
  rw [judge, judgeFrom, run_eq, Search.start, if_pos h]
  rfl

/-- Whatever the object, the history and the budget: if the object requests cancellation during its
`c`-th application, which it does if the search gets there, then this application is the last one.
The search is interrupted unless an undo fails, and that is what it reports then. With a request
from the start, it is interrupted before its first step and without a call on the object. -/
theorem judge_cancelled (object : σ) (undoLimit maxSteps : Option Nat) (c : Nat)
    (events : List (Event Op Ret)) :
    let probe : Probe σ Op Ret := { object, undoLimit, cancelAt := some c }
    let limits : Limits (Probe σ Op Ret) := .flagged maxSteps
    let judged := ({ object := probe, limits } : Tester (Probe σ Op Ret)).judge events
    let free := ({ object := probe, limits := { maxSteps } } : Tester (Probe σ Op Ret)).judge events
    let noted := ({ object := { object := probe }, limits := limits.noted } :
      Tester (Transcript (Probe σ Op Ret) Op Ret)).judge events
    (noted.1 = judged.1 ∧ noted.2.steps = judged.2.steps ∧
        noted.2.object.object = judged.2.object) ∧
      (judged.2.object.cancelled = true ↔ 0 < c ∧ c ≤ free.2.object.applies) ∧
      (judged.2.object.cancelled = true → judged.2.object.applies = c ∧
        (judged.1 = .ok .interrupted ∧ NoFailure noted.2.object.calls ∨
          ∃ i cause, judged.1 = .error (.undoFailed i cause) ∧
            noted.2.object.calls.head? = some (.undone (.error cause)))) ∧
      ∀ raised : Transcript (Probe σ Op Ret) Op Ret, raised.object.cancelled = true →
        ({ object := raised, limits := limits.noted } : Tester _).judge events =
          (.ok .interrupted, { object := raised, limits := limits.noted, steps := 0 }) := by
  intro probe limits judged free noted
  obtain ⟨houtcome, hsteps, hobject⟩ := run_noted probe limits events
  have hstart : (Search.start probe events).object.Raises c := .start object undoLimit c
  refine ⟨⟨houtcome.symm, hsteps.symm, hobject⟩, cancelled_run_iff events maxSteps 0 hstart,
    fun hraised => ?_, fun raised hraised => judge_of_cancelled hraised events⟩
  have hsame : noted.1 = judged.1 := houtcome.symm
  have hreports : Reports noted.1 noted.2.object.calls := reports_noted probe limits events
  rw [hsame] at hreports
  have hobeys : Obeys c ((Search.start probe events).run events.toArray limits 0) :=
    obeys_run events maxSteps 0 hstart (by simp [Search.start, probe]) hraised
  refine ⟨hobeys.applies, ?_⟩
  rcases hobeys.outcome with hinterrupted | ⟨i, cause, hfailed⟩
  · have hinterrupted : judged.1 = .ok .interrupted := hinterrupted
    rw [hinterrupted] at hreports
    exact .inl ⟨hinterrupted, hreports.noFailure⟩
  · obtain ⟨earlier, hcalls, -⟩ := hreports.exists_failed hfailed
    exact .inr ⟨i, cause, hfailed, by rw [hcalls]; rfl⟩

/-- The only application completes the history in the last step of the budget, and yet the request
that is made meanwhile is met. If the application cannot be taken back then, that is reported. -/
theorem judge_cancelled_by_write :
    let history : List (Event (Register.Op Nat) (Register.Ret Nat)) :=
      [.invoke ⟨0⟩ "write(1)" (.write 1) (some .written), .ret ⟨0⟩ (some .written)]
    let judged (undoLimit : Option Nat) :=
      ({ object := { object := { value := 0 }, undoLimit, cancelAt := some 1 },
         limits := .flagged (some 3) } :
        Tester (Probe (Register Nat) (Register.Op Nat) (Register.Ret Nat))).judge history
    (judged none).2.object.applies = 1 ∧ (judged none).1 = .ok .interrupted ∧
      (judged (some 0)).2.object.applies = 1 ∧ (judged (some 0)).1 = .error (.undoFailed 1 ⟨⟩) := by
  intro history judged
  have hraised : (judged none).2.object.cancelled = true := by
    change Probe.cancelled (run history.toArray _ 0 _).object = true
    cbv
  have hraised' : (judged (some 0)).2.object.cancelled = true := by
    change Probe.cancelled (run history.toArray _ 0 _).object = true
    cbv
  exact ⟨((judge_cancelled _ none _ 1 history).2.2.1 hraised).1, by cbv,
    ((judge_cancelled _ (some 0) _ 1 history).2.2.1 hraised').1, by cbv⟩

end Tester

end Linearizability
