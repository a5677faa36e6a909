import Linearizability.Proofs.Search.Visits
import Linearizability.Proofs.Transcript
import Linearizability.Reference.Probe
import Linearizability.Reference.Register
import Linearizability.Tester
import Mathlib.Data.List.Forall2

/-!
# Undos that fail

An undo may fail when a result is rejected, when a choice is taken back, and when the path is undone
ahead of a verdict. The main statement is that in each case it is the last call of the search, and
that the search reports the return at which the operation to be undone had been applied. Behind it
is an invariant of the path: its markers name the returns at which the operations in effect were
applied, whatever the object does.
-/

namespace Linearizability

open Transcript

variable {σ Op Ret : Type} [ReferenceObject σ Op Ret]

namespace Search

/-- The positions of the returns at which the operations on the path took effect, the latest first.
-/
def places : List Marker → List Nat
  | [] => []
  | .linearized _ i _ _ (.pending _) :: path => i :: places path
  | _ :: path => places path

def Step.object : Step σ Ret → σ
  | .next s => s.object
  | .halt _ object => object

variable [DecidableEq Ret]

/-- While it tries candidates for the return at this position, the search makes the call of this
number. -/
def MakesCallAt (events : List (Event Op Ret)) (start : Search (Transcript σ Op Ret) Ret)
    (n i : Nat) : Prop :=
  ∃ visited s r k, Visits events start visited s ∧ s.task = some (.linearize r i k) ∧
    s.object.calls.length ≤ n ∧ n < (s.step events.toArray).object.calls.length

/-- The operations in effect were applied at the returns that the path names. -/
def Placed (events : List (Event Op Ret)) (start : Search (Transcript σ Op Ret) Ret)
    (calls : List (Entry Op Ret)) (path : List Marker) : Prop :=
  List.Forall₂ (fun call i => MakesCallAt events start call.1 i) (inEffect calls) (places path)

/-- If the outcome is that an undo failed, then it blames the return at which the operation had been
applied that the last call was to undo. -/
def Blames (events : List (Event Op Ret)) (start : Search (Transcript σ Op Ret) Ret)
    (outcome : Except Fault (Verdict Ret)) (calls : List (Entry Op Ret)) : Prop :=
  ∀ i cause, outcome = .error (.undoFailed i cause) →
    ∃ n op, (inEffect calls.tail).head? = some (n, op) ∧ MakesCallAt events start n i

variable {events : List (Event Op Ret)} {start s s' : Search (Transcript σ Op Ret) Ret}
variable {visited : List (Search (Transcript σ Op Ret) Ret)} {t t' : Transcript σ Op Ret}
variable {path : List Marker} {calls : List (Entry Op Ret)} {i k q : Nat} {r p : ProcessId}

/-- An application is the next call, and its step makes it. -/
theorem makesCallAt_of_apply (h : Visits events start visited s)
    (ht : s.task = some (.linearize r i k))
    (hlt : s.object.calls.length < (s.step events.toArray).object.calls.length) :
    MakesCallAt events start s.object.calls.length i :=
  ⟨visited, s, r, k, h, ht, Nat.le_refl _, hlt⟩

/-- The latest operation on the path is the one that the next undo takes back. -/
theorem Placed.exists_head
    (h : Placed events start calls (.linearized r i k p (.pending q) :: path)) :
    ∃ n op rest, inEffect calls = (n, op) :: rest ∧ MakesCallAt events start n i ∧
      List.Forall₂ (fun call i => MakesCallAt events start call.1 i) rest (places path) := by
  unfold Placed at h
  obtain ⟨call, rest, hcall, hrest, heq⟩ := List.forall₂_cons_right_iff.1 h
  exact ⟨call.1, call.2, rest, heq, hcall, hrest⟩

theorem Placed.undo (h : Placed events start t.calls (.linearized r i k p (.pending q) :: path))
    {answer : Except NothingToUndo Unit} (hu : ReferenceObject.undo t = (answer, t')) :
    Placed events start t'.calls path := by
  obtain ⟨n, op, rest, heq, -, hrest⟩ := h.exists_head
  rw [calls_undo hu]
  unfold Placed
  rw [inEffect, heq]
  exact hrest

/-- A failing undo of the latest operation on the path is blamed on the return in its marker. -/
theorem Placed.exists_blamed
    (h : Placed events start t.calls (.linearized r i k p (.pending q) :: path))
    {answer : Except NothingToUndo Unit} (hu : ReferenceObject.undo t = (answer, t')) :
    ∃ n op, (inEffect t'.calls.tail).head? = some (n, op) ∧ MakesCallAt events start n i := by
  obtain ⟨n, op, rest, heq, hcall, -⟩ := h.exists_head
  rw [calls_undo hu, List.tail_cons, heq]
  exact ⟨n, op, rfl, hcall⟩

theorem Placed.restore (h : Placed events start t.calls path) {left : Transcript σ Op Ret}
    {cause : NothingToUndo} (hrestore : restore path t = (.error (.undoFailed i cause), left)) :
    ∃ n op, (inEffect left.calls.tail).head? = some (n, op) ∧ MakesCallAt events start n i := by
  induction path generalizing t with
  | nil => simp [Search.restore] at hrestore
  | cons marker path ih =>
    cases marker with
    | invoked => exact ih h hrestore
    | linearized r j k p before =>
      cases before with
      | idle | committed => exact ih h hrestore
      | pending q =>
        cases hu : ReferenceObject.undo t with
        | mk answer t' =>
          cases answer with
          | ok =>
            simp only [Search.restore, hu] at hrestore
            exact ih (h.undo hu) hrestore
          | error cause' =>
            obtain ⟨rfl, rfl⟩ : j = i ∧ t' = left := by
              simpa [Search.restore, hu] using hrestore
            exact h.exists_blamed hu

theorem Placed.conclude (h : Placed events start s.object.calls s.path) (verdict : Verdict Ret) :
    Blames events start (s.conclude verdict).1 (s.conclude verdict).2.calls := by
  intro i cause houtcome
  unfold Search.conclude at houtcome ⊢
  cases hrestore : Search.restore s.path s.object with
  | mk answer left =>
    rw [hrestore] at houtcome
    cases answer with
    | ok => simp at houtcome
    | error fault =>
      obtain rfl : fault = .undoFailed i cause := by simpa using houtcome
      exact h.restore hrestore

/-- The move applies the operation of a candidate, or it undoes the latest one on the path, or it
makes no call that lasts. -/
theorem Placed.step (h : Placed events start s.object.calls s.path)
    (hvisits : Visits events start visited s) (hstep : s.step events.toArray = .next s') :
    Placed events start s'.object.calls s'.path := by
  have hcalls : (s.step events.toArray).object = s'.object := by rw [hstep]; rfl
  cases move_of_step hstep with
  | invoke | arrive | arriveCommitted | exhaust | skip | passCommitted =>
    simpa [Placed, places, passReturn] using h
  | commit ht hk hp hne hq | pass ht hk hc hr hq =>
    obtain ⟨_, _, op, _, rfl⟩ := takeEffect?_eq_some_iff.1 hq
    exact .cons (makesCallAt_of_apply hvisits ht (by rw [hcalls]; exact Nat.lt_succ_self _)) h
  | reject _ _ _ _ _ hu =>
    have hundo := calls_undo hu
    unfold Placed rejectThen
    simp only [hundo]
    exact h
  | uninvoke _ hpath _ => simpa [Placed, hpath, places] using h
  | takeBack _ hpath _ hu =>
    rw [hpath] at h
    exact h.undo hu
  | @reopen _ _ _ _ before _ _ hpath _ hbefore =>
    cases before with
    | pending => simp [Phase.isPending] at hbefore
    | idle | committed => simpa [Placed, hpath, places] using h

theorem Visits.placed (h : Visits events start visited s)
    (hstart : Placed events start start.object.calls start.path) :
    Placed events start s.object.calls s.path := by
  induction h with
  | start => exact hstart
  | step h hstep ih => exact ih.step h hstep

theorem Placed.halt (h : Placed events start s.object.calls s.path)
    (hvisits : Visits events start visited s) {outcome : Except Fault (Verdict Ret)}
    {left : Transcript σ Op Ret} (hstep : s.step events.toArray = .halt outcome left) :
    Blames events start outcome left.calls := by
  have hcalls : (s.step events.toArray).object = left := by rw [hstep]; rfl
  cases halt_of_step hstep with
  | found => exact h.conclude .linearizable
  | refuted | overlapping | unmatched | idleCandidate | beyondHistory | unknownProcess |
    unknownCandidate | noInvocation | unknownMarker =>
    intro i cause houtcome
    simp at houtcome
  | rejectFailed ht _ _ _ _ hu =>
    intro i cause houtcome
    obtain rfl : _ = i := by simpa using houtcome
    have hundo := calls_undo hu
    rw [hundo]
    refine ⟨_, _, rfl, makesCallAt_of_apply hvisits ht ?_⟩
    rw [hcalls, hundo]
    exact Nat.lt_succ_of_lt (Nat.lt_succ_self _)
  | takeBackFailed _ hpath _ hu =>
    intro i cause houtcome
    obtain rfl : _ = i := by simpa using houtcome
    rw [hpath] at h
    exact h.exists_blamed hu

theorem Placed.concludes (h : Placed events start s.object.calls s.path)
    (hvisits : Visits events start visited s) {result : Result (Transcript σ Op Ret) Ret}
    (hresult : Concludes events s result) :
    Blames events start result.outcome result.object.calls := by
  cases hresult with
  | interrupted n => exact h.conclude .interrupted
  | exhausted n => exact h.conclude .exhausted
  | halted n hstep => exact h.halt hvisits hstep

section Numbering

theorem length_calls_le_of_move (hm : Move events s s') :
    s.object.calls.length ≤ s'.object.calls.length := by
  cases hm with
  | invoke | arrive | arriveCommitted | exhaust | skip | passCommitted | uninvoke | reopen =>
    exact Nat.le_refl _
  | commit ht hk hp hne hq | pass ht hk hc hr hq =>
    obtain ⟨_, _, op, _, rfl⟩ := takeEffect?_eq_some_iff.1 hq
    exact Nat.le_succ _
  | reject _ _ _ _ _ hu =>
    have hundo := calls_undo hu
    unfold rejectThen
    rw [hundo]
    exact Nat.le_succ_of_le (Nat.le_succ _)
  | takeBack _ _ _ hu =>
    have hundo := calls_undo hu
    rw [hundo]
    exact Nat.le_succ _

/-- A run makes a call of each number once. -/
theorem Visits.not_mem_of_makesCall {n : Nat} {t : Search (Transcript σ Op Ret) Ret}
    (h : Visits events start visited s)
    (hs : s.object.calls.length ≤ n) (ht : n < (t.step events.toArray).object.calls.length) :
    t ∉ visited := by
  intro hmem
  obtain ⟨t', hstep, hmem'⟩ := h.exists_step hmem
  obtain ⟨later, hlater, -⟩ := h.exists_rest hmem'
  have hle : t'.object.calls.length ≤ s.object.calls.length :=
    hlater.keeps (motive := fun u => t'.object.calls.length ≤ u.object.calls.length)
      (Nat.le_refl _) (fun u u' hu hm => hu.trans (length_calls_le_of_move hm)) s
      List.mem_cons_self
  rw [hstep] at ht
  exact absurd (Nat.lt_of_lt_of_le ht (hle.trans hs)) (Nat.lt_irrefl n)

theorem MakesCallAt.unique {n j : Nat} (h : MakesCallAt events start n i)
    (h' : MakesCallAt events start n j) : j = i := by
  obtain ⟨visited, s, r, k, hvisits, ht, hle, hlt⟩ := h
  obtain ⟨visited', s', r', k', hvisits', ht', hle', hlt'⟩ := h'
  have hsame : s = s' := by
    rcases hvisits.comparable hvisits' with hmem | hmem
    · exact (List.mem_cons.1 hmem).resolve_right (hvisits'.not_mem_of_makesCall hle' hlt)
    · exact absurd hmem (hvisits.not_mem_of_makesCall hle hlt')
  subst hsame
  rw [ht] at ht'
  cases ht'
  rfl

end Numbering

section Returns

variable {σ : Type} [ReferenceObject σ Op Ret] {start s s' : Search σ Ret}
variable {visited : List (Search σ Ret)}

/-- Where the search tries candidates, and where its choices took effect, there is a return. -/
structure AtReturns (events : List (Event Op Ret)) (s : Search σ Ret) : Prop where
  task : ∀ r i k, s.task = some (.linearize r i k) → ∃ result, events[i]? = some (.ret r result)
  path : ∀ r i k p before, .linearized r i k p before ∈ s.path →
    ∃ result, events[i]? = some (.ret r result)

theorem AtReturns.move (h : AtReturns events s) (hm : Move events s s') : AtReturns events s' := by
  obtain ⟨htask, hpath⟩ := h
  cases hm <;> constructor <;> grind [Search.commit, passReturn, rejectThen]

theorem Visits.atReturns {object : σ} (h : Visits events (Search.start object events) visited s) :
    AtReturns events s :=
  h.keeps ⟨by simp [Search.start], by simp [Search.start]⟩ (fun _ _ h hm => h.move hm) s
    List.mem_cons_self

end Returns

/-- A call is made at a return only. -/
theorem MakesCallAt.exists_ret {object : Transcript σ Op Ret} {n : Nat}
    (h : MakesCallAt events (Search.start object events) n i) :
    ∃ r result, events[i]? = some (.ret r result) := by
  obtain ⟨visited, s, r, k, hvisits, ht, -⟩ := h
  obtain ⟨result, he⟩ := hvisits.atReturns.task r i k ht
  exact ⟨r, result, he⟩

theorem blames_run (object : Transcript σ Op Ret) (events : List (Event Op Ret))
    (hobject : object.calls = []) (limits : Limits (Transcript σ Op Ret)) (n : Nat) :
    Blames events (Search.start object events)
      (run events.toArray limits n (Search.start object events)).outcome
      (run events.toArray limits n (Search.start object events)).object.calls := by
  obtain ⟨visited, last, hvisits, hconcludes⟩ :=
    exists_visits events limits n (Search.start object events)
  have hstart : Placed events (Search.start object events) object.calls [] := by
    rw [hobject]
    exact .nil
  exact (hvisits.placed hstart).concludes hvisits hconcludes

end Search

namespace Tester

open Search

variable [DecidableEq Ret]

/-- Whatever the object does and whatever may stop the tester, it reports that an undo failed
exactly if one did. The failing undo is the last call on the object, and the reported event is the
return at which the search had applied the operation that was to be undone. -/
theorem judge_undoFailed (object : σ) (limits : Limits σ) (events : List (Event Op Ret)) :
    let judged := ({ object, limits } : Tester σ).judge events
    let noted := ({ object := { object }, limits := limits.noted } :
      Tester (Transcript σ Op Ret)).judge events
    let calls := noted.2.object.calls
    (noted.1 = judged.1 ∧ noted.2.steps = judged.2.steps ∧
        noted.2.object.object = judged.2.object) ∧
      ((∃ i cause, judged.1 = .error (.undoFailed i cause)) ↔
        ∃ cause, .undone (.error cause) ∈ calls) ∧
      ∀ i cause, judged.1 = .error (.undoFailed i cause) →
        (∃ r result, events[i]? = some (.ret r result)) ∧
        ∃ earlier n op, calls = .undone (.error cause) :: earlier ∧ NoFailure earlier ∧
          (inEffect earlier).head? = some (n, op) ∧
          ∀ j, MakesCallAt events (Search.start { object } events) n j ↔ j = i := by
  intro judged noted calls
  obtain ⟨houtcome, hsteps, hobject⟩ := run_noted object limits events
  have hreports : Reports noted.1 calls := reports_noted object limits events
  have hblames : Blames events (Search.start { object } events) noted.1 calls :=
    blames_run { object } events rfl limits.noted 0
  have hsame : noted.1 = judged.1 := houtcome.symm
  refine ⟨⟨hsame, hsteps.symm, hobject⟩, ?_, ?_⟩
  · rw [← hsame]
    constructor
    · rintro ⟨i, cause, hfailed⟩
      obtain ⟨earlier, hcalls, -⟩ := hreports.exists_failed hfailed
      exact ⟨cause, hcalls ▸ List.mem_cons_self⟩
    · rintro ⟨cause, hmem⟩
      obtain ⟨⟨i, hfailed⟩, -⟩ := hreports.eq_of_mem hmem
      exact ⟨i, cause, hfailed⟩
  · intro i cause hfailed
    rw [← hsame] at hfailed
    obtain ⟨earlier, hcalls, hearlier⟩ := hreports.exists_failed hfailed
    obtain ⟨n, op, hhead, hcall⟩ := hblames i cause hfailed
    rw [hcalls, List.tail_cons] at hhead
    refine ⟨hcall.exists_ret, earlier, n, op, hcalls, hearlier, hhead, fun j => ⟨hcall.unique, ?_⟩⟩
    intro hj
    exact hj ▸ hcall

/-- The whole history is passed, and of the two operations only the later one can be undone ahead of
the verdict. The write was applied at the return at position 1. -/
theorem judge_undo_fails_ahead_of_verdict :
    let history : List (Event (Register.Op Nat) (Register.Ret Nat)) :=
      [.invoke ⟨0⟩ "write(1)" (.write 1) (some .written),
        .ret ⟨0⟩ (some .written),
        .invoke ⟨0⟩ "read()" .read (some (.read 1)),
        .ret ⟨0⟩ (some (.read 1))]
    let object : Probe (Register Nat) (Register.Op Nat) (Register.Ret Nat) :=
      { object := { value := 0 }, undoLimit := some 1 }
    (({ object } : Tester (Probe (Register Nat) _ _)).judge history).1 =
        .error (.undoFailed 1 ⟨⟩) ∧
      ∃ n, ∀ j, MakesCallAt history (Search.start { object } history) n j ↔ j = 1 := by
  intro history object
  have hfailed : (({ object } : Tester (Probe (Register Nat) _ _)).judge history).1 =
      .error (.undoFailed 1 ⟨⟩) := by cbv
  obtain ⟨-, earlier, n, op, -, -, -, hcall⟩ :=
    (judge_undoFailed object {} history).2.2 1 ⟨⟩ hfailed
  exact ⟨hfailed, n, hcall⟩

end Tester
end Linearizability
