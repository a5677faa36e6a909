import Linearizability.Proofs.Search.Exploration
import Linearizability.Proofs.Transcript
import Linearizability.Reference.Register
import Linearizability.Tester

/-!
# What a tester attempts

A tester attempts an operation by applying it to its object, on which other operations are in
effect. The main statement is that it makes no attempt twice, and that before it finds a history not
to be linearizable it has attempted every operation that is outstanding at a return, after every
linearization of the events ahead of the return that leaves out both this operation and the one that
returns.
-/

namespace Linearizability

open Turn

variable {σ Op Ret : Type}

/-- An object whose operations come with the positions of their invocations. -/
structure Positioned (σ : Type) where
  object : σ

/-- The history with the position of each invocation beside its operation. -/
def positioned (events : List (Event Op Ret)) : List (Event (Nat × Op) Ret) :=
  events.mapIdx fun q => Event.mapOp (q, ·)

section Positions

variable {events : List (Event Op Ret)} {p : ProcessId} {label : String} {op : Nat × Op}
variable {expected : Option Ret} {q : Nat}

theorem getElem?_positioned (events : List (Event Op Ret)) (q : Nat) :
    (positioned events)[q]? = events[q]?.map (Event.mapOp (q, ·)) := by
  simp [positioned]

theorem position_of_positioned (h : (positioned events)[q]? = some (.invoke p label op expected)) :
    op.1 = q := by
  rw [getElem?_positioned] at h
  cases he : events[q]? with
  | none => simp [he] at h
  | some event =>
    cases event with
    | ret => simp [he, Event.mapOp] at h
    | invoke p' label' op' expected' =>
      obtain ⟨-, -, rfl, -⟩ : _ ∧ _ ∧ (q, op') = op ∧ _ := by simpa [he, Event.mapOp] using h
      rfl

theorem map_positioned (events : List (Event Op Ret)) :
    (positioned events).map (.mapOp Prod.snd) = events := by
  refine List.ext_getElem? ?_
  intro q
  rw [List.getElem?_map, getElem?_positioned]
  cases events[q]? with
  | none => rfl
  | some event => cases event <;> rfl

end Positions

variable [ReferenceObject σ Op Ret]

namespace Positioned

instance : ReferenceObject (Positioned σ) (Nat × Op) Ret where
  apply o op :=
    let (ret, object) := ReferenceObject.apply o.object op.2
    (ret, ⟨object⟩)
  undo o :=
    let (answer, object) := ReferenceObject.undo o.object
    (answer, ⟨object⟩)

instance [LawfulUndo σ] : LawfulUndo (Positioned σ) where
  undo_apply o op := by
    simp only [ReferenceObject.apply, ReferenceObject.undo, LawfulUndo.undo_apply]

end Positioned

namespace Transcript

/-- The attempts that were made, the latest first: the positions of the operations in effect, the
earliest first, and the position of the one that was applied. -/
def attempts : List (Entry (Nat × Op) Ret) → List (List Nat × Nat)
  | [] => []
  | .applied op _ :: calls => (((inEffect calls).map (·.2.1)).reverse, op.1) :: attempts calls
  | .undone _ :: calls => attempts calls

/-- A transcript with positions cannot be told from the object alone. -/
theorem bisimulationAlong : BisimulationAlong Prod.snd
    fun (t : Transcript (Positioned σ) (Nat × Op) Ret) (o : σ) => t.object.object = o where
  apply := by
    rintro t _ rfl op
    exact ⟨rfl, rfl⟩
  undo := by
    rintro t _ rfl
    exact ⟨rfl, rfl⟩

end Transcript

namespace Search

/-- The same moments to stop, for an object whose operations come with positions. -/
def Limits.positioned (limits : Limits σ) : Limits (Positioned σ) where
  maxSteps := limits.maxSteps
  cancelled steps o := limits.cancelled steps o.object

/-- What the next step of the search attempts. -/
def attempted? (s : Search σ Ret) : Option (List Nat × Nat) :=
  s.tried?.map fun (_, _, q) => (effects s.path, q)

variable [DecidableEq Ret]

section Attempted

variable {events : List (Event Op Ret)} {object : σ} {s last : Search σ Ret}
variable {visited : List (Search σ Ret)} {w : List Nat} {q j : Nat}

omit [ReferenceObject σ Op Ret] [DecidableEq Ret] in
theorem attempted?_eq_some_iff : s.attempted? = some (w, q) ↔ ∃ j p, Tries s j w p q := by
  constructor
  · intro h
    obtain ⟨⟨j, p, a⟩, htried, heq⟩ := Option.map_eq_some_iff.1 h
    cases heq
    exact ⟨j, p, tried?_eq_some_iff.1 htried⟩
  · rintro ⟨j, p, htries⟩
    obtain rfl : effects s.path = w := htries.effects_eq
    exact Option.map_eq_some_iff.2 ⟨_, tried?_eq_some_iff.2 htries, rfl⟩

variable [LawfulUndo σ]

/-- No two searches of a run attempt the same, for they would cost the same. -/
theorem Visits.nodup_attempted (h : Visits events (Search.start object events) visited last) :
    (visited.filterMap attempted?).Nodup := by
  refine List.pairwise_filterMap.2 (h.pairwise_cost.imp_of_mem ?_)
  rintro t u ht hu hlt ⟨w, q⟩ hattempt _ hattempt' rfl
  obtain ⟨j, p, htries⟩ := attempted?_eq_some_iff.1 hattempt
  obtain ⟨i, p', htries'⟩ := attempted?_eq_some_iff.1 hattempt'
  obtain ⟨hpath, hphases, htask⟩ := (h.onBranch (List.mem_cons_of_mem last ht)).eq_of_tries htries
    (h.onBranch (List.mem_cons_of_mem last hu)) htries'
  unfold cost at hlt
  rw [hpath, hphases, htask] at hlt
  exact Nat.lt_irrefl _ hlt

/-- The event at `j` is the first return whose operation is not among those in `w`. They linearize
the events ahead of it, and `q` is the position of another invocation among these events. -/
structure IsAttempt (object : σ) (events : List (Event Op Ret)) (w : List Nat) (q j : Nat) :
    Prop where
  returns : ∃ a, Returns (events.map Event.turn) a j ∧ a ∉ w
  first : ∀ i < j, ∀ a, Returns (events.map Event.turn) a i → a ∈ w
  linearization : IsLinearization object (events.take j) w
  invokes : ∃ p, (events.map Event.turn)[q]? = some ⟨p, true⟩
  lt : q < j
  not_mem : q ∉ w

theorem Explores.mem_attempted_iff (h : Explores events object visited last) :
    (w, q) ∈ visited.filterMap attempted? ↔ ∃ j, IsAttempt object events w q j := by
  rw [List.mem_filterMap]
  constructor
  · rintro ⟨t, ht, hattempt⟩
    obtain ⟨j, p, htries⟩ := attempted?_eq_some_iff.1 hattempt
    obtain ⟨hw, -, hret, ho, hq⟩ := (h.onBranch ht).of_tries htries
    exact ⟨j, {
      returns := hret
      first := fun i hi a ha => (IsLinearization.take_iff.1 hw).2.1 a i hi ha
      linearization := hw
      invokes := ⟨p, invokes_of_outstanding ho⟩
      lt := lt_of_outstanding ho
      not_mem := hq }⟩
  · rintro ⟨j, hj⟩
    obtain ⟨p, hp⟩ := hj.invokes
    obtain ⟨a, hret, ha⟩ := hj.returns
    rcases (h.alternating_take ⟨w, hj.linearization⟩).outstanding_or_returns hj.lt hp with
      ho | ⟨i, hi, hreturned⟩
    · obtain ⟨t, ht, htries⟩ := h.exists_tries hj.linearization hret ha ho hj.not_mem
      exact ⟨t, ht, attempted?_eq_some_iff.2 ⟨j, p, htries⟩⟩
    · exact absurd (hj.first i hi q hreturned) hj.not_mem

end Attempted

section Noted

open Transcript

variable {τ : Type} [ReferenceObject τ (Nat × Op) Ret] {events : List (Event Op Ret)}
variable {s s' last : Search (Transcript τ (Nat × Op) Ret) Ret} {p : ProcessId} {q j : Nat}
variable {visited : List (Search (Transcript τ (Nat × Op) Ret) Ret)}

/-- What a transcript tells of a search that has visited these searches before. -/
structure Noted (s : Search (Transcript τ (Nat × Op) Ret) Ret)
    (visited : List (Search (Transcript τ (Nat × Op) Ret) Ret)) : Prop where
  inEffect : (inEffect s.object.calls).map (·.2.1) = (effects s.path).reverse
  attempts : attempts s.object.calls = visited.filterMap attempted?

omit [ReferenceObject τ (Nat × Op) Ret] [DecidableEq Ret] in
theorem Noted.of_calls (h : Noted s visited) (hcalls : s'.object.calls = s.object.calls)
    (heffects : effects s'.path = effects s.path) (hnone : s.tried? = none) :
    Noted s' (s :: visited) where
  inEffect := by rw [hcalls, heffects, h.inEffect]
  attempts := by
    rw [hcalls, h.attempts, List.filterMap_cons_none (by rw [attempted?, hnone, Option.map_none])]

omit [ReferenceObject τ (Nat × Op) Ret] [DecidableEq Ret] in
/-- The application that the search attempts is the next call. -/
theorem Noted.attempts_applied (h : Noted s visited) (htries : Tries s j (effects s.path) p q)
    {op : Nat × Op} (hop : op.1 = q) (ret : Ret) :
    Transcript.attempts (.applied op ret :: s.object.calls) =
      (s :: visited).filterMap attempted? := by
  rw [List.filterMap_cons_some (attempted?_eq_some_iff.2 ⟨j, p, htries⟩), ← h.attempts,
    Transcript.attempts, h.inEffect, List.reverse_reverse, hop]

omit [ReferenceObject τ (Nat × Op) Ret] [DecidableEq Ret] in
theorem Noted.of_applied (h : Noted s visited) (htries : Tries s j (effects s.path) p q)
    {op : Nat × Op} (hop : op.1 = q) {ret : Ret}
    (hcalls : s'.object.calls = .applied op ret :: s.object.calls)
    (heffects : effects s'.path = effects s.path ++ [q]) : Noted s' (s :: visited) where
  inEffect := by
    rw [hcalls, heffects, Transcript.inEffect, List.map_cons, h.inEffect, hop]
    simp
  attempts := by rw [hcalls, h.attempts_applied htries hop]

theorem Noted.move (h : Noted s visited) (hm : Move (positioned events) s s') :
    Noted s' (s :: visited) := by
  cases hm with
  | invoke ht | arrive ht | arriveCommitted ht =>
    exact h.of_calls rfl rfl (tried?_eq_none_of_task (by simp [ht]))
  | exhaust ht hk => exact h.of_calls rfl rfl (tried?_eq_none_of_le ht hk)
  | skip ht hk hp hphase => exact h.of_calls rfl rfl (tried?_eq_none_of_phase ht hp hphase)
  | passCommitted ht hk hc hr =>
    exact h.of_calls rfl rfl (tried?_eq_none_of_phase ht (hc ▸ hr) rfl)
  | commit ht hk hp hne hq =>
    obtain ⟨_, _, op, he, rfl⟩ := takeEffect?_eq_some_iff.1 hq
    exact h.of_applied ⟨_, _, ht, hk, rfl, hp, rfl⟩ (position_of_positioned he) rfl rfl
  | pass ht hk hc hr hq =>
    obtain ⟨_, _, op, he, rfl⟩ := takeEffect?_eq_some_iff.1 hq
    exact h.of_applied ⟨_, _, ht, hk, hc, hr, rfl⟩ (position_of_positioned he) rfl rfl
  | @reject _ _ _ _ _ _ op _ _ ht hk hp he hne hu =>
    have hcalls := calls_undo hu
    have hattempts := h.attempts_applied ⟨_, _, ht, hk, rfl, hp, rfl⟩ (position_of_positioned he)
      (ReferenceObject.apply s.object op).1
    exact {
      inEffect := by
        rw [rejectThen, hcalls]
        exact h.inEffect
      attempts := by
        rw [rejectThen, hcalls]
        exact hattempts }
  | uninvoke ht hpath =>
    exact h.of_calls rfl (by rw [hpath]; rfl) (tried?_eq_none_of_task (by simp [ht]))
  | takeBack ht hpath hp hu =>
    have hcalls := calls_undo hu
    have hin := h.inEffect
    rw [hpath] at hin
    exact {
      inEffect := by
        rw [hcalls, Transcript.inEffect, List.map_tail, hin]
        simp [effects]
      attempts := by
        have hnone : s.tried? = none := tried?_eq_none_of_task (by simp [ht])
        rw [hcalls, List.filterMap_cons_none (by rw [attempted?, hnone, Option.map_none])]
        exact h.attempts }
  | @reopen _ _ _ _ before _ ht hpath hp hbefore =>
    refine h.of_calls rfl ?_ (tried?_eq_none_of_task (by simp [ht]))
    cases before with
    | pending => simp [Phase.isPending] at hbefore
    | idle | committed => rw [hpath]; rfl

theorem Visits.noted (h : Visits (positioned events) s visited last) (hs : Noted s []) :
    Noted last visited := by
  induction h with
  | start => exact hs
  | step h hstep ih => exact ih.move (move_of_step hstep)

section Halting

omit [DecidableEq Ret] in
theorem attempts_undo {t t' : Transcript τ (Nat × Op) Ret} {answer : Except NothingToUndo Unit}
    (hu : ReferenceObject.undo t = (answer, t')) :
    Transcript.attempts t'.calls = Transcript.attempts t.calls := by
  rw [calls_undo hu]
  rfl

omit [DecidableEq Ret] in
theorem attempts_restore (path : List Marker) (t : Transcript τ (Nat × Op) Ret) :
    Transcript.attempts (restore path t).2.calls = Transcript.attempts t.calls := by
  induction path generalizing t with
  | nil => rfl
  | cons marker path ih =>
    cases marker with
    | invoked => exact ih t
    | linearized r i k p before =>
      cases before with
      | idle | committed => exact ih t
      | pending q =>
        cases hu : ReferenceObject.undo t with
        | mk answer t' =>
          cases answer with
          | ok _ =>
            simp only [restore, hu]
            rw [ih, attempts_undo hu]
          | error cause =>
            simp only [restore, hu]
            exact attempts_undo hu

omit [DecidableEq Ret] in
theorem attempts_conclude (s : Search (Transcript τ (Nat × Op) Ret) Ret) (verdict : Verdict Ret) :
    Transcript.attempts (s.conclude verdict).2.calls = Transcript.attempts s.object.calls := by
  rw [← attempts_restore s.path s.object]
  unfold conclude
  generalize restore s.path s.object = left
  obtain ⟨answer, object⟩ := left
  cases answer with
  | ok | error => rfl

/-- Nothing is attempted once a search has halted. -/
theorem Concludes.attempts_eq [LawfulUndo τ]
    {result : Result (Transcript τ (Nat × Op) Ret) Ret}
    (h : Concludes (positioned events) last result) :
    Transcript.attempts result.object.calls = Transcript.attempts last.object.calls := by
  cases h with
  | interrupted n => exact attempts_conclude last .interrupted
  | exhausted n => exact attempts_conclude last .exhausted
  | halted n hstep =>
    cases halt_of_step hstep with
    | found => exact attempts_conclude last .linearizable
    | refuted | overlapping | unmatched | idleCandidate | beyondHistory | unknownProcess |
      unknownCandidate | noInvocation | unknownMarker => rfl
    | @rejectFailed _ _ _ _ _ _ op _ _ _ _ _ _ _ _ hu =>
      have hfailed := answer_undo hu
      rw [show (ReferenceObject.apply last.object op).2.object =
        (ReferenceObject.apply last.object.object op).2 from rfl, LawfulUndo.undo_apply] at hfailed
      cases hfailed
    | takeBackFailed _ _ _ hu => exact attempts_undo hu

end Halting

end Noted

section Runs

open Transcript

variable [LawfulUndo σ]

/-- The searches that are visited on the object alone tell all attempts. -/
theorem exists_attempted (events : List (Event Op Ret)) (object : σ)
    (limits : Limits (Transcript (Positioned σ) (Nat × Op) Ret)) :
    ∃ (visited : List (Search σ Ret)) (last : Search σ Ret),
      Visits events (Search.start object events) visited last ∧
      Transcript.attempts (run (positioned events).toArray limits 0
        (Search.start { object := { object } } (positioned events))).object.calls =
          visited.filterMap attempted? ∧
      ∀ reach, (run (positioned events).toArray limits 0
        (Search.start { object := { object } } (positioned events))).outcome =
          .ok (.notLinearizable reach) → last.task = none ∧ last.path = [] := by
  obtain ⟨visited, last, hvisits, hconcludes⟩ := exists_visits (positioned events) limits 0
    (Search.start { object := { object } } (positioned events))
  have hnoted : Noted last visited := hvisits.noted ⟨rfl, rfl⟩
  have halone := hvisits.translated (g := fun t => t.object.object) bisimulationAlong
  rw [withObject_start Prod.snd, map_positioned] at halone
  refine ⟨_, _, halone, ?_, ?_⟩
  · rw [hconcludes.attempts_eq, hnoted.attempts, List.filterMap_map]
    rfl
  · intro reach hreach
    obtain ⟨htask, hpath, -⟩ := hconcludes.refuted hreach
    exact ⟨htask, hpath⟩

end Runs
end Search

namespace Tester

open Search

variable [DecidableEq Ret]

/-- Whatever stops a tester, it makes no attempt twice. If it finds the history not to be
linearizable, its attempts are all those that there are: after any linearization of the events ahead
of a return that leaves out the operation which returns, any other operation that it leaves out. -/
theorem judge_attempts [LawfulUndo σ] (object : σ) (limits : Limits σ)
    (events : List (Event Op Ret)) :
    let judged := ({ object, limits } : Tester σ).judge events
    let noted := ({ object := { object := { object } }, limits := limits.positioned.noted } :
      Tester (Transcript (Positioned σ) (Nat × Op) Ret)).judge (positioned events)
    let attempts := Transcript.attempts noted.2.object.calls
    (noted.1 = judged.1 ∧ noted.2.steps = judged.2.steps ∧
        noted.2.object.object.object = judged.2.object) ∧
      attempts.Nodup ∧
      ((∃ reach, judged.1 = .ok (.notLinearizable reach)) →
        ∀ w q, (w, q) ∈ attempts ↔ ∃ j, IsAttempt object events w q j) := by
  intro judged noted attempts
  have hrun := run_translated Transcript.bisimulationAlong limits.positioned.noted limits rfl
    (fun n t object h => by subst h; rfl) (positioned events).toArray 0
    (Search.start { object := { object } } (positioned events)) object rfl
  rw [List.map_toArray, withObject_start Prod.snd, map_positioned] at hrun
  have hsame : noted.1 = judged.1 := hrun.outcome
  obtain ⟨visited, last, hvisits, hattempts, hrefuted⟩ :=
    exists_attempted events object limits.positioned.noted
  have hattempts : attempts = visited.filterMap attempted? := hattempts
  refine ⟨⟨hsame, hrun.steps, hrun.object⟩, ?_, ?_⟩
  · rw [hattempts]
    exact hvisits.nodup_attempted
  · rintro ⟨reach, hreach⟩ w q
    obtain ⟨htask, hpath⟩ := hrefuted reach (hsame.trans hreach)
    rw [hattempts]
    exact Explores.mem_attempted_iff ⟨hvisits, htask, hpath⟩

/-- The value that was read is never written. Ahead of the return, the read is attempted both on the
initial value and after the write. -/
theorem judge_attempts_read :
    let history : List (Event (Register.Op Nat) (Register.Ret Nat)) :=
      [.invoke ⟨0⟩ "write(1)" (.write 1) (some .written),
        .invoke ⟨1⟩ "read()" .read (some (.read 2)),
        .ret ⟨1⟩ (some (.read 2))]
    let noted := ({ object := { object := { object := { value := 0 } } } } :
      Tester (Transcript (Positioned (Register Nat)) (Nat × Register.Op Nat)
        (Register.Ret Nat))).judge (positioned history)
    (∃ reach, (({ object := { value := 0 } } : Tester (Register Nat)).judge history).1 =
        .ok (.notLinearizable reach)) ∧
      ([], 1) ∈ Transcript.attempts noted.2.object.calls ∧
      ([0], 1) ∈ Transcript.attempts noted.2.object.calls := by
  intro history noted
  have hfail : (({ object := { value := 0 } } : Tester (Register Nat)).judge history).1 =
      .ok (.notLinearizable ⟨2, [⟨some 0, []⟩, ⟨some 2, [.read 1, .read 0]⟩]⟩) := by cbv
  obtain ⟨-, -, hall⟩ := judge_attempts ({ value := 0 } : Register Nat) {} history
  have hattempt : ∀ w, IsLinearization ({ value := 0 } : Register Nat) (history.take 2) w →
      1 ∉ w → (w, 1) ∈ Transcript.attempts noted.2.object.calls := by
    intro w hw hread
    exact (hall ⟨_, hfail⟩ w 1).2 ⟨2, {
      returns := ⟨1, by decide, hread⟩
      first := fun i hi a ha => (IsLinearization.take_iff.1 hw).2.1 a i hi ha
      linearization := hw
      invokes := ⟨⟨1⟩, rfl⟩
      lt := by decide
      not_mem := hread }⟩
  exact ⟨⟨_, hfail⟩, hattempt [] (by decide) (by decide), hattempt [0] (by decide) (by decide)⟩

end Tester
end Linearizability
