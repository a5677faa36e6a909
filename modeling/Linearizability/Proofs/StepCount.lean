import Linearizability.Proofs.Judgment
import Linearizability.Proofs.Transcript
import Linearizability.Reference.Probe

/-!
# How many steps a judgment takes

Without limits a tester takes a number of steps that the history bounds, whatever its object does. A
budget of at least that number changes nothing, and a smaller one is exhausted with the next step.
-/

namespace Linearizability.Tester

variable {σ Op Ret : Type} [ReferenceObject σ Op Ret] [DecidableEq Ret]

open Search

/-- The loop of the search ends, and the number of its steps has a bound that does not depend on the
object. An undo that fails ends it with an error. -/
theorem judge_terminates (object : σ) (events : List (Event Op Ret)) :
    let judged := ({ object } : Tester σ).judge events
    let noted := ({ object := { object } } : Tester (Transcript σ Op Ret)).judge events
    (Ends events.toArray (start object events) judged.2.steps judged.1 judged.2.object ∧
        judged.2.steps ≤ advanceCost (processCount events) events.length 0 + 1) ∧
      noted.1 = judged.1 ∧ noted.2.object.object = judged.2.object ∧
      ∀ cause, .undone (.error cause) ∈ noted.2.object.calls →
        (∃ i, judged.1 = .error (.undoFailed i cause)) ∧
          noted.2.object.calls.head? = some (.undone (.error cause)) := by
  intro judged noted
  obtain ⟨n, outcome, left, hn, hends⟩ := exists_ends events.toArray (start object events)
  rw [cost_start] at hn
  have hjudged : judged = (outcome, { object := left, steps := n }) :=
    judge_of_ends (t := { object }) hends (fun _ _ => rfl) (by simp)
  obtain ⟨houtcome, -, hobject⟩ := run_noted object {} events
  have hreports : Reports noted.1 noted.2.object.calls := reports_noted object {} events
  refine ⟨?_, houtcome.symm, hobject, ?_⟩
  · rw [hjudged]
    exact ⟨hends, hn⟩
  · intro cause hmem
    obtain ⟨⟨i, hi⟩, hhead⟩ := hreports.eq_of_mem hmem
    exact ⟨⟨i, houtcome.trans hi⟩, hhead⟩

/-- The only operation does not return what it should and cannot be undone. -/
theorem judge_undo_fails :
    let history : List (Event (Queue.Op Nat) (Queue.Ret Nat)) :=
      [.invoke ⟨0⟩ "dequeue()" .dequeue (some (.dequeued (some 1))),
        .ret ⟨0⟩ (some (.dequeued (some 1)))]
    let object : Probe (Queue Nat) (Queue.Op Nat) (Queue.Ret Nat) :=
      { object := Queue.ofList [], undoLimit := some 0 }
    ∃ i, (({ object } : Tester (Probe (Queue Nat) _ _)).judge history).1 =
      .error (.undoFailed i ⟨⟩) := by
  intro history object
  let noted : Tester (Transcript (Probe (Queue Nat) _ _) (Queue.Op Nat) (Queue.Ret Nat)) :=
    { object := { object } }
  have hcalls : (noted.judge history).2.object.calls =
      [.undone (.error ⟨⟩), .applied .dequeue (.dequeued none)] := by
    change (match noted.judge history with | (_, after) => after.object.calls) = _
    cbv
  obtain ⟨-, -, -, hfails⟩ := judge_terminates object history
  exact (hfails ⟨⟩ (hcalls ▸ List.mem_cons_self)).1

variable [LawfulUndo σ]

section Budget

variable {t : Tester σ} {events : List (Event Op Ret)} {left : σ} {n N : Nat}
variable {outcome : Except Fault (Verdict Ret)} {verdict : Verdict Ret}

omit [LawfulUndo σ] in
theorem judge_of_budget_ge (h : Ends events.toArray (start t.object events) N outcome left)
    (hlimits : t.limits.Unlimited) (hn : N ≤ n) :
    (t.withMaxSteps n).judge events =
      (outcome, { t.withMaxSteps n with object := left, steps := N }) := by
  refine judge_of_ends (t := t.withMaxSteps n) h hlimits.cancelled ?_
  intro m hm
  exact Option.some.inj hm ▸ hn

theorem judge_of_budget_lt (h : Ends events.toArray (start t.object events) N outcome left)
    (hlimits : t.limits.Unlimited) (hn : n < N) :
    (t.withMaxSteps n).judge events =
      (.ok .exhausted, { t.withMaxSteps n with object := t.object, steps := n + 1 }) := by
  refine judge_eq_of_run (t := t.withMaxSteps n) ?_
  exact h.run_exhausted (OnBranch.start events t.object) hlimits.cancelled rfl (Nat.zero_le n)
    (by omega)

/-- A budget does not change which conclusive verdict there is. -/
theorem outcome_of_isConclusive (h : Ends events.toArray (start t.object events) N outcome left)
    (hlimits : t.limits.Unlimited) (hverdict : ((t.withMaxSteps n).judge events).1 = .ok verdict)
    (hconclusive : verdict.isConclusive = true) : outcome = .ok verdict := by
  rcases Nat.lt_or_ge n N with hn | hn
  · rw [judge_of_budget_lt h hlimits hn] at hverdict
    cases hverdict
    simp [Verdict.isConclusive] at hconclusive
  · rwa [judge_of_budget_ge h hlimits hn] at hverdict

end Budget

/-- The loop ends in its `N`-th step. A budget of at least `N` steps leads to the same outcome in as
many steps, and a smaller one is exhausted with the step that exceeds it. So a budget decides
whether there is a conclusive verdict, and not which. -/
theorem judge_withMaxSteps (t : Tester σ) (events : List (Event Op Ret))
    (hlimits : t.limits.Unlimited) :
    ∃ N outcome left,
      Ends events.toArray (start t.object events) N outcome left ∧
      ((∃ verdict, outcome = .ok verdict ∧ verdict.isConclusive = true) ∨
        ∃ i p, outcome = .error (.overlappingInvocation i p) ∨
          outcome = .error (.unmatchedReturn i p)) ∧
      t.judge events = (outcome, { t with object := left, steps := N }) ∧
      (∀ n, N ≤ n → (t.withMaxSteps n).judge events =
        (outcome, { t.withMaxSteps n with object := left, steps := N })) ∧
      (∀ n, n < N → (t.withMaxSteps n).judge events =
        (.ok .exhausted, { t.withMaxSteps n with object := t.object, steps := n + 1 })) ∧
      ∀ m n verdict verdict', ((t.withMaxSteps m).judge events).1 = .ok verdict →
        ((t.withMaxSteps n).judge events).1 = .ok verdict' → verdict.isConclusive = true →
        verdict'.isConclusive = true → verdict = verdict' := by
  obtain ⟨N, outcome, left, -, hends⟩ := exists_ends events.toArray (start t.object events)
  refine ⟨N, outcome, left, hends, hends.ending.isConclusive_or_break, ?_,
    fun n hn => judge_of_budget_ge hends hlimits hn,
    fun n hn => judge_of_budget_lt hends hlimits hn, ?_⟩
  · refine judge_of_ends hends hlimits.cancelled ?_
    intro m hm
    rw [hlimits.maxSteps] at hm
    cases hm
  · intro m n verdict verdict' hverdict hverdict' hc hc'
    have houtcome := outcome_of_isConclusive hends hlimits hverdict hc
    have houtcome' := outcome_of_isConclusive hends hlimits hverdict' hc'
    exact Except.ok.inj (houtcome.symm.trans houtcome')

/-- An item is enqueued and then dequeued, in seven steps: the budget of seven suffices, and that of
six does not. -/
theorem judge_within_seven_steps :
    let history : List (Event (Queue.Op Nat) (Queue.Ret Nat)) :=
      [.invoke ⟨0⟩ "enqueue(1)" (.enqueue 1) (some .enqueued),
        .ret ⟨0⟩ (some .enqueued),
        .invoke ⟨0⟩ "dequeue()" .dequeue (some (.dequeued (some 1))),
        .ret ⟨0⟩ (some (.dequeued (some 1)))]
    let t : Tester (Queue Nat) := { object := Queue.ofList [] }
    ((t.withMaxSteps 7).judge history).1 = .ok .linearizable ∧
      (t.withMaxSteps 6).judge history =
        (.ok .exhausted, { t.withMaxSteps 6 with steps := 7 }) := by
  intro history t
  obtain ⟨N, outcome, left, -, -, hfull, hlarge, hsmall, -⟩ :=
    judge_withMaxSteps t history Limits.unlimited_default
  have hjudge : t.judge history = (.ok .linearizable, { t with steps := 7 }) := by cbv
  rw [hfull] at hjudge
  obtain ⟨rfl, hafter⟩ := Prod.ext_iff.1 hjudge
  obtain rfl : N = 7 := congrArg Tester.steps hafter
  exact ⟨congrArg Prod.fst (hlarge 7 (Nat.le_refl 7)), hsmall 6 (by omega)⟩

end Linearizability.Tester
