import Linearizability.Proofs.Search.Ending
import Linearizability.Proofs.Search.Tables
import Linearizability.Reference.Queue
import Linearizability.Tester

/-!
# What a tester decides

A tester that nothing stops early is the loop of its search. So it decides whether an alternating
history is linearizable: the search keeps open what it can still find, and ends in success exactly
if it was open from the start.
-/

namespace Linearizability

open Turn

variable {σ Op Ret : Type} [ReferenceObject σ Op Ret] [DecidableEq Ret]

namespace Search

/-- There is no budget, and cancellation is never requested. -/
structure Limits.Unlimited (limits : Limits σ) : Prop where
  maxSteps : limits.maxSteps = none
  cancelled : ∀ steps object, limits.cancelled steps object = false

theorem Limits.unlimited_default : ({} : Limits σ).Unlimited := ⟨rfl, fun _ _ => rfl⟩

end Search

namespace Tester

section Loop

variable {t : Tester σ} {events : List (Event Op Ret)} {left : σ} {n : Nat}
variable {outcome : Except Search.Fault (Verdict Ret)}

theorem judge_eq_of_run
    (h : (Search.start t.object events).run events.toArray t.limits 0 = ⟨outcome, left, n⟩) :
    t.judge events = (outcome, { t with object := left, steps := n }) := by
  simp [judge, judgeFrom, h]

/-- A machine with room for the tables makes no difference to the judgment. -/
theorem judge?_eq_some_iff {machine : Machine}
    {judgment : Except Search.Fault (Verdict Ret) × Tester σ}
    (h : machine.overflow = .wrapping → ∀ event ∈ events, event.process ≠ .last) :
    t.judge? machine events = some judgment ↔
      (∀ event ∈ events, event.process.index < machine.room) ∧ t.judge events = judgment := by
  rw [judge?, Option.map_eq_some_iff]
  simp only [Search.begin?_eq_some_iff h]
  constructor
  · rintro ⟨s, ⟨hroom, rfl⟩, hjudgment⟩
    exact ⟨hroom, hjudgment⟩
  · rintro ⟨hroom, hjudgment⟩
    exact ⟨_, ⟨hroom, rfl⟩, hjudgment⟩

/-- A tester whose limits allow for the loop of its search does what the loop does. -/
theorem judge_of_ends
    (h : Search.Ends events.toArray (Search.start t.object events) n outcome left)
    (hcancelled : ∀ steps object, t.limits.cancelled steps object = false)
    (hmax : ∀ m, t.limits.maxSteps = some m → n ≤ m) :
    t.judge events = (outcome, { t with object := left, steps := n }) := by
  have hrun := h.run_eq (k := 0) hcancelled (fun m hm => by simpa using hmax m hm)
  rw [Nat.zero_add] at hrun
  exact judge_eq_of_run hrun

end Loop

variable [LawfulUndo σ]

/-- Whatever stops a tester, it gives a verdict and leaves its object as it was, or it reports an
event that breaks the alternation. -/
theorem judge_ok_or_break (t : Tester σ) (events : List (Event Op Ret)) :
    (∃ verdict, (t.judge events).1 = .ok verdict ∧ (t.judge events).2.object = t.object) ∨
    ∃ v event, events[v]? = some event ∧ FirstBreak (events.map Event.turn) v ∧
      (t.judge events).1 = .error (.ofBreak v event) := by
  rcases Search.run_ending t.limits 0 (Search.OnBranch.start events t.object) with
    hverdict | ⟨fault, hfault, hending⟩
  · exact .inl hverdict
  · refine .inr ?_
    cases hending with
    | broken he hv _ _ => exact ⟨_, _, he, hv, hfault⟩

/-- Whatever stops a tester, it does not fail on a history whose processes alternate. -/
theorem judge_ne_error (t : Tester σ) {events : List (Event Op Ret)}
    (halt : Alternating (events.map Event.turn)) (fault : Search.Fault) :
    (t.judge events).1 ≠ .error fault := by
  intro hfault
  rcases t.judge_ok_or_break events with ⟨verdict, hverdict, -⟩ | ⟨v, event, -, hv, -⟩
  · simp [hverdict] at hfault
  · exact hv.not_alternating halt

theorem judge_ending (t : Tester σ) (events : List (Event Op Ret))
    (hlimits : t.limits.Unlimited) :
    Search.Ending events t.object (t.judge events).1 (t.judge events).2.object := by
  obtain ⟨n, outcome, left, -, hends⟩ :=
    Search.exists_ends events.toArray (Search.start t.object events)
  have hjudge := judge_of_ends hends hlimits.cancelled (by simp [hlimits.maxSteps])
  rw [hjudge]
  exact hends.ending

theorem judge_unlimited (t : Tester σ) (events : List (Event Op Ret)) (hlimits : t.limits.Unlimited)
    (halt : Alternating (events.map Event.turn)) :
    Linearizable t.object events ∧ (t.judge events).1 = .ok .linearizable ∨
      ¬ Linearizable t.object events ∧
        ∃ reach, (t.judge events).1 = .ok (.notLinearizable reach) :=
  (t.judge_ending events hlimits).decides halt

/-- With nothing to stop it, a tester gives the right one of the two conclusive verdicts. -/
theorem judge_decides (t : Tester σ) (events : List (Event Op Ret)) (hlimits : t.limits.Unlimited)
    (halt : Alternating (events.map Event.turn)) :
    ((t.judge events).1 = .ok .linearizable ↔ Linearizable t.object events) ∧
      (¬ Linearizable t.object events →
        ∃ reach, (t.judge events).1 = .ok (.notLinearizable reach)) := by
  rcases t.judge_unlimited events hlimits halt with ⟨hlin, ho⟩ | ⟨hlin, reach, ho⟩
  · exact ⟨iff_of_true ho hlin, fun hno => absurd hlin hno⟩
  · exact ⟨iff_of_false (by simp [ho]) hlin, fun _ => ⟨reach, ho⟩⟩

/-- Both processes enqueue at the same time, so the item of the second may come out first, even
though it invoked later and never returns. -/
theorem judge_concurrent_enqueues :
    (({ object := Queue.ofList [] } : Tester (Queue Nat)).judge
      [.invoke ⟨0⟩ "enqueue(1)" (.enqueue 1) (some .enqueued),
        .invoke ⟨1⟩ "enqueue(2)" (.enqueue 2) (some .enqueued),
        .ret ⟨0⟩ (some .enqueued),
        .invoke ⟨2⟩ "dequeue()" .dequeue (some (.dequeued (some 2))),
        .ret ⟨2⟩ (some (.dequeued (some 2)))]).1 = .ok .linearizable :=
  (judge_decides _ _ Search.Limits.unlimited_default (by decide)).1.2 ⟨[1, 0, 3], by decide⟩

end Tester
end Linearizability
