import Linearizability.Proofs.Judgment
import Mathlib.Data.List.Induction

/-!
# Histories that break the alternation

A tester notices that a process does not alternate only on a branch that comes to the event. It then
reports the event if the part before it is linearizable, and leaves one of its linearizations in
effect. If that part is not linearizable it gives the verdict as if the history had ended there.
-/

namespace Linearizability

open Turn

variable {σ Op Ret : Type} [ReferenceObject σ Op Ret] [DecidableEq Ret]

section Undoing

/-- Undoing as many operations as took effect gives back the object from before. -/
theorem undoTimes_of_replay? [LawfulUndo σ] {events : List (Event Op Ret)} {object left : σ}
    {order : List Nat} (h : replay? events object order = some left) :
    undoTimes order.length left = (.ok (), object) := by
  induction order using List.reverseRecOn generalizing left with
  | nil =>
    obtain rfl : object = left := by simpa [replay?] using h
    rfl
  | append_singleton order q ih =>
    rw [replay?_append, Option.bind_eq_some_iff] at h
    obtain ⟨middle, hmiddle, hq⟩ := h
    have heffect : takeEffect? events middle q = some left := by simpa [replay?] using hq
    rw [List.length_append, List.length_singleton, undoTimes,
      Search.Branch.undo_of_takeEffect? heffect]
    exact ih hmiddle

end Undoing

namespace Tester

variable [LawfulUndo σ]

/-- Without limits, a history whose processes alternate is judged without an error. In any other one
the first event that breaks the alternation is reported if what comes before it is linearizable; the
object then has a linearization of it in effect, and can be undone. Otherwise the history is found
not to be linearizable, and no branch came as far as that event. -/
theorem judge_misstep (t : Tester σ) (events : List (Event Op Ret))
    (hlimits : t.limits.Unlimited) :
    (Alternating (events.map Event.turn) → ∀ fault, (t.judge events).1 ≠ .error fault) ∧
      (¬ Alternating (events.map Event.turn) → ∃ v event,
        FirstBreak (events.map Event.turn) v ∧ events[v]? = some event ∧
        (Linearizable t.object (events.take v) →
          (t.judge events).1 = .error (if event.isInvoke
            then .overlappingInvocation v event.process
            else .unmatchedReturn v event.process) ∧
          ∃ order, IsLinearization t.object (events.take v) order ∧
            replay? (events.take v) t.object order = some (t.judge events).2.object ∧
            undoTimes order.length (t.judge events).2.object = (.ok (), t.object)) ∧
        (¬ Linearizable t.object (events.take v) →
          ∃ reach, (t.judge events).1 = .ok (.notLinearizable reach) ∧ reach.furthest < v)) := by
  have hending := t.judge_ending events hlimits
  refine ⟨fun halt => hending.ne_error halt, ?_⟩
  intro hno
  obtain ⟨v, hv⟩ := exists_firstBreak hno
  have hlt : v < events.length := by simpa using hv.lt_length
  have he := List.getElem?_eq_getElem hlt
  refine ⟨v, events[v], hv, he, ?_, hending.furthest_lt_of_firstBreak hv⟩
  intro hlin
  obtain ⟨ho, order, horder, hreplay⟩ := hending.eq_error_of_firstBreak hv he hlin
  refine ⟨ho, order, horder, ?_, undoTimes_of_replay? hreplay⟩
  rw [replay?_take fun q hq => horder.lt_of_take hq]
  exact hreplay

/-- The second process dequeues what the first one is enqueuing, and then invokes twice in a row.
The two operations that explain what it dequeued stay in effect, and two undos take them back. -/
theorem judge_invoking_twice :
    let history : List (Event (Queue.Op Nat) (Queue.Ret Nat)) :=
      [.invoke ⟨0⟩ "enqueue(1)" (.enqueue 1) (some .enqueued),
        .invoke ⟨1⟩ "dequeue()" .dequeue (some (.dequeued (some 1))),
        .ret ⟨1⟩ (some (.dequeued (some 1))),
        .invoke ⟨1⟩ "enqueue(2)" (.enqueue 2) none,
        .invoke ⟨1⟩ "enqueue(3)" (.enqueue 3) none]
    let t : Tester (Queue Nat) := { object := Queue.ofList [] }
    (t.judge history).1 = .error (.overlappingInvocation 4 ⟨1⟩) ∧
      ∃ order, IsLinearization t.object (history.take 4) order ∧
        undoTimes order.length (t.judge history).2.object = (.ok (), t.object) := by
  intro history t
  have hbreak : FirstBreak (history.map Event.turn) 4 := ⟨by decide, by decide⟩
  obtain ⟨v, event, hv, he, hlin, -⟩ :=
    (judge_misstep t history Search.Limits.unlimited_default).2 hbreak.not_alternating
  obtain rfl := hv.unique hbreak
  obtain rfl := Option.some.inj he
  obtain ⟨ho, order, horder, -, hundo⟩ := hlin ⟨[0, 1], by decide⟩
  exact ⟨ho, order, horder, hundo⟩

end Tester
end Linearizability
