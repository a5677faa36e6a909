import Linearizability.Proofs.Explanation

/-!
# Calls that never returned

A call that has not returned may still have taken effect, with a result that nobody saw. A
completion of a history lets some of these calls take effect along with all that have returned. A
check does not look for completions: a call without a known result never takes effect in its search.
The main statement says what a failure means then. Every completion of the history owes the result
of some returned call to calls that have not returned.
-/

namespace Linearizability.Adaptation

open Turn

variable {σ Op Ret : Type}

section Definitions

/-- The invocation at this position has returned. -/
def Returned (records : List Record) (a : Nat) : Prop :=
  ∃ r, Returns (records.map Record.turn) a r

theorem returned_iff_lt {records : List Record} {a : Nat} :
    Returned records a ↔ ∃ r < records.length, Returns (records.map Record.turn) a r := by
  refine exists_congr fun r => ⟨fun h => ⟨by simpa using h.lt_length, h⟩, fun h => h.2⟩

instance {records : List Record} : DecidablePred (Returned records) :=
  fun _ => decidable_of_iff' _ returned_iff_lt

variable [ReferenceObject σ Op Ret] (vocabulary : Vocabulary Op Ret) (records : List Record)

/-- The invocations take effect one after another. The object returns what was recorded of each that
has returned, and anything for the others. -/
inductive Completes : σ → List Nat → Prop
  | nil (object : σ) : Completes object []
  | returned {object : σ} {a r : Nat} {op : Op} {value : Value} {order : List Nat}
      (hop : operation? vocabulary records a = some op)
      (hret : Returns (records.map Record.turn) a r) (hvalue : value? records r = some value)
      (hobserve : vocabulary.observe op value = some (ReferenceObject.apply object op).1)
      (h : Completes (ReferenceObject.apply object op).2 order) : Completes object (a :: order)
  | unreturned {object : σ} {a : Nat} {op : Op} {order : List Nat}
      (hop : operation? vocabulary records a = some op) (hno : ¬ Returned records a)
      (h : Completes (ReferenceObject.apply object op).2 order) : Completes object (a :: order)

/-- All returned invocations in the vocabulary and some that have not returned, in an order that
respects real time and gives every returned call its recorded result. -/
structure IsCompletion (object : σ) (order : List Nat) : Prop where
  nodup : order.Nodup
  complete : ∀ a, (operation? vocabulary records a).isSome → Returned records a → a ∈ order
  realTime : order.Pairwise fun a b => ¬ Precedes (records.map Record.turn) b a
  legal : Completes vocabulary records object order

end Definitions

variable [ReferenceObject σ Op Ret] {vocabulary : Vocabulary Op Ret} {records : List Record}
variable {object : σ} {order : List Nat}

namespace Completes

theorem operation?_isSome (h : Completes vocabulary records object order) :
    ∀ a ∈ order, (operation? vocabulary records a).isSome := by
  induction h with
  | nil => simp
  | returned hop _ _ _ _ ih => simpa [hop] using ih
  | unreturned hop _ _ ih => simpa [hop] using ih

/-- Where every call has returned, the order accounts for what was recorded. -/
theorem accounts (h : Completes vocabulary records object order)
    (hreturned : ∀ a ∈ order, Returned records a) : Accounts vocabulary records object order := by
  induction h with
  | nil object => exact .nil object
  | returned hop hret hvalue hobserve _ ih =>
    exact .cons hop hret hvalue hobserve (ih fun a ha => hreturned a (List.mem_cons_of_mem _ ha))
  | unreturned _ hno => exact absurd (hreturned _ List.mem_cons_self) hno

end Completes

theorem Accounts.completes (h : Accounts vocabulary records object order) :
    Completes vocabulary records object order := by
  induction h with
  | nil object => exact .nil object
  | cons hop hret hvalue hobserve _ ih => exact .returned hop hret hvalue hobserve ih

theorem IsAccount.isCompletion (h : IsAccount vocabulary records object order) :
    IsCompletion vocabulary records object order where
  nodup := h.nodup
  complete a hop hret := (h.complete a).2 ⟨hop, hret⟩
  realTime := h.realTime
  legal := h.legal.completes

namespace IsCompletion

/-- Leaving out the calls that have not returned can only spoil results. -/
theorem isAccount_filter (h : IsCompletion vocabulary records object order)
    (hlegal : Completes vocabulary records object (order.filter (Returned records ·))) :
    IsAccount vocabulary records object (order.filter (Returned records ·)) where
  nodup := h.nodup.filter _
  complete a := by
    simp only [List.mem_filter, decide_eq_true_eq]
    exact ⟨fun ⟨ha, hret⟩ => ⟨h.legal.operation?_isSome a ha, hret⟩,
      fun ⟨hop, hret⟩ => ⟨h.complete a hop hret, hret⟩⟩
  realTime := h.realTime.filter _
  legal := hlegal.accounts fun a ha => by simpa using (List.mem_filter.1 ha).2

theorem isAccount (h : IsCompletion vocabulary records object order)
    (hreturned : ∀ a ∈ order, Returned records a) : IsAccount vocabulary records object order := by
  have hfilter : order.filter (Returned records ·) = order :=
    List.filter_eq_self.2 fun a ha => by simpa using hreturned a ha
  have := h.isAccount_filter (by rw [hfilter]; exact h.legal)
  rwa [hfilter] at this

end IsCompletion
end Linearizability.Adaptation

namespace Linearizability.Tester

open Adaptation Turn

variable {σ Op Ret : Type} [ReferenceObject σ Op Ret] [DecidableEq Ret] [LawfulUndo σ]

/-- A check of alternating records fails exactly if every completion lets some call take effect that
has not returned. After a failure each completion needs these calls for the results of the others,
and there is none if all calls in the vocabulary have returned. -/
theorem checkRecords_completions (t : Tester σ) (vocabulary : Vocabulary Op Ret)
    (records : List Record) (hlimits : t.limits.Unlimited)
    (halt : Alternating ((Record.sorted records).map Record.turn)) :
    let ordered := Record.sorted records
    ∃ report, (t.checkRecords vocabulary records).1 = .ok report ∧
      (report.verdict = .linearizable ∨ ∃ reach, report.verdict = .notLinearizable reach) ∧
      ((∃ reach, report.verdict = .notLinearizable reach) ↔
        ∀ order, IsCompletion vocabulary ordered t.object order →
          ∃ a ∈ order, ¬ Returned ordered a) ∧
      ((∃ reach, report.verdict = .notLinearizable reach) →
        (∀ order, IsCompletion vocabulary ordered t.object order →
          ¬ Completes vocabulary ordered t.object (order.filter (Returned ordered ·))) ∧
        ((∀ a, (operation? vocabulary ordered a).isSome → Returned ordered a) →
          ¬ ∃ order, IsCompletion vocabulary ordered t.object order)) := by
  intro ordered
  obtain ⟨report, hreport, -, hverdict⟩ := t.checkRecords_unlimited vocabulary records hlimits halt
  refine ⟨report, hreport, ?_⟩
  rcases hverdict with ⟨⟨order, haccount⟩, hv⟩ | ⟨hno, reach, hv⟩
  · have hfail : ¬ ∃ reach, report.verdict = .notLinearizable reach := by simp [hv]
    refine ⟨.inl hv, iff_of_false hfail fun hall => ?_, fun h => absurd h hfail⟩
    obtain ⟨a, ha, hunreturned⟩ := hall order haccount.isCompletion
    exact hunreturned ((haccount.complete a).1 ha).2
  · have hunreturned : ∀ order, IsCompletion vocabulary ordered t.object order →
        ∃ a ∈ order, ¬ Returned ordered a := by
      intro order h
      by_contra hall
      simp only [not_exists, not_and, not_not] at hall
      exact hno ⟨order, h.isAccount hall⟩
    refine ⟨.inr ⟨reach, hv⟩, iff_of_true ⟨reach, hv⟩ hunreturned, fun _ => ⟨?_, ?_⟩⟩
    · intro order h hlegal
      exact hno ⟨_, h.isAccount_filter hlegal⟩
    · rintro hreturned ⟨order, h⟩
      obtain ⟨a, ha, hno⟩ := hunreturned order h
      exact hno (hreturned a (h.legal.operation?_isSome a ha))

/-- The call that has not returned is outside the vocabulary, so nothing can explain the item. -/
theorem checkRecords_unknown_item :
    let records : List Record := [
      .invoke 0 ⟨⟨0⟩, 0⟩ (.named "size" []), .invoke 1 ⟨⟨1⟩, 0⟩ (.named "offer" [.int 3]),
      .ret 2 ⟨⟨1⟩, 0⟩ (.bool true), .invoke 3 ⟨⟨1⟩, 1⟩ (.named "poll" []),
      .ret 4 ⟨⟨1⟩, 1⟩ (.int 4)]
    ¬ ∃ order, IsCompletion .queue records (Queue.ofList []) order := by
  intro records
  let t : Tester (Queue Value) := { object := Queue.ofList [] }
  have hsorted : Record.sorted records = records := Record.sorted_of_pairwise (by decide)
  have hevents : (ofRecords .queue records).events = [
      .invoke ⟨1⟩ "offer(3)" (.enqueue (.int 3)) (some .enqueued), .ret ⟨1⟩ (some .enqueued),
      .invoke ⟨1⟩ "poll()" .dequeue (some (.dequeued (some (.int 4)))),
      .ret ⟨1⟩ (some (.dequeued (some (.int 4))))] := by
    rw [ofRecords, hsorted]
    rfl
  have hverdict : (t.checkRecords .queue records).1.map Report.verdict =
      .ok (.notLinearizable ⟨3, [⟨none, []⟩, ⟨some 3, [.dequeued (some (.int 3))]⟩]⟩) := by
    rw [checkRecords_verdict, hevents]
    cbv
  have hreturned : ∀ a < 5, (operation? .queue records a).isSome → Returned records a := by decide
  obtain ⟨report, hreport, -, -, hfailed⟩ := checkRecords_completions t .queue records
    Search.Limits.unlimited_default (by rw [hsorted]; decide)
  rw [hreport] at hverdict
  rw [hsorted] at hfailed
  refine (hfailed ⟨_, Except.ok.inj hverdict⟩).2 fun a ha => hreturned a ?_ ha
  obtain ⟨record, hrecord, -⟩ := Record.exists_of_operation? ha
  exact (List.getElem?_eq_some_iff.1 hrecord).1

/-- The offer has not returned, but its item has been polled. The check fails, and still there is a
completion. -/
theorem flagged_unreturned_offer :
    let records : List Record := [
      .invoke 0 ⟨⟨0⟩, 0⟩ (.named "offer" [.int 7]), .invoke 1 ⟨⟨1⟩, 0⟩ (.named "poll" []),
      .ret 2 ⟨⟨1⟩, 0⟩ (.int 7)]
    let t : Tester (Queue Value) := { object := Queue.ofList [] }
    let ordered := Record.sorted records
    Alternating (ordered.map Record.turn) ∧
      (∀ a r op value, operation? .queue ordered a = some op →
        Returns (ordered.map Record.turn) a r → value? ordered r = some value →
          (Vocabulary.queue.observe op value).isSome) ∧
      (∃ report reach, (t.checkRecords .queue records).1 = .ok report ∧
        report.verdict = .notLinearizable reach) ∧
      ∃ order, IsCompletion .queue ordered t.object order := by
  intro records t ordered
  have hsorted : Record.sorted records = records := Record.sorted_of_pairwise (by decide)
  have hevents : (ofRecords .queue records).events = [
      .invoke ⟨0⟩ "offer(7)" (.enqueue (.int 7)) none,
      .invoke ⟨1⟩ "poll()" .dequeue (some (.dequeued (some (.int 7)))),
      .ret ⟨1⟩ (some (.dequeued (some (.int 7))))] := by
    rw [ofRecords, hsorted]
    rfl
  have hverdict : (t.checkRecords .queue records).1.map Report.verdict =
      .ok (.notLinearizable ⟨2, [⟨some 2, [.enqueued]⟩, ⟨some 2, [.dequeued none]⟩]⟩) := by
    rw [checkRecords_verdict, hevents]
    cbv
  have hreturns : ∀ r < 3, ∀ a < r, Returns (records.map Record.turn) a r → a = 1 ∧ r = 2 := by
    decide
  have hpoll : Returns (records.map Record.turn) 1 2 := by decide
  simp only [ordered, hsorted]
  refine ⟨by decide, fun a r op value hop hret hvalue => ?_, ?_, [0, 1], by decide, ?_, by decide,
    .unreturned rfl (by decide) (.returned rfl hpoll rfl rfl (.nil _))⟩
  · obtain ⟨rfl, rfl⟩ := hreturns r hret.lt_length a hret.lt hret
    obtain rfl : op = .dequeue := (Option.some.inj hop).symm
    obtain rfl : value = .int 7 := (Option.some.inj hvalue).symm
    rfl
  · cases hcheck : (t.checkRecords .queue records).1 with
    | error e => simp [hcheck, Except.map] at hverdict
    | ok report =>
      rw [hcheck] at hverdict
      exact ⟨report, _, rfl, Except.ok.inj hverdict⟩
  · rintro a - ⟨r, hret⟩
    obtain ⟨rfl, -⟩ := hreturns r hret.lt_length a hret.lt hret
    exact List.mem_cons_of_mem 0 List.mem_cons_self

end Linearizability.Tester
