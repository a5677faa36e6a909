import Linearizability.Proofs.Explanation
import Linearizability.Proofs.SharedObject.Effects
import Mathlib.Data.List.Permutation

/-!
# Correct objects are not flagged

However the steps of the processes interleave, the records of calls on a shared object are judged to
be linearizable: the hidden order of the effects accounts for them.
-/

namespace Linearizability.SharedObject

open Turn

variable {σ Op Ret : Type} [ReferenceObject σ Op Ret] [DecidableEq Ret]

/-- The records of any run on a fit object pass the check against an object that starts the same. -/
def NeverFlagged (c : Convention σ Op Ret) : Prop :=
  ∀ object, c.Fit (2 ^ 32) object → ∀ kind processes s, Reachable c object kind processes s →
    s.Settled → ∀ t : Tester σ, t.object = object → t.limits.Unlimited →
      ∃ report, (t.checkRecords c.vocabulary s.recorder.records).1 = .ok report ∧
        report.verdict = .linearizable ∧ report.malformed = []

theorem neverFlagged [LawfulUndo σ] (c : Convention σ Op Ret) : NeverFlagged c := by
  rintro object hfit kind processes s hs hsettled t rfl hlimits
  obtain ⟨log, order, h⟩ := hs.exists_invariant hfit
  have hlength : log.length ≤ 2 ^ 64 := by
    have hle := h.alternating.length_le
    have hlt := h.calls_lt
    rw [h.calls, List.length_map] at hle
    omega
  have hsorted : Record.sorted log = log := by
    rw [← h.logs.records_eq hlength, Recorder.records_eq]
    exact Record.sorted_of_pairwise (Record.pairwise_sorted _)
  obtain ⟨report, hreport, hmalformed, hverdict⟩ :=
    t.checkRecords_unlimited c.vocabulary log hlimits (by rw [hsorted]; exact h.alternating)
  rw [hsorted] at hverdict
  rw [h.logs.records_eq hlength]
  rcases hverdict with ⟨-, hv⟩ | ⟨hno, -⟩
  · exact ⟨report, hreport, hv, hmalformed⟩
  · exact absurd ⟨_, h.isAccount hsettled⟩ hno

/-- Queues, stacks and registers that are correct are never flagged. -/
theorem correct_objects_never_flagged : NeverFlagged Convention.queue ∧
    NeverFlagged Convention.stack ∧ NeverFlagged Convention.register :=
  ⟨neverFlagged _, neverFlagged _, neverFlagged _⟩

/-- The poll is called first and takes the item of the offer, which returns last. -/
theorem never_flagged_overlapping_offer : ∃ s,
    Reachable Convention.queue (Queue.ofList []) .perProcess 2 s ∧ s.Settled ∧
      s.recorder.records.length = 4 ∧ ∃ report,
        (({ object := Queue.ofList [] } : Tester (Queue Value)).checkRecords .queue
          s.recorder.records).1 = .ok report ∧
        report.verdict = .linearizable ∧ report.malformed = [] := by
  have hitem : Convention.IsItem (.int 7) := ⟨by simp, rfl⟩
  have hfit : Convention.queue.Fit (2 ^ 32) (Queue.ofList []) := fun _ hmem => nomatch hmem
  obtain ⟨s, hs, hsettled, hlength⟩ : ∃ s,
      Reachable Convention.queue (Queue.ofList []) .perProcess 2 s ∧ s.Settled ∧
        s.recorder.records.length = 4 := by
    have hstart : Reachable Convention.queue (Queue.ofList []) .perProcess 2 _ := .start
    have hpoll := hstart.step (.invoke ⟨1⟩ (.named "poll" []) rfl (by simp [Call.named])
      (by decide) rfl)
    have hoffer := hpoll.step (.invoke ⟨0⟩ (.named "offer" [.int 7]) rfl
      (List.forall_mem_singleton.2 hitem) (by decide) rfl)
    have henqueue := hoffer.step (.effect ⟨0⟩ rfl rfl)
    have hdequeue := henqueue.step (.effect ⟨1⟩ rfl rfl)
    have hpolled := hdequeue.step (.ret ⟨1⟩ (.int 7) rfl rfl rfl)
    have hoffered := hpolled.step (.ret ⟨0⟩ (.bool true) rfl (.inl rfl) rfl)
    refine ⟨_, hoffered, fun p ret => ?_, by cbv⟩
    simp only [State.enter]
    split
    · simp
    · split <;> simp
  exact ⟨s, hs, hsettled, hlength,
    correct_objects_never_flagged.1 _ hfit .perProcess 2 s hs hsettled _ rfl
      Search.Limits.unlimited_default⟩

/-- An item that is null in the first place can be polled, but then the queue seems to be empty. -/
theorem flagged_null_item : ∃ s, Reachable Convention.queue (Queue.ofList [.null]) .shared 1 s ∧
    s.Settled ∧ ∃ report reach,
      (({ object := Queue.ofList [.null] } : Tester (Queue Value)).checkRecords .queue
        s.recorder.records).1 = .ok report ∧
      report.verdict = .notLinearizable reach := by
  let t : Tester (Queue Value) := { object := Queue.ofList [.null] }
  let r : Recorder := .shared {
    nextSeq := 2
    accounts := [{ nextIndex := 1 }]
    log := #[.invoke 0 ⟨⟨0⟩, 0⟩ (.named "poll" []), .ret 1 ⟨⟨0⟩, 0⟩ .null] }
  have hverdict : (t.checkRecords .queue r.records).1.map Report.verdict =
      .ok (.notLinearizable ⟨1, [⟨some 1, [.dequeued (some .null)]⟩]⟩) := by cbv
  have hstart : Reachable Convention.queue t.object .shared 1 _ := .start
  have hpoll := hstart.step (.invoke ⟨0⟩ (.named "poll" []) rfl (by simp [Call.named])
    (by decide) rfl)
  have hdequeue := hpoll.step (.effect ⟨0⟩ rfl rfl)
  have hpolled := hdequeue.step (.ret ⟨0⟩ .null rfl rfl rfl)
  refine ⟨_, hpolled, fun p ret => ?_, ?_⟩
  · simp only [State.enter]
    split <;> simp
  · change ∃ report reach, (t.checkRecords .queue r.records).1 = .ok report ∧
      report.verdict = .notLinearizable reach
    cases hcheck : (t.checkRecords .queue r.records).1 with
    | error e => simp [hcheck, Except.map] at hverdict
    | ok report =>
      rw [hcheck] at hverdict
      exact ⟨report, _, rfl, Except.ok.inj hverdict⟩

end Linearizability.SharedObject
