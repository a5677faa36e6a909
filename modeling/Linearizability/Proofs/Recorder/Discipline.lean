import Linearizability.Proofs.Adaptation.Conservation
import Linearizability.Proofs.Judgment
import Linearizability.Proofs.Recorder.Agreement
import Linearizability.Proofs.Selection

/-!
# Processes that return before they invoke again

If each process returns from its call before it makes the next one, then each of its steps is
recorded and its records alternate as well, wherever it is cut off. So no return is malformed, the
events alternate and belong to the calls of their records, and a tester does not fail on them.
-/

namespace Linearizability

open Turn

variable {Op Ret : Type}

namespace Recorder

def Action.turn : Action → Turn
  | .invoke p _ => ⟨p, true⟩
  | .ret p _ => ⟨p, false⟩

variable {processes : Nat} {log : List Record} {actions : List Action} {action : Action}
variable {p : ProcessId}

section Steps

theorem isSome_openCall? (log : List Record) (p : ProcessId) :
    (openCall? log p).isSome = (outstanding (log.map Record.turn) p log.length).isSome := by
  rw [openCall?]
  cases ho : outstanding (log.map Record.turn) p log.length with
  | none => rfl
  | some a =>
    have hlt : a < log.length := lt_of_outstanding ho
    simp [hlt]

theorem record?_eq_none (h : ¬ action.turn.process.toNat < processes) (log : List Record) :
    action.record? processes log = none := by
  cases action with
  | invoke p call => exact if_neg h
  | ret p value => exact if_neg h

/-- A process that keeps to the alternation has its step recorded. -/
theorem exists_record? (h : Named log) (hp : action.turn.process.toNat < processes)
    (hturn : action.turn.invokes =
      (outstanding (log.map Record.turn) action.turn.process log.length).isNone) :
    ∃ record, action.record? processes log = some record ∧ record.turn = action.turn := by
  cases action with
  | invoke p call => exact ⟨_, if_pos hp, rfl⟩
  | ret p value =>
    have hopen : (openCall? log p).isSome := by
      rw [isSome_openCall?, ← Option.not_isNone]
      exact congrArg not hturn.symm
    obtain ⟨id, hid⟩ := Option.isSome_iff_exists.1 hopen
    refine ⟨.ret (.ofNat log.length) id value, ?_, ?_⟩
    · simp only [Action.record?, hid, Option.map_some]
      exact if_pos hp
    · simp [Action.turn, h.process_of_openCall? hid]

/-- The steps that are recorded are those of the processes that the recorder was built for. -/
theorem turns_logOf (processes : Nat) (halt : Alternating (actions.map Action.turn)) :
    (logOf processes actions).map Record.turn =
      (actions.map Action.turn).filter fun turn => turn.process.toNat < processes := by
  induction actions using List.reverseRecOn with
  | nil => rfl
  | append_singleton actions action ih =>
    rw [List.map_append, List.map_singleton, alternating_concat_iff] at halt
    obtain ⟨hbefore, hturn⟩ := halt
    have ih := ih hbefore
    rw [logOf_concat, List.map_append, List.map_append, List.filter_append, ih, List.map_singleton]
    by_cases hp : action.turn.process.toNat < processes
    · have hlog : action.turn.invokes = (outstanding ((logOf processes actions).map Record.turn)
          action.turn.process (logOf processes actions).length).isNone := by
        rw [hturn, ← Option.not_isSome, ← Option.not_isSome,
          ← isSome_outstanding_filter _ (fun p => p.toNat < processes) (by simpa using hp), ← ih,
          List.length_map]
      obtain ⟨record, hrecord, hsame⟩ := exists_record? (named_logOf processes actions) hp hlog
      simp [hrecord, hsame, hp]
    · simp [record?_eq_none hp, hp]

theorem alternating_logOf (processes : Nat) (halt : Alternating (actions.map Action.turn)) :
    Alternating ((logOf processes actions).map Record.turn) := by
  rw [turns_logOf processes halt]
  exact halt.filter fun p => p.toNat < processes

theorem length_logOf (processes : Nat) (halt : Alternating (actions.map Action.turn)) :
    (logOf processes actions).length ≤ actions.length := by
  rw [← List.length_map Record.turn, turns_logOf processes halt, ← List.length_map Action.turn]
  exact List.length_filter_le _ _

end Steps
end Recorder

namespace Adaptation

section Definitions

variable (vocabulary : Vocabulary Op Ret) (records : List Record)

/-- The number of calls in the vocabulary that nothing is recorded to have returned from. -/
def unreturned : Nat :=
  Nat.count (fun a => (operation? vocabulary records a).isSome ∧
    ∀ r < records.length, ¬ Returns (records.map Record.turn) a r) records.length

/-- The events are those of a history, and they belong to the calls of their records: those at
`sources`, in this order. -/
structure Wellformed (adapted : Adaptation Op Ret) (sources : List Nat) : Prop where
  malformed : adapted.malformed = []
  alternating : Alternating (adapted.events.map Event.turn)
  made : List.Forall₂ (fun event i => ∃ record, records[i]? = some record ∧
    event.StandsFor vocabulary record) adapted.events sources
  paired : ∀ j p result, adapted.events[j]? = some (.ret p result) →
    ∃ i label op a r, Returns (adapted.events.map Event.turn) i j ∧
      adapted.events[i]? = some (.invoke p label op result) ∧
      sources[i]? = some a ∧ sources[j]? = some r ∧
      Returns (records.map Record.turn) a r ∧
      records[r]?.map Record.call = records[a]?.map Record.call
  length : adapted.events.length + unreturned vocabulary records + 2 * adapted.ignored =
    2 * records.countP Record.isInvocation

end Definitions

variable {vocabulary : Vocabulary Op Ret} {records : List Record} {a : Progress Op Ret}

/-- An invocation is in the vocabulary or it is skipped. -/
theorem count_operation? (vocabulary : Vocabulary Op Ret) (records : List Record) (n : Nat) :
    Nat.count (fun a => (operation? vocabulary records a).isSome) n +
        (List.range n).countP (skips vocabulary records) =
      ((records.map Record.turn).take n).countP Turn.invokes := by
  induction n with
  | zero => simp
  | succ n ih =>
    rw [Nat.count_succ, List.range_succ, List.countP_append, List.take_add_one, List.countP_append,
      ← ih, List.getElem?_map]
    cases hn : records[n]? with
    | none => simp [operation?, skips, hn]
    | some record =>
      obtain ⟨seq, process, id, kind⟩ := record
      cases kind with
      | invoke call =>
        cases htranslate : vocabulary.translate call <;>
          simp [operation?, Record.operation?, skips, hn, htranslate, Record.turn,
            Record.isInvocation] <;> omega
      | ret value =>
        simp [operation?, Record.operation?, skips, hn, Record.turn, Record.isInvocation]

namespace Tracks

variable (h : Tracks vocabulary records a records.length)
variable (halt : Alternating (records.map Record.turn))

include h halt

theorem paired (hnamed : Recorder.Named records) {j : Nat} {p : ProcessId} {result : Option Ret}
    (hj : a.events.toList[j]? = some (.ret p result)) :
    ∃ i label op b r, Returns (a.events.toList.map Event.turn) i j ∧
      a.events.toList[i]? = some (.invoke p label op result) ∧
      (sources vocabulary records)[i]? = some b ∧ (sources vocabulary records)[j]? = some r ∧
      Returns (records.map Record.turn) b r ∧
      records[r]?.map Record.call = records[b]?.map Record.call := by
  have hturn := turn_returns_iff.2 ⟨result, hj⟩
  obtain ⟨r, b, hanswered, rfl, hr, -⟩ := h.exists_answered ⟨hturn, rfl⟩
  obtain ⟨label, op, value, -, hinvoke, hret⟩ := h.events_of_answered? hanswered hr
  obtain rfl : vocabulary.observe op value = result := by
    rw [hj] at hret
    simpa using hret.symm
  obtain ⟨hreturns, hop⟩ := (answered?_iff_returns halt).1 hanswered
  have hb : Kept vocabulary records b := .inl hop
  have hkept : Kept vocabulary records r := kept_of_answered? hanswered
  have hrlt := lt_length_of_turn hr
  obtain ⟨b', hreturns', hcall⟩ := hnamed.returned r p hr
  obtain rfl := hreturns'.unique_invocation hreturns
  exact ⟨_, label, op, b', r, ((h.selection halt).returns_count halt hb hkept).2 hreturns, hinvoke,
    getElem?_sources (Nat.lt_trans hreturns.lt hrlt) hb, getElem?_sources hrlt hkept, hreturns,
    hcall⟩

theorem length_add_unreturned : a.events.toList.length + unreturned vocabulary records +
    2 * a.ignored = 2 * records.countP Record.isInvocation := by
  have hcalled : ∀ b, (operation? vocabulary records b).isSome ↔
      Kept vocabulary records b ∧ (records.map Record.turn)[b]?.any Turn.invokes := by
    intro b
    constructor
    · intro hop
      obtain ⟨p, hturn⟩ := turn_of_operation? hop
      exact ⟨.inl hop, by simp [hturn]⟩
    · rintro ⟨hkept, hinvokes⟩
      obtain ⟨⟨p, invokes⟩, hturn, hinvokes⟩ := (Option.any_eq_true _ _).1 hinvokes
      obtain rfl : invokes = true := hinvokes
      exact (kept_iff_of_invokes hturn).1 hkept
  have hcount : Nat.count (Kept vocabulary records) records.length +
      unreturned vocabulary records =
        2 * Nat.count (fun b => (operation? vocabulary records b).isSome) records.length := by
    simpa only [unreturned, List.length_map] using
      halt.count_add_unreturned (fun _ _ => kept_iff_kept halt) hcalled
  have hcalls := count_operation? vocabulary records records.length
  rw [← h.ignored, List.take_of_length_le (by simp), List.countP_map] at hcalls
  have hinvocations : records.countP (Turn.invokes ∘ Record.turn) =
    records.countP Record.isInvocation := rfl
  have hsize : a.events.toList.length = Nat.count (Kept vocabulary records) records.length := h.size
  omega

theorem wellformed (hnamed : Recorder.Named records) : Wellformed vocabulary records
    ⟨a.events.toList, a.ignored, a.malformed.toList⟩ (sources vocabulary records) where
  malformed := h.malformed_eq_nil halt
  alternating := (h.selection halt).alternating halt
  made := h.made
  paired _ _ _ := h.paired halt hnamed
  length := h.length_add_unreturned halt

end Tracks
end Adaptation

namespace Recorder

/-- The recorder holds the steps that are recorded, in their order. -/
theorem records_run (kind : RecorderKind) (processes : Nat)
    (halt : Alternating (actions.map Action.turn)) (hlength : actions.length ≤ 2 ^ 64) :
    ((new kind processes).run actions).records = logOf processes actions :=
  (keeps_run kind processes actions).logs.records_eq
    (Nat.le_trans (length_logOf processes halt) hlength)

theorem wellformed_run (kind : RecorderKind) (processes : Nat)
    (halt : Alternating (actions.map Action.turn)) (hlength : actions.length ≤ 2 ^ 64)
    (vocabulary : Vocabulary Op Ret) :
    let records := ((new kind processes).run actions).records
    Adaptation.Wellformed vocabulary records (Adaptation.ofRecords vocabulary records)
      (Adaptation.sources vocabulary records) := by
  intro records
  have hrecords : records = logOf processes actions := records_run kind processes halt hlength
  have hsorted : Record.sorted records = records := by
    rw [show records = Record.sorted _ from Recorder.records_eq _]
    exact Record.sorted_of_pairwise (Record.pairwise_sorted _)
  have hturns : Alternating (records.map Record.turn) := by
    rw [hrecords]
    exact alternating_logOf processes halt
  have hnamed : Named records := by
    rw [hrecords]
    exact named_logOf processes actions
  have htracks := Adaptation.tracks_sorted vocabulary records
  rw [hsorted] at htracks
  simpa only [Adaptation.ofRecords, hsorted] using htracks.wellformed hturns hnamed

/-- Whatever the interleaving of processes that alternate, and wherever they are cut off, all that
they do is recorded, and the records are adapted to a history on which no tester fails. -/
theorem alternating_runs_adapt (kind : RecorderKind) (processes : Nat) (actions : List Action)
    (halt : Alternating (actions.map Action.turn)) (hlength : actions.length ≤ 2 ^ 64)
    (vocabulary : Vocabulary Op Ret) :
    let records := ((new kind processes).run actions).records
    let adapted := Adaptation.ofRecords vocabulary records
    records.map Record.turn =
        (actions.map Action.turn).filter (fun turn => turn.process.toNat < processes) ∧
      (∃ sources, Adaptation.Wellformed vocabulary records adapted sources) ∧
      ∀ {σ : Type} [ReferenceObject σ Op Ret] [LawfulUndo σ] [DecidableEq Ret] (t : Tester σ)
        (fault : Search.Fault), (t.judge adapted.events).1 ≠ .error fault := by
  intro records adapted
  have hwellformed := wellformed_run kind processes halt hlength vocabulary
  refine ⟨?_, ⟨_, hwellformed⟩, fun t fault => t.judge_ne_error hwellformed.alternating fault⟩
  rw [show records = logOf processes actions from records_run kind processes halt hlength]
  exact turns_logOf processes halt

/-- Process 1 is cut off in a call outside the vocabulary, process 0 in one inside. -/
theorem alternating_runs_adapt_cut_off :
    let offer : Call := .named "offer" [.int 1]
    let poll : Call := .named "poll" []
    let size : Call := .named "size" []
    let actions : List Action := [.invoke ⟨0⟩ offer, .invoke ⟨1⟩ size, .ret ⟨0⟩ (.bool true),
      .ret ⟨1⟩ (.int 1), .invoke ⟨0⟩ poll, .invoke ⟨1⟩ size]
    let records := ((new .perProcess 2).run actions).records
    let adapted := Adaptation.ofRecords .queue records
    Alternating (actions.map Action.turn) ∧ adapted.malformed = [] ∧ adapted.ignored = 2 ∧
      Adaptation.unreturned .queue records = 1 ∧ adapted.events.length = 3 := by
  intro offer poll size actions records adapted
  have halt : Alternating (actions.map Action.turn) := by decide
  obtain ⟨-, ⟨sources, h⟩, -⟩ :=
    alternating_runs_adapt .perProcess 2 actions halt (by decide) .queue
  obtain ⟨hignored, hunreturned, hinvocations⟩ : adapted.ignored = 2 ∧
      Adaptation.unreturned .queue records = 1 ∧ records.countP Record.isInvocation = 4 := by
    have hrecords : records = logOf 2 actions := records_run .perProcess 2 halt (by decide)
    have hsorted : Record.sorted records = records := by
      rw [hrecords]
      exact Record.sorted_of_pairwise (by decide)
    simp only [adapted, Adaptation.ofRecords, hsorted]
    rw [hrecords]
    decide
  have hlength : adapted.events.length + Adaptation.unreturned .queue records +
      2 * adapted.ignored = 2 * records.countP Record.isInvocation := h.length
  exact ⟨halt, h.malformed, hignored, hunreturned, by omega⟩

end Recorder
end Linearizability
