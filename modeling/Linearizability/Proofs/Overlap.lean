import Linearizability.Checker
import Linearizability.Proofs.Adaptation.Conservation
import Linearizability.Proofs.Counting
import Linearizability.Proofs.Judgment

/-!
# Checking arbitrary records

Whatever the records, the adaptation lets no return through that nothing calls for, so the search
meets none. The only fault it can meet is a process that invokes in the vocabulary while an
invocation of its own waits. Everything else is reported, and the counts of the report add up. All
this supposes that the machine lays out tables in which every process has an entry.
-/

namespace Linearizability

open Turn Adaptation

variable {σ Op Ret : Type}

namespace Adaptation

section Definitions

variable (vocabulary : Vocabulary Op Ret) (records : List Record)

/-- In the order of the records, the process invokes at `b` while the invocation at `a` has not been
paired with a return. Both are in the vocabulary. -/
structure Overlapping (p : ProcessId) (a b : Nat) : Prop where
  lt : a < b
  earlier : (records.map Record.turn)[a]? = some ⟨p, true⟩
  later : (records.map Record.turn)[b]? = some ⟨p, true⟩
  inside : (operation? vocabulary records a).isSome ∧ (operation? vocabulary records b).isSome
  unanswered : ∀ r < b, answered? vocabulary records r ≠ some a

end Definitions

variable {vocabulary : Vocabulary Op Ret} {records : List Record} {a : Progress Op Ret}
variable {p : ProcessId} {b n v : Nat}

theorem overlapping_of_mem_waiting {i : Nat} (h : i ∈ (line vocabulary records p b).waiting)
    (hturn : (records.map Record.turn)[b]? = some ⟨p, true⟩)
    (hop : (operation? vocabulary records b).isSome) : Overlapping vocabulary records p i b := by
  obtain ⟨hlt, record, hi, rfl, hiop⟩ := exists_of_mem_waiting h
  obtain ⟨q, hq⟩ := turn_of_operation? hiop
  obtain rfl : record.process = q := by
    simpa [hi, Record.turn] using congrArg (Option.map Turn.process) hq
  exact {
    lt := hlt
    earlier := hq
    later := hturn
    inside := ⟨hiop, hop⟩
    unanswered := fun r hr hanswered => not_mem_waiting_of_answered? hanswered hr h }

/-- An event is made of an invocation in the vocabulary, or of a return that answers one. -/
theorem exists_operation?_of_kept {i : Nat} {turn : Turn} (hkept : Kept vocabulary records i)
    (hturn : (records.map Record.turn)[i]? = some turn) :
    ∃ record ∈ records, record.process = turn.process ∧ (record.operation? vocabulary).isSome := by
  obtain ⟨p, invokes⟩ := turn
  obtain ⟨b, hb, hop⟩ : ∃ b, (records.map Record.turn)[b]? = some ⟨p, true⟩ ∧
      (operation? vocabulary records b).isSome := by
    cases invokes with
    | true => exact ⟨i, hturn, (kept_iff_of_invokes hturn).1 hkept⟩
    | false =>
      obtain ⟨b, hanswered⟩ := (kept_iff_of_returns hturn).1 hkept
      obtain ⟨-, q, hq, hb⟩ := turns_of_answered? hanswered
      obtain rfl : q = p := by simpa using hq.symm.trans hturn
      exact ⟨b, hb, operation?_of_answered? hanswered⟩
  obtain ⟨seq, id, call, hrecord⟩ := call_of_turn hb
  exact ⟨_, List.mem_of_getElem? hrecord, rfl, by simpa [operation?, hrecord] using hop⟩

namespace Tracks

variable (h : Tracks vocabulary records a records.length)

include h

/-- The processes that have events are those that make invocations in the vocabulary. -/
theorem forall_process_iff {P : ProcessId → Prop} :
    (∀ event ∈ a.events.toList, P event.process) ↔
      ∀ record ∈ records, (record.operation? vocabulary).isSome → P record.process := by
  constructor
  · intro hevents record hmem hop
    obtain ⟨i, hi⟩ := List.mem_iff_getElem?.1 hmem
    have hlt : i < records.length := (List.getElem?_eq_some_iff.1 hi).1
    have hkept : Kept vocabulary records i := .inl (by simpa [operation?, hi] using hop)
    have hturn := h.turn_position hlt hkept
    rw [List.getElem?_map, List.getElem?_map, hi, Option.map_some, Option.map_eq_some_iff] at hturn
    obtain ⟨event, hevent, hturn⟩ := hturn
    rw [← show event.process = record.process from congrArg Turn.process hturn]
    exact hevents event (List.mem_of_getElem? hevent)
  · intro hrecords event hmem
    obtain ⟨j, hj⟩ := List.mem_iff_getElem?.1 hmem
    obtain ⟨i, hi, hkept, rfl⟩ := h.exists_position (List.getElem?_eq_some_iff.1 hj).1
    have hturn := h.turn_position hi hkept
    rw [List.getElem?_map, hj, Option.map_some] at hturn
    obtain ⟨record, hrecord, hprocess, hop⟩ := exists_operation?_of_kept hkept hturn.symm
    rw [← show record.process = event.process from hprocess]
    exact hrecords record hrecord hop

/-- As long as the events alternate, a process waits for its outstanding invocation only. -/
theorem length_waiting (hn : n ≤ records.length)
    (halt : Alternating ((a.events.toList.map Event.turn).take (position vocabulary records n)))
    (p : ProcessId) : (line vocabulary records p n).waiting.length =
      (outstanding (a.events.toList.map Event.turn) p (position vocabulary records n)).toList.length
    := by
  have hcount := halt.count_invokes p
  rw [h.count_take_position _ hn, h.count_take_position _ hn] at hcount
  have hfifo := congrArg List.length (map_keptBefore vocabulary records p n)
  simp only [List.length_append, List.length_map] at hfifo
  omega

/-- The first event that breaks the alternation invokes while an earlier invocation waits. -/
theorem overlapping_of_firstBreak (hv : FirstBreak (a.events.toList.map Event.turn) v) :
    ∃ p i b, Overlapping vocabulary records p i b ∧ position vocabulary records b = v ∧
      (a.events.toList.map Event.turn)[v]? = some ⟨p, true⟩ := by
  obtain ⟨b, hb, hkept, rfl⟩ := h.exists_position (by simpa using hv.lt_length)
  obtain ⟨⟨p, invokes⟩, hturn⟩ : ∃ turn, (records.map Record.turn)[b]? = some turn :=
    ⟨_, List.getElem?_eq_getElem (by simpa using hb)⟩
  have hevent := (h.turn_position hb hkept).trans hturn
  have hbreaks := ((firstBreak_iff hevent).1 hv).2
  have hlength := h.length_waiting (Nat.le_of_lt hb) hv.before p
  cases ho : outstanding (a.events.toList.map Event.turn) p (position vocabulary records b) with
  | none =>
    -- A return is let through only if it answers an invocation.
    obtain rfl : invokes = false := by simpa [ho] using hbreaks
    obtain ⟨i, hanswered⟩ := (kept_iff_of_returns hturn).1 hkept
    simp [waiting_of_returns hturn, hanswered, ho] at hlength
  | some j =>
    obtain rfl : invokes = true := by simpa [ho] using hbreaks
    obtain ⟨i, rest, hwaiting⟩ : ∃ i rest, (line vocabulary records p b).waiting = i :: rest :=
      List.exists_cons_of_length_pos (by simp [hlength, ho])
    have hop := (kept_iff_of_invokes hturn).1 hkept
    exact ⟨p, i, b, overlapping_of_mem_waiting (by simp [hwaiting]) hturn hop, rfl, hevent⟩

end Tracks
end Adaptation

/-- The counts of a report on these records. -/
structure Report.AddsUp (report : Report Op Ret) (records : List Record) : Prop where
  operations : report.counts.operations = .ofNat (records.countP Record.isInvocation)
  ignored : report.counts.operations =
    report.counts.ignored + .ofNat (report.events.countP Event.isInvoke)
  events : report.counts.events = .ofNat report.events.length
  malformed : report.counts.malformed = .ofNat report.malformed.length

namespace Tester

theorem addsUp_report (t : Tester σ) (vocabulary : Vocabulary Op Ret) (records : List Record)
    (verdict : Verdict Ret) :
    (t.report (Adaptation.ofRecords vocabulary records) records verdict).AddsUp records where
  operations := rfl
  ignored := by
    rw [report, ← countP_isInvoke_ofRecords vocabulary records, Nat.add_comm]
    exact UInt64.ofNat_add _ _
  events := rfl
  malformed := rfl

variable [ReferenceObject σ Op Ret] [DecidableEq Ret]

/-- A machine with room for the tables makes no difference to the check. -/
theorem checkRecords?_eq_some_iff {t : Tester σ} {machine : Machine}
    {vocabulary : Vocabulary Op Ret} {records : List Record}
    {check : Except Search.Fault (Report Op Ret) × Tester σ}
    (h : machine.overflow = .wrapping → ∀ record ∈ records,
      (record.operation? vocabulary).isSome → record.process ≠ .last) :
    t.checkRecords? machine vocabulary records = some check ↔
      (∀ record ∈ records, (record.operation? vocabulary).isSome →
        record.process.index < machine.room) ∧ t.checkRecords vocabulary records = check := by
  have hprocesses (P : ProcessId → Prop) :
      (∀ event ∈ (Adaptation.ofRecords vocabulary records).events, P event.process) ↔
        ∀ record ∈ records, (record.operation? vocabulary).isSome → P record.process := by
    have hiff := (tracks_sorted vocabulary records).forall_process_iff (P := P)
    simp only [(Record.sorted_perm records).mem_iff] at hiff
    exact hiff
  have hevents : machine.overflow = .wrapping →
      ∀ event ∈ (Adaptation.ofRecords vocabulary records).events, event.process ≠ .last :=
    fun hwrapping => (hprocesses (· ≠ .last)).2 (h hwrapping)
  rw [← hprocesses (·.index < machine.room), checkRecords?, Option.map_eq_some_iff]
  simp only [judge?_eq_some_iff hevents]
  constructor
  · rintro ⟨judgment, ⟨hroom, rfl⟩, hcheck⟩
    exact ⟨hroom, hcheck⟩
  · rintro ⟨hroom, hcheck⟩
    exact ⟨_, ⟨hroom, rfl⟩, hcheck⟩

variable [LawfulUndo σ]

/-- A check gives a report and leaves the object as it was, or it stops at an invocation that
overlaps with an earlier one. -/
theorem checkRecords_ok_or_overlapping (t : Tester σ) (vocabulary : Vocabulary Op Ret)
    (records : List Record) :
    (∃ report, (t.checkRecords vocabulary records).1 = .ok report ∧ report.AddsUp records ∧
      (t.checkRecords vocabulary records).2.object = t.object) ∨
    ∃ p a b, Overlapping vocabulary (Record.sorted records) p a b ∧
      (t.checkRecords vocabulary records).1 = .error
        (.overlappingInvocation (position vocabulary (Record.sorted records) b) p) := by
  rcases t.judge_ok_or_break (Adaptation.ofRecords vocabulary records).events with
    ⟨verdict, hverdict, hobject⟩ | ⟨v, event, he, hv, hfault⟩
  · left
    simp only [checkRecords, hverdict]
    exact ⟨_, rfl, addsUp_report _ vocabulary records verdict, hobject⟩
  · obtain ⟨p, a, b, hoverlap, rfl, hturn⟩ :=
      (tracks_sorted vocabulary records).overlapping_of_firstBreak hv
    obtain ⟨label, op, expected, hevent⟩ := turn_invokes_iff.1 hturn
    obtain rfl := Option.some.inj (he.symm.trans hevent)
    refine .inr ⟨p, a, b, hoverlap, ?_⟩
    simp [checkRecords, hfault, Except.map, Search.Fault.ofBreak, Event.isInvoke, Event.process]

/-- Whatever the records, the limits and the state of the object: if memory has room for a table
with an entry for each process that invokes in the vocabulary, the check gives a report whose counts
add up and leaves the object as it was. The only exception is a process that makes an invocation in
the vocabulary while an earlier one has not been paired with a return; then the search may stop at
the event of that invocation. Without room nothing is searched. All this holds on a machine that
does not check its sums unless the last process invokes. -/
theorem checkRecords?_reports (t : Tester σ) (machine : Machine) (vocabulary : Vocabulary Op Ret)
    (records : List Record)
    (hlast : machine.overflow = .wrapping → ∀ record ∈ records,
      (record.operation? vocabulary).isSome → record.process ≠ .last) :
    ((t.checkRecords? machine vocabulary records).isSome ↔ ∀ record ∈ records,
      (record.operation? vocabulary).isSome → record.process.index < machine.room) ∧
    ∀ outcome left, t.checkRecords? machine vocabulary records = some (outcome, left) →
      (∃ report, outcome = .ok report ∧ report.AddsUp records ∧ left.object = t.object) ∨
      ∃ p a b, Overlapping vocabulary (Record.sorted records) p a b ∧ outcome = .error
        (.overlappingInvocation (position vocabulary (Record.sorted records) b) p) := by
  constructor
  · simp [Option.isSome_iff_exists, checkRecords?_eq_some_iff hlast]
  · intro outcome left hcheck
    have hchecked := ((checkRecords?_eq_some_iff hlast).1 hcheck).2
    have hreports := t.checkRecords_ok_or_overlapping vocabulary records
    rwa [hchecked] at hreports

/-- The first return is to nothing, the second one to the call outside the vocabulary, so the
process waits for one invocation only. The last process makes calls outside the vocabulary. -/
theorem checkRecords?_reports_stray_returns :
    let records : List Record := [
      .ret 0 ⟨⟨0⟩, 0⟩ (.int 5), .invoke 1 ⟨⟨0⟩, 0⟩ (.named "offer" [.int 1]),
      .invoke 2 ⟨⟨0⟩, 1⟩ (.named "size" []), .invoke 3 ⟨.last, 0⟩ (.named "size" []),
      .ret 4 ⟨⟨0⟩, 1⟩ (.int 2)]
    let machine : Machine := ⟨.wrapping, 1⟩
    let t : Tester (Queue Value) :=
      { object := Queue.ofList [.int 7], limits := { maxSteps := some 1 } }
    (∀ record ∈ records, (record.operation? .queue).isSome → record.process ≠ .last) ∧
    ∃ report left, t.checkRecords? machine .queue records = some (.ok report, left) ∧
      report.AddsUp records ∧ report.counts.operations = 3 ∧ left.object = t.object := by
  intro records machine t
  have hlast : ∀ record ∈ records, (record.operation? .queue).isSome → record.process ≠ .last := by
    decide
  refine ⟨hlast, ?_⟩
  obtain ⟨hroom, hreports⟩ := checkRecords?_reports t machine .queue records fun _ => hlast
  have hsorted : Record.sorted records = records := Record.sorted_of_pairwise (by decide)
  have honly : ∀ i < 5, (operation? .queue records i).isSome → i = 1 := by decide
  obtain ⟨⟨outcome, left⟩, hcheck⟩ := Option.isSome_iff_exists.1 (hroom.2 (by decide))
  rcases hreports outcome left hcheck with ⟨report, rfl, haddsUp, hobject⟩ | ⟨p, a, b, hoverlap, -⟩
  · exact ⟨report, left, hcheck, haddsUp, haddsUp.operations, hobject⟩
  · rw [hsorted] at hoverlap
    have hlt := hoverlap.lt
    have ha := honly a (lt_length_of_turn hoverlap.earlier) hoverlap.inside.1
    have hb := honly b (lt_length_of_turn hoverlap.later) hoverlap.inside.2
    omega

/-- The last process has no entry in any table. Where sums are checked, nothing is searched. -/
theorem checkRecords?_last_process :
    let records : List Record := [.invoke 0 ⟨.last, 0⟩ (.named "offer" [.int 1])]
    let t : Tester (Queue Value) := { object := Queue.ofList [] }
    t.checkRecords? ⟨.checked, 4096⟩ .queue records = none ∧
      (t.checkRecords? ⟨.wrapping, 4096⟩ .queue records).map
        (fun check => check.1.map Report.verdict) = some (.error .outOfRange) := by
  intro records t
  have hevents : (Adaptation.ofRecords .queue records).events =
      [.invoke .last "offer(1)" (.enqueue (.int 1)) none] := by
    rw [Adaptation.ofRecords, Record.sorted_of_pairwise (List.pairwise_singleton _ _)]
    rfl
  constructor
  · rw [checkRecords?, hevents]
    rfl
  · have hbegin : Search.begin? ⟨.wrapping, 4096⟩ t.object
        (Adaptation.ofRecords .queue records).events =
          some ⟨t.object, [], [], .blank 0, some (.advance 0)⟩ := by
      rw [hevents]
      rfl
    rw [checkRecords?, judge?, hbegin, Option.map_some, hevents, judgeFrom, Search.run_eq]
    rfl

example : (({ object := Queue.ofList [] } : Tester (Queue Value)).checkRecords .queue [
    .invoke 0 ⟨⟨0⟩, 0⟩ (.named "offer" [.int 1]), .invoke 1 ⟨⟨0⟩, 1⟩ (.named "poll" [])]).1.map
      Report.verdict = .error (.overlappingInvocation 1 ⟨0⟩) := by
  cbv

end Tester
end Linearizability
