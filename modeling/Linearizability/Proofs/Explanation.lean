import Linearizability.Checker
import Linearizability.Proofs.Adaptation.Alternation
import Linearizability.Proofs.Judgment
import Linearizability.Proofs.RecordOrder

/-!
# What checked records say

The returned calls of a vocabulary are explained by a total order of their names: it respects what
came first in real time, and replaying it gives what was recorded under each name. The adaptation
never looks at names. In records that are well paired it makes no difference whether the return from
a call is found by its name or by its position.
-/

namespace Linearizability

open Adaptation Turn

variable {σ Op Ret : Type}

namespace Record

/-- In the order of the sequence numbers each process returns from one call before it makes the
next. A return has the name of its call, and no two calls share one. -/
structure WellPaired (records : List Record) : Prop where
  seq_nodup : (records.map Record.seq).Nodup
  alternating : Alternating ((sorted records).map Record.turn)
  call_eq : ∀ a r, Returns ((sorted records).map Record.turn) a r →
    (sorted records)[a]?.map Record.call = (sorted records)[r]?.map Record.call
  call_nodup : ((records.filter Record.isInvocation).map Record.call).Nodup

/-- The call returned before the other one was made. -/
def ReturnsBefore (records : List Record) (c d : CallId) : Prop :=
  ∃ ret ∈ records, ∃ invocation ∈ records, ret.isInvocation = false ∧ invocation.isInvocation ∧
    ret.call = c ∧ invocation.call = d ∧ ret.seq < invocation.seq

instance {records : List Record} {c d : CallId} : Decidable (ReturnsBefore records c d) :=
  inferInstanceAs (Decidable (∃ ret ∈ records, ∃ invocation ∈ records, _))

section Definitions

variable (vocabulary : Vocabulary Op Ret) (records : List Record)

/-- The call is in the vocabulary and has returned. -/
def Completed (c : CallId) : Prop :=
  (∃ invocation ∈ records, invocation.call = c ∧ (invocation.operation? vocabulary).isSome) ∧
    ∃ ret ∈ records, ret.call = c ∧ ret.isInvocation = false

instance {c : CallId} : Decidable (Completed vocabulary records c) :=
  inferInstanceAs (Decidable ((∃ invocation ∈ records, _) ∧ ∃ ret ∈ records, _))

variable [ReferenceObject σ Op Ret]

/-- The calls take effect one after another, and the object returns what was recorded of each. -/
inductive Replays : σ → List CallId → Prop
  | nil (object : σ) : Replays object []
  | cons {object : σ} {invocation ret : Record} {op : Op} {value : Value} {order : List CallId}
      (hinvocation : invocation ∈ records) (hret : ret ∈ records)
      (hcall : ret.call = invocation.call)
      (hop : invocation.operation? vocabulary = some op) (hvalue : ret.value? = some value)
      (hobserve : vocabulary.observe op value = some (ReferenceObject.apply object op).1)
      (h : Replays (ReferenceObject.apply object op).2 order) :
      Replays object (invocation.call :: order)

structure Explains (object : σ) (order : List CallId) : Prop where
  nodup : order.Nodup
  complete : ∀ c, c ∈ order ↔ Completed vocabulary records c
  realTime : order.Pairwise fun c d => ¬ ReturnsBefore records d c
  legal : Replays vocabulary records object order

end Definitions

section Names

variable {vocabulary : Vocabulary Op Ret} {records : List Record} {record invocation ret : Record}
variable {a b i j r : Nat} {c : CallId}

/-- The name of the call at a position. -/
def callAt (records : List Record) (i : Nat) : CallId :=
  match records[i]? with
  | some record => record.call
  | none => default

theorem callAt_eq (h : records[i]? = some record) : callAt records i = record.call := by
  simp [callAt, h]

theorem isInvocation_of_operation? (h : (record.operation? vocabulary).isSome) :
    record.isInvocation := by
  obtain ⟨seq, process, id, kind⟩ := record
  cases kind with
  | invoke call => rfl
  | ret value => simp [operation?] at h

theorem isInvocation_of_value? {value : Value} (h : record.value? = some value) :
    record.isInvocation = false := by
  obtain ⟨seq, process, id, kind⟩ := record
  cases kind with
  | invoke call => simp [value?] at h
  | ret value => rfl

theorem exists_of_operation? (h : (Adaptation.operation? vocabulary records a).isSome) :
    ∃ record, records[a]? = some record ∧ (record.operation? vocabulary).isSome := by
  obtain ⟨op, hop⟩ := Option.isSome_iff_exists.1 h
  obtain ⟨record, ha, hop⟩ := Option.bind_eq_some_iff.1 hop
  exact ⟨record, ha, by simp [hop]⟩

theorem exists_of_returns (h : Returns (records.map Record.turn) a r) :
    ∃ record, records[r]? = some record :=
  ⟨_, List.getElem?_eq_getElem (by simpa using h.lt_length)⟩

theorem exists_callAt_of_completed (h : Completed vocabulary records c) :
    ∃ a, (Adaptation.operation? vocabulary (sorted records) a).isSome ∧
      callAt (sorted records) a = c := by
  obtain ⟨⟨invocation, hmem, hcall, hop⟩, -⟩ := h
  obtain ⟨a, ha⟩ := exists_getElem?_sorted hmem
  exact ⟨a, by simpa [Adaptation.operation?, ha] using hop, (callAt_eq ha).trans hcall⟩

namespace WellPaired

variable (h : WellPaired records)

include h

theorem pairwise_lt : (sorted records).Pairwise fun a b => a.seq < b.seq := by
  have hnodup := ((sorted_perm records).map Record.seq).nodup_iff.2 h.seq_nodup
  exact (pairwise_sorted records).imp₂ (fun a b hle hne => UInt64.lt_of_le_of_ne hle hne)
    (List.pairwise_map.1 hnodup)

theorem lt_iff (hi : (sorted records)[i]? = some record) (hj : (sorted records)[j]? = some ret) :
    i < j ↔ record.seq < ret.seq := by
  obtain ⟨hilt, rfl⟩ := List.getElem?_eq_some_iff.1 hi
  obtain ⟨hjlt, rfl⟩ := List.getElem?_eq_some_iff.1 hj
  have hlt := List.pairwise_iff_getElem.1 h.pairwise_lt
  constructor
  · exact hlt i j hilt hjlt
  · intro hseq
    rcases Nat.lt_trichotomy i j with hij | rfl | hji
    · exact hij
    · exact absurd hseq (UInt64.lt_irrefl _)
    · exact absurd (hlt j i hjlt hilt hji) (UInt64.lt_asymm hseq)

theorem eq_of_getElem?_eq (hi : (sorted records)[i]? = some record)
    (hj : (sorted records)[j]? = some record) : i = j := by
  have hij := mt (h.lt_iff hi hj).1 (UInt64.lt_irrefl record.seq)
  have hji := mt (h.lt_iff hj hi).1 (UInt64.lt_irrefl record.seq)
  omega

/-- Only one invocation has the name. -/
theorem eq_of_call_eq (ha : (sorted records)[a]? = some record)
    (hb : (sorted records)[b]? = some invocation) (hinv : record.isInvocation)
    (hinv' : invocation.isInvocation) (hcall : record.call = invocation.call) : a = b := by
  have hmem : record ∈ records.filter Record.isInvocation :=
    List.mem_filter.2 ⟨mem_of_getElem?_sorted ha, hinv⟩
  have hmem' : invocation ∈ records.filter Record.isInvocation :=
    List.mem_filter.2 ⟨mem_of_getElem?_sorted hb, hinv'⟩
  obtain rfl := List.inj_on_of_nodup_map h.call_nodup hmem hmem' hcall
  exact h.eq_of_getElem?_eq ha hb

/-- A return has the name of the invocation that it returns from. -/
theorem exists_returns (hr : (sorted records)[r]? = some ret) (hret : ret.isInvocation = false) :
    ∃ a invocation, Returns ((sorted records).map Record.turn) a r ∧
      (sorted records)[a]? = some invocation ∧ invocation.isInvocation ∧
      invocation.call = ret.call := by
  have hturn : ((sorted records).map Record.turn)[r]? = some ⟨ret.process, false⟩ := by
    simp [hr, Record.turn, hret]
  obtain ⟨a, hreturns⟩ := h.alternating.exists_returns hturn
  have hinvokes := hreturns.exists_invokes
  simp only [List.getElem?_map, Option.map_eq_some_iff] at hinvokes
  obtain ⟨p, invocation, ha, hinv⟩ := hinvokes
  have hcall := h.call_eq a r hreturns
  rw [ha, hr] at hcall
  exact ⟨a, invocation, hreturns, ha, congrArg Turn.invokes hinv, Option.some.inj hcall⟩

/-- The return with the name of an invocation is the return from it. -/
theorem returns_iff_call_eq (ha : (sorted records)[a]? = some invocation)
    (hr : (sorted records)[r]? = some ret) (hinv : invocation.isInvocation) :
    Returns ((sorted records).map Record.turn) a r ↔
      ret.isInvocation = false ∧ ret.call = invocation.call := by
  constructor
  · intro hreturns
    have hcall := h.call_eq a r hreturns
    rw [ha, hr] at hcall
    obtain ⟨p, hturn, -⟩ := hreturns
    refine ⟨?_, (Option.some.inj hcall).symm⟩
    simpa [hr, Record.turn] using congrArg (Option.map Turn.invokes) hturn
  · rintro ⟨hret, hcall⟩
    obtain ⟨b, other, hreturns, hb, hother, hbcall⟩ := h.exists_returns hr hret
    obtain rfl := h.eq_of_call_eq ha hb hinv hother (hcall.symm.trans hbcall.symm)
    exact hreturns

theorem completed_callAt_iff (hop : (Adaptation.operation? vocabulary (sorted records) a).isSome) :
    Completed vocabulary records (callAt (sorted records) a) ↔
      ∃ r, Returns ((sorted records).map Record.turn) a r := by
  obtain ⟨invocation, ha, hinv⟩ := exists_of_operation? hop
  rw [callAt_eq ha]
  constructor
  · rintro ⟨-, ret, hmem, hcall, hret⟩
    obtain ⟨r, hr⟩ := exists_getElem?_sorted hmem
    exact ⟨r, (h.returns_iff_call_eq ha hr (isInvocation_of_operation? hinv)).2 ⟨hret, hcall⟩⟩
  · rintro ⟨r, hreturns⟩
    obtain ⟨ret, hr⟩ := exists_of_returns hreturns
    obtain ⟨hret, hcall⟩ :=
      (h.returns_iff_call_eq ha hr (isInvocation_of_operation? hinv)).1 hreturns
    exact ⟨⟨invocation, mem_of_getElem?_sorted ha, rfl, hinv⟩,
      ret, mem_of_getElem?_sorted hr, hcall, hret⟩

theorem returnsBefore_callAt_iff
    (ha : (Adaptation.operation? vocabulary (sorted records) a).isSome)
    (hb : (Adaptation.operation? vocabulary (sorted records) b).isSome) :
    ReturnsBefore records (callAt (sorted records) a) (callAt (sorted records) b) ↔
      Precedes ((sorted records).map Record.turn) a b := by
  obtain ⟨invocation, ha, hinv⟩ := exists_of_operation? ha
  obtain ⟨later, hb, hlater⟩ := exists_of_operation? hb
  rw [callAt_eq ha, callAt_eq hb]
  constructor
  · rintro ⟨ret, hmem, other, hother, hret, hinvokes, hcall, hlatercall, hlt⟩
    obtain ⟨r, hr⟩ := exists_getElem?_sorted hmem
    obtain ⟨i, hi⟩ := exists_getElem?_sorted hother
    obtain rfl := h.eq_of_call_eq hi hb hinvokes (isInvocation_of_operation? hlater) hlatercall
    exact ⟨r, (h.returns_iff_call_eq ha hr (isInvocation_of_operation? hinv)).2 ⟨hret, hcall⟩,
      (h.lt_iff hr hi).2 hlt⟩
  · rintro ⟨r, hreturns, hlt⟩
    obtain ⟨ret, hr⟩ := exists_of_returns hreturns
    obtain ⟨hret, hcall⟩ :=
      (h.returns_iff_call_eq ha hr (isInvocation_of_operation? hinv)).1 hreturns
    exact ⟨ret, mem_of_getElem?_sorted hr, later, mem_of_getElem?_sorted hb, hret,
      isInvocation_of_operation? hlater, hcall, rfl, (h.lt_iff hr hb).1 hlt⟩

theorem callAt_inj (ha : (Adaptation.operation? vocabulary (sorted records) a).isSome)
    (hb : (Adaptation.operation? vocabulary (sorted records) b).isSome)
    (hcall : callAt (sorted records) a = callAt (sorted records) b) : a = b := by
  obtain ⟨invocation, ha, hinv⟩ := exists_of_operation? ha
  obtain ⟨other, hb, hother⟩ := exists_of_operation? hb
  rw [callAt_eq ha, callAt_eq hb] at hcall
  exact h.eq_of_call_eq ha hb (isInvocation_of_operation? hinv) (isInvocation_of_operation? hother)
    hcall

variable [ReferenceObject σ Op Ret] {object : σ} {order : List Nat}

theorem replays_callAt_iff
    (horder : ∀ i ∈ order, (Adaptation.operation? vocabulary (sorted records) i).isSome) :
    Replays vocabulary records object (order.map (callAt (sorted records))) ↔
      Accounts vocabulary (sorted records) object order := by
  induction order generalizing object with
  | nil => exact iff_of_true (.nil object) (.nil object)
  | cons a order ih =>
    have hrest : ∀ i ∈ order, (Adaptation.operation? vocabulary (sorted records) i).isSome :=
      fun i hi => horder i (List.mem_cons_of_mem a hi)
    obtain ⟨invocation, ha, hinv⟩ := exists_of_operation? (horder a List.mem_cons_self)
    have hinvokes := isInvocation_of_operation? hinv
    rw [List.map_cons, callAt_eq ha]
    constructor
    · generalize hcalls : invocation.call :: order.map (callAt (sorted records)) = calls
      intro hreplays
      cases hreplays with
      | nil => simp at hcalls
      | @cons _ other ret op value calls hmem hret hcall hop hvalue hobserve hreplays =>
        obtain ⟨hname, rfl⟩ := List.cons.inj hcalls
        obtain ⟨i, hi⟩ := exists_getElem?_sorted hmem
        obtain ⟨r, hr⟩ := exists_getElem?_sorted hret
        have hsome : (other.operation? vocabulary).isSome := by simp [hop]
        have hother := isInvocation_of_operation? hsome
        obtain rfl := h.eq_of_call_eq ha hi hinvokes hother hname
        have hreturns := (h.returns_iff_call_eq hi hr hother).2
          ⟨isInvocation_of_value? hvalue, hcall⟩
        exact .cons (by simp [Adaptation.operation?, hi, hop]) hreturns
          (by simp [Adaptation.value?, hr, hvalue]) hobserve ((ih hrest).1 hreplays)
    · intro haccounts
      cases haccounts with
      | @cons _ _ r op value _ hop hreturns hvalue hobserve haccounts =>
        obtain ⟨ret, hr⟩ := exists_of_returns hreturns
        have hcall := ((h.returns_iff_call_eq ha hr hinvokes).1 hreturns).2
        exact .cons (mem_of_getElem?_sorted ha) (mem_of_getElem?_sorted hr) hcall
          (by simpa [Adaptation.operation?, ha] using hop)
          (by simpa [Adaptation.value?, hr] using hvalue) hobserve ((ih hrest).2 haccounts)

/-- Names and positions tell the same orders. -/
theorem explains_callAt_iff
    (horder : ∀ i ∈ order, (Adaptation.operation? vocabulary (sorted records) i).isSome) :
    Explains vocabulary records object (order.map (callAt (sorted records))) ↔
      IsAccount vocabulary (sorted records) object order := by
  constructor
  · intro hexplains
    exact {
      nodup := hexplains.nodup.of_map
      complete := by
        intro a
        constructor
        · intro ha
          refine ⟨horder a ha, (h.completed_callAt_iff (horder a ha)).1 ?_⟩
          exact (hexplains.complete _).1 (List.mem_map_of_mem ha)
        · rintro ⟨hop, hreturns⟩
          have hmem := (hexplains.complete _).2 ((h.completed_callAt_iff hop).2 hreturns)
          obtain ⟨b, hb, hcall⟩ := List.mem_map.1 hmem
          exact h.callAt_inj (horder b hb) hop hcall ▸ hb
      realTime := by
        refine (List.pairwise_map.1 hexplains.realTime).imp_of_mem fun ha hb hno hprec => hno ?_
        exact (h.returnsBefore_callAt_iff (horder _ hb) (horder _ ha)).2 hprec
      legal := (h.replays_callAt_iff horder).1 hexplains.legal }
  · intro haccount
    exact {
      nodup := haccount.nodup.map_on fun a ha b hb => h.callAt_inj (horder a ha) (horder b hb)
      complete := by
        intro c
        constructor
        · intro hc
          obtain ⟨a, ha, rfl⟩ := List.mem_map.1 hc
          exact (h.completed_callAt_iff (horder a ha)).2 ((haccount.complete a).1 ha).2
        · intro hc
          obtain ⟨a, hop, rfl⟩ := exists_callAt_of_completed hc
          refine List.mem_map_of_mem ((haccount.complete a).2 ⟨hop, ?_⟩)
          exact (h.completed_callAt_iff hop).1 hc
      realTime := by
        refine List.pairwise_map.2 (haccount.realTime.imp_of_mem fun ha hb hno hprec => hno ?_)
        exact (h.returnsBefore_callAt_iff (horder _ hb) (horder _ ha)).1 hprec
      legal := (h.replays_callAt_iff horder).2 haccount.legal }

theorem exists_explains_iff : (∃ order, Explains vocabulary records object order) ↔
    ∃ order, IsAccount vocabulary (sorted records) object order := by
  constructor
  · rintro ⟨order, hexplains⟩
    obtain ⟨order, horder, rfl⟩ := exists_map_eq fun c hc =>
      exists_callAt_of_completed ((hexplains.complete c).1 hc)
    exact ⟨order, (h.explains_callAt_iff horder).1 hexplains⟩
  · rintro ⟨order, haccount⟩
    exact ⟨_, (h.explains_callAt_iff fun a ha => ((haccount.complete a).1 ha).1).2 haccount⟩

end WellPaired

end Names

end Record

namespace Tester

variable [ReferenceObject σ Op Ret] [DecidableEq Ret]

/-- A check depends on the records, but not on the order in which they are listed. -/
theorem checkRecords_perm (t : Tester σ) (vocabulary : Vocabulary Op Ret)
    {records records' : List Record} (hnodup : (records.map Record.seq).Nodup)
    (hperm : records'.Perm records) :
    t.checkRecords vocabulary records' = t.checkRecords vocabulary records := by
  have hreport (t : Tester σ) (adaptation : Adaptation Op Ret) :
      t.report adaptation records' = t.report adaptation records :=
    funext fun verdict => by simp only [report, hperm.countP_eq]
  simp only [checkRecords, Adaptation.ofRecords, Record.sorted_eq_of_perm hnodup hperm, hreport]

/-- The verdict is given on the events. -/
theorem checkRecords_verdict (t : Tester σ) (vocabulary : Vocabulary Op Ret)
    (records : List Record) : (t.checkRecords vocabulary records).1.map Report.verdict =
      (t.judge (Adaptation.ofRecords vocabulary records).events).1 := by
  cases h : (t.judge (Adaptation.ofRecords vocabulary records).events).1 <;>
    simp [checkRecords, report, h, Except.map]

variable [LawfulUndo σ]

/-- Alternating records are judged by whether some order accounts for them. -/
theorem checkRecords_unlimited (t : Tester σ) (vocabulary : Vocabulary Op Ret)
    (records : List Record) (hlimits : t.limits.Unlimited)
    (halt : Alternating ((Record.sorted records).map Record.turn)) :
    ∃ report, (t.checkRecords vocabulary records).1 = .ok report ∧ report.malformed = [] ∧
      ((∃ order, IsAccount vocabulary (Record.sorted records) t.object order) ∧
          report.verdict = .linearizable ∨
        (¬ ∃ order, IsAccount vocabulary (Record.sorted records) t.object order) ∧
          ∃ reach, report.verdict = .notLinearizable reach) := by
  have htracks := tracks_sorted vocabulary records
  have hmalformed : (Adaptation.ofRecords vocabulary records).malformed = [] :=
    htracks.malformed_eq_nil halt
  have hjudge := t.judge_unlimited (Adaptation.ofRecords vocabulary records).events hlimits
    ((htracks.selection halt).alternating halt)
  rw [Adaptation.ofRecords, htracks.linearizable_iff halt] at hjudge
  unfold checkRecords
  rcases hjudge with ⟨haccount, hverdict⟩ | ⟨hno, reach, hverdict⟩
  · simp only [Adaptation.ofRecords] at hmalformed ⊢
    simp only [hverdict]
    exact ⟨_, rfl, hmalformed, .inl ⟨haccount, rfl⟩⟩
  · simp only [Adaptation.ofRecords] at hmalformed ⊢
    simp only [hverdict]
    exact ⟨_, rfl, hmalformed, .inr ⟨hno, reach, rfl⟩⟩

/-- Checking reports success if some order of the returned calls explains what was recorded, and
failure if none does. -/
theorem checkRecords_decides (t : Tester σ) (vocabulary : Vocabulary Op Ret)
    (records : List Record) (hlimits : t.limits.Unlimited) (h : Record.WellPaired records) :
    ((∃ report, (t.checkRecords vocabulary records).1 = .ok report ∧
          report.verdict = .linearizable) ↔
        ∃ order, Record.Explains vocabulary records t.object order) ∧
      ((¬ ∃ order, Record.Explains vocabulary records t.object order) →
        ∃ report reach, (t.checkRecords vocabulary records).1 = .ok report ∧
          report.verdict = .notLinearizable reach) ∧
      ∀ records' : List Record, records'.Perm records →
        t.checkRecords vocabulary records' = t.checkRecords vocabulary records := by
  obtain ⟨report, hreport, -, hverdict⟩ :=
    t.checkRecords_unlimited vocabulary records hlimits h.alternating
  rw [← h.exists_explains_iff] at hverdict
  refine ⟨?_, fun hno => ?_, fun records' hperm => t.checkRecords_perm vocabulary h.seq_nodup hperm⟩
  · rcases hverdict with ⟨hexplains, hv⟩ | ⟨hno, reach, hv⟩
    · exact iff_of_true ⟨report, hreport, hv⟩ hexplains
    · refine iff_of_false ?_ hno
      rintro ⟨other, hother, hv'⟩
      obtain rfl := Except.ok.inj (hreport.symm.trans hother)
      simp [hv] at hv'
  · rcases hverdict with ⟨hexplains, -⟩ | ⟨-, reach, hv⟩
    · exact absurd hexplains hno
    · exact ⟨report, reach, hreport, hv⟩

/-- The listing order does not matter, and neither does a call outside the vocabulary. -/
theorem checkRecords_overlapping_offer :
    let records : List Record := [
      .ret 5 ⟨⟨0⟩, 0⟩ (.bool true), .ret 4 ⟨⟨1⟩, 1⟩ (.int 7), .invoke 3 ⟨⟨1⟩, 1⟩ (.named "poll" []),
      .ret 2 ⟨⟨1⟩, 0⟩ (.int 3), .invoke 1 ⟨⟨1⟩, 0⟩ (.named "size" []),
      .invoke 0 ⟨⟨0⟩, 0⟩ (.named "offer" [.int 7])]
    ∃ report,
      (({ object := Queue.ofList [] } : Tester (Queue Value)).checkRecords .queue records).1 =
        .ok report ∧ report.verdict = .linearizable := by
  intro records
  have hsorted : Record.sorted records = records.reverse :=
    (Record.sorted_eq_of_perm (by decide) (List.reverse_perm records)).symm.trans
      (Record.sorted_of_pairwise (by decide))
  have halt : Alternating (records.reverse.map Record.turn) := by decide
  have hcall : ∀ r < 6, ∀ a < r, Returns (records.reverse.map Record.turn) a r →
      records.reverse[a]?.map Record.call = records.reverse[r]?.map Record.call := by decide
  have hpaired : Record.WellPaired records := by
    refine ⟨by decide, hsorted ▸ halt, fun a r hret => ?_, by decide⟩
    rw [hsorted] at hret ⊢
    exact hcall r hret.lt_length a hret.lt hret
  have hcompleted : ∀ record ∈ records, Record.Completed .queue records record.call →
      record.call ∈ [⟨⟨0⟩, 0⟩, ⟨⟨1⟩, 1⟩] := by decide
  have hreturned : ∀ c ∈ [⟨⟨0⟩, 0⟩, ⟨⟨1⟩, 1⟩], Record.Completed .queue records c := by decide
  have hlegal : Record.Replays .queue records (Queue.ofList []) [⟨⟨0⟩, 0⟩, ⟨⟨1⟩, 1⟩] := by
    have hoffer : Record.invoke 0 ⟨⟨0⟩, 0⟩ (.named "offer" [.int 7]) ∈ records := by decide
    have hpoll : Record.invoke 3 ⟨⟨1⟩, 1⟩ (.named "poll" []) ∈ records := by decide
    have hoffered : Record.ret 5 ⟨⟨0⟩, 0⟩ (.bool true) ∈ records := by decide
    have hpolled : Record.ret 4 ⟨⟨1⟩, 1⟩ (.int 7) ∈ records := by decide
    exact .cons hoffer hoffered rfl rfl rfl rfl (.cons hpoll hpolled rfl rfl rfl rfl (.nil _))
  refine ((checkRecords_decides _ .queue records Search.Limits.unlimited_default hpaired).1).2
    ⟨[⟨⟨0⟩, 0⟩, ⟨⟨1⟩, 1⟩], by decide, fun c => ⟨hreturned c, fun hc => ?_⟩, by decide, hlegal⟩
  obtain ⟨invocation, hmem, rfl, -⟩ := hc.1
  exact hcompleted invocation hmem hc

end Tester
end Linearizability
