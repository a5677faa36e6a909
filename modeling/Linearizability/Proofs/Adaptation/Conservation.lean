import Linearizability.Proofs.Adaptation.Owed
import Linearizability.Proofs.Counting
import Linearizability.Proofs.RecordOrder

/-!
# Every record is accounted for

The adaptation drops no record and makes up none, whatever the records and the vocabulary: each
invocation becomes an event or counts as ignored, and each return becomes an event, is consumed by
an ignored invocation of its process, or is malformed. The events of a process are paired in their
order: its `k`-th return answers its `k`-th invocation.
-/

namespace Linearizability

variable {Op Ret : Type}

/-- The event says of the record what it can say in the vocabulary. -/
def Event.StandsFor (vocabulary : Vocabulary Op Ret) (record : Record) : Event Op Ret → Prop
  | .invoke p label op _ => record.process = p ∧
      ∃ call, record.kind = .invoke call ∧ vocabulary.translate call = some op ∧
        label = toString call
  | .ret p _ => record.process = p ∧ ∃ value, record.kind = .ret value

namespace Adaptation

open Turn

section Definitions

variable (vocabulary : Vocabulary Op Ret) (records : List Record)

/-- The records with this turn that became events, among the first `n`. -/
def keptBefore (turn : Turn) (n : Nat) : List Nat :=
  (List.range n).filter fun i =>
    Kept vocabulary records i ∧ (records.map Record.turn)[i]? = some turn

/-- The records that become events. -/
def sources : List Nat := (List.range records.length).filter (Kept vocabulary records)

/-- How the records, in their order, are accounted for. The events are made of the records at
`sources`; the return at `r` settles the call at `settles r`. -/
structure Conserves (adapted : Adaptation Op Ret) (sources : List Nat)
    (settles : Nat → Option Nat) : Prop where
  /-- No record becomes two events, and the order is kept. -/
  order : sources.Pairwise (· < ·)
  made : List.Forall₂ (fun event i => ∃ record, records[i]? = some record ∧
    event.StandsFor vocabulary record) adapted.events sources
  calls : ∀ a p, (records.map Record.turn)[a]? = some ⟨p, true⟩ →
    (a ∈ sources ↔ (operation? vocabulary records a).isSome)
  ignored : adapted.events.countP Event.isInvoke + adapted.ignored =
    records.countP Record.isInvocation
  /-- The `k`-th return of a process tells what the `k`-th invocation is known to have returned. -/
  answered : ∀ p k j, IsNth (adapted.events.map Event.turn) ⟨p, false⟩ k j →
    ∃ i < j, IsNth (adapted.events.map Event.turn) ⟨p, true⟩ k i ∧
      ∃ a r label op value, sources[i]? = some a ∧ sources[j]? = some r ∧ settles r = some a ∧
        value? records r = some value ∧
        adapted.events[i]? = some (.invoke p label op (vocabulary.observe op value)) ∧
        adapted.events[j]? = some (.ret p (vocabulary.observe op value))
  unanswered : ∀ p k i, IsNth (adapted.events.map Event.turn) ⟨p, true⟩ k i →
    (∀ j, ¬ IsNth (adapted.events.map Event.turn) ⟨p, false⟩ k j) →
      ∃ label op, adapted.events[i]? = some (.invoke p label op none)
  /-- A return settles an earlier call of its process, which no other return settles. -/
  settled : ∀ r a, settles r = some a → a < r ∧
    (∃ p, (records.map Record.turn)[r]? = some ⟨p, false⟩ ∧
      (records.map Record.turn)[a]? = some ⟨p, true⟩) ∧
    ∀ r', settles r' = some a → r' = r
  /-- A return becomes an event, is consumed by an ignored invocation, or settles nothing. -/
  returns : ∀ r p, (records.map Record.turn)[r]? = some ⟨p, false⟩ →
    (r ∈ sources ∧ ∃ a ∈ sources, settles r = some a) ∨
    (r ∉ sources ∧ ∃ a ∉ sources, settles r = some a) ∨
    (r ∉ sources ∧ settles r = none)
  unsettled : ∀ r p, (records.map Record.turn)[r]? = some ⟨p, false⟩ →
    (settles r = none ↔ ∀ a < r, (records.map Record.turn)[a]? = some ⟨p, true⟩ →
      ∃ r' < r, settles r' = some a)
  malformed : adapted.malformed = (List.range records.length).filterMap fun r =>
    records[r]?.bind fun record =>
      if record.isInvocation ∨ (settles r).isSome then none else some ⟨record.seq, record.process⟩

end Definitions

variable {vocabulary : Vocabulary Op Ret} {records : List Record} {a : Progress Op Ret}
variable {p : ProcessId} {turn : Turn} {i j k n r : Nat}

section Places

theorem length_of_getElem?_filter_range {P : Nat → Bool}
    (h : ((List.range n).filter P)[k]? = some i) : ((List.range i).filter P).length = k := by
  induction n with
  | zero => simp at h
  | succ n ih =>
    rw [filter_range_succ, List.getElem?_append] at h
    split at h
    · exact ih h
    · split at h
      · obtain ⟨rfl, hk⟩ : n = i ∧ k - ((List.range n).filter P).length = 0 := by
          rw [List.getElem?_singleton] at h
          split at h <;> simp_all
        omega
      · simp at h

theorem keptBefore_succ (vocabulary : Vocabulary Op Ret) (records : List Record) (turn : Turn)
    (n : Nat) : keptBefore vocabulary records turn (n + 1) =
      keptBefore vocabulary records turn n ++
        if Kept vocabulary records n ∧ (records.map Record.turn)[n]? = some turn then [n]
        else [] := by
  rw [keptBefore, filter_range_succ, keptBefore]
  simp only [decide_eq_true_eq]

theorem waiting_succ_of_invokes (h : (records.map Record.turn)[n]? = some ⟨p, true⟩) :
    (line vocabulary records p (n + 1)).waiting = (line vocabulary records p n).waiting ++
      if (operation? vocabulary records n).isSome then [n] else [] := by
  obtain ⟨seq, id, call, hn⟩ := call_of_turn h
  rw [line_succ hn rfl]
  cases htranslate : vocabulary.translate call <;>
    simp [Line.add, operation?, Record.operation?, hn, htranslate]

theorem waiting_of_returns (h : (records.map Record.turn)[n]? = some ⟨p, false⟩) :
    (line vocabulary records p n).waiting = (answered? vocabulary records n).toList ++
      (line vocabulary records p (n + 1)).waiting := by
  obtain ⟨seq, id, value, hn⟩ := value?_of_turn h
  rw [line_succ hn rfl]
  by_cases hskipped : (line vocabulary records p n).skipped = 0
  · cases hwaiting : (line vocabulary records p n).waiting <;>
      simp [answered?, Line.add, hn, hskipped, hwaiting]
  · simp [answered?, Line.add, hn, hskipped]

/-- The invocations of a process are answered in their order. -/
theorem map_keptBefore (vocabulary : Vocabulary Op Ret) (records : List Record) (p : ProcessId)
    (n : Nat) : (keptBefore vocabulary records ⟨p, true⟩ n).map some =
      (keptBefore vocabulary records ⟨p, false⟩ n).map (answered? vocabulary records) ++
        (line vocabulary records p n).waiting.map some := by
  induction n with
  | zero => rfl
  | succ n ih =>
    rw [keptBefore_succ, keptBefore_succ, List.map_append, ih]
    rcases turn_cases (records.map Record.turn) p n with hturn | hturn | hother
    · rw [waiting_succ_of_invokes hturn]
      by_cases hop : (operation? vocabulary records n).isSome
      · simp [hturn, kept_iff_of_invokes hturn, hop]
      · simp [hturn, kept_iff_of_invokes hturn, hop]
    · rw [waiting_of_returns hturn]
      cases hanswered : answered? vocabulary records n with
      | none => simp [hturn, kept_iff_of_returns hturn, hanswered]
      | some b => simp [hturn, kept_of_answered? hanswered, hanswered]
    · have hno : ∀ invokes, (records.map Record.turn)[n]? ≠ some ⟨p, invokes⟩ :=
        fun invokes hturn => hother _ hturn rfl
      simp only [hno, and_false, if_false, List.map_nil, List.append_nil,
        line_succ_of_forall_ne hother]

/-- A return answers the invocation that has as many before it as the return itself. -/
theorem length_keptBefore_of_answered? (h : answered? vocabulary records r = some i)
    (hturn : (records.map Record.turn)[r]? = some ⟨p, false⟩) :
    (keptBefore vocabulary records ⟨p, true⟩ i).length =
      (keptBefore vocabulary records ⟨p, false⟩ r).length := by
  have hfifo := map_keptBefore vocabulary records p r
  rw [waiting_of_returns hturn, h] at hfifo
  have hi := congrArg (·[(keptBefore vocabulary records ⟨p, false⟩ r).length]?) hfifo
  rw [List.getElem?_append_right (by simp)] at hi
  refine length_of_getElem?_filter_range (n := r) ?_
  simpa [keptBefore] using hi

end Places

section Events

theorem Tracks.getElem?_position (h : Tracks vocabulary records a records.length)
    (hi : i < records.length) (hkept : Kept vocabulary records i) :
    a.events.toList[position vocabulary records i]? =
      eventAt? vocabulary records records.length i := by
  rw [Array.getElem?_toList]
  exact h.event i hi hkept

theorem Tracks.turn_position (h : Tracks vocabulary records a records.length)
    (hi : i < records.length) (hkept : Kept vocabulary records i) :
    (a.events.toList.map Event.turn)[position vocabulary records i]? =
      (records.map Record.turn)[i]? := by
  rw [← turn_eventAt? hkept, List.getElem?_map, h.getElem?_position hi hkept]

theorem Tracks.exists_position (h : Tracks vocabulary records a records.length)
    (hj : j < a.events.toList.length) : ∃ i < records.length, Kept vocabulary records i ∧
      position vocabulary records i = j :=
  exists_of_lt_count (hj.trans_eq h.size)

/-- The first events with a turn are made of the first records with this turn. -/
theorem Tracks.count_take_position (h : Tracks vocabulary records a records.length) (turn : Turn)
    (hn : n ≤ records.length) :
    ((a.events.toList.map Event.turn).take (position vocabulary records n)).count turn =
      (keptBefore vocabulary records turn n).length := by
  induction n with
  | zero => simp [position, keptBefore]
  | succ n ih =>
    have hlt : n < records.length := hn
    have ih := ih (Nat.le_of_lt hlt)
    rw [keptBefore_succ, List.length_append, ← ih]
    by_cases hkept : Kept vocabulary records n
    · rw [position_succ hkept, List.take_add_one, List.count_append, h.turn_position hlt hkept]
      cases (records.map Record.turn)[n]? with
      | none => simp
      | some other =>
        by_cases hother : other = turn
        · simp [hkept, hother]
        · simp [hkept, hother]
    · simp [position_succ_of_not hkept, hkept]

theorem Tracks.isNth_position_iff (h : Tracks vocabulary records a records.length)
    (hi : i < records.length) (hkept : Kept vocabulary records i) :
    IsNth (a.events.toList.map Event.turn) turn k (position vocabulary records i) ↔
      (records.map Record.turn)[i]? = some turn ∧
        (keptBefore vocabulary records turn i).length = k := by
  rw [IsNth, h.turn_position hi hkept, h.count_take_position turn (Nat.le_of_lt hi)]

/-- An invocation that is not kept is ignored. -/
theorem Tracks.countP_take_position (h : Tracks vocabulary records a records.length)
    (hn : n ≤ records.length) :
    ((a.events.toList.map Event.turn).take (position vocabulary records n)).countP Turn.invokes +
        (List.range n).countP (skips vocabulary records) =
      ((records.map Record.turn).take n).countP Turn.invokes := by
  induction n with
  | zero => simp [position]
  | succ n ih =>
    have hlt : n < records.length := hn
    have ih := ih (Nat.le_of_lt hlt)
    obtain ⟨⟨p, invokes⟩, hturn⟩ : ∃ turn, (records.map Record.turn)[n]? = some turn :=
      ⟨_, List.getElem?_eq_getElem (by simpa using hlt)⟩
    have hskips : skips vocabulary records n =
        (invokes && !decide (Kept vocabulary records n)) := by
      cases invokes with
      | true =>
        rw [skips_eq_isNone hturn]
        simp [kept_iff_of_invokes hturn]
      | false =>
        obtain ⟨seq, id, value, hn⟩ := value?_of_turn hturn
        simp [skips, hn]
    rw [List.range_succ, List.countP_append, List.take_add_one, hturn, List.countP_append, ← ih,
      List.countP_singleton, hskips]
    by_cases hkept : Kept vocabulary records n
    · rw [position_succ hkept, List.take_add_one, List.countP_append, h.turn_position hlt hkept,
        hturn]
      simp [hkept]
      omega
    · simp [position_succ_of_not hkept, hkept]
      omega

theorem standsFor_of_eventAt? {event : Event Op Ret}
    (h : eventAt? vocabulary records n i = some event) :
    ∃ record, records[i]? = some record ∧ event.StandsFor vocabulary record := by
  unfold eventAt? at h
  split at h
  · rename_i seq p id call hi
    obtain ⟨op, hop, rfl⟩ := Option.map_eq_some_iff.1 h
    exact ⟨_, hi, rfl, call, rfl, hop, rfl⟩
  · rename_i seq p id value hi
    obtain ⟨_, _, rfl⟩ := Option.map_eq_some_iff.1 h
    exact ⟨_, hi, rfl, value, rfl⟩
  · simp at h

end Events

section Sources

theorem mem_sources : i ∈ sources vocabulary records ↔
    i < records.length ∧ Kept vocabulary records i := by
  simp [sources]

theorem length_sources (vocabulary : Vocabulary Op Ret) (records : List Record) :
    (sources vocabulary records).length = position vocabulary records records.length :=
  List.countP_eq_length_filter.symm

theorem getElem?_sources (hi : i < records.length) (hkept : Kept vocabulary records i) :
    (sources vocabulary records)[position vocabulary records i]? = some i := by
  obtain ⟨k, hk⟩ := List.mem_iff_getElem?.1 (mem_sources.2 ⟨hi, hkept⟩)
  have hlength := length_of_getElem?_filter_range hk
  rw [← List.countP_eq_length_filter] at hlength
  rwa [show position vocabulary records i = k from hlength]

end Sources

section Conservation

theorem turns_of_answered? {r a : Nat} (h : answered? vocabulary records r = some a) :
    a < r ∧ ∃ p, (records.map Record.turn)[r]? = some ⟨p, false⟩ ∧
      (records.map Record.turn)[a]? = some ⟨p, true⟩ :=
  call_of_settled? (answered?_eq_some_iff_settled?.1 h).1

theorem lt_length_of_turn (h : (records.map Record.turn)[i]? = some turn) : i < records.length := by
  simpa using (List.getElem?_eq_some_iff.1 h).1

/-- A return becomes an event exactly if it settles a call that does. -/
theorem mem_sources_iff_of_settled? {b : Nat} (h : settled? vocabulary records r = some b) :
    r ∈ sources vocabulary records ↔ b ∈ sources vocabulary records := by
  obtain ⟨-, p, hr, hb⟩ := call_of_settled? h
  rw [mem_sources, mem_sources, kept_iff_of_returns hr, kept_iff_of_invokes hb,
    and_iff_right (lt_length_of_turn hr), and_iff_right (lt_length_of_turn hb)]
  constructor
  · rintro ⟨b', hanswered⟩
    obtain ⟨hsettled, hop⟩ := answered?_eq_some_iff_settled?.1 hanswered
    obtain rfl : b' = b := Option.some.inj (hsettled.symm.trans h)
    exact hop
  · intro hop
    exact ⟨b, answered?_eq_some_iff_settled?.2 ⟨h, hop⟩⟩

theorem not_mem_sources_of_settled? (hturn : (records.map Record.turn)[r]? = some ⟨p, false⟩)
    (h : settled? vocabulary records r = none) : r ∉ sources vocabulary records := by
  rw [mem_sources, kept_iff_of_returns hturn]
  rintro ⟨-, b, hanswered⟩
  rw [(answered?_eq_some_iff_settled?.1 hanswered).1] at h
  simp at h

namespace Tracks

variable (h : Tracks vocabulary records a records.length)

include h

/-- The two events of an answered invocation. -/
theorem events_of_answered? {r b : Nat} (hanswered : answered? vocabulary records r = some b)
    (hturn : (records.map Record.turn)[r]? = some ⟨p, false⟩) :
    ∃ label op value, value? records r = some value ∧
      a.events.toList[position vocabulary records b]? =
        some (.invoke p label op (vocabulary.observe op value)) ∧
      a.events.toList[position vocabulary records r]? =
        some (.ret p (vocabulary.observe op value)) := by
  obtain ⟨hlt, q, hr, hb⟩ := turns_of_answered? hanswered
  obtain rfl : q = p := by simpa using hr.symm.trans hturn
  obtain ⟨seq, id, value, hrecord⟩ := value?_of_turn hr
  obtain ⟨op, hop⟩ := Option.isSome_iff_exists.1 (operation?_of_answered? hanswered)
  have hvalue : value? records r = some value := by simp [value?, Record.value?, hrecord]
  have hresult : result? vocabulary records r = vocabulary.observe op value := by
    simp [result?, hanswered, hop, hvalue]
  have hrlt := lt_length_of_turn hr
  have hblt := lt_length_of_turn hb
  obtain ⟨q', label, -, hevent⟩ := eventAt?_of_operation? (n := records.length) hop
  have hinvoked := h.turn_position hblt (kept_of_operation? hop)
  have hinvoke := h.getElem?_position hblt (kept_of_operation? hop)
  rw [hevent, observed?_of_answered? hanswered hrlt, hresult] at hinvoke
  obtain rfl : q' = q := by
    rw [List.getElem?_map, hinvoke, hb] at hinvoked
    simpa [Event.turn, Event.process] using congrArg (Option.map Turn.process) hinvoked
  refine ⟨label, op, value, hvalue, hinvoke, ?_⟩
  rw [h.getElem?_position hrlt (kept_of_answered? hanswered)]
  simp [eventAt?, hrecord, hanswered, hresult]

theorem exists_answered {j k : Nat}
    (hnth : IsNth (a.events.toList.map Event.turn) ⟨p, false⟩ k j) :
    ∃ r b, answered? vocabulary records r = some b ∧ position vocabulary records r = j ∧
      (records.map Record.turn)[r]? = some ⟨p, false⟩ ∧
      IsNth (a.events.toList.map Event.turn) ⟨p, true⟩ k (position vocabulary records b) := by
  obtain ⟨r, hr, hkept, rfl⟩ := h.exists_position
    (by simpa using (List.getElem?_eq_some_iff.1 hnth.1).1)
  obtain ⟨hturn, hcount⟩ := (h.isNth_position_iff hr hkept).1 hnth
  obtain ⟨b, hanswered⟩ := (kept_iff_of_returns hturn).1 hkept
  obtain ⟨hlt, q, hr', hb⟩ := turns_of_answered? hanswered
  obtain rfl : q = p := by simpa using hr'.symm.trans hturn
  refine ⟨r, b, hanswered, rfl, hturn, ?_⟩
  refine (h.isNth_position_iff (Nat.lt_trans hlt hr) ?_).2 ⟨hb, ?_⟩
  · exact .inl (operation?_of_answered? hanswered)
  · rw [length_keptBefore_of_answered? hanswered hturn, hcount]

theorem unanswered {i k : Nat} (hnth : IsNth (a.events.toList.map Event.turn) ⟨p, true⟩ k i)
    (hnone : ∀ j, ¬ IsNth (a.events.toList.map Event.turn) ⟨p, false⟩ k j) :
    ∃ label op, a.events.toList[i]? = some (.invoke p label op none) := by
  obtain ⟨b, hb, hkept, rfl⟩ := h.exists_position
    (by simpa using (List.getElem?_eq_some_iff.1 hnth.1).1)
  obtain ⟨hturn, hcount⟩ := (h.isNth_position_iff hb hkept).1 hnth
  obtain ⟨op, hop⟩ := Option.isSome_iff_exists.1 ((kept_iff_of_invokes hturn).1 hkept)
  have hunknown : observed? vocabulary records records.length b = none := by
    refine observed?_eq_none fun r hr hanswered => hnone (position vocabulary records r) ?_
    obtain ⟨-, q, hr', hb'⟩ := turns_of_answered? hanswered
    obtain rfl : q = p := by simpa using hb'.symm.trans hturn
    refine (h.isNth_position_iff hr (kept_of_answered? hanswered)).2 ⟨hr', ?_⟩
    rw [← length_keptBefore_of_answered? hanswered hr', hcount]
  obtain ⟨q, label, -, hevent⟩ := eventAt?_of_operation? (n := records.length) hop
  have hat := h.getElem?_position hb hkept
  rw [hevent, hunknown] at hat
  obtain ⟨label', op', expected, hat'⟩ := turn_invokes_iff.1 hnth.1
  obtain ⟨rfl, rfl, rfl, rfl⟩ : q = p ∧ label = label' ∧ op = op' ∧ none = expected := by
    simpa using hat.symm.trans hat'
  exact ⟨label, op, hat⟩

theorem made : List.Forall₂ (fun event i => ∃ record, records[i]? = some record ∧
    event.StandsFor vocabulary record) a.events.toList (sources vocabulary records) := by
  refine List.forall₂_iff_get.2 ⟨?_, fun j hj hj' => ?_⟩
  · rw [length_sources, Array.length_toList, h.size]
  · obtain ⟨i, hi, hkept, rfl⟩ := h.exists_position hj
    have hsource := getElem?_sources hi hkept
    rw [List.getElem?_eq_getElem hj', Option.some.injEq] at hsource
    have hevent := h.getElem?_position hi hkept
    rw [List.getElem?_eq_getElem hj] at hevent
    rw [List.get_eq_getElem, List.get_eq_getElem, hsource]
    exact standsFor_of_eventAt? hevent.symm

theorem countP_isInvoke : a.events.toList.countP Event.isInvoke + a.ignored =
    records.countP Record.isInvocation := by
  have hcount := h.countP_take_position (Nat.le_refl _)
  rw [← h.size, ← h.ignored, List.take_of_length_le (by simp),
    List.take_of_length_le (by simp), List.countP_map, List.countP_map] at hcount
  exact hcount

/-- Every record is accounted for. -/
theorem conserves : Conserves vocabulary records ⟨a.events.toList, a.ignored, a.malformed.toList⟩
    (sources vocabulary records) (settled? vocabulary records) where
  order := List.pairwise_lt_range.filter _
  made := h.made
  calls b p hturn := by
    rw [mem_sources, kept_iff_of_invokes hturn]
    exact and_iff_right (lt_length_of_turn hturn)
  ignored := h.countP_isInvoke
  answered p k j hnth := by
    obtain ⟨r, b, hanswered, rfl, hturn, hnth'⟩ := h.exists_answered hnth
    obtain ⟨label, op, value, hvalue, hinvoke, hret⟩ := h.events_of_answered? hanswered hturn
    obtain ⟨hsettled, hop⟩ := answered?_eq_some_iff_settled?.1 hanswered
    have hlt := lt_of_answered? hanswered
    have hr := lt_length_of_turn hturn
    exact ⟨_, position_lt (.inl hop) hlt, hnth', b, r, label, op, value,
      getElem?_sources (Nat.lt_trans hlt hr) (.inl hop),
      getElem?_sources hr (kept_of_answered? hanswered), hsettled, hvalue, hinvoke, hret⟩
  unanswered p k i := h.unanswered
  settled r b hsettled := by
    obtain ⟨hlt, hturns⟩ := call_of_settled? hsettled
    exact ⟨hlt, hturns, fun r' hsettled' => settled?_unique hsettled' hsettled⟩
  returns r p hturn := by
    cases hsettled : settled? vocabulary records r with
    | none => exact .inr (.inr ⟨not_mem_sources_of_settled? hturn hsettled, rfl⟩)
    | some b =>
      have hmem := mem_sources_iff_of_settled? hsettled
      by_cases hr : r ∈ sources vocabulary records
      · exact .inl ⟨hr, b, hmem.1 hr, rfl⟩
      · exact .inr (.inl ⟨hr, b, fun hb => hr (hmem.2 hb), rfl⟩)
  unsettled r p hturn := settled?_eq_none_iff hturn
  malformed := by
    rw [h.malformed]
    exact List.filterMap_congr fun r _ => malformed?_eq vocabulary records r

end Tracks

/-- An invocation is among the events or ignored. -/
theorem countP_isInvoke_ofRecords (vocabulary : Vocabulary Op Ret) (records : List Record) :
    (ofRecords vocabulary records).events.countP Event.isInvoke +
      (ofRecords vocabulary records).ignored = records.countP Record.isInvocation :=
  (tracks_sorted vocabulary records).countP_isInvoke.trans
    ((Record.sorted_perm records).countP_eq _)

/-- Whatever the records and the vocabulary, every record is accounted for, and which returns are
malformed is the same in every vocabulary. -/
theorem ofRecords_conserves (vocabulary : Vocabulary Op Ret) (records : List Record) :
    Record.StablySorted records (Record.sorted records) ∧
      (∃ sources settles, Conserves vocabulary (Record.sorted records)
        (ofRecords vocabulary records) sources settles) ∧
      ∀ (Op' Ret' : Type) (vocabulary' : Vocabulary Op' Ret'),
        (ofRecords vocabulary' records).malformed = (ofRecords vocabulary records).malformed := by
  refine ⟨Record.stablySorted_sorted records,
    ⟨_, _, (tracks_sorted vocabulary records).conserves⟩, fun Op' Ret' vocabulary' => ?_⟩
  have h := (tracks_sorted vocabulary records).malformed
  have h' := (tracks_sorted vocabulary' records).malformed
  rw [ofRecords, ofRecords, h, h']
  exact List.filterMap_congr fun r _ => malformed?_eq_malformed? vocabulary' vocabulary _ r

/-- The call outside the vocabulary takes the first return, though it was made last. -/
example :
    let adapted := ofRecords .queue [
      .invoke 0 ⟨⟨0⟩, 0⟩ (.named "offer" [.int 1]), .invoke 1 ⟨⟨0⟩, 1⟩ (.named "size" []),
      .ret 2 ⟨⟨0⟩, 0⟩ (.bool false), .ret 3 ⟨⟨0⟩, 1⟩ (.bool true), .ret 4 ⟨⟨0⟩, 0⟩ .null]
    adapted.events = [
      .invoke ⟨0⟩ "offer(1)" (.enqueue (.int 1)) (some .enqueued), .ret ⟨0⟩ (some .enqueued)] ∧
      adapted.malformed = [⟨4, ⟨0⟩⟩] := by
  refine ⟨?_, ?_⟩ <;> cbv

end Conservation

end Adaptation
end Linearizability
