import Linearizability.Proofs.Adaptation.Tracking
import Linearizability.Proofs.Linearization
import Linearizability.Proofs.Selection

/-!
# Adapting alternating records

When every process returns from one call before it makes the next, a return answers the invocation
before it, no return is malformed, and the events keep what the records say of real time. Then a
linearization of the events is an order of the returned calls in the vocabulary that accounts for
the recorded values.
-/

namespace Linearizability.Adaptation

open Turn

variable {σ Op Ret : Type}

section Definitions

variable [ReferenceObject σ Op Ret] (vocabulary : Vocabulary Op Ret) (records : List Record)

/-- The invocations take effect one after another, and the object returns what was recorded. -/
inductive Accounts : σ → List Nat → Prop
  | nil (object : σ) : Accounts object []
  | cons {object : σ} {a r : Nat} {op : Op} {value : Value} {order : List Nat}
      (hop : operation? vocabulary records a = some op)
      (hret : Returns (records.map Record.turn) a r) (hvalue : value? records r = some value)
      (hobserve : vocabulary.observe op value = some (ReferenceObject.apply object op).1)
      (h : Accounts (ReferenceObject.apply object op).2 order) : Accounts object (a :: order)

/-- The returned invocations in the vocabulary, in an order that respects real time and accounts for
what was recorded. -/
structure IsAccount (object : σ) (order : List Nat) : Prop where
  nodup : order.Nodup
  complete : ∀ a, a ∈ order ↔
    (operation? vocabulary records a).isSome ∧ ∃ r, Returns (records.map Record.turn) a r
  realTime : order.Pairwise fun a b => ¬ Precedes (records.map Record.turn) b a
  legal : Accounts vocabulary records object order

end Definitions

variable {vocabulary : Vocabulary Op Ret} {records : List Record} {record : Record}
variable {a b n r : Nat} {p : ProcessId} {op : Op}

theorem exists_map_eq {α β : Type} {P : α → Prop} {f : α → β} {l : List β}
    (h : ∀ y ∈ l, ∃ x, P x ∧ f x = y) : ∃ l' : List α, (∀ x ∈ l', P x) ∧ l'.map f = l := by
  induction l with
  | nil => exact ⟨[], by simp, rfl⟩
  | cons y l ih =>
    obtain ⟨x, hx, rfl⟩ := h y List.mem_cons_self
    obtain ⟨l', hl', rfl⟩ := ih fun z hz => h z (List.mem_cons_of_mem _ hz)
    exact ⟨x :: l', by simpa [hx] using hl', rfl⟩

section Returns

theorem turn_of_operation? (h : (operation? vocabulary records a).isSome) :
    ∃ p, (records.map Record.turn)[a]? = some ⟨p, true⟩ := by
  unfold operation? at h
  cases ha : records[a]? with
  | none => simp [ha] at h
  | some record =>
    obtain ⟨seq, process, id, kind⟩ := record
    cases kind with
    | invoke call => exact ⟨process, by simp [ha, Record.turn, Record.isInvocation]⟩
    | ret value => simp [ha, Record.operation?] at h

theorem value?_of_turn (h : (records.map Record.turn)[r]? = some ⟨p, false⟩) :
    ∃ seq id value, records[r]? = some ⟨seq, p, id, .ret value⟩ := by
  rw [List.getElem?_map, Option.map_eq_some_iff] at h
  obtain ⟨⟨seq, process, id, kind⟩, hr, hturn⟩ := h
  cases kind with
  | invoke call => simp [Record.turn, Record.isInvocation] at hturn
  | ret value =>
    obtain rfl : process = p := congrArg Turn.process hturn
    exact ⟨seq, id, value, hr⟩

theorem call_of_turn (h : (records.map Record.turn)[a]? = some ⟨p, true⟩) :
    ∃ seq id call, records[a]? = some ⟨seq, p, id, .invoke call⟩ := by
  rw [List.getElem?_map, Option.map_eq_some_iff] at h
  obtain ⟨⟨seq, process, id, kind⟩, ha, hturn⟩ := h
  cases kind with
  | ret value => simp [Record.turn, Record.isInvocation] at hturn
  | invoke call =>
    obtain rfl : process = p := congrArg Turn.process hturn
    exact ⟨seq, id, call, ha⟩

/-- An invocation is kept exactly if it is in the vocabulary. -/
theorem kept_iff_of_invokes (h : (records.map Record.turn)[a]? = some ⟨p, true⟩) :
    Kept vocabulary records a ↔ (operation? vocabulary records a).isSome := by
  refine or_iff_left fun hsome => ?_
  obtain ⟨b, hb⟩ := Option.isSome_iff_exists.1 hsome
  obtain ⟨record, value, ha, hkind, -⟩ := answered?_eq_some_iff.1 hb
  simp [ha, Record.turn, Record.isInvocation, hkind] at h

/-- A return is kept exactly if it answers an invocation. -/
theorem kept_iff_of_returns (h : (records.map Record.turn)[r]? = some ⟨p, false⟩) :
    Kept vocabulary records r ↔ ∃ a, answered? vocabulary records r = some a := by
  refine (or_iff_right fun hsome => ?_).trans Option.isSome_iff_exists
  obtain ⟨q, hq⟩ := turn_of_operation? hsome
  simp [h] at hq

theorem Accounts.exists_returns [ReferenceObject σ Op Ret] {object : σ} {order : List Nat}
    (h : Accounts vocabulary records object order) (ha : a ∈ order) :
    ∃ r, Returns (records.map Record.turn) a r := by
  induction h with
  | nil => simp at ha
  | @cons _ b r _ _ _ _ hret _ _ _ ih =>
    rcases List.mem_cons.1 ha with rfl | ha
    · exact ⟨r, hret⟩
    · exact ih ha

variable (halt : Alternating (records.map Record.turn))

include halt

/-- A process waits for its outstanding call only. -/
theorem line_eq (vocabulary : Vocabulary Op Ret) (p : ProcessId) (n : Nat) :
    line vocabulary records p n =
      match outstanding (records.map Record.turn) p n with
      | none => {}
      | some a =>
        if (operation? vocabulary records a).isSome then { waiting := [a] }
        else { skipped := 1 } := by
  induction n with
  | zero => rfl
  | succ n ih =>
    cases hn : records[n]? with
    | none => simpa [line, outstanding, hn] using ih
    | some record =>
      have hturn : (records.map Record.turn)[n]? = some record.turn := by simp [hn]
      by_cases hp : record.process = p
      · subst hp
        have hinvokes := halt n record.turn hturn
        obtain ⟨seq, process, id, kind⟩ := record
        rw [line_succ hn rfl, ih]
        cases kind with
        | invoke call =>
          have ho : outstanding (records.map Record.turn) process n = none :=
            Option.isNone_iff_eq_none.1 hinvokes.symm
          rw [outstanding_succ_of_invokes hturn]
          cases htranslate : vocabulary.translate call with
          | none => simp [Line.add, ho, operation?, Record.operation?, hn, htranslate]
          | some op => simp [Line.add, ho, operation?, Record.operation?, hn, htranslate]
        | ret value =>
          rw [outstanding_succ_of_returns hturn]
          cases ho : outstanding (records.map Record.turn) process n with
          | none => simp [Line.add]
          | some a =>
            dsimp only
            split
            · simp [Line.add]
            · simp [Line.add]
      · rw [line_succ_of_ne hn hp, outstanding_succ_of_ne hturn hp, ih]

theorem answered?_iff_returns : answered? vocabulary records r = some a ↔
    Returns (records.map Record.turn) a r ∧ (operation? vocabulary records a).isSome := by
  constructor
  · intro h
    obtain ⟨record, value, hr, hkind, hskipped, hhead⟩ := answered?_eq_some_iff.1 h
    refine ⟨⟨record.process, by simp [hr, Record.turn, Record.isInvocation, hkind], ?_⟩,
      operation?_of_answered? h⟩
    rw [line_eq halt] at hhead
    cases ho : outstanding (records.map Record.turn) record.process r with
    | none => simp [ho] at hhead
    | some b =>
      simp only [ho] at hhead
      split at hhead
      · simpa using hhead
      · simp at hhead
  · rintro ⟨⟨p, hturn, ho⟩, hop⟩
    obtain ⟨seq, id, value, hr⟩ := value?_of_turn hturn
    have hline := line_eq halt vocabulary p r
    rw [ho] at hline
    simp only [hop, if_true] at hline
    simp [answered?, hr, hline]

theorem malformed?_eq_none (vocabulary : Vocabulary Op Ret) (r : Nat) :
    malformed? vocabulary records r = none := by
  unfold malformed?
  split
  · rename_i seq process id value hr
    have hturn : (records.map Record.turn)[r]? = some ⟨process, false⟩ := by
      simp [hr, Record.turn, Record.isInvocation]
    obtain ⟨a, p, hr, ho⟩ := halt.exists_returns hturn
    obtain rfl : process = p := by simpa using hturn.symm.trans hr
    refine if_neg fun hline => ?_
    rw [line_eq halt, ho] at hline
    dsimp only at hline
    split at hline <;> simp at hline
  · rfl

theorem kept_iff_kept (h : Returns (records.map Record.turn) a r) :
    Kept vocabulary records a ↔ Kept vocabulary records r := by
  obtain ⟨p, hturn, ho⟩ := h
  rw [kept_iff_of_invokes (invokes_of_outstanding ho), kept_iff_of_returns hturn]
  constructor
  · intro hop
    exact ⟨a, (answered?_iff_returns halt).2 ⟨⟨p, hturn, ho⟩, hop⟩⟩
  · rintro ⟨b, hb⟩
    obtain ⟨⟨q, hq, hob⟩, hop⟩ := (answered?_iff_returns halt).1 hb
    obtain rfl : p = q := by simpa using hturn.symm.trans hq
    obtain rfl : a = b := by simpa using ho.symm.trans hob
    exact hop

/-- What an invocation is known to have returned is what the return from it observes. -/
theorem observed?_eq_some_iff {ret : Ret} (hop : operation? vocabulary records a = some op) :
    observed? vocabulary records records.length a = some ret ↔
      ∃ r value, Returns (records.map Record.turn) a r ∧ value? records r = some value ∧
        vocabulary.observe op value = some ret := by
  constructor
  · intro hret
    obtain ⟨r, -, hr⟩ := List.exists_of_findSome?_eq_some hret
    rw [Option.ite_none_right_eq_some] at hr
    obtain ⟨hanswered, hresult⟩ := hr
    simp only [result?, hanswered, hop, Option.bind_eq_bind, Option.bind_some,
      Option.bind_eq_some_iff] at hresult
    obtain ⟨value, hvalue, hobserve⟩ := hresult
    exact ⟨r, value, ((answered?_iff_returns halt).1 hanswered).1, hvalue, hobserve⟩
  · rintro ⟨r, value, hret, hvalue, hobserve⟩
    have hsome : (operation? vocabulary records a).isSome := by simp [hop]
    have hanswered := (answered?_iff_returns halt).2 ⟨hret, hsome⟩
    rw [observed?_of_answered? hanswered (by simpa using hret.lt_length)]
    simp [result?, hanswered, hop, hvalue, hobserve]

end Returns

section Events

variable {a : Progress Op Ret}

theorem turn_eventAt? {i : Nat} (h : Kept vocabulary records i) :
    (eventAt? vocabulary records n i).map Event.turn = (records.map Record.turn)[i]? := by
  unfold Kept operation? answered? at h
  unfold eventAt?
  rw [List.getElem?_map]
  cases hi : records[i]? with
  | none => simp [hi] at h
  | some record =>
    obtain ⟨seq, process, id, kind⟩ := record
    cases kind with
    | invoke call =>
      simp only [hi, Option.bind_some, Record.operation?, Option.isSome_none, Bool.false_eq_true,
        or_false] at h
      obtain ⟨op, hop⟩ := Option.isSome_iff_exists.1 h
      simp [hop, Event.turn, Event.process, Event.isInvoke, Record.turn, Record.isInvocation]
    | ret value =>
      simp only [hi, Option.bind_some, Record.operation?, Option.isSome_none, Bool.false_eq_true,
        false_or] at h
      obtain ⟨b, hb⟩ := Option.isSome_iff_exists.1 h
      simp [answered?, hi, hb, Event.turn, Event.process, Event.isInvoke, Record.turn,
        Record.isInvocation]

theorem eventAt?_of_operation? {i : Nat} (h : operation? vocabulary records i = some op) :
    ∃ p label, i < records.length ∧ eventAt? vocabulary records n i =
      some (.invoke p label op (observed? vocabulary records n i)) := by
  obtain ⟨⟨seq, p, id, kind⟩, hi, hop⟩ := Option.bind_eq_some_iff.1 h
  cases kind with
  | invoke call =>
    have htranslate : vocabulary.translate call = some op := hop
    exact ⟨p, toString call, (List.getElem?_eq_some_iff.1 hi).1, by simp [eventAt?, hi, htranslate]⟩
  | ret value => simp [Record.operation?] at hop

theorem Tracks.malformed_eq_nil (h : Tracks vocabulary records a records.length)
    (halt : Alternating (records.map Record.turn)) : a.malformed.toList = [] := by
  rw [h.malformed]
  exact List.filterMap_eq_nil_iff.2 fun r _ => malformed?_eq_none halt vocabulary r

theorem Tracks.selection (h : Tracks vocabulary records a records.length)
    (halt : Alternating (records.map Record.turn)) :
    Selection (Kept vocabulary records) (records.map Record.turn)
      (a.events.toList.map Event.turn) where
  length := by simpa [position] using h.size
  turn i hi hkept := by
    have := h.event i (by simpa using hi) hkept
    rw [← turn_eventAt? (n := records.length) hkept, ← this]
    simp [position]
  closed _ _ hret := kept_iff_kept halt hret

variable [ReferenceObject σ Op Ret] [DecidableEq Ret] {object left : σ}

/-- An operation can take effect on the object if it returns what was recorded. -/
theorem Tracks.takeEffect?_position (h : Tracks vocabulary records a records.length)
    (halt : Alternating (records.map Record.turn)) {i : Nat}
    (hop : operation? vocabulary records i = some op) :
    takeEffect? a.events.toList object (position vocabulary records i) = some left ↔
      ∃ r value, Returns (records.map Record.turn) i r ∧ value? records r = some value ∧
        vocabulary.observe op value = some (ReferenceObject.apply object op).1 ∧
        (ReferenceObject.apply object op).2 = left := by
  obtain ⟨p, label, hlt, hat⟩ := eventAt?_of_operation? hop
  have hevent := h.event i hlt (kept_of_operation? hop)
  rw [hat, ← Array.getElem?_toList] at hevent
  rw [takeEffect?_eq_some_iff]
  simp only [hevent, Option.some.injEq, Event.invoke.injEq]
  constructor
  · rintro ⟨_, _, _, ⟨rfl, rfl, rfl, hret⟩, hleft⟩
    obtain ⟨r, value, hreturns, hvalue, hobserve⟩ := (observed?_eq_some_iff halt hop).1 hret
    exact ⟨r, value, hreturns, hvalue, hobserve, hleft⟩
  · rintro ⟨r, value, hreturns, hvalue, hobserve, hleft⟩
    have hret := (observed?_eq_some_iff halt hop).2 ⟨r, value, hreturns, hvalue, hobserve⟩
    exact ⟨p, label, op, ⟨rfl, rfl, rfl, hret⟩, hleft⟩

theorem Tracks.replay?_map_position (h : Tracks vocabulary records a records.length)
    (halt : Alternating (records.map Record.turn)) {order : List Nat}
    (horder : ∀ i ∈ order, (operation? vocabulary records i).isSome) :
    (replay? a.events.toList object (order.map (position vocabulary records))).isSome ↔
      Accounts vocabulary records object order := by
  induction order generalizing object with
  | nil => exact iff_of_true rfl (.nil object)
  | cons i order ih =>
    have hrest : ∀ j ∈ order, (operation? vocabulary records j).isSome :=
      fun j hj => horder j (List.mem_cons_of_mem i hj)
    obtain ⟨op, hop⟩ := Option.isSome_iff_exists.1 (horder i List.mem_cons_self)
    rw [List.map_cons, replay?, List.foldlM_cons, Option.bind_eq_bind, Option.isSome_bind]
    constructor
    · intro hsome
      obtain ⟨left, hleft, hreplay⟩ := (Option.any_eq_true _ _).1 hsome
      obtain ⟨r, value, hret, hvalue, hobserve, rfl⟩ := (h.takeEffect?_position halt hop).1 hleft
      exact .cons hop hret hvalue hobserve ((ih hrest).1 hreplay)
    · intro haccounts
      cases haccounts with
      | cons hop' hret hvalue hobserve haccounts =>
        obtain rfl := Option.some.inj (hop.symm.trans hop')
        have hleft := (h.takeEffect?_position halt hop).2 ⟨_, _, hret, hvalue, hobserve, rfl⟩
        rw [hleft]
        exact (ih hrest).2 haccounts

/-- An order of invocations in the vocabulary linearizes the events if it accounts for the records.
-/
theorem Tracks.isLinearization_map_iff (h : Tracks vocabulary records a records.length)
    (halt : Alternating (records.map Record.turn)) {order : List Nat}
    (horder : ∀ i ∈ order, (operation? vocabulary records i).isSome) :
    IsLinearization object a.events.toList (order.map (position vocabulary records)) ↔
      IsAccount vocabulary records object order := by
  have hselection := h.selection halt
  have hkept : ∀ i ∈ order, Kept vocabulary records i := fun i hi => .inl (horder i hi)
  constructor
  · intro hlin
    have hlegal := (h.replay?_map_position halt horder).1 hlin.legal
    exact {
      nodup := hlin.nodup.of_map
      complete := by
        intro i
        constructor
        · intro hi
          exact ⟨horder i hi, hlegal.exists_returns hi⟩
        · rintro ⟨hop, r, hret⟩
          have hr := (hselection.closed i r hret).1 (.inl hop)
          have hmem := hlin.complete _ _ ((hselection.returns_count halt (.inl hop) hr).2 hret)
          obtain ⟨j, hj, hcount⟩ := List.mem_map.1 hmem
          obtain rfl := (position_inj (hkept j hj) (.inl hop)).1 hcount
          exact hj
      realTime := by
        refine (List.pairwise_map.1 hlin.realTime).imp_of_mem fun {i j} _ hj hno hprec => hno ?_
        exact (hselection.precedes_count halt (hkept j hj)).2 hprec
      legal := hlegal }
  · intro haccount
    exact {
      nodup := by
        refine haccount.nodup.map_on fun i hi j hj hij => ?_
        exact (position_inj (hkept i hi) (hkept j hj)).1 hij
      complete := by
        intro x y hret
        obtain ⟨i, r, hi, -, rfl, -, hreturns⟩ := hselection.exists_returns halt hret
        refine List.mem_map_of_mem ((haccount.complete i).2 ⟨?_, r, hreturns⟩)
        obtain ⟨p, -, ho⟩ := hreturns
        exact (kept_iff_of_invokes (invokes_of_outstanding ho)).1 hi
      realTime := by
        refine List.pairwise_map.2 (haccount.realTime.imp_of_mem fun {i j} _ hj hno hprec => hno ?_)
        exact (hselection.precedes_count halt (hkept j hj)).1 hprec
      legal := (h.replay?_map_position halt horder).2 haccount.legal }

/-- The events are linearizable if some order accounts for the records. -/
theorem Tracks.linearizable_iff (h : Tracks vocabulary records a records.length)
    (halt : Alternating (records.map Record.turn)) :
    Linearizable object a.events.toList ↔ ∃ order, IsAccount vocabulary records object order := by
  constructor
  · rintro ⟨order, hlin⟩
    have hpositions : ∀ q ∈ order, ∃ i, (operation? vocabulary records i).isSome ∧
        position vocabulary records i = q := by
      intro q hq
      obtain ⟨p, hturn⟩ := hlin.invokes hq
      obtain ⟨i, hi, hcount, hrecord⟩ := (h.selection halt).exists_kept hturn
      exact ⟨i, (kept_iff_of_invokes hrecord).1 hi, hcount⟩
    obtain ⟨order, horder, rfl⟩ := exists_map_eq hpositions
    exact ⟨order, (h.isLinearization_map_iff halt horder).1 hlin⟩
  · rintro ⟨order, haccount⟩
    have horder : ∀ i ∈ order, (operation? vocabulary records i).isSome :=
      fun i hi => ((haccount.complete i).1 hi).1
    exact ⟨_, (h.isLinearization_map_iff halt horder).2 haccount⟩

end Events

end Linearizability.Adaptation
