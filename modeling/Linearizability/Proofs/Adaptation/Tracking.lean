import Linearizability.Proofs.Adaptation.Answers

/-!
# What the adaptation makes of each record

After any number of records, the progress of the adaptation can be read off the records themselves:
which of them became events, and at which positions, what is still waiting, and which returns were
malformed. Each record that is added keeps this up.
-/

namespace Linearizability.Adaptation

variable {Op Ret : Type}

section Definitions

variable (vocabulary : Vocabulary Op Ret) (records : List Record)

/-- An event is made of an invocation in the vocabulary, and of a return that answers one. -/
def Kept (i : Nat) : Prop :=
  (operation? vocabulary records i).isSome ∨ (answered? vocabulary records i).isSome

instance : DecidablePred (Kept vocabulary records) := fun _ => inferInstanceAs (Decidable (_ ∨ _))

/-- The position of the event that this record becomes. -/
def position (i : Nat) : Nat := Nat.count (Kept vocabulary records) i

/-- The event that this record became, as it stands after `n` records. -/
def eventAt? (n i : Nat) : Option (Event Op Ret) :=
  match records[i]? with
  | some ⟨_, process, _, .invoke call⟩ => (vocabulary.translate call).map fun op =>
      .invoke process (toString call) op (observed? vocabulary records n i)
  | some ⟨_, process, _, .ret _⟩ => (answered? vocabulary records i).map fun _ =>
      .ret process (result? vocabulary records i)
  | none => none

/-- Whether this record invokes a call outside the vocabulary. -/
def skips (i : Nat) : Bool :=
  match records[i]? with
  | some ⟨_, _, _, .invoke call⟩ => (vocabulary.translate call).isNone
  | _ => false

/-- A return to a process that is owed nothing. -/
def malformed? (i : Nat) : Option MalformedRecord :=
  match records[i]? with
  | some ⟨seq, process, _, .ret _⟩ =>
    if line vocabulary records process i = {} then some ⟨seq, process⟩ else none
  | _ => none

/-- The progress made after `n` records. -/
structure Tracks (a : Progress Op Ret) (n : Nat) : Prop where
  size : a.events.size = position vocabulary records n
  event : ∀ i < n, Kept vocabulary records i →
    a.events[position vocabulary records i]? = eventAt? vocabulary records n i
  waiting : ∀ p, (a.waiting.filter (·.process = p)).map (fun w => (some w.op, w.position)) =
    (line vocabulary records p n).waiting.map fun i =>
      (operation? vocabulary records i, position vocabulary records i)
  swallowing : ∀ p, a.swallowing.count p = (line vocabulary records p n).skipped
  ignored : a.ignored = (List.range n).countP (skips vocabulary records)
  malformed : a.malformed.toList = (List.range n).filterMap (malformed? vocabulary records)

end Definitions

variable {vocabulary : Vocabulary Op Ret} {records : List Record} {a : Progress Op Ret}
variable {i j n : Nat} {seq : UInt64} {p : ProcessId} {id : CallId} {call : Call} {value : Value}
variable {op : Op}

section Positions

theorem kept_of_operation? (h : operation? vocabulary records i = some op) :
    Kept vocabulary records i :=
  .inl (by simp [h])

theorem kept_of_answered? (h : answered? vocabulary records i = some j) :
    Kept vocabulary records i :=
  .inr (by simp [h])

theorem position_succ (h : Kept vocabulary records n) :
    position vocabulary records (n + 1) = position vocabulary records n + 1 := by
  simp [position, Nat.count_succ, h]

theorem position_succ_of_not (h : ¬ Kept vocabulary records n) :
    position vocabulary records (n + 1) = position vocabulary records n := by
  simp [position, Nat.count_succ, h]

theorem position_lt (h : Kept vocabulary records i) (hlt : i < n) :
    position vocabulary records i < position vocabulary records n :=
  Nat.count_strict_mono h hlt

theorem position_inj (hi : Kept vocabulary records i) (hj : Kept vocabulary records j) :
    position vocabulary records i = position vocabulary records j ↔ i = j :=
  ⟨Nat.count_injective hi hj, congrArg _⟩

end Positions

section Events

theorem eventAt?_succ (h : answered? vocabulary records n = some i) :
    eventAt? vocabulary records (n + 1) i =
      (eventAt? vocabulary records n i).map (·.withExpected (result? vocabulary records n)) := by
  unfold eventAt?
  split
  · simp [Event.withExpected, observed?_succ h, Function.comp_def]
  · simp [Event.withExpected, Function.comp_def]
  · rfl

theorem eventAt?_succ_of_ne (h : answered? vocabulary records n ≠ some i) :
    eventAt? vocabulary records (n + 1) i = eventAt? vocabulary records n i := by
  unfold eventAt?
  split
  · rw [observed?_succ_of_ne h]
  · rfl
  · rfl

end Events

section Waiting

variable {α : Type} {f g : α → Bool}

theorem filter_eraseP_self (l : List α) : (l.eraseP f).filter f = (l.filter f).tail := by
  induction l with
  | nil => rfl
  | cons x l ih =>
    cases h : f x with
    | true => simp [h]
    | false => simpa [List.eraseP_cons, h] using ih

theorem filter_eraseP_of_disjoint (hfg : ∀ x, f x = true → g x = false) (l : List α) :
    (l.eraseP f).filter g = l.filter g := by
  induction l with
  | nil => rfl
  | cons x l ih =>
    cases h : f x with
    | true => simp [h, hfg x h]
    | false =>
      rw [List.eraseP_cons, h, cond_false, List.filter_cons, List.filter_cons, ih]

end Waiting

namespace Tracks

theorem start : Tracks vocabulary records {} 0 where
  size := by simp [position]
  event i hi := absurd hi (Nat.not_lt_zero i)
  waiting _ := rfl
  swallowing _ := rfl
  ignored := rfl
  malformed := rfl

/-- The latest entry of the line is the first to be found waiting. -/
theorem head?_waiting (h : Tracks vocabulary records a n) (p : ProcessId) :
    (a.waiting.find? (·.process = p)).map (fun w => (some w.op, w.position)) =
      (line vocabulary records p n).waiting.head?.map fun i =>
        (operation? vocabulary records i, position vocabulary records i) := by
  rw [← List.head?_map, ← h.waiting, List.head?_map, List.head?_filter]

theorem mem_swallowing_iff (h : Tracks vocabulary records a n) (p : ProcessId) :
    p ∈ a.swallowing ↔ (line vocabulary records p n).skipped ≠ 0 := by
  rw [← h.swallowing, ← List.count_pos_iff]
  omega

theorem size_of_not_kept (h : Tracks vocabulary records a n) (hkept : ¬ Kept vocabulary records n) :
    a.events.size = position vocabulary records (n + 1) := by
  rw [position_succ_of_not hkept]
  exact h.size

theorem event_of_not_kept (h : Tracks vocabulary records a n)
    (hkept : ¬ Kept vocabulary records n) :
    ∀ i < n + 1, Kept vocabulary records i →
      a.events[position vocabulary records i]? = eventAt? vocabulary records (n + 1) i := by
  intro i hi hki
  have hne : i ≠ n := by
    rintro rfl
    exact hkept hki
  rw [eventAt?_succ_of_ne fun h => hkept (kept_of_answered? h)]
  exact h.event i (by omega) hki

section Invocations

variable (h : Tracks vocabulary records a n) (hn : records[n]? = some ⟨seq, p, id, .invoke call⟩)

include h hn

theorem invoke_outside (htranslate : vocabulary.translate call = none) :
    Tracks vocabulary records
      { a with swallowing := p :: a.swallowing, ignored := a.ignored + 1 } (n + 1) := by
  have hkept : ¬ Kept vocabulary records n := by
    simp [Kept, operation?, Record.operation?, answered?, hn, htranslate]
  exact {
    size := h.size_of_not_kept hkept
    event := h.event_of_not_kept hkept
    waiting := by
      intro q
      by_cases hq : p = q
      · rw [line_succ hn hq]
        simpa [Line.add, htranslate] using h.waiting q
      · rw [line_succ_of_ne hn hq]
        exact h.waiting q
    swallowing := by
      intro q
      by_cases hq : p = q
      · rw [line_succ hn hq, ← hq]
        simpa [Line.add, htranslate] using h.swallowing p
      · rw [line_succ_of_ne hn hq, List.count_cons_of_ne hq]
        exact h.swallowing q
    ignored := by simp [List.range_succ, skips, hn, htranslate, h.ignored]
    malformed := by simp [List.range_succ, malformed?, hn, h.malformed] }

theorem invoke_inside (htranslate : vocabulary.translate call = some op) :
    Tracks vocabulary records { a with
      events := a.events.push (.invoke p (toString call) op none)
      waiting := a.waiting ++ [⟨p, op, a.events.size⟩] } (n + 1) := by
  have hop : operation? vocabulary records n = some op := by
    simp [operation?, Record.operation?, hn, htranslate]
  have hkept : Kept vocabulary records n := kept_of_operation? hop
  have hunknown : observed? vocabulary records (n + 1) n = none := by
    refine observed?_eq_none fun r hr hrn => ?_
    have := lt_of_answered? hrn
    omega
  exact {
    size := by simp [position_succ hkept, h.size]
    event := by
      intro i hi hki
      rcases Nat.lt_succ_iff_lt_or_eq.1 hi with hlt | rfl
      · have hpos := position_lt hki hlt
        rw [Array.getElem?_push, h.size, if_neg (by omega),
          eventAt?_succ_of_ne (by simp [answered?, hn])]
        exact h.event i hlt hki
      · rw [← h.size, Array.getElem?_push_size]
        simp [eventAt?, hn, htranslate, hunknown]
    waiting := by
      intro q
      by_cases hq : p = q
      · rw [line_succ hn hq]
        simp [Line.add, htranslate, hq, h.waiting q, hop, h.size]
      · rw [line_succ_of_ne hn hq]
        simpa [hq] using h.waiting q
    swallowing := by
      intro q
      by_cases hq : p = q
      · rw [line_succ hn hq]
        simpa [Line.add, htranslate] using h.swallowing q
      · rw [line_succ_of_ne hn hq]
        exact h.swallowing q
    ignored := by simp [List.range_succ, skips, hn, htranslate, h.ignored]
    malformed := by simp [List.range_succ, malformed?, hn, h.malformed] }

theorem invoke : Tracks vocabulary records (a.invoke vocabulary p call) (n + 1) := by
  unfold Progress.invoke
  cases htranslate : vocabulary.translate call with
  | none => exact h.invoke_outside hn htranslate
  | some op => exact h.invoke_inside hn htranslate

end Invocations

section Returns

variable (h : Tracks vocabulary records a n) (hn : records[n]? = some ⟨seq, p, id, .ret value⟩)

include h hn

/-- A return to a process with an open call outside the vocabulary. -/
theorem ret_outside (hskipped : (line vocabulary records p n).skipped ≠ 0) :
    Tracks vocabulary records { a with swallowing := a.swallowing.erase p } (n + 1) := by
  have hkept : ¬ Kept vocabulary records n := by
    simp [Kept, operation?, Record.operation?, answered?, hn, hskipped]
  have hmalformed : malformed? vocabulary records n = none := by
    simp only [malformed?, hn, ite_eq_right_iff, reduceCtorEq, imp_false]
    intro heq
    simp [heq] at hskipped
  exact {
    size := h.size_of_not_kept hkept
    event := h.event_of_not_kept hkept
    waiting := by
      intro q
      by_cases hq : p = q
      · rw [line_succ hn hq, ← hq]
        simpa [Line.add, hskipped] using h.waiting p
      · rw [line_succ_of_ne hn hq]
        exact h.waiting q
    swallowing := by
      intro q
      by_cases hq : p = q
      · rw [line_succ hn hq, ← hq]
        simp [Line.add, hskipped, List.count_erase_self, h.swallowing p]
      · rw [line_succ_of_ne hn hq, List.count_erase_of_ne (Ne.symm hq)]
        exact h.swallowing q
    ignored := by simp [List.range_succ, skips, hn, h.ignored]
    malformed := by simp [List.range_succ, hmalformed, h.malformed] }

theorem ret_malformed (hline : line vocabulary records p n = {}) :
    Tracks vocabulary records { a with malformed := a.malformed.push ⟨seq, p⟩ } (n + 1) := by
  have hkept : ¬ Kept vocabulary records n := by
    simp [Kept, operation?, Record.operation?, answered?, hn, hline]
  exact {
    size := h.size_of_not_kept hkept
    event := h.event_of_not_kept hkept
    waiting := by
      intro q
      by_cases hq : p = q
      · rw [line_succ hn hq, ← hq]
        simpa [Line.add, hline] using h.waiting p
      · rw [line_succ_of_ne hn hq]
        exact h.waiting q
    swallowing := by
      intro q
      by_cases hq : p = q
      · rw [line_succ hn hq, ← hq]
        simpa [Line.add, hline] using h.swallowing p
      · rw [line_succ_of_ne hn hq]
        exact h.swallowing q
    ignored := by simp [List.range_succ, skips, hn, h.ignored]
    malformed := by simp [List.range_succ, malformed?, hn, hline, h.malformed] }

/-- A return to a process whose first waiting invocation is `i`. -/
theorem ret_answer (hskipped : (line vocabulary records p n).skipped = 0)
    (hhead : (line vocabulary records p n).waiting.head? = some i)
    (hop : operation? vocabulary records i = some op) :
    Tracks vocabulary records { a with
      events := (a.events.modify (position vocabulary records i)
        (·.withExpected (vocabulary.observe op value))).push
          (.ret p (vocabulary.observe op value))
      waiting := a.waiting.eraseP (·.process = p) } (n + 1) := by
  have hanswered : answered? vocabulary records n = some i := by
    simp [answered?, hn, hskipped, hhead]
  have hkept : Kept vocabulary records n := kept_of_answered? hanswered
  have hresult : vocabulary.observe op value = result? vocabulary records n := by
    simp [result?, hanswered, hop, value?, Record.value?, hn]
  have hmalformed : malformed? vocabulary records n = none := by
    simp only [malformed?, hn, ite_eq_right_iff, reduceCtorEq, imp_false]
    intro heq
    simp [heq] at hhead
  exact {
    size := by simp [position_succ hkept, h.size]
    event := by
      intro j hj hkj
      rw [Array.getElem?_push, Array.size_modify, h.size, hresult]
      rcases Nat.lt_succ_iff_lt_or_eq.1 hj with hlt | rfl
      · have hpos := position_lt hkj hlt
        rw [if_neg (by omega), Array.getElem?_modify, h.event j hlt hkj]
        by_cases hij : i = j
        · rw [if_pos (by rw [hij]), eventAt?_succ (by rw [hanswered, hij])]
        · rw [if_neg fun heq => hij ((position_inj (kept_of_operation? hop) hkj).1 heq),
            eventAt?_succ_of_ne (by simpa [hanswered] using hij)]
      · rw [if_pos rfl]
        simp [eventAt?, hn, hanswered]
    waiting := by
      intro q
      by_cases hq : p = q
      · rw [← hq, filter_eraseP_self, List.map_tail, h.waiting p, line_succ hn rfl]
        simp [Line.add, hskipped, List.map_tail]
      · rw [line_succ_of_ne hn hq, filter_eraseP_of_disjoint]
        · exact h.waiting q
        · intro x hx
          have hxp : x.process = p := by simpa using hx
          simpa [hxp] using hq
    swallowing := by
      intro q
      by_cases hq : p = q
      · rw [line_succ hn hq, ← hq]
        simpa [Line.add, hskipped] using h.swallowing p
      · rw [line_succ_of_ne hn hq]
        exact h.swallowing q
    ignored := by simp [List.range_succ, skips, hn, h.ignored]
    malformed := by simp [List.range_succ, hmalformed, h.malformed] }

theorem ret : Tracks vocabulary records (a.ret vocabulary seq p value) (n + 1) := by
  have hhead := h.head?_waiting p
  unfold Progress.ret
  by_cases hmem : p ∈ a.swallowing
  · rw [if_pos hmem]
    exact h.ret_outside hn ((h.mem_swallowing_iff p).1 hmem)
  have hskipped : (line vocabulary records p n).skipped = 0 := by
    by_contra hne
    exact hmem ((h.mem_swallowing_iff p).2 hne)
  rw [if_neg hmem]
  cases hfind : a.waiting.find? (·.process = p) with
  | none =>
    refine h.ret_malformed hn ?_
    cases hline : line vocabulary records p n
    simp_all
  | some invocation =>
    rw [hfind, Option.map_some, eq_comm, Option.map_eq_some_iff] at hhead
    obtain ⟨i, hi, hpair⟩ := hhead
    obtain ⟨hop, hposition⟩ := Prod.mk.inj hpair
    have := h.ret_answer hn hskipped hi hop
    rwa [hposition] at this

end Returns

theorem add {record : Record} (h : Tracks vocabulary records a n) (hn : records[n]? = some record) :
    Tracks vocabulary records (a.add vocabulary record) (n + 1) := by
  obtain ⟨seq, p, id, kind⟩ := record
  cases kind with
  | invoke call => exact h.invoke hn
  | ret value => exact h.ret hn

theorem foldl_take (vocabulary : Vocabulary Op Ret) (records : List Record) (n : Nat)
    (hn : n ≤ records.length) :
    Tracks vocabulary records ((records.take n).foldl (Progress.add vocabulary) {}) n := by
  induction n with
  | zero => exact start
  | succ n ih =>
    have hlt : n < records.length := hn
    rw [List.take_add_one, List.getElem?_eq_getElem hlt, Option.toList_some, List.foldl_append]
    exact (ih (Nat.le_of_lt hlt)).add (List.getElem?_eq_getElem hlt)

end Tracks

/-- What the adaptation makes of records in their order. -/
theorem tracks_sorted (vocabulary : Vocabulary Op Ret) (records : List Record) :
    Tracks vocabulary (Record.sorted records)
      ((Record.sorted records).foldl (Progress.add vocabulary) {})
      (Record.sorted records).length := by
  have := Tracks.foldl_take vocabulary (Record.sorted records) _ (Nat.le_refl _)
  rwa [List.take_length] at this

end Linearizability.Adaptation
