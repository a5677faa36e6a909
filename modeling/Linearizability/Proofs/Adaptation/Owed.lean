import Linearizability.Proofs.Adaptation.Alternation

/-!
# What a process is owed

Whatever the records, a return settles the call that heads the queue of its process: its open calls
outside the vocabulary, and behind them the invocations that wait. Every call is settled by one
return or still owed, and the invocations in the vocabulary are answered in their order. How long
the queue is does not depend on the vocabulary.
-/

namespace Linearizability.Adaptation

open Turn

variable {Op Ret : Type}

section Definitions

variable (vocabulary : Vocabulary Op Ret) (records : List Record)

/-- The open calls of a process outside the vocabulary after `n` records, the earliest first. -/
def passedOver (p : ProcessId) : Nat → List Nat
  | 0 => []
  | n + 1 =>
    match records[n]?.map Record.turn with
    | some ⟨q, invokes⟩ =>
      if q = p then
        if invokes then
          if skips vocabulary records n then passedOver p n ++ [n] else passedOver p n
        else (passedOver p n).tail
      else passedOver p n
    | none => passedOver p n

/-- The open calls of a process, in the order in which returns settle them. -/
def owed (p : ProcessId) (n : Nat) : List Nat :=
  passedOver vocabulary records p n ++ (line vocabulary records p n).waiting

/-- The call that this return settles. -/
def settled? (r : Nat) : Option Nat :=
  match records[r]?.map Record.turn with
  | some ⟨p, false⟩ => (owed vocabulary records p r).head?
  | _ => none

end Definitions

variable {vocabulary : Vocabulary Op Ret} {records : List Record} {record : Record}
variable {p q : ProcessId} {a i n r r' : Nat}

section Queue

theorem line_succ_of_forall_ne
    (h : ∀ turn, (records.map Record.turn)[n]? = some turn → turn.process ≠ p) :
    line vocabulary records p (n + 1) = line vocabulary records p n := by
  cases hn : records[n]? with
  | none => simp [line, hn]
  | some record => exact line_succ_of_ne hn (h record.turn (by simp [hn]))

theorem passedOver_succ_of_invokes (h : (records.map Record.turn)[n]? = some ⟨p, true⟩) :
    passedOver vocabulary records p (n + 1) =
      passedOver vocabulary records p n ++ if skips vocabulary records n then [n] else [] := by
  rw [List.getElem?_map] at h
  simp only [passedOver, h, if_true]
  split <;> simp

theorem passedOver_succ_of_returns (h : (records.map Record.turn)[n]? = some ⟨p, false⟩) :
    passedOver vocabulary records p (n + 1) = (passedOver vocabulary records p n).tail := by
  rw [List.getElem?_map] at h
  simp [passedOver, h]

theorem passedOver_succ_of_forall_ne
    (h : ∀ turn, (records.map Record.turn)[n]? = some turn → turn.process ≠ p) :
    passedOver vocabulary records p (n + 1) = passedOver vocabulary records p n := by
  rw [List.getElem?_map] at h
  rw [passedOver]
  split
  · rename_i q invokes hturn
    exact if_neg (h _ hturn)
  · rfl

/-- The line counts the calls that are passed over. -/
theorem skipped_line (vocabulary : Vocabulary Op Ret) (records : List Record) (p : ProcessId)
    (n : Nat) :
    (line vocabulary records p n).skipped = (passedOver vocabulary records p n).length := by
  induction n with
  | zero => rfl
  | succ n ih =>
    rcases turn_cases (records.map Record.turn) p n with hturn | hturn | hother
    · obtain ⟨seq, id, call, hn⟩ := call_of_turn hturn
      rw [passedOver_succ_of_invokes hturn, List.length_append, ← ih, line_succ hn rfl]
      cases htranslate : vocabulary.translate call <;> simp [Line.add, skips, hn, htranslate]
    · obtain ⟨seq, id, value, hn⟩ := value?_of_turn hturn
      rw [passedOver_succ_of_returns hturn, List.length_tail, ← ih, line_succ hn rfl]
      by_cases hskipped : (line vocabulary records p n).skipped = 0 <;> simp [Line.add, hskipped]
    · rw [line_succ_of_forall_ne hother, passedOver_succ_of_forall_ne hother, ih]

theorem skips_of_mem_passedOver (h : a ∈ passedOver vocabulary records p n) :
    skips vocabulary records a := by
  induction n with
  | zero => simp [passedOver] at h
  | succ n ih =>
    rcases turn_cases (records.map Record.turn) p n with hturn | hturn | hother
    · rw [passedOver_succ_of_invokes hturn, List.mem_append] at h
      rcases h with h | h
      · exact ih h
      · obtain ⟨hskips, hmem⟩ := List.mem_ite_nil_right.1 h
        rwa [List.mem_singleton.1 hmem]
    · rw [passedOver_succ_of_returns hturn] at h
      exact ih (List.mem_of_mem_tail h)
    · rw [passedOver_succ_of_forall_ne hother] at h
      exact ih h

/-- A call is in the vocabulary or passed over. -/
theorem skips_eq_isNone (h : (records.map Record.turn)[i]? = some ⟨p, true⟩) :
    skips vocabulary records i = (operation? vocabulary records i).isNone := by
  obtain ⟨seq, id, call, hi⟩ := call_of_turn h
  simp [skips, operation?, Record.operation?, hi]

theorem operation?_of_skips (h : skips vocabulary records i) :
    operation? vocabulary records i = none := by
  unfold skips at h
  split at h
  · rename_i hi
    simpa [operation?, Record.operation?, hi] using h
  · simp at h

/-- An invocation joins the queue, but not always at the end of it. -/
theorem owed_succ_of_invokes (h : (records.map Record.turn)[n]? = some ⟨p, true⟩) :
    (owed vocabulary records p (n + 1)).Perm (owed vocabulary records p n ++ [n]) := by
  rw [owed, passedOver_succ_of_invokes h, owed, List.append_assoc, List.append_assoc]
  refine List.Perm.append_left _ ?_
  obtain ⟨seq, id, call, hn⟩ := call_of_turn h
  rw [line_succ hn rfl]
  cases htranslate : vocabulary.translate call with
  | none =>
    simp only [Line.add, skips, hn, htranslate, Option.isNone_none, if_true]
    exact List.perm_append_comm
  | some op => simp [Line.add, skips, hn, htranslate]

/-- A return takes the head of the queue. -/
theorem owed_succ_of_returns (h : (records.map Record.turn)[n]? = some ⟨p, false⟩) :
    owed vocabulary records p (n + 1) = (owed vocabulary records p n).tail := by
  obtain ⟨seq, id, value, hn⟩ := value?_of_turn h
  have hskipped := skipped_line vocabulary records p n
  rw [owed, passedOver_succ_of_returns h, line_succ hn rfl, owed]
  cases hpassed : passedOver vocabulary records p n with
  | nil => simp [Line.add, hskipped, hpassed]
  | cons b rest => simp [Line.add, hskipped, hpassed]

theorem owed_succ_of_forall_ne
    (h : ∀ turn, (records.map Record.turn)[n]? = some turn → turn.process ≠ p) :
    owed vocabulary records p (n + 1) = owed vocabulary records p n := by
  rw [owed, passedOver_succ_of_forall_ne h, line_succ_of_forall_ne h, owed]

theorem settled?_of_returns (h : (records.map Record.turn)[r]? = some ⟨p, false⟩) :
    settled? vocabulary records r = (owed vocabulary records p r).head? := by
  rw [List.getElem?_map] at h
  simp [settled?, h]

end Queue

section Ranges

variable {α : Type}

theorem filter_range_succ (P : Nat → Bool) (n : Nat) : (List.range (n + 1)).filter P =
    (List.range n).filter P ++ if P n then [n] else [] := by
  rw [List.range_succ, List.filter_append, List.filter_singleton]
  cases P n <;> rfl

theorem filterMap_range_succ (f : Nat → Option α) (n : Nat) : (List.range (n + 1)).filterMap f =
    (List.range n).filterMap f ++ (f n).toList := by
  rw [List.range_succ, List.filterMap_append]
  cases h : f n <;> simp [h]

end Ranges

section Settled

variable (vocabulary : Vocabulary Op Ret) (records : List Record)

/-- The calls of a process among the first `n` records. -/
def callsBefore (p : ProcessId) (n : Nat) : List Nat :=
  (List.range n).filter fun i => (records.map Record.turn)[i]? = some ⟨p, true⟩

/-- The calls of a process that its returns among the first `n` records settle. -/
def settledBefore (p : ProcessId) (n : Nat) : List Nat :=
  (List.range n).filterMap fun r =>
    if (records.map Record.turn)[r]? = some ⟨p, false⟩ then settled? vocabulary records r else none

/-- Every call is settled by one return or still owed. -/
theorem callsBefore_perm (p : ProcessId) (n : Nat) : (callsBefore records p n).Perm
    (settledBefore vocabulary records p n ++ owed vocabulary records p n) := by
  induction n with
  | zero => exact .refl []
  | succ n ih =>
    rw [callsBefore, filter_range_succ, settledBefore, filterMap_range_succ, ← callsBefore,
      ← settledBefore]
    rcases turn_cases (records.map Record.turn) p n with hturn | hturn | hother
    · have hjoin : (owed vocabulary records p (n + 1)).Perm _ := owed_succ_of_invokes hturn
      simpa [hturn] using (ih.append_right [n]).trans (by simpa using hjoin.symm.append_left _)
    · rw [owed_succ_of_returns hturn, settled?_of_returns hturn]
      cases howed : owed vocabulary records p n with
      | nil => simpa [hturn, howed] using ih
      | cons a rest => simpa [hturn, howed] using ih
    · have hno : ∀ invokes, (records.map Record.turn)[n]? ≠ some ⟨p, invokes⟩ :=
        fun invokes hturn => hother _ hturn rfl
      simpa only [hno, owed_succ_of_forall_ne hother, decide_false, Bool.false_eq_true, if_false,
        List.append_nil, Option.toList_none] using ih

end Settled

section Settled

theorem mem_callsBefore : a ∈ callsBefore records p n ↔
    a < n ∧ (records.map Record.turn)[a]? = some ⟨p, true⟩ := by
  simp [callsBefore]

theorem mem_settledBefore : a ∈ settledBefore vocabulary records p n ↔
    ∃ r < n, (records.map Record.turn)[r]? = some ⟨p, false⟩ ∧
      settled? vocabulary records r = some a := by
  simp [settledBefore]

theorem of_mem_owed (h : a ∈ owed vocabulary records p n) :
    a < n ∧ (records.map Record.turn)[a]? = some ⟨p, true⟩ :=
  mem_callsBefore.1 <|
    (callsBefore_perm vocabulary records p n).symm.subset (List.mem_append_right _ h)

/-- A call that is settled is owed no longer. -/
theorem not_mem_owed_of_mem_settledBefore (h : a ∈ settledBefore vocabulary records p n) :
    a ∉ owed vocabulary records p n := by
  have hnodup : (callsBefore records p n).Nodup := List.nodup_range.filter _
  have hdisjoint :=
    (List.nodup_append.1 ((callsBefore_perm vocabulary records p n).nodup hnodup)).2.2
  exact fun hmem => hdisjoint a h a hmem rfl

theorem settled?_eq_some_iff : settled? vocabulary records r = some a ↔
    ∃ p, (records.map Record.turn)[r]? = some ⟨p, false⟩ ∧
      (owed vocabulary records p r).head? = some a := by
  constructor
  · intro h
    unfold settled? at h
    split at h
    · rename_i p hturn
      exact ⟨p, by rwa [List.getElem?_map], h⟩
    · simp at h
  · rintro ⟨p, hturn, hhead⟩
    rwa [settled?_of_returns hturn]

/-- A return settles an earlier call of its process. -/
theorem call_of_settled? (h : settled? vocabulary records r = some a) :
    a < r ∧ ∃ p, (records.map Record.turn)[r]? = some ⟨p, false⟩ ∧
      (records.map Record.turn)[a]? = some ⟨p, true⟩ := by
  obtain ⟨p, hturn, hhead⟩ := settled?_eq_some_iff.1 h
  obtain ⟨hlt, hcall⟩ := of_mem_owed (List.mem_of_mem_head? hhead)
  exact ⟨hlt, p, hturn, hcall⟩

theorem not_settled?_of_lt (h : settled? vocabulary records r = some a) (hlt : r < r') :
    settled? vocabulary records r' ≠ some a := by
  intro h'
  obtain ⟨p, hturn, hhead⟩ := settled?_eq_some_iff.1 h
  obtain ⟨q, hturn', hhead'⟩ := settled?_eq_some_iff.1 h'
  have hcall := (of_mem_owed (List.mem_of_mem_head? hhead)).2
  have hcall' := (of_mem_owed (List.mem_of_mem_head? hhead')).2
  obtain rfl : p = q := by simpa using hcall.symm.trans hcall'
  exact not_mem_owed_of_mem_settledBefore (mem_settledBefore.2 ⟨r, hlt, hturn, h⟩)
    (List.mem_of_mem_head? hhead')

/-- No call is settled twice. -/
theorem settled?_unique (h : settled? vocabulary records r = some a)
    (h' : settled? vocabulary records r' = some a) : r = r' := by
  rcases Nat.lt_trichotomy r r' with hlt | heq | hlt
  · exact absurd h' (not_settled?_of_lt h hlt)
  · exact heq
  · exact absurd h (not_settled?_of_lt h' hlt)

theorem owed_eq_nil_iff : owed vocabulary records p n = [] ↔
    ∀ a < n, (records.map Record.turn)[a]? = some ⟨p, true⟩ →
      ∃ r < n, settled? vocabulary records r = some a := by
  have hperm := callsBefore_perm vocabulary records p n
  constructor
  · intro hnil a hlt hcall
    rw [hnil, List.append_nil] at hperm
    obtain ⟨r, hr, -, hsettled⟩ :=
      mem_settledBefore.1 (hperm.subset (mem_callsBefore.2 ⟨hlt, hcall⟩))
    exact ⟨r, hr, hsettled⟩
  · intro hall
    refine List.eq_nil_iff_forall_not_mem.2 fun a ha => ?_
    obtain ⟨hlt, hcall⟩ := of_mem_owed ha
    obtain ⟨r, hr, hsettled⟩ := hall a hlt hcall
    obtain ⟨-, q, hturn, hcall'⟩ := call_of_settled? hsettled
    obtain rfl : p = q := by simpa using hcall.symm.trans hcall'
    exact not_mem_owed_of_mem_settledBefore (mem_settledBefore.2 ⟨r, hr, hturn, hsettled⟩) ha

/-- A return settles nothing exactly if every earlier call of its process is settled already. -/
theorem settled?_eq_none_iff (h : (records.map Record.turn)[r]? = some ⟨p, false⟩) :
    settled? vocabulary records r = none ↔
      ∀ a < r, (records.map Record.turn)[a]? = some ⟨p, true⟩ →
        ∃ r' < r, settled? vocabulary records r' = some a := by
  rw [settled?_of_returns h, List.head?_eq_none_iff, owed_eq_nil_iff]

theorem line_eq_empty_iff :
    line vocabulary records p n = {} ↔ owed vocabulary records p n = [] := by
  have hskipped := skipped_line vocabulary records p n
  rw [owed, List.append_eq_nil_iff, ← List.length_eq_zero_iff, ← hskipped]
  cases line vocabulary records p n
  simp [and_comm]

/-- A return is malformed exactly if it settles nothing. -/
theorem malformed?_eq (vocabulary : Vocabulary Op Ret) (records : List Record) (r : Nat) :
    malformed? vocabulary records r = records[r]?.bind fun record =>
      if record.isInvocation ∨ (settled? vocabulary records r).isSome then none
      else some ⟨record.seq, record.process⟩ := by
  unfold malformed?
  split
  · rename_i seq p id value hr
    have hturn : (records.map Record.turn)[r]? = some ⟨p, false⟩ := by
      simp [hr, Record.turn, Record.isInvocation]
    simp only [settled?_of_returns hturn, line_eq_empty_iff]
    cases owed vocabulary records p r <;> simp [hr, Record.isInvocation]
  · rename_i hno
    cases hr : records[r]? with
    | none => rfl
    | some record =>
      obtain ⟨seq, p, id, kind⟩ := record
      cases kind with
      | invoke call => simp [Record.isInvocation]
      | ret value => exact absurd hr (hno seq p id value)

/-- A return answers an invocation exactly if it settles one in the vocabulary. -/
theorem answered?_eq_some_iff_settled? : answered? vocabulary records r = some a ↔
    settled? vocabulary records r = some a ∧ (operation? vocabulary records a).isSome := by
  constructor
  · intro h
    refine ⟨?_, operation?_of_answered? h⟩
    obtain ⟨record, value, hr, hkind, hskipped, hhead⟩ := answered?_eq_some_iff.1 h
    rw [skipped_line, List.length_eq_zero_iff] at hskipped
    refine settled?_eq_some_iff.2 ⟨record.process, ?_, ?_⟩
    · simp [hr, Record.turn, Record.isInvocation, hkind]
    · simpa [owed, hskipped] using hhead
  · rintro ⟨h, hop⟩
    obtain ⟨p, hturn, hhead⟩ := settled?_eq_some_iff.1 h
    obtain ⟨seq, id, value, hr⟩ := value?_of_turn hturn
    rw [owed] at hhead
    cases hpassed : passedOver vocabulary records p r with
    | nil =>
      rw [hpassed] at hhead
      exact answered?_eq_some_iff.2 ⟨_, value, hr, rfl, by simp [skipped_line, hpassed], hhead⟩
    | cons b rest =>
      obtain rfl : b = a := by simpa [hpassed] using hhead
      have hskips : skips vocabulary records b :=
        skips_of_mem_passedOver (hpassed ▸ List.mem_cons_self)
      simp [operation?_of_skips hskips] at hop

end Settled

section OtherVocabulary

variable {Op' Ret' : Type} (vocabulary : Vocabulary Op Ret) (vocabulary' : Vocabulary Op' Ret')

/-- Which calls are in the vocabulary changes their places in the queue, but not its length. -/
theorem length_owed (records : List Record) (p : ProcessId) (n : Nat) :
    (owed vocabulary records p n).length = (owed vocabulary' records p n).length := by
  induction n with
  | zero => rfl
  | succ n ih =>
    rcases turn_cases (records.map Record.turn) p n with hturn | hturn | hother
    · rw [(owed_succ_of_invokes hturn).length_eq, (owed_succ_of_invokes hturn).length_eq,
        List.length_append, List.length_append, ih]
    · rw [owed_succ_of_returns hturn, owed_succ_of_returns hturn, List.length_tail,
        List.length_tail, ih]
    · rw [owed_succ_of_forall_ne hother, owed_succ_of_forall_ne hother, ih]

theorem malformed?_eq_malformed? (records : List Record) (r : Nat) :
    malformed? vocabulary records r = malformed? vocabulary' records r := by
  unfold malformed?
  split
  · rename_i p _ _ _
    have hlength := length_owed vocabulary vocabulary' records p r
    simp only [line_eq_empty_iff, ← List.length_eq_zero_iff, hlength]
  · rfl

end OtherVocabulary

end Linearizability.Adaptation
