import Linearizability.Adaptation
import Mathlib.Data.List.Nodup
import Mathlib.Data.Nat.Count

/-!
# Which invocation a return answers

The returns of a process answer its invocations first come, first served, but as long as some call
outside the vocabulary is open they answer that. What a process is owed shows in its records alone,
taken in their order. Records are said by their positions.
-/

namespace Linearizability

variable {Op Ret : Type}

namespace Record

/-- The operation that the record invokes, unless the call is outside the vocabulary. -/
def operation? (vocabulary : Vocabulary Op Ret) (record : Record) : Option Op :=
  match record.kind with
  | .invoke call => vocabulary.translate call
  | .ret _ => none

/-- The value that the record returns. -/
def value? (record : Record) : Option Value :=
  match record.kind with
  | .invoke _ => none
  | .ret value => some value

end Record

namespace Adaptation

/-- What a process has not been answered: its invocations in the vocabulary, the earliest first, and
the number of its calls outside. -/
structure Line where
  waiting : List Nat := []
  skipped : Nat := 0
  deriving DecidableEq

section Definitions

variable (vocabulary : Vocabulary Op Ret) (records : List Record)

def operation? (i : Nat) : Option Op := records[i]?.bind (Record.operation? vocabulary)

def value? (i : Nat) : Option Value := records[i]?.bind Record.value?

def Line.add (line : Line) (i : Nat) : Record.Kind → Line
  | .invoke call =>
    match vocabulary.translate call with
    | some _ => { line with waiting := line.waiting ++ [i] }
    | none => { line with skipped := line.skipped + 1 }
  | .ret _ =>
    if line.skipped = 0 then { line with waiting := line.waiting.tail }
    else { line with skipped := line.skipped - 1 }

/-- The line of a process after `n` records. -/
def line (p : ProcessId) : Nat → Line
  | 0 => {}
  | n + 1 =>
    match records[n]? with
    | some record =>
      if record.process = p then (line p n).add vocabulary n record.kind else line p n
    | none => line p n

/-- The invocation that this return answers. -/
def answered? (r : Nat) : Option Nat :=
  match records[r]? with
  | some ⟨_, process, _, .ret _⟩ =>
    if (line vocabulary records process r).skipped = 0 then
      (line vocabulary records process r).waiting.head?
    else none
  | _ => none

/-- The result that this return tells of. -/
def result? (r : Nat) : Option Ret := do
  let a ← answered? vocabulary records r
  let op ← operation? vocabulary records a
  let value ← value? records r
  vocabulary.observe op value

/-- The result that an invocation is known to have after `n` records. -/
def observed? (n a : Nat) : Option Ret :=
  (List.range n).findSome? fun r =>
    if answered? vocabulary records r = some a then result? vocabulary records r else none

end Definitions

variable {vocabulary : Vocabulary Op Ret} {records : List Record} {record : Record}
variable {p q : ProcessId} {a n r r' : Nat}

section Lines

theorem line_succ (h : records[n]? = some record) (hp : record.process = p) :
    line vocabulary records p (n + 1) =
      (line vocabulary records p n).add vocabulary n record.kind := by
  simp [line, h, hp]

theorem line_succ_of_ne (h : records[n]? = some record) (hp : record.process ≠ p) :
    line vocabulary records p (n + 1) = line vocabulary records p n := by
  simp [line, h, hp]

theorem line_succ_eq (vocabulary : Vocabulary Op Ret) (records : List Record) (p : ProcessId)
    (n : Nat) :
    line vocabulary records p (n + 1) = line vocabulary records p n ∨
      ∃ record, records[n]? = some record ∧ record.process = p ∧
        line vocabulary records p (n + 1) =
          (line vocabulary records p n).add vocabulary n record.kind := by
  cases h : records[n]? with
  | none => exact .inl (by simp [line, h])
  | some record =>
    by_cases hp : record.process = p
    · exact .inr ⟨record, rfl, hp, line_succ h hp⟩
    · exact .inl (line_succ_of_ne h hp)

/-- A record lets nothing wait but itself. -/
theorem Line.mem_waiting_add {line : Line} {kind : Record.Kind}
    (h : a ∈ (line.add vocabulary n kind).waiting) :
    a ∈ line.waiting ∨
      a = n ∧ ∃ call, kind = .invoke call ∧ (vocabulary.translate call).isSome := by
  unfold Line.add at h
  split at h
  · rename_i call
    split at h
    · rename_i op hop
      exact (List.mem_append.1 h).imp_right fun h =>
        ⟨List.mem_singleton.1 h, call, rfl, by simp [hop]⟩
    · exact .inl h
  · split at h
    · exact .inl (List.mem_of_mem_tail h)
    · exact .inl h

/-- Only invocations in the vocabulary wait, and only for their own process. -/
theorem exists_of_mem_waiting (h : a ∈ (line vocabulary records p n).waiting) :
    a < n ∧ ∃ record, records[a]? = some record ∧ record.process = p ∧
      (operation? vocabulary records a).isSome := by
  induction n with
  | zero => simp [line] at h
  | succ n ih =>
    rcases line_succ_eq vocabulary records p n with heq | ⟨record, hn, hp, heq⟩
    · rw [heq] at h
      exact (ih h).imp_left fun hlt => Nat.lt_succ_of_lt hlt
    · rw [heq] at h
      rcases Line.mem_waiting_add h with h | ⟨rfl, call, hkind, hop⟩
      · exact (ih h).imp_left fun hlt => Nat.lt_succ_of_lt hlt
      · obtain ⟨seq, process, id, kind⟩ := record
        obtain rfl : kind = .invoke call := hkind
        exact ⟨Nat.lt_succ_self a, _, hn, hp,
          by simpa [operation?, hn, Record.operation?] using hop⟩

theorem waiting_nodup (vocabulary : Vocabulary Op Ret) (records : List Record) (p : ProcessId)
    (n : Nat) : (line vocabulary records p n).waiting.Nodup := by
  induction n with
  | zero => exact List.nodup_nil
  | succ n ih =>
    rcases line_succ_eq vocabulary records p n with heq | ⟨record, -, -, heq⟩
    · rwa [heq]
    · rw [heq]
      unfold Line.add
      split
      · split
        · refine List.nodup_append.2 ⟨ih, List.nodup_singleton n, ?_⟩
          rintro a ha _ hb rfl
          obtain rfl := List.mem_singleton.1 hb
          exact Nat.lt_irrefl a (exists_of_mem_waiting ha).1
        · exact ih
      · split
        · exact ih.sublist (List.tail_sublist _)
        · exact ih

end Lines

section Answers

theorem answered?_eq_some_iff : answered? vocabulary records r = some a ↔
    ∃ record value, records[r]? = some record ∧ record.kind = .ret value ∧
      (line vocabulary records record.process r).skipped = 0 ∧
      (line vocabulary records record.process r).waiting.head? = some a := by
  unfold answered?
  split
  · rename_i seq process id value h
    simp only [h, Option.some.injEq, exists_and_left, exists_eq_left', Record.Kind.ret.injEq,
      Option.ite_none_right_eq_some]
  · rename_i hno
    simp only [reduceCtorEq, false_iff]
    rintro ⟨⟨seq, process, id, kind⟩, value, hr, rfl, -⟩
    exact hno _ _ _ _ hr

theorem operation?_of_answered? (h : answered? vocabulary records r = some a) :
    (operation? vocabulary records a).isSome := by
  obtain ⟨record, value, -, -, -, hhead⟩ := answered?_eq_some_iff.1 h
  obtain ⟨-, _, -, -, hop⟩ := exists_of_mem_waiting (List.mem_of_mem_head? hhead)
  exact hop

theorem lt_of_answered? (h : answered? vocabulary records r = some a) : a < r := by
  obtain ⟨record, value, -, -, -, hhead⟩ := answered?_eq_some_iff.1 h
  exact (exists_of_mem_waiting (List.mem_of_mem_head? hhead)).1

/-- An invocation that is answered waits no longer. -/
theorem not_mem_waiting_of_answered? (h : answered? vocabulary records r = some a) (hlt : r < n) :
    a ∉ (line vocabulary records p n).waiting := by
  intro hmem
  obtain ⟨record, value, hr, hkind, hskipped, hhead⟩ := answered?_eq_some_iff.1 h
  obtain ⟨-, invoking, ha, hprocess, -⟩ := exists_of_mem_waiting (List.mem_of_mem_head? hhead)
  obtain ⟨-, invoking', ha', hprocess', -⟩ := exists_of_mem_waiting hmem
  obtain rfl : record.process = p := by
    rw [← hprocess, ← hprocess', Option.some.inj (ha.symm.trans ha')]
  obtain ⟨m, rfl⟩ := Nat.exists_eq_add_of_lt hlt
  induction m with
  | zero =>
    obtain ⟨rest, hrest⟩ := List.head?_eq_some_iff.1 hhead
    have hnodup := waiting_nodup vocabulary records record.process r
    rw [line_succ hr rfl, hkind] at hmem
    simp only [Line.add, hskipped, if_true, hrest, List.tail_cons] at hmem
    rw [hrest] at hnodup
    exact (List.nodup_cons.1 hnodup).1 hmem
  | succ m ih =>
    refine ih (by omega) ?_
    have hne : a ≠ r + m + 1 := by
      have := lt_of_answered? h
      omega
    rcases line_succ_eq vocabulary records record.process (r + m + 1) with heq | ⟨last, -, -, heq⟩
    · rwa [show r + (m + 1) + 1 = r + m + 1 + 1 by omega, heq] at hmem
    · rw [show r + (m + 1) + 1 = r + m + 1 + 1 by omega, heq] at hmem
      exact (Line.mem_waiting_add hmem).resolve_right fun h => hne h.1

theorem answered?_unique (h : answered? vocabulary records r = some a)
    (h' : answered? vocabulary records r' = some a) : r = r' := by
  obtain ⟨_, _, -, -, -, hhead⟩ := answered?_eq_some_iff.1 h
  obtain ⟨_, _, -, -, -, hhead'⟩ := answered?_eq_some_iff.1 h'
  rcases Nat.lt_trichotomy r r' with hlt | heq | hlt
  · exact absurd (List.mem_of_mem_head? hhead') (not_mem_waiting_of_answered? h hlt)
  · exact heq
  · exact absurd (List.mem_of_mem_head? hhead) (not_mem_waiting_of_answered? h' hlt)

theorem observed?_succ_of_ne (h : answered? vocabulary records n ≠ some a) :
    observed? vocabulary records (n + 1) a = observed? vocabulary records n a := by
  simp [observed?, List.range_succ, List.findSome?_append, h]

/-- A return answers an invocation of which nothing was known before. -/
theorem observed?_succ (h : answered? vocabulary records n = some a) :
    observed? vocabulary records (n + 1) a = result? vocabulary records n := by
  have hnone : observed? vocabulary records n a = none := by
    refine List.findSome?_eq_none_iff.2 fun r hr => if_neg fun hra => ?_
    have := answered?_unique hra h
    simp [this] at hr
  rw [observed?] at hnone ⊢
  simp [List.range_succ, List.findSome?_append, hnone, h]

theorem observed?_of_answered? (h : answered? vocabulary records r = some a) (hlt : r < n) :
    observed? vocabulary records n a = result? vocabulary records r := by
  obtain ⟨m, rfl⟩ := Nat.exists_eq_add_of_lt hlt
  induction m with
  | zero => exact observed?_succ h
  | succ m ih =>
    have hne : answered? vocabulary records (r + m + 1) ≠ some a := fun h' => by
      have := answered?_unique h h'
      omega
    rw [show r + (m + 1) + 1 = r + m + 1 + 1 by omega, observed?_succ_of_ne hne]
    exact ih (by omega)

theorem observed?_eq_none (h : ∀ r < n, answered? vocabulary records r ≠ some a) :
    observed? vocabulary records n a = none :=
  List.findSome?_eq_none_iff.2 fun r hr => if_neg (h r (List.mem_range.1 hr))

end Answers

end Adaptation
end Linearizability
