import Linearizability.Proofs.RealTime
import Linearizability.Proofs.RecordOrder
import Linearizability.Recorder
import Mathlib.Algebra.Ring.Nat
import Mathlib.Data.List.Basic

/-!
# The log of a recorder

Both kinds of recorder keep the same log: the records in the order in which they were made, numbered
from zero. One of them keeps the log in pieces, which sorting puts together again.
-/

namespace Linearizability.Recorder

open Turn

/-- Everything recorded, in the order in which the recorder stores it. -/
def entries : Recorder → List Record
  | .shared r => r.log.toList
  | .perProcess r => r.logs.flatMap (·.records.toList)

def nextSeq : Recorder → UInt64
  | .shared r => r.nextSeq
  | .perProcess r => r.nextSeq

def account? (p : ProcessId) : Recorder → Option Account
  | .shared r => p.lookup? r.accounts
  | .perProcess r => (p.lookup? r.logs).map (·.account)

/-- The recorder after one more record, which leaves the process with this account. -/
structure Appended (r r' : Recorder) (p : ProcessId) (account : Account) (record : Record) :
    Prop where
  nextSeq : r'.nextSeq = r.nextSeq + 1
  entries : r'.entries.Perm (r.entries ++ [record])
  account_self : r'.account? p = some account
  account_ne : ∀ q, q ≠ p → r'.account? q = r.account? q

variable {r r' : Recorder} {p q : ProcessId} {id : CallId} {call : Call} {value : Value}

theorem records_eq (r : Recorder) : r.records = Record.sorted r.entries := by
  cases r with
  | shared r => rfl
  | perProcess r => rfl

theorem perm_flatMap_set {α β : Type} {f : α → List β} {x : β} {a b : α} {l : List α} {i : Nat}
    (hi : l[i]? = some a) (hf : f b = f a ++ [x]) :
    ((l.set i b).flatMap f).Perm (l.flatMap f ++ [x]) := by
  induction l generalizing i with
  | nil => simp at hi
  | cons y l ih =>
    cases i with
    | zero =>
      obtain rfl : y = a := by simpa using hi
      simp only [List.set_cons_zero, List.flatMap_cons, hf, List.append_assoc]
      exact List.perm_append_comm.append_left (f y)
    | succ i =>
      simp only [List.set_cons_succ, List.flatMap_cons, List.append_assoc]
      exact (ih (by simpa using hi)).append_left (f y)

/-- A call gets the next name of its process. -/
theorem invoke?_appended (h : r.invoke? p call = some (id, r')) : ∃ account : Account,
    r.account? p = some account ∧ id = (account.invoke p).1 ∧
      Appended r r' p (account.invoke p).2 (.invoke r.nextSeq id call) := by
  cases r with
  | shared r =>
    simp only [invoke?, Shared.invoke?, Option.map_eq_some_iff, Option.bind_eq_bind,
      Option.bind_eq_some_iff, Option.pure_def, Option.some.injEq, Prod.mk.injEq, Prod.exists] at h
    obtain ⟨_, _, ⟨account, haccount, rfl, rfl⟩, rfl, rfl⟩ := h
    have hlt := ProcessId.lt_length_of_lookup? haccount
    refine ⟨account, haccount, rfl, rfl, by simp [entries, nextSeq],
      ProcessId.lookup?_set_self hlt, fun q hq => ?_⟩
    exact ProcessId.lookup?_set_ne (Ne.symm hq)
  | perProcess r =>
    simp only [invoke?, PerProcess.invoke?, Option.map_eq_some_iff, Option.bind_eq_bind,
      Option.bind_eq_some_iff, Option.pure_def, Option.some.injEq, Prod.mk.injEq, Prod.exists] at h
    obtain ⟨_, _, ⟨log, hlog, rfl, rfl⟩, rfl, rfl⟩ := h
    have hlt := ProcessId.lt_length_of_lookup? hlog
    refine ⟨log.account, by simp [account?, hlog], rfl, rfl,
      perm_flatMap_set hlog (by simp [nextSeq]), ?_, fun q hq => ?_⟩
    · simp [account?, ProcessId.lookup?_set_self hlt]
    · simp [account?, ProcessId.lookup?_set_ne (Ne.symm hq)]

/-- A return without an outstanding call is not recorded. -/
theorem ret?_appended (h : r.ret? p value = some r') : ∃ account, r.account? p = some account ∧
    (account.outstanding = none ∧ r' = r ∨ ∃ id, account.outstanding = some id ∧
      Appended r r' p account.answered (.ret r.nextSeq id value)) := by
  cases r with
  | shared r =>
    simp only [ret?, Shared.ret?, Option.map_eq_some_iff, Option.bind_eq_bind,
      Option.bind_eq_some_iff] at h
    obtain ⟨_, ⟨account, haccount, h⟩, rfl⟩ := h
    refine ⟨account, haccount, ?_⟩
    cases hout : account.outstanding with
    | none =>
      simp only [hout, Option.pure_def, Option.some.injEq] at h
      exact .inl ⟨rfl, by rw [h]⟩
    | some id =>
      simp only [hout, Option.pure_def, Option.some.injEq] at h
      subst h
      have hlt := ProcessId.lt_length_of_lookup? haccount
      refine .inr ⟨id, rfl, rfl, by simp [entries, nextSeq], ProcessId.lookup?_set_self hlt,
        fun q hq => ?_⟩
      exact ProcessId.lookup?_set_ne (Ne.symm hq)
  | perProcess r =>
    simp only [ret?, PerProcess.ret?, Option.map_eq_some_iff, Option.bind_eq_bind,
      Option.bind_eq_some_iff] at h
    obtain ⟨_, ⟨log, hlog, h⟩, rfl⟩ := h
    refine ⟨log.account, by simp [account?, hlog], ?_⟩
    cases hout : log.account.outstanding with
    | none =>
      simp only [hout, Option.pure_def, Option.some.injEq] at h
      exact .inl ⟨rfl, by rw [h]⟩
    | some id =>
      simp only [hout, Option.pure_def, Option.some.injEq] at h
      subst h
      have hlt := ProcessId.lt_length_of_lookup? hlog
      refine .inr ⟨id, rfl, rfl, perm_flatMap_set hlog (by simp [nextSeq]), ?_, fun q hq => ?_⟩
      · simp [account?, ProcessId.lookup?_set_self hlt]
      · simp [account?, ProcessId.lookup?_set_ne (Ne.symm hq)]

/-- The recorder refuses a process that it was not built for, and only such a process. -/
theorem isSome_invoke? : (r.invoke? p call).isSome = (r.account? p).isSome := by
  cases r with
  | shared r =>
    cases h : p.lookup? r.accounts <;> simp [invoke?, Shared.invoke?, account?, h]
  | perProcess r =>
    cases h : p.lookup? r.logs <;> simp [invoke?, PerProcess.invoke?, account?, h]

theorem isSome_ret? : (r.ret? p value).isSome = (r.account? p).isSome := by
  cases r with
  | shared r =>
    cases h : p.lookup? r.accounts with
    | none => simp [ret?, Shared.ret?, account?, h]
    | some account =>
      simp only [ret?, Shared.ret?, account?, h, Option.bind_eq_bind, Option.bind_some]
      cases account.outstanding <;> rfl
  | perProcess r =>
    cases h : p.lookup? r.logs with
    | none => simp [ret?, PerProcess.ret?, account?, h]
    | some log =>
      simp only [ret?, PerProcess.ret?, account?, h, Option.bind_eq_bind, Option.bind_some]
      cases log.account.outstanding <;> rfl

theorem isSome_account?_new (kind : RecorderKind) (processes : Nat) :
    ((new kind processes).account? p).isSome ↔ p.toNat < processes := by
  cases kind with
  | shared => simp [new, account?, ProcessId.lookup?]
  | perProcess => simp [new, account?, ProcessId.lookup?]

theorem Appended.isSome_account? {account : Account} {record : Record}
    (h : Appended r r' p account record) (hp : (r.account? p).isSome) (q : ProcessId) :
    (r'.account? q).isSome = (r.account? q).isSome := by
  by_cases hq : q = p
  · rw [hq, h.account_self, hp]
    rfl
  · rw [h.account_ne q hq]

theorem isSome_account?_of_invoke? (h : r.invoke? p call = some (id, r')) (q : ProcessId) :
    (r'.account? q).isSome = (r.account? q).isSome := by
  obtain ⟨account, haccount, -, happ⟩ := invoke?_appended h
  exact happ.isSome_account? (by rw [haccount]; rfl) q

theorem isSome_account?_of_ret? (h : r.ret? p value = some r') (q : ProcessId) :
    (r'.account? q).isSome = (r.account? q).isSome := by
  obtain ⟨account, haccount, hret⟩ := ret?_appended h
  rcases hret with ⟨-, rfl⟩ | ⟨id, -, happ⟩
  · rfl
  · exact happ.isSome_account? (by rw [haccount]; rfl) q

/-- The recorder holds this log: its records are numbered from zero in the order in which they were
made, and each process is known to wait for its outstanding call. -/
structure Logs (r : Recorder) (log : List Record) : Prop where
  nextSeq : r.nextSeq = .ofNat log.length
  entries : r.entries.Perm log
  seq : ∀ (i : Nat) (record : Record), log[i]? = some record → record.seq = .ofNat i
  outstanding : ∀ p account, r.account? p = some account → account.outstanding =
    (outstanding (log.map Record.turn) p log.length).bind fun a => log[a]?.map Record.call
  process : ∀ record ∈ log, record.call.process = record.process

namespace Logs

variable {log : List Record} {record : Record} {account : Account}

theorem new (kind : RecorderKind) (processes : Nat) : Logs (new kind processes) [] := by
  cases kind with
  | shared =>
    refine ⟨rfl, .nil, by simp, fun p account h => ?_, by simp⟩
    simp only [Recorder.new, account?, ProcessId.lookup?, List.getElem?_replicate,
      Option.ite_none_right_eq_some, Option.some.injEq] at h
    simp [← h.2, Turn.outstanding]
  | perProcess =>
    refine ⟨rfl, by simp [Recorder.new, Recorder.entries], by simp, fun p account h => ?_, by simp⟩
    simp only [Recorder.new, account?, ProcessId.lookup?, List.getElem?_replicate,
      Option.map_eq_some_iff, Option.ite_none_right_eq_some, Option.some.injEq] at h
    obtain ⟨_, ⟨-, rfl⟩, rfl⟩ := h
    rfl

theorem append (h : r.Logs log) (happ : Appended r r' record.process account record)
    (hseq : record.seq = r.nextSeq) (hprocess : record.call.process = record.process)
    (hout : account.outstanding = if record.isInvocation then some record.call else none) :
    r'.Logs (log ++ [record]) where
  nextSeq := by
    rw [happ.nextSeq, h.nextSeq]
    simp
  entries := happ.entries.trans (h.entries.append_right _)
  seq := by
    intro i other hi
    rcases Nat.lt_or_ge i log.length with hlt | hge
    · rw [List.getElem?_append_left hlt] at hi
      exact h.seq i other hi
    · rw [List.getElem?_append_right hge] at hi
      obtain ⟨hlt, rfl⟩ := List.getElem?_eq_some_iff.1 hi
      have hi : i = log.length := by
        rw [List.length_singleton] at hlt
        omega
      rw [List.getElem_singleton, hseq, h.nextSeq, hi]
  outstanding := by
    intro p other hp
    rw [List.map_append, List.map_singleton, List.length_append, List.length_singleton,
      ← List.length_map Record.turn]
    by_cases hne : record.process = p
    · subst hne
      obtain rfl := Option.some.inj (happ.account_self.symm.trans hp)
      rw [hout]
      cases hinv : record.isInvocation with
      | true =>
        rw [show record.turn = ⟨record.process, true⟩ by simp [Record.turn, hinv],
          outstanding_concat_of_invokes]
        simp
      | false =>
        rw [show record.turn = ⟨record.process, false⟩ by simp [Record.turn, hinv],
          outstanding_concat_of_returns]
        rfl
    · rw [outstanding_concat_of_ne hne, List.length_map]
      rw [happ.account_ne p (Ne.symm hne)] at hp
      rw [h.outstanding p other hp]
      refine Option.bind_congr fun a ha => ?_
      have hlt := lt_of_outstanding ha
      rw [List.getElem?_append_left hlt]
  process := by
    intro other hmem
    rcases List.mem_append.1 hmem with hmem | hmem
    · exact h.process other hmem
    · rw [List.mem_singleton.1 hmem]
      exact hprocess

theorem invoke (h : r.Logs log) (hr : r.invoke? p call = some (id, r')) :
    id.process = p ∧ r'.Logs (log ++ [.invoke (.ofNat log.length) id call]) := by
  obtain ⟨account, -, rfl, happ⟩ := invoke?_appended hr
  rw [h.nextSeq] at happ
  exact ⟨rfl, h.append happ h.nextSeq.symm rfl rfl⟩

/-- The return of an outstanding call is recorded under its name. -/
theorem ret (h : r.Logs log) (hr : r.ret? p value = some r') {a : Nat}
    (ho : Turn.outstanding (log.map Record.turn) p log.length = some a) :
    ∃ id, log[a]?.map Record.call = some id ∧ id.process = p ∧
      r'.Logs (log ++ [.ret (.ofNat log.length) id value]) := by
  obtain ⟨account, haccount, hret⟩ := ret?_appended hr
  have hout := h.outstanding p account haccount
  have hinvokes := invokes_of_outstanding ho
  rw [List.getElem?_map, Option.map_eq_some_iff] at hinvokes
  obtain ⟨record, ha, hturn⟩ := hinvokes
  have hprocess : record.call.process = p :=
    (h.process record (List.mem_of_getElem? ha)).trans (congrArg Turn.process hturn)
  rw [ho, Option.bind_some, ha, Option.map_some] at hout
  rcases hret with ⟨hnone, -⟩ | ⟨id, hsome, happ⟩
  · simp [hnone] at hout
  · obtain rfl : id = record.call := by simpa [hsome] using hout
    rw [h.nextSeq] at happ
    subst hprocess
    exact ⟨record.call, by simp [ha], rfl, h.append happ h.nextSeq.symm rfl rfl⟩

/-- Sorting puts the log together. -/
theorem records_eq (h : r.Logs log) (hlength : log.length ≤ 2 ^ 64) : r.records = log := by
  have hsize : UInt64.size = 2 ^ 64 := rfl
  have hpairwise : log.Pairwise fun a b => a.seq < b.seq := by
    refine List.pairwise_iff_getElem.2 fun i j hi hj hij => ?_
    rw [h.seq i _ (List.getElem?_eq_getElem hi), h.seq j _ (List.getElem?_eq_getElem hj),
      UInt64.lt_iff_toNat_lt, UInt64.toNat_ofNat_of_lt' (by omega),
      UInt64.toNat_ofNat_of_lt' (by omega)]
    exact hij
  have hnodup : (log.map Record.seq).Nodup :=
    List.pairwise_map.2 (hpairwise.imp fun hlt => UInt64.ne_of_lt hlt)
  rw [Recorder.records_eq, Record.sorted_eq_of_perm hnodup h.entries,
    Record.sorted_of_pairwise (hpairwise.imp fun hlt => UInt64.le_of_lt hlt)]

end Logs

end Linearizability.Recorder
