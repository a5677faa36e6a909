import Linearizability.Proofs.Counting
import Linearizability.Proofs.Recorder.Log

/-!
# The recorders agree

What the processes learn from a recorder, and what it has recorded after each of their steps, shows
in the steps alone: they determine a log, and each kind of recorder holds it. This includes steps
that make no sense, such as invoking while a call is outstanding or returning from none.
-/

namespace Linearizability.Recorder

open Turn

/-- A step of a process that uses a recorder. -/
inductive Action where
  | invoke (process : ProcessId) (call : Call)
  | ret (process : ProcessId) (value : Value)
  deriving DecidableEq

/-- What the process learns from its step. -/
inductive Response where
  | named (id : CallId)
  | done
  /-- The recorder was not built for the process. -/
  | refused
  deriving DecidableEq

/-- The outstanding call of a process. -/
def openCall? (log : List Record) (p : ProcessId) : Option CallId :=
  (outstanding (log.map Record.turn) p log.length).bind fun a => log[a]?.map Record.call

namespace Action

def perform (r : Recorder) : Action → Response × Recorder
  | .invoke p call =>
    match r.invoke? p call with
    | some (id, r) => (.named id, r)
    | none => (.refused, r)
  | .ret p value =>
    match r.ret? p value with
    | some r => (.done, r)
    | none => (.refused, r)

def invokes (p : ProcessId) : Action → Bool
  | .invoke q _ => q == p
  | .ret _ _ => false

/-- What this step adds to the log if there are this many processes. Names and numbers count from
zero. -/
def record? (processes : Nat) (log : List Record) : Action → Option Record
  | .invoke p call =>
    if p.toNat < processes then
      some (.invoke (.ofNat log.length) ⟨p, .ofNat ((log.map Record.turn).count ⟨p, true⟩)⟩ call)
    else none
  | .ret p value =>
    if p.toNat < processes then
      (openCall? log p).map fun id => .ret (.ofNat log.length) id value
    else none

/-- What this step tells the process. -/
def response (processes : Nat) (log : List Record) : Action → Response
  | .invoke p call =>
    match record? processes log (.invoke p call) with
    | some record => .named record.call
    | none => .refused
  | .ret p _ => if p.toNat < processes then .done else .refused

end Action

/-- The recorder after these steps. -/
def run (r : Recorder) (actions : List Action) : Recorder :=
  actions.foldl (fun r action => (action.perform r).2) r

/-- The log that these steps determine. -/
def logOf (processes : Nat) (actions : List Action) : List Record :=
  actions.foldl (fun log action => log ++ (action.record? processes log).toList) []

/-- The records are numbered from zero, and so are the calls of each process. A return carries the
name of the latest invocation of its process, and no name is used twice. -/
structure Numbered (log : List Record) : Prop where
  seq : log.map (·.seq.toNat) = List.range log.length
  invoked : ∀ p k i, IsNth (log.map Record.turn) ⟨p, true⟩ k i →
    ∃ record, log[i]? = some record ∧ record.call.process = p ∧ record.call.index.toNat = k
  returned : ∀ r p, (log.map Record.turn)[r]? = some ⟨p, false⟩ →
    ∃ a, Returns (log.map Record.turn) a r ∧ log[r]?.map Record.call = log[a]?.map Record.call
  unique : ∀ (i j : Nat) (record other : Record), log[i]? = some record → log[j]? = some other →
    record.isInvocation = other.isInvocation → record.call = other.call → i = j

variable {processes : Nat} {r r' : Recorder} {log : List Record} {record : Record}
variable {actions : List Action} {action : Action} {p : ProcessId} {id : CallId} {call : Call}
variable {value : Value}

section Steps

variable (processes r log) in
/-- The recorder holds the log, serves this many processes and knows how many calls each of them has
made. -/
structure Keeps : Prop where
  logs : r.Logs log
  range : ∀ p, (r.account? p).isSome ↔ p.toNat < processes
  nextIndex : ∀ p account, r.account? p = some account →
    account.nextIndex = .ofNat ((log.map Record.turn).count ⟨p, true⟩)

namespace Keeps

theorem new (kind : RecorderKind) (processes : Nat) : Keeps processes (new kind processes) [] where
  logs := .new kind processes
  range _ := isSome_account?_new kind processes
  nextIndex p account h := by
    cases kind with
    | shared =>
      simp only [Recorder.new, account?, ProcessId.lookup?, List.getElem?_replicate,
        Option.ite_none_right_eq_some, Option.some.injEq] at h
      simp [← h.2]
    | perProcess =>
      simp only [Recorder.new, account?, ProcessId.lookup?, List.getElem?_replicate,
        Option.map_eq_some_iff, Option.ite_none_right_eq_some, Option.some.injEq] at h
      obtain ⟨_, ⟨-, rfl⟩, rfl⟩ := h
      rfl

variable (h : Keeps processes r log)

include h

theorem append {account before : Account} (hbefore : r.account? record.process = some before)
    (happ : Appended r r' record.process account record) (hlogs : r'.Logs (log ++ [record]))
    (hnext : account.nextIndex = before.nextIndex + if record.isInvocation then 1 else 0) :
    Keeps processes r' (log ++ [record]) where
  logs := hlogs
  range q := by
    rw [happ.isSome_account? (by rw [hbefore]; rfl) q]
    exact h.range q
  nextIndex q other hother := by
    rw [List.map_append, List.count_append]
    by_cases hq : q = record.process
    · subst hq
      obtain rfl := Option.some.inj (happ.account_self.symm.trans hother)
      rw [hnext, h.nextIndex _ _ hbefore]
      cases hinv : record.isInvocation <;> simp [Record.turn, hinv]
    · rw [happ.account_ne q hq] at hother
      rw [h.nextIndex q other hother]
      simp [Record.turn, Ne.symm hq]

theorem invoke (hp : p.toNat < processes) (call : Call) :
    ∃ r', r.invoke? p call =
        some (⟨p, .ofNat ((log.map Record.turn).count ⟨p, true⟩)⟩, r') ∧
      Keeps processes r' (log ++ [.invoke (.ofNat log.length)
        ⟨p, .ofNat ((log.map Record.turn).count ⟨p, true⟩)⟩ call]) := by
  have hsome : (r.invoke? p call).isSome := by rwa [isSome_invoke?, h.range]
  obtain ⟨⟨id, r'⟩, hr⟩ := Option.isSome_iff_exists.1 hsome
  obtain ⟨account, haccount, rfl, happ⟩ := invoke?_appended hr
  have hlogs := (h.logs.invoke hr).2
  rw [h.logs.nextSeq] at happ
  have hkeeps := h.append haccount happ hlogs rfl
  simp only [Account.invoke, h.nextIndex p account haccount] at hr hkeeps
  exact ⟨r', hr, hkeeps⟩

/-- A return with nothing outstanding leaves the recorder alone. -/
theorem ret_of_none (hp : p.toNat < processes) (hopen : openCall? log p = none) (value : Value) :
    r.ret? p value = some r := by
  have hsome : (r.ret? p value).isSome := by rwa [isSome_ret?, h.range]
  obtain ⟨r', hr⟩ := Option.isSome_iff_exists.1 hsome
  obtain ⟨account, haccount, ⟨-, rfl⟩ | ⟨id, hid, -⟩⟩ := ret?_appended hr
  · exact hr
  · have hout := h.logs.outstanding p account haccount
    rw [← openCall?, hopen, hid] at hout
    simp at hout

theorem ret_of_some (hp : p.toNat < processes) (hopen : openCall? log p = some id)
    (value : Value) : ∃ r', r.ret? p value = some r' ∧
      Keeps processes r' (log ++ [.ret (.ofNat log.length) id value]) := by
  have hsome : (r.ret? p value).isSome := by rwa [isSome_ret?, h.range]
  obtain ⟨r', hr⟩ := Option.isSome_iff_exists.1 hsome
  obtain ⟨a, ho, ha⟩ := Option.bind_eq_some_iff.1 hopen
  obtain ⟨id', ha', hprocess, hlogs⟩ := h.logs.ret hr ho
  obtain rfl : id' = id := Option.some.inj (ha'.symm.trans ha)
  obtain ⟨account, haccount, ⟨hnone, -⟩ | ⟨id, hid, happ⟩⟩ := ret?_appended hr
  · have hout := h.logs.outstanding p account haccount
    rw [← openCall?, hopen, hnone] at hout
    simp at hout
  · have hout := h.logs.outstanding p account haccount
    rw [← openCall?, hopen, hid] at hout
    obtain rfl := Option.some.inj hout
    subst hprocess
    rw [h.logs.nextSeq] at happ
    refine ⟨r', hr, h.append haccount happ hlogs ?_⟩
    simp [Account.answered, Record.isInvocation, Record.ret]

/-- A step adds to the recorder what it adds to the log. -/
theorem perform (action : Action) :
    (action.perform r).1 = action.response processes log ∧
      Keeps processes (action.perform r).2 (log ++ (action.record? processes log).toList) ∧
      (action.record? processes log = none → (action.perform r).2 = r) := by
  cases action with
  | invoke p call =>
    by_cases hp : p.toNat < processes
    · obtain ⟨r', hr, hkeeps⟩ := h.invoke hp call
      simpa [Action.perform, Action.response, Action.record?, hr, hp] using ⟨rfl, hkeeps⟩
    · have hnone : r.invoke? p call = none := by
        rw [← Option.not_isSome_iff_eq_none, isSome_invoke?, h.range]
        exact hp
      simpa [Action.perform, Action.response, Action.record?, hnone, hp] using h
  | ret p value =>
    by_cases hp : p.toNat < processes
    · cases hopen : openCall? log p with
      | none =>
        have hr := h.ret_of_none hp hopen value
        simpa [Action.perform, Action.response, Action.record?, hr, hp, hopen] using h
      | some id =>
        obtain ⟨r', hr, hkeeps⟩ := h.ret_of_some hp hopen value
        simpa [Action.perform, Action.response, Action.record?, hr, hp, hopen] using hkeeps
    · have hnone : r.ret? p value = none := by
        rw [← Option.not_isSome_iff_eq_none, isSome_ret?, h.range]
        exact hp
      simpa [Action.perform, Action.response, Action.record?, hnone, hp] using h

end Keeps

end Steps

section Log

theorem logOf_concat (processes : Nat) (actions : List Action) (action : Action) :
    logOf processes (actions ++ [action]) = logOf processes actions ++
      (action.record? processes (logOf processes actions)).toList := by
  rw [logOf, List.foldl_append, ← logOf]
  rfl

theorem run_concat (r : Recorder) (actions : List Action) (action : Action) :
    r.run (actions ++ [action]) = (action.perform (r.run actions)).2 := by
  rw [run, List.foldl_append, ← run]
  rfl

/-- Each kind of recorder holds the log that the steps determine. -/
theorem keeps_run (kind : RecorderKind) (processes : Nat) (actions : List Action) :
    Keeps processes ((new kind processes).run actions) (logOf processes actions) := by
  induction actions using List.reverseRecOn with
  | nil => exact .new kind processes
  | append_singleton actions action ih =>
    rw [run_concat, logOf_concat]
    exact (ih.perform action).2.1

theorem logOf_prefix (processes : Nat) (actions more : List Action) :
    logOf processes actions <+: logOf processes (actions ++ more) := by
  induction more using List.reverseRecOn with
  | nil => simp
  | append_singleton more action ih =>
    rw [← List.append_assoc, logOf_concat]
    exact ih.trans (List.prefix_append _ _)

theorem invokes_of_record? (h : action.record? processes log = some record)
    (hturn : record.turn = ⟨p, true⟩) : p.toNat < processes ∧ action.invokes p := by
  cases action with
  | invoke q call =>
    obtain ⟨hq, hrecord⟩ := Option.ite_none_right_eq_some.1 h
    obtain rfl := Option.some.inj hrecord
    obtain rfl : q = p := congrArg Turn.process hturn
    exact ⟨hq, by simp [Action.invokes]⟩
  | ret q value =>
    obtain ⟨-, hrecord⟩ := Option.ite_none_right_eq_some.1 h
    obtain ⟨id, -, rfl⟩ := Option.map_eq_some_iff.1 hrecord
    simp at hturn

/-- A process makes no more calls than its steps invoke. -/
theorem count_logOf_le (processes : Nat) (actions : List Action) (p : ProcessId) :
    ((logOf processes actions).map Record.turn).count ⟨p, true⟩ ≤
      actions.countP fun action => p.toNat < processes && action.invokes p := by
  induction actions using List.reverseRecOn with
  | nil => exact Nat.zero_le _
  | append_singleton actions action ih =>
    rw [logOf_concat, List.map_append, List.count_append, List.countP_append]
    refine Nat.add_le_add ih ?_
    cases hrecord : action.record? processes (logOf processes actions) with
    | none => exact Nat.zero_le _
    | some record =>
      by_cases hturn : record.turn = ⟨p, true⟩
      · obtain ⟨hp, hinvokes⟩ := invokes_of_record? hrecord hturn
        simp [hp, hinvokes, hturn]
      · simp [hturn]

theorem count_logOf_le_of_calls (processes : Nat) (actions : List Action) (p : ProcessId) {k : Nat}
    (hcalls : ∀ p : ProcessId, p.toNat < processes → actions.countP (Action.invokes p) ≤ k) :
    ((logOf processes actions).map Record.turn).count ⟨p, true⟩ ≤ k := by
  refine Nat.le_trans (count_logOf_le processes actions p) ?_
  by_cases hp : p.toNat < processes
  · simpa [hp] using hcalls p hp
  · simp [hp]

theorem lt_of_invokes_mem_logOf (h : ⟨p, true⟩ ∈ (logOf processes actions).map Record.turn) :
    p.toNat < processes := by
  by_contra hp
  have hle := count_logOf_le processes actions p
  simp only [hp, decide_false, Bool.false_and, List.countP_false] at hle
  exact Nat.not_lt.2 hle (List.count_pos_iff.2 h)

end Log

section Names

variable (log) in
/-- Every call is named by its process and its number, and a return names the call it returns from.
-/
structure Named : Prop where
  invoked : ∀ p k i, IsNth (log.map Record.turn) ⟨p, true⟩ k i →
    log[i]?.map Record.call = some ⟨p, .ofNat k⟩
  returned : ∀ r p, (log.map Record.turn)[r]? = some ⟨p, false⟩ →
    ∃ a, Returns (log.map Record.turn) a r ∧ log[r]?.map Record.call = log[a]?.map Record.call

namespace Named

/-- A record leaves the names before it alone. -/
theorem concat (h : Named log)
    (hinvoked : ∀ p, record.turn = ⟨p, true⟩ →
      record.call = ⟨p, .ofNat ((log.map Record.turn).count ⟨p, true⟩)⟩)
    (hreturned : ∀ p, record.turn = ⟨p, false⟩ → openCall? log p = some record.call) :
    Named (log ++ [record]) where
  invoked p k i hnth := by
    rw [List.map_append, List.map_singleton, IsNth.concat_iff, List.length_map] at hnth
    rcases hnth with hnth | ⟨rfl, hturn, hk⟩
    · have hlt := (List.getElem?_eq_some_iff.1 hnth.1).1
      rw [List.getElem?_append_left (by simpa using hlt)]
      exact h.invoked p k i hnth
    · simp [hinvoked p hturn, hk]
  returned r p hr := by
    rw [List.map_append, List.map_singleton] at hr ⊢
    simp only [returns_concat_iff]
    rcases Nat.lt_trichotomy r log.length with hlt | rfl | hlt
    · rw [List.getElem?_append_left (by simpa using hlt)] at hr
      obtain ⟨a, hret, hcall⟩ := h.returned r p hr
      have ha := Nat.lt_trans hret.lt hlt
      refine ⟨a, .inl hret, ?_⟩
      rw [List.getElem?_append_left hlt, List.getElem?_append_left ha, hcall]
    · have hturn : record.turn = ⟨p, false⟩ := by simpa using hr
      obtain ⟨a, ho, ha⟩ := Option.bind_eq_some_iff.1 (hreturned p hturn)
      refine ⟨a, .inr ⟨by simp, by simp [hturn], by simpa [hturn] using ho⟩, ?_⟩
      have hlt : a < log.length := lt_of_outstanding ho
      rw [List.getElem?_append_left hlt, ha]
      simp
    · rw [List.getElem?_eq_none (by simpa using Nat.succ_le_of_lt hlt)] at hr
      simp at hr

theorem process_of_openCall? (h : Named log) (hopen : openCall? log p = some id) :
    id.process = p := by
  obtain ⟨a, ho, ha⟩ := Option.bind_eq_some_iff.1 hopen
  rw [h.invoked p _ a ⟨invokes_of_outstanding ho, rfl⟩] at ha
  rw [← Option.some.inj ha]

theorem concat_record? (h : Named log) (hrecord : action.record? processes log = some record) :
    Named (log ++ [record]) := by
  cases action with
  | invoke p call =>
    obtain ⟨-, heq⟩ := Option.ite_none_right_eq_some.1 hrecord
    obtain rfl := Option.some.inj heq
    refine h.concat (fun q hq => ?_) (fun q hq => by simp at hq)
    obtain rfl : p = q := congrArg Turn.process hq
    rfl
  | ret p value =>
    obtain ⟨-, heq⟩ := Option.ite_none_right_eq_some.1 hrecord
    obtain ⟨id, hopen, rfl⟩ := Option.map_eq_some_iff.1 heq
    refine h.concat (fun q hq => by simp at hq) (fun q hq => ?_)
    obtain rfl : id.process = q := congrArg Turn.process hq
    rw [h.process_of_openCall? hopen]
    exact hopen

end Named

theorem named_logOf (processes : Nat) (actions : List Action) :
    Named (logOf processes actions) := by
  induction actions using List.reverseRecOn with
  | nil => exact ⟨by simp [IsNth, logOf], by simp [logOf]⟩
  | append_singleton actions action ih =>
    rw [logOf_concat]
    cases hrecord : action.record? processes (logOf processes actions) with
    | none => simpa using ih
    | some record => exact ih.concat_record? hrecord

end Names

section Numbers

variable {q : ProcessId} {i j : Nat}

/-- With numbers enough for the calls of each process, no two calls have the same name. -/
theorem Named.eq_of_invokes (h : Named log)
    (hcount : ∀ p, (log.map Record.turn).count ⟨p, true⟩ < 2 ^ 32)
    (hi : (log.map Record.turn)[i]? = some ⟨p, true⟩)
    (hj : (log.map Record.turn)[j]? = some ⟨q, true⟩)
    (hcall : log[i]?.map Record.call = log[j]?.map Record.call) : i = j := by
  have hsize : UInt32.size = 2 ^ 32 := rfl
  obtain ⟨k, hk⟩ : ∃ k, IsNth (log.map Record.turn) ⟨p, true⟩ k i := ⟨_, hi, rfl⟩
  obtain ⟨m, hm⟩ : ∃ m, IsNth (log.map Record.turn) ⟨q, true⟩ m j := ⟨_, hj, rfl⟩
  rw [h.invoked p k i hk, h.invoked q m j hm, Option.some.injEq, CallId.mk.injEq] at hcall
  obtain ⟨rfl, hindex⟩ := hcall
  have hklt := Nat.lt_trans hk.lt_count (hcount p)
  have hmlt := Nat.lt_trans hm.lt_count (hcount p)
  have hnat := congrArg UInt32.toNat hindex
  rw [UInt32.toNat_ofNat_of_lt' (by omega), UInt32.toNat_ofNat_of_lt' (by omega)] at hnat
  subst hnat
  exact hk.unique hm

/-- Then no two returns have the same name either, for they return from different calls. -/
theorem Named.eq_of_returns (h : Named log)
    (hcount : ∀ p, (log.map Record.turn).count ⟨p, true⟩ < 2 ^ 32)
    (hi : (log.map Record.turn)[i]? = some ⟨p, false⟩)
    (hj : (log.map Record.turn)[j]? = some ⟨q, false⟩)
    (hcall : log[i]?.map Record.call = log[j]?.map Record.call) : i = j := by
  obtain ⟨a, hret, ha⟩ := h.returned i p hi
  obtain ⟨b, hret', hb⟩ := h.returned j q hj
  obtain ⟨p', hp'⟩ := hret.exists_invokes
  obtain ⟨q', hq'⟩ := hret'.exists_invokes
  obtain rfl : a = b := h.eq_of_invokes hcount hp' hq' (by rw [← ha, hcall, hb])
  exact hret.unique hret'

theorem Named.numbered (h : Named log)
    (hseq : ∀ (i : Nat) (record : Record), log[i]? = some record → record.seq = .ofNat i)
    (hlength : log.length ≤ 2 ^ 64)
    (hcount : ∀ p, (log.map Record.turn).count ⟨p, true⟩ < 2 ^ 32) : Numbered log where
  seq := by
    have hsize : UInt64.size = 2 ^ 64 := rfl
    refine List.ext_getElem (by simp) fun i hi hi' => ?_
    rw [List.length_map] at hi
    rw [List.getElem_map, hseq i _ (List.getElem?_eq_getElem hi), List.getElem_range,
      UInt64.toNat_ofNat_of_lt' (by omega)]
  invoked p k i hnth := by
    have hsize : UInt32.size = 2 ^ 32 := rfl
    obtain ⟨record, hrecord, hcall⟩ := Option.map_eq_some_iff.1 (h.invoked p k i hnth)
    have hk := Nat.lt_trans hnth.lt_count (hcount p)
    refine ⟨record, hrecord, by rw [hcall], ?_⟩
    rw [hcall, UInt32.toNat_ofNat_of_lt' (by omega)]
  returned := h.returned
  unique i j record other hi hj hkind hcall := by
    have hturn : (log.map Record.turn)[i]? = some ⟨record.process, record.isInvocation⟩ := by
      simp [hi, Record.turn]
    have hturn' : (log.map Record.turn)[j]? = some ⟨other.process, record.isInvocation⟩ := by
      simp [hj, Record.turn, hkind]
    have hcalls : log[i]?.map Record.call = log[j]?.map Record.call := by simp [hi, hj, hcall]
    cases hinv : record.isInvocation with
    | true =>
      rw [hinv] at hturn hturn'
      exact h.eq_of_invokes hcount hturn hturn' hcalls
    | false =>
      rw [hinv] at hturn hturn'
      exact h.eq_of_returns hcount hturn hturn' hcalls

variable (processes actions) in
/-- The calls of the processes bound what is recorded. -/
theorem length_logOf_le {k : Nat} (hcalls : ∀ p : ProcessId, p.toNat < processes →
    actions.countP (Action.invokes p) ≤ k) :
    (logOf processes actions).length ≤ 2 * (processes * k) := by
  have hlength : ((logOf processes actions).map Record.turn).length ≤ _ :=
    length_le_of_forall_returns fun r p hr =>
      let ⟨a, hreturns, _⟩ := (named_logOf processes actions).returned r p hr
      ⟨a, hreturns⟩
  have hinvokes := countP_invokes_le (fun p => count_logOf_le_of_calls processes actions p hcalls)
    processes
  have hrange : ((logOf processes actions).map Record.turn).countP Turn.invokes ≤
      ((logOf processes actions).map Record.turn).countP
        fun turn => turn.invokes && turn.process.toNat < processes := by
    refine List.countP_mono_left fun turn hmem hinv => ?_
    obtain ⟨p, invokes⟩ := turn
    obtain rfl : invokes = true := hinv
    simpa using lt_of_invokes_mem_logOf hmem
  rw [List.length_map] at hlength
  omega

/-- Both kinds of recorder tell the processes the same and hold the same records after any steps.
The records are those that the steps determine, and they are numbered and named without gaps or
repetitions; a step that records nothing leaves the recorder alone. This supposes that no process
makes more calls than there are names for; then there are numbers enough for all records, at least
for up to `2 ^ 31` processes. -/
theorem kinds_agree (processes : Nat) (actions : List Action)
    (hcalls : ∀ p : ProcessId, p.toNat < processes →
      actions.countP (Action.invokes p) < 2 ^ 32)
    (hlength : processes ≤ 2 ^ 31 ∨ (logOf processes actions).length ≤ 2 ^ 64) (n : Nat) :
    let log := logOf processes (actions.take n)
    Numbered log ∧ ∀ kind,
      let r := (new kind processes).run (actions.take n)
      r.records = log ∧ ∀ action : Action,
        (action.perform r).1 = action.response processes log ∧
          (action.record? processes log = none → (action.perform r).2 = r) := by
  intro log
  have hnames : ∀ p : ProcessId, p.toNat < processes →
      actions.countP (Action.invokes p) ≤ 2 ^ 32 - 1 :=
    fun p hp => Nat.le_sub_one_of_lt (hcalls p hp)
  have hnumbers : (logOf processes actions).length ≤ 2 ^ 64 := by
    rcases hlength with hprocesses | hlength
    · have hle := length_logOf_le processes actions hnames
      omega
    · exact hlength
  have hbegins : log <+: logOf processes actions := by
    have := logOf_prefix processes (actions.take n) (actions.drop n)
    rwa [List.take_append_drop] at this
  have hlog : log.length ≤ 2 ^ 64 := Nat.le_trans hbegins.length_le hnumbers
  have hcount : ∀ p, (log.map Record.turn).count ⟨p, true⟩ < 2 ^ 32 := by
    intro p
    have hle := (hbegins.map Record.turn).sublist.count_le ⟨p, true⟩
    have hall := count_logOf_le_of_calls processes actions p hnames
    omega
  have hkeeps : ∀ kind, Keeps processes ((new kind processes).run (actions.take n)) log :=
    fun kind => keeps_run kind processes _
  refine ⟨(named_logOf processes _).numbered (hkeeps .shared).logs.seq hlog hcount, fun kind => ?_⟩
  refine ⟨(hkeeps kind).logs.records_eq hlog, fun action => ?_⟩
  obtain ⟨hresponse, -, hsame⟩ := (hkeeps kind).perform action
  exact ⟨hresponse, hsame⟩

/-- The first return has no call to return from, the second invocation is made by a process that
neither recorder was built for, and the third one is made while the first is outstanding. -/
theorem kinds_agree_on_misuse :
    let offer : Call := .named "offer" [.int 1]
    let poll : Call := .named "poll" []
    let actions : List Action := [.ret ⟨0⟩ .null, .invoke ⟨0⟩ offer, .invoke ⟨7⟩ poll,
      .invoke ⟨0⟩ poll, .ret ⟨0⟩ .null, .ret ⟨0⟩ .null]
    ∀ kind, ((new kind 2).run actions).records =
      [.invoke 0 ⟨⟨0⟩, 0⟩ offer, .invoke 1 ⟨⟨0⟩, 1⟩ poll, .ret 2 ⟨⟨0⟩, 1⟩ .null] := by
  intro offer poll actions kind
  have hcalls : ∀ p : ProcessId, p.toNat < 2 → actions.countP (Action.invokes p) < 2 ^ 32 :=
    fun p _ => Nat.lt_of_le_of_lt List.countP_le_length (by decide)
  have hlog : logOf 2 actions =
      [.invoke 0 ⟨⟨0⟩, 0⟩ offer, .invoke 1 ⟨⟨0⟩, 1⟩ poll, .ret 2 ⟨⟨0⟩, 1⟩ .null] := by decide
  exact ((kinds_agree 2 actions hcalls (.inl (by decide)) 6).2 kind).1.trans hlog

end Numbers

end Linearizability.Recorder
