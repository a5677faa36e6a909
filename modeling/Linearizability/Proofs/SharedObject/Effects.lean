import Linearizability.Proofs.Adaptation.Alternation
import Linearizability.Proofs.Counting
import Linearizability.Proofs.Recorder.Log
import Linearizability.Proofs.SharedObject.Interleaving

/-!
# The hidden order of the effects

While processes share an object, its operations take effect in some order that nobody records. This
order goes along with the log: it accounts for every recorded result, and it respects real time,
because each effect falls between the invocation and the return of its call. Every step keeps this.
-/

namespace Linearizability.SharedObject

open Adaptation Turn

variable {σ Op Ret : Type} [ReferenceObject σ Op Ret]

/-- These operations took effect one after another, with these results, and led to the last object.
-/
inductive Performs (vocabulary : Vocabulary Op Ret) (log : List Record) :
    σ → List (Nat × Ret) → σ → Prop
  | nil (object : σ) : Performs vocabulary log object [] object
  | cons {object final : σ} {a : Nat} {op : Op} {order : List (Nat × Ret)}
      (hop : operation? vocabulary log a = some op)
      (h : Performs vocabulary log (ReferenceObject.apply object op).2 order final) :
      Performs vocabulary log object ((a, (ReferenceObject.apply object op).1) :: order) final

/-- What the log and the order of the effects say of a process at this stage. -/
def AtStage (c : Convention σ Op Ret) (log : List Record) (order : List (Nat × Ret))
    (p : ProcessId) : Stage Ret → Prop
  | .resting => outstanding (log.map Record.turn) p log.length = none
  | .called call => (∀ arg ∈ call.args, c.Plain arg) ∧
      ∃ a, outstanding (log.map Record.turn) p log.length = some a ∧
        operation? c.vocabulary log a = c.vocabulary.translate call ∧ a ∉ order.map Prod.fst
  | .effective ret =>
      ∃ a, outstanding (log.map Record.turn) p log.length = some a ∧ (a, ret) ∈ order
  | .ineffective => ∃ a, outstanding (log.map Record.turn) p log.length = some a ∧
      operation? c.vocabulary log a = none

/-- How the log and the order of the effects go along with the state of the processes. -/
structure Invariant (c : Convention σ Op Ret) (object : σ) (s : State σ Ret) (log : List Record)
    (order : List (Nat × Ret)) : Prop where
  logs : s.recorder.Logs log
  alternating : Alternating (log.map Record.turn)
  calls : (log.map Record.turn).countP Turn.invokes = s.calls
  calls_lt : s.calls < 2 ^ 32
  stage : ∀ p, AtStage c log order p (s.stages p)
  performs : Performs c.vocabulary log object order s.object
  fit : c.Fit (2 ^ 32 - order.length) s.object
  nodup : (order.map Prod.fst).Nodup
  realTime : (order.map Prod.fst).Pairwise fun a b => ¬ Precedes (log.map Record.turn) b a
  complete : ∀ a r, Returns (log.map Record.turn) a r →
    (operation? c.vocabulary log a).isSome → a ∈ order.map Prod.fst
  /-- Every value that reports the result is understood. -/
  result : ∀ a ret, (a, ret) ∈ order → ∀ value, c.Reports ret value →
    ∃ op, operation? c.vocabulary log a = some op ∧ c.vocabulary.observe op value = some ret
  /-- A recorded return reports the result. -/
  returned : ∀ a ret r, (a, ret) ∈ order → Returns (log.map Record.turn) a r →
    ∃ value, value? log r = some value ∧ c.Reports ret value

section Logs

variable {vocabulary : Vocabulary Op Ret} {log : List Record} {order : List (Nat × Ret)}
variable {object final : σ} {record : Record} {a : Nat} {op : Op} {p : ProcessId}

theorem lt_of_operation? (h : operation? vocabulary log a = some op) : a < log.length := by
  obtain ⟨record, ha, -⟩ := Option.bind_eq_some_iff.1 h
  exact (List.getElem?_eq_some_iff.1 ha).1

theorem operation?_append (h : a < log.length) :
    operation? vocabulary (log ++ [record]) a = operation? vocabulary log a := by
  simp [operation?, List.getElem?_append_left h]

theorem operation?_concat :
    operation? vocabulary (log ++ [record]) log.length = record.operation? vocabulary := by
  simp [operation?]

theorem value?_append (h : a < log.length) : value? (log ++ [record]) a = value? log a := by
  simp [value?, List.getElem?_append_left h]

theorem value?_concat : value? (log ++ [record]) log.length = record.value? := by
  simp [value?]

namespace Performs

theorem exists_operation? (h : Performs vocabulary log object order final)
    (ha : a ∈ order.map Prod.fst) : ∃ op, operation? vocabulary log a = some op := by
  induction h with
  | nil => simp at ha
  | cons hop _ ih =>
    rcases List.mem_cons.1 ha with rfl | ha
    · exact ⟨_, hop⟩
    · exact ih ha

theorem concat (h : Performs vocabulary log object order final)
    (hop : operation? vocabulary log a = some op) :
    Performs vocabulary log object (order ++ [(a, (ReferenceObject.apply final op).1)])
      (ReferenceObject.apply final op).2 := by
  induction h with
  | nil object => exact .cons hop (.nil _)
  | cons hop' _ ih => exact .cons hop' ih

theorem append (h : Performs vocabulary log object order final) :
    Performs vocabulary (log ++ [record]) object order final := by
  induction h with
  | nil object => exact .nil object
  | cons hop _ ih => exact .cons ((operation?_append (lt_of_operation? hop)).trans hop) ih

/-- The effects account for the records once every result is recorded. -/
theorem accounts (h : Performs vocabulary log object order final)
    (hreturned : ∀ a ret op, (a, ret) ∈ order → operation? vocabulary log a = some op →
      ∃ r value, Returns (log.map Record.turn) a r ∧ value? log r = some value ∧
        vocabulary.observe op value = some ret) :
    Accounts vocabulary log object (order.map Prod.fst) := by
  induction h with
  | nil object => exact .nil object
  | cons hop _ ih =>
    obtain ⟨r, value, hret, hvalue, hobserve⟩ := hreturned _ _ _ List.mem_cons_self hop
    exact .cons hop hret hvalue hobserve
      (ih fun a ret op ha => hreturned a ret op (List.mem_cons_of_mem _ ha))

end Performs

end Logs

namespace AtStage

variable {c : Convention σ Op Ret} {log : List Record} {order : List (Nat × Ret)}
variable {record : Record} {p q : ProcessId} {a : Nat} {ret : Ret} {stage : Stage Ret}

theorem append_of_ne (h : AtStage c log order p stage) (hne : record.process ≠ p) :
    AtStage c (log ++ [record]) order p stage := by
  have hout : outstanding ((log ++ [record]).map Record.turn) p (log ++ [record]).length =
      outstanding (log.map Record.turn) p log.length := by
    have hturns : outstanding (log.map Record.turn ++ [record.turn]) p
        ((log.map Record.turn).length + 1) =
          outstanding (log.map Record.turn) p (log.map Record.turn).length :=
      outstanding_concat_of_ne hne
    simpa using hturns
  have hlt {a : Nat} (ho : outstanding (log.map Record.turn) p log.length = some a) :
      operation? c.vocabulary (log ++ [record]) a = operation? c.vocabulary log a :=
    operation?_append (lt_of_outstanding ho)
  cases stage with
  | resting => exact hout.trans h
  | called call =>
    obtain ⟨hargs, a, ho, hop, hno⟩ := h
    exact ⟨hargs, a, hout.trans ho, (hlt ho).trans hop, hno⟩
  | effective ret =>
    obtain ⟨a, ho, hmem⟩ := h
    exact ⟨a, hout.trans ho, hmem⟩
  | ineffective =>
    obtain ⟨a, ho, hop⟩ := h
    exact ⟨a, hout.trans ho, (hlt ho).trans hop⟩

theorem concat_of_ne (h : AtStage c log order p stage)
    (hq : outstanding (log.map Record.turn) q log.length = some a) (hne : q ≠ p) :
    AtStage c log (order ++ [(a, ret)]) p stage := by
  cases stage with
  | resting | ineffective => exact h
  | called call =>
    obtain ⟨hargs, b, ho, hop, hno⟩ := h
    refine ⟨hargs, b, ho, hop, ?_⟩
    have hba : b ≠ a := by
      rintro rfl
      have := (invokes_of_outstanding hq).symm.trans (invokes_of_outstanding ho)
      exact hne (by simpa using this)
    simpa [hba] using hno
  | effective ret =>
    obtain ⟨b, ho, hmem⟩ := h
    exact ⟨b, ho, List.mem_append_left _ hmem⟩

end AtStage

namespace Invariant

variable {c : Convention σ Op Ret} {object : σ} {s : State σ Ret} {log : List Record}
variable {order : List (Nat × Ret)} {record : Record} {recorder : Recorder} {calls : Nat}
variable {stage : Stage Ret} {p : ProcessId} {a : Nat} {op : Op} {ret : Ret}

theorem start (hfit : c.Fit (2 ^ 32) object) (kind : RecorderKind) (processes : Nat) :
    Invariant c object { object, recorder := .new kind processes } [] [] where
  logs := .new kind processes
  alternating := by
    intro i turn hi
    simp at hi
  calls := rfl
  calls_lt := by simp
  stage _ := rfl
  performs := .nil object
  fit := hfit
  nodup := List.nodup_nil
  realTime := .nil
  complete := by
    rintro a r ⟨p, hr, -⟩
    simp at hr
  result := by simp
  returned := by simp

variable (h : Invariant c object s log order)

include h

theorem lt_length (ha : a ∈ order.map Prod.fst) : a < log.length := by
  obtain ⟨op, hop⟩ := h.performs.exists_operation? ha
  exact lt_of_operation? hop

theorem eq_of_mem {ret' : Ret} (ha : (a, ret) ∈ order) (ha' : (a, ret') ∈ order) : ret = ret' :=
  congrArg Prod.snd (List.inj_on_of_nodup_map h.nodup ha ha' rfl)

/-- One more record. If it returns from an effect, it reports the result. -/
theorem append (hlogs : recorder.Logs (log ++ [record]))
    (hturn : record.isInvocation =
      (outstanding (log.map Record.turn) record.process log.length).isNone)
    (hcalls : calls = s.calls + if record.isInvocation then 1 else 0) (hlt : calls < 2 ^ 32)
    (hstage : AtStage c (log ++ [record]) order record.process stage)
    (hcomplete : ∀ a, outstanding (log.map Record.turn) record.process log.length = some a →
      record.isInvocation = false → (operation? c.vocabulary log a).isSome →
        a ∈ order.map Prod.fst)
    (hreturned : ∀ a ret, (a, ret) ∈ order → record.isInvocation = false →
      outstanding (log.map Record.turn) record.process log.length = some a →
        ∃ value, record.value? = some value ∧ c.Reports ret value) :
    Invariant c object { s.enter record.process stage with recorder, calls }
      (log ++ [record]) order := by
  have hreturns {a r : Nat} : Returns ((log ++ [record]).map Record.turn) a r ↔
      Returns (log.map Record.turn) a r ∨ r = log.length ∧ record.isInvocation = false ∧
        outstanding (log.map Record.turn) record.process log.length = some a := by
    rw [List.map_append, List.map_singleton, returns_concat_iff, List.length_map]
    rfl
  exact {
    logs := hlogs
    alternating := by
      rw [List.map_append, List.map_singleton]
      exact h.alternating.concat (by rw [List.length_map]; exact hturn)
    calls := by
      rw [List.map_append, List.countP_append, h.calls, hcalls]
      simp [Record.turn, List.countP_cons]
    calls_lt := hlt
    stage := by
      intro p
      by_cases hp : p = record.process
      · subst hp
        simpa [State.enter] using hstage
      · simpa [State.enter, hp] using (h.stage p).append_of_ne (Ne.symm hp)
    performs := h.performs.append
    fit := h.fit
    nodup := h.nodup
    realTime := by
      refine h.realTime.imp_of_mem fun {x y} hx _ hno hprec => hno ?_
      have hlt := h.lt_length hx
      rw [List.map_append, List.map_singleton] at hprec
      exact (precedes_concat_iff (by rw [List.length_map]; omega)).1 hprec
    complete := by
      intro a r hr hop
      have hlt : a < log.length := by
        rcases hreturns.1 hr with hr | ⟨-, -, ho⟩
        · simpa using Nat.lt_trans hr.lt hr.lt_length
        · exact lt_of_outstanding ho
      rw [operation?_append hlt] at hop
      rcases hreturns.1 hr with hr | ⟨-, hinv, ho⟩
      · exact h.complete a r hr hop
      · exact hcomplete a ho hinv hop
    result := by
      intro a ret ha value hvalue
      rw [operation?_append (h.lt_length (List.mem_map_of_mem ha))]
      exact h.result a ret ha value hvalue
    returned := by
      intro a ret r ha hr
      rcases hreturns.1 hr with hr | ⟨rfl, hinv, ho⟩
      · rw [value?_append (by simpa using hr.lt_length)]
        exact h.returned a ret r ha hr
      · rw [value?_concat]
        exact hreturned a ret ha hinv ho }

theorem invoke {id : CallId} {call : Call} (hp : s.stages p = .resting)
    (hargs : ∀ arg ∈ call.args, c.Plain arg) (hcalls : s.calls + 1 < 2 ^ 32)
    (hr : s.recorder.invoke? p call = some (id, recorder)) :
    Invariant c object { s.enter p (.called call) with recorder, calls := s.calls + 1 }
      (log ++ [.invoke (.ofNat log.length) id call]) order := by
  obtain ⟨rfl, hlogs⟩ := h.logs.invoke hr
  have hresting : outstanding (log.map Record.turn) id.process log.length = none := by
    have := h.stage id.process
    rwa [hp] at this
  have hfresh : log.length ∉ order.map Prod.fst := fun hmem =>
    Nat.lt_irrefl _ (h.lt_length hmem)
  refine h.append hlogs ?_ rfl hcalls ⟨hargs, log.length, ?_, operation?_concat, hfresh⟩ ?_ ?_
  · exact (Option.isNone_iff_eq_none.2 hresting).symm
  · have hturns : outstanding (log.map Record.turn ++ [⟨id.process, true⟩]) id.process
        ((log.map Record.turn).length + 1) = some (log.map Record.turn).length :=
      outstanding_concat_of_invokes
    simpa using hturns
  · intro a _ hinv
    simp [Record.isInvocation, Record.invoke] at hinv
  · intro a ret _ hinv
    simp [Record.isInvocation, Record.invoke] at hinv

theorem recordReturn {value : Value} (hr : s.recorder.ret? p value = some recorder)
    (ho : outstanding (log.map Record.turn) p log.length = some a)
    (hcomplete : (operation? c.vocabulary log a).isSome → a ∈ order.map Prod.fst)
    (hreports : ∀ ret, (a, ret) ∈ order → c.Reports ret value) :
    ∃ record, Invariant c object { s.enter p .resting with recorder } (log ++ [record]) order := by
  obtain ⟨id, -, rfl, hlogs⟩ := h.logs.ret hr ho
  refine ⟨_, h.append hlogs ?_ rfl h.calls_lt ?_ ?_ ?_⟩
  · rw [Record.process_ret, ho]
    rfl
  · have hturns : outstanding (log.map Record.turn ++ [⟨id.process, false⟩]) id.process
        ((log.map Record.turn).length + 1) = none := outstanding_concat_of_returns
    simpa [AtStage] using hturns
  · rintro b hb - hop
    obtain rfl := Option.some.inj (ho.symm.trans hb)
    exact hcomplete hop
  · rintro b ret hmem - hb
    obtain rfl := Option.some.inj (ho.symm.trans hb)
    exact ⟨value, rfl, hreports ret hmem⟩

/-- An effect comes last in the order, as its call has not returned. -/
theorem effect {call : Call} (hp : s.stages p = .called call)
    (hop : c.vocabulary.translate call = some op) :
    ∃ a, Invariant c object { s.enter p (.effective (ReferenceObject.apply s.object op).1) with
        object := (ReferenceObject.apply s.object op).2 } log
      (order ++ [(a, (ReferenceObject.apply s.object op).1)]) := by
  have hcalled := h.stage p
  rw [hp] at hcalled
  obtain ⟨hargs, a, ho, hopa, hfresh⟩ := hcalled
  rw [hop] at hopa
  have hnodup : (a :: order.map Prod.fst).Nodup := List.nodup_cons.2 ⟨hfresh, h.nodup⟩
  have hroom : order.length + 1 ≤ s.calls := by
    have hle : (a :: order.map Prod.fst).length ≤ (log.map Record.turn).countP Turn.invokes := by
      refine length_le_countP hnodup fun i hi => ?_
      obtain ⟨op, hopi⟩ : ∃ op, operation? c.vocabulary log i = some op := by
        rcases List.mem_cons.1 hi with rfl | hi
        · exact ⟨op, hopa⟩
        · exact h.performs.exists_operation? hi
      obtain ⟨q, hq⟩ := turn_of_operation? (by rw [hopi]; rfl)
      exact ⟨_, hq, rfl⟩
    rw [h.calls] at hle
    simpa using hle
  have hfit : c.Fit (2 ^ 32 - (order.length + 1) + 1) s.object := by
    have hlt := h.calls_lt
    rw [show 2 ^ 32 - (order.length + 1) + 1 = 2 ^ 32 - order.length by omega]
    exact h.fit
  exact ⟨a, {
    logs := h.logs
    alternating := h.alternating
    calls := h.calls
    calls_lt := h.calls_lt
    stage := by
      intro q
      by_cases hq : q = p
      · subst hq
        simp only [State.enter, if_true]
        exact ⟨a, ho, List.mem_append_right _ (List.mem_singleton_self _)⟩
      · simpa [State.enter, hq] using (h.stage q).concat_of_ne ho (Ne.symm hq)
    performs := h.performs.concat hopa
    fit := by
      rw [List.length_append, List.length_singleton]
      exact c.fit_apply hfit hop hargs
    nodup := by
      rw [List.map_append]
      exact List.nodup_append_comm.1 hnodup
    realTime := by
      rw [List.map_append]
      refine List.pairwise_append.2 ⟨h.realTime, List.pairwise_singleton _ _, ?_⟩
      rintro x - _ hy ⟨r, hr, -⟩
      obtain rfl := List.mem_singleton.1 hy
      exact hr.not_outstanding (by simpa using hr.lt_length) ho
    complete := by
      intro b r hr hopb
      rw [List.map_append]
      exact List.mem_append_left _ (h.complete b r hr hopb)
    result := by
      intro b ret hb value hvalue
      rcases List.mem_append.1 hb with hb | hb
      · exact h.result b ret hb value hvalue
      · obtain ⟨rfl, rfl⟩ := Prod.mk.inj (List.mem_singleton.1 hb)
        exact ⟨op, hopa, c.observe_eq hfit hop hargs hvalue⟩
    returned := by
      intro b ret r hb hr
      rcases List.mem_append.1 hb with hb | hb
      · exact h.returned b ret r hb hr
      · obtain ⟨rfl, rfl⟩ := Prod.mk.inj (List.mem_singleton.1 hb)
        exact absurd ho (hr.not_outstanding (by simpa using hr.lt_length)) }⟩

theorem outside {call : Call} (hp : s.stages p = .called call)
    (hop : c.vocabulary.translate call = none) :
    Invariant c object (s.enter p .ineffective) log order := by
  have hcalled := h.stage p
  rw [hp] at hcalled
  obtain ⟨-, a, ho, hopa, -⟩ := hcalled
  refine { h with stage := fun q => ?_ }
  by_cases hq : q = p
  · subst hq
    simpa [State.enter, AtStage] using ⟨a, ho, hopa.trans hop⟩
  · simpa [State.enter, hq] using h.stage q

theorem step {s' : State σ Ret} (hs : Step c s s') :
    ∃ log order, Invariant c object s' log order := by
  cases hs with
  | invoke p call hp hargs hcalls hr => exact ⟨_, _, h.invoke hp hargs hcalls hr⟩
  | effect p hp hop =>
    obtain ⟨a, h'⟩ := h.effect hp hop
    exact ⟨_, _, h'⟩
  | outside p hp hop => exact ⟨_, _, h.outside hp hop⟩
  | ret p value hp hvalue hr =>
    have heffective := h.stage p
    rw [hp] at heffective
    obtain ⟨a, ho, hmem⟩ := heffective
    obtain ⟨record, h'⟩ := h.recordReturn hr ho (fun _ => List.mem_map_of_mem hmem)
      fun ret' hmem' => h.eq_of_mem hmem hmem' ▸ hvalue
    exact ⟨_, _, h'⟩
  | retOutside p value hp hr =>
    have hineffective := h.stage p
    rw [hp] at hineffective
    obtain ⟨a, ho, hop⟩ := hineffective
    obtain ⟨record, h'⟩ := h.recordReturn hr ho (fun hsome => by simp [hop] at hsome)
      fun ret hmem => by
        obtain ⟨op, hop'⟩ := h.performs.exists_operation? (List.mem_map_of_mem hmem)
        simp [hop] at hop'
    exact ⟨_, _, h'⟩

/-- When no effect is left without its return, the order of the effects accounts for the log. -/
theorem isAccount (hsettled : s.Settled) :
    IsAccount c.vocabulary log object (order.map Prod.fst) := by
  have hreturned : ∀ a ∈ order.map Prod.fst, ∃ r, Returns (log.map Record.turn) a r := by
    intro a ha
    obtain ⟨op, hop⟩ := h.performs.exists_operation? ha
    obtain ⟨p, hp⟩ := turn_of_operation? (by rw [hop]; rfl)
    have halt : Alternating ((log.map Record.turn).take log.length) := h.alternating.take _
    rcases halt.outstanding_or_returns (lt_of_operation? hop) hp with ho | ⟨r, -, hr⟩
    · have hstage := h.stage p
      cases hs : s.stages p with
      | resting =>
        rw [hs] at hstage
        exact absurd (ho.symm.trans hstage) (by simp)
      | called call =>
        rw [hs] at hstage
        obtain ⟨-, b, hb, -, hno⟩ := hstage
        obtain rfl := Option.some.inj (ho.symm.trans hb)
        exact absurd ha hno
      | effective ret => exact absurd hs (hsettled p ret)
      | ineffective =>
        rw [hs] at hstage
        obtain ⟨b, hb, hnone⟩ := hstage
        obtain rfl := Option.some.inj (ho.symm.trans hb)
        simp [hop] at hnone
    · exact ⟨r, hr⟩
  exact {
    nodup := h.nodup
    complete := by
      intro a
      constructor
      · intro ha
        obtain ⟨op, hop⟩ := h.performs.exists_operation? ha
        exact ⟨by rw [hop]; rfl, hreturned a ha⟩
      · rintro ⟨hop, r, hr⟩
        exact h.complete a r hr hop
    realTime := h.realTime
    legal := by
      refine h.performs.accounts fun a ret op hmem hop => ?_
      obtain ⟨r, hr⟩ := hreturned a (List.mem_map_of_mem hmem)
      obtain ⟨value, hvalue, hreports⟩ := h.returned a ret r hmem hr
      obtain ⟨op', hop', hobserve⟩ := h.result a ret hmem value hreports
      obtain rfl := Option.some.inj (hop.symm.trans hop')
      exact ⟨r, value, hr, hvalue, hobserve⟩ }

end Invariant

theorem Reachable.exists_invariant {c : Convention σ Op Ret} {object : σ} {kind : RecorderKind}
    {processes : Nat} {s : State σ Ret} (hs : Reachable c object kind processes s)
    (hfit : c.Fit (2 ^ 32) object) : ∃ log order, Invariant c object s log order := by
  induction hs with
  | start => exact ⟨[], [], .start hfit kind processes⟩
  | step _ hstep ih =>
    obtain ⟨log, order, h⟩ := ih
    exact h.step hstep

end Linearizability.SharedObject
