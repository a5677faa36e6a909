import Linearizability.History
import Linearizability.Proofs.Judgment

/-!
# Histories built by hand

A history is told request by request, and some requests are refused: an invocation while the process
has an outstanding operation, and a return while it has none. Whatever is requested, the processes
alternate in what is told, and an invocation knows the result of the return that answers it.
-/

namespace Linearizability.History

open Turn

variable {Op Ret : Type}

inductive Request (Op Ret : Type) where
  | invoke (process : ProcessId) (label : String) (op : Op)
  | ret (process : ProcessId) (result : Ret)
  | invokeAndReturn (process : ProcessId) (label : String) (op : Op) (result : Ret)

namespace Request

def process : Request Op Ret → ProcessId
  | .invoke process _ _ | .ret process _ | .invokeAndReturn process _ _ _ => process

/-- What the process is told if its request is refused. -/
def refusal : Request Op Ret → Refusal
  | .invoke process label _ | .invokeAndReturn process label _ _ => .alreadyPending process label
  | .ret process _ => .nothingPending process

/-- The request is one that an outstanding operation of the process stands in the way of. -/
def invokes : Request Op Ret → Bool
  | .ret _ _ => false
  | _ => true

end Request

/-- A refused call leaves the history alone. -/
def settle (h : History Op Ret) :
    Except Refusal (History Op Ret) → Option Refusal × History Op Ret
  | .ok told => (none, told)
  | .error refusal => (some refusal, h)

/-- The answer to a request and the history after it. If only the return of an operation were
refused, then its invocation would stay. -/
def perform (h : History Op Ret) : Request Op Ret → Option Refusal × History Op Ret
  | .invoke process label op => h.settle (h.invoke process label op)
  | .ret process result => h.settle (h.ret process result)
  | .invokeAndReturn process label op result =>
    match h.settle (h.invoke process label op) with
    | (none, invoked) => invoked.settle (invoked.ret process result)
    | refused => refused

def turns (h : History Op Ret) : List Turn := h.events.toList.map Event.turn

/-- The history says of each invocation whether it was returned from, and with which result. -/
structure Tells (h : History Op Ret) : Prop where
  alternating : Alternating h.turns
  outstanding : ∀ p, h.outstanding.lookup p = Turn.outstanding h.turns p h.turns.length
  returned : ∀ i j, Returns h.turns i j → ∃ p label op result,
    h.events[i]? = some (.invoke p label op (some result)) ∧
      h.events[j]? = some (.ret p (some result))
  unreturned : ∀ (i : Nat) p label op expected,
    h.events[i]? = some (.invoke p label op expected) → (∀ j, ¬ Returns h.turns i j) →
      expected = none

variable {h told : History Op Ret} {p q : ProcessId} {label : String} {op : Op} {result : Ret}
variable {refusal : Refusal} {request : Request Op Ret} {i : Nat}

section Turns

theorem map_turn_modify (events : List (Event Op Ret)) (i : Nat) (result : Option Ret) :
    (events.modify i (·.withExpected result)).map Event.turn = events.map Event.turn := by
  refine List.ext_getElem? fun j => ?_
  simp only [List.getElem?_map, List.getElem?_modify]
  cases events[j]? with
  | none => rfl
  | some event =>
    by_cases hij : i = j
    · cases event <;> simp [hij, Event.withExpected, Event.turn, Event.process, Event.isInvoke]
    · simp [hij]

theorem length_turns (h : History Op Ret) : h.turns.length = h.events.size := by
  simp [turns]

end Turns

theorem lookup_filter_ne (table : List (ProcessId × Nat)) (p q : ProcessId) :
    (table.filter (·.1 ≠ p)).lookup q = if q = p then none else table.lookup q := by
  induction table with
  | nil => simp
  | cons entry table ih =>
    obtain ⟨r, i⟩ := entry
    by_cases hr : r = p
    · rw [List.filter_cons_of_neg (by simpa using hr), ih]
      by_cases hq : q = p
      · simp [hq]
      · have hqr : (q == r) = false := by simpa [hr] using hq
        simp [hq, List.lookup_cons, hqr]
    · rw [List.filter_cons_of_pos (by simpa using hr), List.lookup_cons, List.lookup_cons, ih]
      by_cases hq : q = r
      · simp [hq, hr]
      · have hqr : (q == r) = false := by simpa using hq
        simp [hqr]

section Calls

/-- The history after an invocation that is accepted. -/
def invoked (h : History Op Ret) (p : ProcessId) (label : String) (op : Op) : History Op Ret where
  events := h.events.push (.invoke p label op none)
  outstanding := (p, h.events.size) :: h.outstanding

/-- The history after the return from the invocation at `i`. -/
def returned (h : History Op Ret) (p : ProcessId) (i : Nat) (result : Ret) : History Op Ret where
  events := (h.events.modify i (·.withExpected (some result))).push (.ret p (some result))
  outstanding := h.outstanding.filter (·.1 ≠ p)

theorem invoke_of_none (hp : h.outstanding.lookup p = none) (label : String) (op : Op) :
    h.invoke p label op = .ok (h.invoked p label op) := by
  simp [invoke, hp, invoked]

theorem invoke_of_some (hp : h.outstanding.lookup p = some i) (label : String) (op : Op) :
    h.invoke p label op = .error (.alreadyPending p label) := by
  simp [invoke, hp]

theorem ret_of_none (hp : h.outstanding.lookup p = none) (result : Ret) :
    h.ret p result = .error (.nothingPending p) := by
  simp [ret, hp]

theorem ret_of_some (hp : h.outstanding.lookup p = some i) (result : Ret) :
    h.ret p result = .ok (h.returned p i result) := by
  simp [ret, hp, returned]

theorem lookup_invoked (h : History Op Ret) (p q : ProcessId) (label : String) (op : Op) :
    (h.invoked p label op).outstanding.lookup q =
      if q = p then some h.events.size else h.outstanding.lookup q := by
  by_cases hq : q = p
  · simp [invoked, hq]
  · have hqp : (q == p) = false := by simpa using hq
    simp [invoked, List.lookup_cons, hq, hqp]

theorem lookup_returned (h : History Op Ret) (p q : ProcessId) (i : Nat) (result : Ret) :
    (h.returned p i result).outstanding.lookup q =
      if q = p then none else h.outstanding.lookup q :=
  lookup_filter_ne h.outstanding p q

theorem turns_invoked (h : History Op Ret) (p : ProcessId) (label : String) (op : Op) :
    (h.invoked p label op).turns = h.turns ++ [⟨p, true⟩] := by
  simp [invoked, turns, Event.turn, Event.process, Event.isInvoke]

theorem turns_returned (h : History Op Ret) (p : ProcessId) (i : Nat) (result : Ret) :
    (h.returned p i result).turns = h.turns ++ [⟨p, false⟩] := by
  simp [returned, turns, map_turn_modify, Event.turn, Event.process, Event.isInvoke]

end Calls

namespace Tells

theorem empty : Tells (empty : History Op Ret) where
  alternating i turn hi := by simp [turns, History.empty] at hi
  outstanding p := rfl
  returned i j hret := by simpa [turns, History.empty] using hret.lt_length
  unreturned i p label op expected hi := by simp [History.empty] at hi

variable (htells : h.Tells)

include htells

theorem exists_invoke (hp : h.outstanding.lookup p = some i) : ∃ label op expected,
    h.events[i]? = some (.invoke p label op expected) := by
  rw [htells.outstanding] at hp
  obtain ⟨label, op, expected, hi⟩ := turn_invokes_iff.1 (invokes_of_outstanding hp)
  exact ⟨label, op, expected, by simpa using hi⟩

theorem invoked (hp : h.outstanding.lookup p = none) (label : String) (op : Op) :
    (h.invoked p label op).Tells where
  alternating := by
    rw [turns_invoked]
    refine htells.alternating.concat ?_
    rw [← htells.outstanding, hp]
    rfl
  outstanding q := by
    rw [lookup_invoked, turns_invoked, List.length_append, List.length_singleton]
    by_cases hq : q = p
    · subst hq
      rw [if_pos rfl, outstanding_concat_of_invokes, length_turns]
    · rw [if_neg hq, outstanding_concat_of_ne (Ne.symm hq), htells.outstanding]
  returned i j hret := by
    rw [turns_invoked, returns_concat_iff] at hret
    rcases hret with hret | ⟨-, hinvokes, -⟩
    · obtain ⟨q, label', op', result, hi, hj⟩ := htells.returned i j hret
      have hlt := hret.lt_length
      have hij := hret.lt
      rw [length_turns] at hlt
      refine ⟨q, label', op', result, ?_, ?_⟩
      · rw [History.invoked, Array.getElem?_push, if_neg (by omega), hi]
      · rw [History.invoked, Array.getElem?_push, if_neg (by omega), hj]
    · simp at hinvokes
  unreturned i q label' op' expected hi hno := by
    rw [History.invoked, Array.getElem?_push] at hi
    split at hi
    · obtain ⟨-, -, -, hnone⟩ := Event.invoke.inj (Option.some.inj hi)
      exact hnone.symm
    · refine htells.unreturned i q label' op' expected hi fun j hret => hno j ?_
      rw [turns_invoked, returns_concat_iff]
      exact .inl hret

theorem returned_of_outstanding (hp : h.outstanding.lookup p = some i) (result : Ret) :
    (h.returned p i result).Tells where
  alternating := by
    rw [turns_returned]
    refine htells.alternating.concat ?_
    rw [← htells.outstanding, hp]
    rfl
  outstanding q := by
    rw [lookup_returned, turns_returned, List.length_append, List.length_singleton]
    by_cases hq : q = p
    · subst hq
      rw [if_pos rfl, outstanding_concat_of_returns]
    · rw [if_neg hq, outstanding_concat_of_ne (Ne.symm hq), htells.outstanding]
  returned a j hret := by
    obtain ⟨label, op, expected, hinvoke⟩ := htells.exists_invoke hp
    rw [htells.outstanding] at hp
    have hlti := lt_of_outstanding hp
    rw [turns_returned, returns_concat_iff] at hret
    rw [length_turns] at hlti hret
    simp only [History.returned, Array.getElem?_push, Array.size_modify, Array.getElem?_modify]
    rcases hret with hret | ⟨rfl, -, ho⟩
    · -- The return at `j` is from another invocation, so it is left alone.
      obtain ⟨q, label', op', result', ha, hj⟩ := htells.returned a j hret
      have hlt := hret.lt_length
      have haj := hret.lt
      have hne : i ≠ a := by
        rintro rfl
        exact hret.not_outstanding hlt hp
      have hne' : i ≠ j := by
        rintro rfl
        simp [hinvoke] at hj
      rw [length_turns] at hlt
      exact ⟨q, label', op', result', by rw [if_neg (by omega), if_neg hne, ha],
        by rw [if_neg (by omega), if_neg hne', hj]⟩
    · rw [length_turns] at hp
      obtain rfl : i = a := Option.some.inj (hp.symm.trans ho)
      refine ⟨p, label, op, result, ?_, by simp⟩
      rw [if_neg (by omega), if_pos rfl, hinvoke]
      rfl
  unreturned a q label op expected ha hno := by
    rw [htells.outstanding] at hp
    have hne : i ≠ a := by
      rintro rfl
      refine hno h.turns.length ?_
      rw [turns_returned, returns_concat_iff]
      exact .inr ⟨rfl, rfl, hp⟩
    rw [History.returned, Array.getElem?_push, Array.getElem?_modify, if_neg hne] at ha
    split at ha
    · simp at ha
    · refine htells.unreturned a q label op expected ha fun j hret => hno j ?_
      rw [turns_returned, returns_concat_iff]
      exact .inl hret

/-- A request that the process may make is carried out. -/
theorem perform_of_eq
    (hmay : request.invokes = (h.outstanding.lookup request.process).isNone) :
    ∃ told, h.perform request = (none, told) ∧ told.Tells := by
  cases request with
  | invoke p label op =>
    have hp : h.outstanding.lookup p = none := Option.isNone_iff_eq_none.1 hmay.symm
    exact ⟨_, by simp [perform, invoke_of_none hp, settle], htells.invoked hp label op⟩
  | ret p result =>
    obtain ⟨i, hp⟩ : ∃ i, h.outstanding.lookup p = some i :=
      Option.isSome_iff_exists.1 (by simpa [Request.invokes, Request.process] using hmay)
    exact ⟨_, by simp [perform, ret_of_some hp, settle], htells.returned_of_outstanding hp result⟩
  | invokeAndReturn p label op result =>
    have hp : h.outstanding.lookup p = none := Option.isNone_iff_eq_none.1 hmay.symm
    have hinvoked : (h.invoked p label op).outstanding.lookup p = some h.events.size := by
      rw [lookup_invoked, if_pos rfl]
    refine ⟨(h.invoked p label op).returned p h.events.size result, ?_, ?_⟩
    · simp [perform, invoke_of_none hp, ret_of_some hinvoked, settle]
    · exact (htells.invoked hp label op).returned_of_outstanding hinvoked result

omit htells in
/-- A request that the process may not make is refused, and leaves the history alone. -/
theorem perform_of_ne
    (hmay : request.invokes ≠ (h.outstanding.lookup request.process).isNone) :
    h.perform request = (some request.refusal, h) := by
  cases request with
  | invoke p label op | invokeAndReturn p label op result =>
    obtain ⟨i, hp⟩ : ∃ i, h.outstanding.lookup p = some i :=
      Option.isSome_iff_exists.1 (by simpa [Request.invokes, Request.process] using hmay)
    simp [perform, invoke_of_some hp, settle, Request.refusal]
  | ret p result =>
    have hp : h.outstanding.lookup p = none := by
      cases hlookup : h.outstanding.lookup p with
      | none => rfl
      | some i => simp [Request.invokes, Request.process, hlookup] at hmay
    simp [perform, ret_of_none hp, settle, Request.refusal]

theorem perform (request : Request Op Ret) : (h.perform request).2.Tells := by
  by_cases hmay : request.invokes = (h.outstanding.lookup request.process).isNone
  · obtain ⟨told, hperform, htold⟩ := htells.perform_of_eq hmay
    rwa [hperform]
  · rwa [perform_of_ne hmay]

end Tells

end Linearizability.History
