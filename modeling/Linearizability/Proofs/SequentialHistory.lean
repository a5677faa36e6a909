import Linearizability.Proofs.Judgment
import Linearizability.Proofs.Rejections
import Mathlib.Algebra.Ring.Parity
import Mathlib.Data.List.Sort

/-!
# Sequential histories

In a sequential history every operation returns before the next one is invoked, so there is only one
order in which its operations can have taken effect. The main statement is that on such a history
the search comes to the same as plain replay: it rejects the history exactly if replay does, at the
return of the first operation that replay does not accept, and tells what replay gave there.
-/

namespace Linearizability

open Turn

variable {σ Op Ret : Type}

/-- An operation from its invocation to its return. -/
structure Completed (Op Ret : Type) where
  process : ProcessId
  label : String
  op : Op
  /-- What the operation is known to have returned. -/
  expected : Option Ret
  /-- What the return says. -/
  result : Option Ret

namespace Completed

def invocation (o : Completed Op Ret) : Event Op Ret := .invoke o.process o.label o.op o.expected

def answer (o : Completed Op Ret) : Event Op Ret := .ret o.process o.result

def observation? (o : Completed Op Ret) : Option (Op × Ret) := o.expected.map (o.op, ·)

end Completed

/-- The operations one after another. -/
def sequential (ops : List (Completed Op Ret)) : List (Event Op Ret) :=
  ops.flatMap fun o => [o.invocation, o.answer]

/-- What the operations were observed to return, if all of them were observed. -/
def observations? (ops : List (Completed Op Ret)) : Option (List (Op × Ret)) :=
  ops.mapM Completed.observation?

section Replay

variable [ReferenceObject σ Op Ret] [DecidableEq Ret]
variable {object now left : σ} {ops : List (Completed Op Ret)} {o : Completed Op Ret} {ret : Ret}

/-- The object after the operation took effect, if it returned what its process observed. -/
def Completed.perform? (object : σ) (o : Completed Op Ret) : Option σ :=
  if o.expected = some (ReferenceObject.apply object o.op).1 then
    some (ReferenceObject.apply object o.op).2
  else none

def performAll? (object : σ) (ops : List (Completed Op Ret)) : Option σ :=
  ops.foldlM Completed.perform? object

/-- Replay accepts the first `k` operations and gives `ret` for the next one, which is not what its
process observed, or was not observed at all. -/
structure FirstMismatch (object : σ) (ops : List (Completed Op Ret)) (k : Nat)
    (o : Completed Op Ret) (ret : Ret) : Prop where
  operation : ops[k]? = some o
  accepted : ∃ observed now, observations? (ops.take k) = some observed ∧
    ReferenceObject.checkHistory object observed = (true, now) ∧
    (ReferenceObject.apply now o.op).1 = ret
  mismatched : o.expected ≠ some ret

omit [DecidableEq Ret] in
theorem observations?_cons_eq_some_iff {observed : List (Op × Ret)} :
    observations? (o :: ops) = some observed ↔ ∃ ret, o.expected = some ret ∧
      ∃ rest, observations? ops = some rest ∧ (o.op, ret) :: rest = observed := by
  simp [observations?, Completed.observation?, Option.bind_eq_some_iff]

theorem Completed.perform?_eq_some_iff : o.perform? object = some left ↔
    o.expected = some (ReferenceObject.apply object o.op).1 ∧
      (ReferenceObject.apply object o.op).2 = left := by
  simp [perform?]

theorem Completed.perform?_eq_none_iff : o.perform? object = none ↔
    o.expected ≠ some (ReferenceObject.apply object o.op).1 := by
  simp [perform?]

theorem performAll?_cons (object : σ) (o : Completed Op Ret) (ops : List (Completed Op Ret)) :
    performAll? object (o :: ops) = (o.perform? object).bind (performAll? · ops) :=
  List.foldlM_cons

theorem performAll?_concat (object : σ) (ops : List (Completed Op Ret)) (o : Completed Op Ret) :
    performAll? object (ops ++ [o]) = (performAll? object ops).bind (o.perform? ·) := by
  rw [performAll?, List.foldlM_append]
  simp [performAll?]

/-- Performing the operations is checking what was observed of them. -/
theorem performAll?_eq_some_iff [LawfulCheck σ] : performAll? object ops = some left ↔
    ∃ observed, observations? ops = some observed ∧
      ReferenceObject.checkHistory object observed = (true, left) := by
  induction ops generalizing object with
  | nil => simp [performAll?, observations?, ReferenceObject.checkHistory]
  | cons o ops ih =>
    simp only [performAll?_cons, Option.bind_eq_some_iff, observations?_cons_eq_some_iff]
    constructor
    · rintro ⟨_, hnext, hrest⟩
      obtain ⟨hexpected, rfl⟩ := Completed.perform?_eq_some_iff.1 hnext
      obtain ⟨rest, hobserved, hcheck⟩ := ih.1 hrest
      exact ⟨_, ⟨_, hexpected, rest, hobserved, rfl⟩, by rwa [checkHistory_cons, if_pos rfl]⟩
    · rintro ⟨_, ⟨ret, hexpected, rest, hobserved, rfl⟩, hcheck⟩
      rw [checkHistory_cons] at hcheck
      split at hcheck
      · rename_i hret
        exact ⟨_, Completed.perform?_eq_some_iff.2 ⟨hret ▸ hexpected, rfl⟩,
          ih.2 ⟨rest, hobserved, hcheck⟩⟩
      · simp at hcheck

theorem isSome_performAll?_iff [LawfulCheck σ] : (performAll? object ops).isSome ↔
    ∃ observed, observations? ops = some observed ∧
      (ReferenceObject.checkHistory object observed).1 = true := by
  simp only [Option.isSome_iff_exists, performAll?_eq_some_iff, Prod.ext_iff]
  constructor
  · rintro ⟨left, observed, hobserved, hcheck, -⟩
    exact ⟨observed, hobserved, hcheck⟩
  · rintro ⟨observed, hobserved, hcheck⟩
    exact ⟨_, observed, hobserved, hcheck, rfl⟩

/-- Replay that does not go through stops at one of the operations. -/
theorem exists_perform?_eq_none (h : performAll? object ops = none) : ∃ k o now,
    ops[k]? = some o ∧ performAll? object (ops.take k) = some now ∧ o.perform? now = none := by
  induction ops generalizing object with
  | nil => simp [performAll?] at h
  | cons o ops ih =>
    rw [performAll?_cons] at h
    cases hnext : o.perform? object with
    | none => exact ⟨0, o, object, rfl, rfl, hnext⟩
    | some next =>
      rw [hnext] at h
      obtain ⟨k, o', now, hk, hnow, hnone⟩ := ih h
      refine ⟨k + 1, o', now, hk, ?_, hnone⟩
      rw [List.take_succ_cons, performAll?_cons, hnext]
      exact hnow

theorem exists_firstMismatch [LawfulCheck σ] (h : performAll? object ops = none) :
    ∃ k o ret, FirstMismatch object ops k o ret := by
  obtain ⟨k, o, now, hk, hnow, hnone⟩ := exists_perform?_eq_none h
  obtain ⟨observed, hobserved, hcheck⟩ := performAll?_eq_some_iff.1 hnow
  exact ⟨k, o, _, hk, ⟨observed, now, hobserved, hcheck, rfl⟩,
    Completed.perform?_eq_none_iff.1 hnone⟩

theorem FirstMismatch.exists_performAll? [LawfulCheck σ] {k : Nat}
    (h : FirstMismatch object ops k o ret) : ∃ now, performAll? object (ops.take k) = some now ∧
      (ReferenceObject.apply now o.op).1 = ret ∧ o.perform? now = none := by
  obtain ⟨observed, now, hobserved, hcheck, rfl⟩ := h.accepted
  exact ⟨now, performAll?_eq_some_iff.2 ⟨observed, hobserved, hcheck⟩, rfl,
    Completed.perform?_eq_none_iff.2 h.mismatched⟩

end Replay

namespace Sequential

section Positions

variable {ops : List (Completed Op Ret)} {o : Completed Op Ret} {p : ProcessId} {a b k q r : Nat}

theorem length_sequential (ops : List (Completed Op Ret)) :
    (sequential ops).length = 2 * ops.length := by
  simp [sequential, List.length_flatMap, Nat.mul_comm]

theorem getElem?_sequential (ops : List (Completed Op Ret)) (k : Nat) :
    (sequential ops)[2 * k]? = ops[k]?.map Completed.invocation ∧
      (sequential ops)[2 * k + 1]? = ops[k]?.map Completed.answer := by
  induction ops generalizing k with
  | nil => simp [sequential]
  | cons o ops ih =>
    cases k with
    | zero => exact ⟨rfl, rfl⟩
    | succ k => exact ih k

theorem turn_invokes (ops : List (Completed Op Ret)) (k : Nat) :
    ((sequential ops).map Event.turn)[2 * k]? = ops[k]?.map fun o => ⟨o.process, true⟩ := by
  rw [List.getElem?_map, (getElem?_sequential ops k).1, Option.map_map]
  rfl

theorem turn_returns (ops : List (Completed Op Ret)) (k : Nat) :
    ((sequential ops).map Event.turn)[2 * k + 1]? = ops[k]?.map fun o => ⟨o.process, false⟩ := by
  rw [List.getElem?_map, (getElem?_sequential ops k).2, Option.map_map]
  rfl

theorem outstanding_even (ops : List (Completed Op Ret)) (p : ProcessId) (k : Nat) :
    outstanding ((sequential ops).map Event.turn) p (2 * k) = none := by
  induction k with
  | zero => rfl
  | succ k ih =>
    rw [show 2 * (k + 1) = 2 * k + 1 + 1 by omega, outstanding, turn_returns, outstanding,
      turn_invokes, ih]
    cases ops[k]? with
    | none => rfl
    | some o => by_cases hp : o.process = p <;> simp [hp]

/-- Only one operation is outstanding, and only ahead of its return. -/
theorem outstanding_odd : outstanding ((sequential ops).map Event.turn) p (2 * k + 1) = some q ↔
    q = 2 * k ∧ ∃ o, ops[k]? = some o ∧ o.process = p := by
  rw [outstanding, turn_invokes, outstanding_even]
  cases ops[k]? with
  | none => simp
  | some o => by_cases hp : o.process = p <;> simp [hp, eq_comm (a := q)]

theorem returns_iff : Returns ((sequential ops).map Event.turn) a r ↔
    ∃ k < ops.length, a = 2 * k ∧ r = 2 * k + 1 := by
  constructor
  · rintro ⟨p, hr, ho⟩
    obtain ⟨k, rfl | rfl⟩ := Nat.even_or_odd' r
    · simp [outstanding_even] at ho
    · obtain ⟨rfl, o, ho, -⟩ := outstanding_odd.1 ho
      exact ⟨k, (List.getElem?_eq_some_iff.1 ho).1, rfl, rfl⟩
  · rintro ⟨k, hk, rfl, rfl⟩
    have ho : ops[k]? = some ops[k] := List.getElem?_eq_getElem hk
    exact ⟨ops[k].process, by rw [turn_returns, ho]; rfl, outstanding_odd.2 ⟨rfl, _, ho, rfl⟩⟩

theorem exists_of_invokes (h : ((sequential ops).map Event.turn)[q]? = some ⟨p, true⟩) :
    ∃ k < ops.length, q = 2 * k := by
  obtain ⟨k, rfl | rfl⟩ := Nat.even_or_odd' q
  · rw [turn_invokes, Option.map_eq_some_iff] at h
    obtain ⟨o, ho, -⟩ := h
    exact ⟨k, (List.getElem?_eq_some_iff.1 ho).1, rfl⟩
  · rw [turn_returns, Option.map_eq_some_iff] at h
    obtain ⟨o, -, ho⟩ := h
    cases ho

theorem not_precedes_iff {j : Nat} (hj : j < ops.length) :
    ¬ Precedes ((sequential ops).map Event.turn) (2 * j) (2 * k) ↔ k ≤ j := by
  constructor
  · intro h
    by_contra hlt
    exact h ⟨2 * j + 1, returns_iff.2 ⟨j, hj, rfl, rfl⟩, by omega⟩
  · rintro h ⟨r, hret, hr⟩
    obtain ⟨j', -, hj', rfl⟩ := returns_iff.1 hret
    omega

end Positions

section Order

variable [ReferenceObject σ Op Ret] [DecidableEq Ret]
variable {object now : σ} {ops : List (Completed Op Ret)} {o : Completed Op Ret} {ret : Ret}
variable {w : List Nat} {i k : Nat}

/-- The first `k` operations in their order. -/
def order (k : Nat) : List Nat := (List.range k).map (2 * ·)

theorem mem_order_iff {q : Nat} : q ∈ order k ↔ ∃ j < k, q = 2 * j := by
  simp [order, eq_comm]

theorem pairwise_order (k : Nat) : (order k).Pairwise (· < ·) :=
  List.pairwise_map.2 (List.pairwise_lt_range.imp fun h => by omega)

theorem takeEffect?_eq (ops : List (Completed Op Ret)) (object : σ) (k : Nat) :
    takeEffect? (sequential ops) object (2 * k) = ops[k]?.bind (·.perform? object) := by
  rw [takeEffect?, (getElem?_sequential ops k).1]
  cases ops[k]? with
  | none => rfl
  | some o =>
    cases hexpected : o.expected with
    | none => simp [Completed.invocation, Completed.perform?, hexpected]
    | some ret => simp [Completed.invocation, Completed.perform?, hexpected, eq_comm]

/-- Along the one order that there is, the search replays the operations. -/
theorem replay?_order (object : σ) (hk : k ≤ ops.length) :
    replay? (sequential ops) object (order k) = performAll? object (ops.take k) := by
  induction k with
  | zero => rfl
  | succ k ih =>
    have ho : ops[k]? = some ops[k] := List.getElem?_eq_getElem hk
    have ih := ih (Nat.le_of_lt hk)
    rw [order, List.range_succ, List.map_append, ← order, replay?_append, ih, List.take_add_one,
      ho, Option.toList_some, performAll?_concat]
    exact congrArg _ (funext fun now => by simp [replay?, takeEffect?_eq, ho])

theorem isLinearization_order (hk : k ≤ ops.length)
    (h : (performAll? object (ops.take k)).isSome) :
    IsLinearization object ((sequential ops).take (2 * k)) (order k) := by
  refine IsLinearization.take_iff.2 ⟨(pairwise_order k).imp Nat.ne_of_lt, ?_, ?_, ?_, ?_⟩
  · intro a r hr hret
    obtain ⟨j, -, rfl, rfl⟩ := returns_iff.1 hret
    exact mem_order_iff.2 ⟨j, by omega, rfl⟩
  · refine (pairwise_order k).imp_of_mem fun {a b} ha hb hab => ?_
    obtain ⟨j, -, rfl⟩ := mem_order_iff.1 ha
    obtain ⟨l, hl, rfl⟩ := mem_order_iff.1 hb
    exact (not_precedes_iff (by omega)).2 (by omega)
  · intro q hq
    obtain ⟨j, hj, rfl⟩ := mem_order_iff.1 hq
    omega
  · rwa [replay?_order object hk]

/-- Real time leaves no choice between operations that do not overlap. -/
theorem eq_order (h : IsLinearization object ((sequential ops).take i) w) (hk : k ≤ ops.length)
    (hi : 2 * k ≤ i) (hlt : ∀ q ∈ w, q < 2 * k) : w = order k := by
  obtain ⟨hnodup, hcomplete, hrealTime, -, hlegal⟩ := IsLinearization.take_iff.1 h
  obtain ⟨left, hleft⟩ := Option.isSome_iff_exists.1 hlegal
  have hmem : ∀ q ∈ w, ∃ j < k, q = 2 * j := fun q hq => by
    obtain ⟨p, hp⟩ := invokes_of_replay? hleft hq
    obtain ⟨j, -, rfl⟩ := exists_of_invokes hp
    have := hlt _ hq
    exact ⟨j, by omega, rfl⟩
  have hascending : w.Pairwise (· < ·) := by
    refine (hnodup.and hrealTime).imp_of_mem fun {a b} ha hb hab => ?_
    obtain ⟨j, hj, rfl⟩ := hmem a ha
    obtain ⟨l, hl, rfl⟩ := hmem b hb
    have hle := (not_precedes_iff (by omega)).1 hab.2
    omega
  refine hascending.eq_of_mem_iff (pairwise_order k) fun q => ?_
  rw [mem_order_iff]
  constructor
  · exact hmem q
  · rintro ⟨j, hj, rfl⟩
    exact hcomplete _ (2 * j + 1) (by omega) (returns_iff.2 ⟨j, by omega, rfl, rfl⟩)

theorem isLinearization_order_succ (hk : k ≤ ops.length)
    (h : (performAll? object (ops.take k)).isSome) :
    IsLinearization object ((sequential ops).take (2 * k + 1)) (order k) := by
  refine (isLinearization_order hk h).take_succ fun a hret => ?_
  obtain ⟨j, -, -, hj⟩ := returns_iff.1 hret
  omega

theorem not_mem_order (k : Nat) : 2 * k ∉ order k := by
  intro hmem
  obtain ⟨j, hj, heq⟩ := mem_order_iff.1 hmem
  omega

/-- Ahead of a return, its operation is the only one that can be left out. -/
theorem eq_order_of_not_mem (h : IsLinearization object ((sequential ops).take (2 * k + 1)) w)
    (hk : k ≤ ops.length) (hlast : 2 * k ∉ w) : w = order k := by
  refine eq_order h hk (Nat.le_succ _) fun q hq => ?_
  have hle : q < 2 * k + 1 := h.lt_of_take hq
  have hne : q ≠ 2 * k := fun heq => hlast (heq ▸ hq)
  omega

theorem linearizable_take_iff (hk : k ≤ ops.length) :
    Linearizable object ((sequential ops).take (2 * k)) ↔
      (performAll? object (ops.take k)).isSome := by
  constructor
  · rintro ⟨w, hw⟩
    have hlegal := (IsLinearization.take_iff.1 hw).2.2.2.2
    rwa [eq_order hw hk (Nat.le_refl _) fun q hq => hw.lt_of_take hq, replay?_order object hk]
      at hlegal
  · intro h
    exact ⟨order k, isLinearization_order hk h⟩

theorem linearizable_iff :
    Linearizable object (sequential ops) ↔ (performAll? object ops).isSome := by
  have h : Linearizable object ((sequential ops).take (2 * ops.length)) ↔ _ :=
    linearizable_take_iff (Nat.le_refl ops.length)
  rwa [← length_sequential, List.take_length, List.take_length] at h

end Order

theorem alternating (ops : List (Completed Op Ret)) :
    Alternating ((sequential ops).map Event.turn) := by
  intro i turn hi
  obtain ⟨k, rfl | rfl⟩ := Nat.even_or_odd' i
  · rw [turn_invokes, Option.map_eq_some_iff] at hi
    obtain ⟨o, -, rfl⟩ := hi
    rw [outstanding_even]
    rfl
  · rw [turn_returns, Option.map_eq_some_iff] at hi
    obtain ⟨o, ho, rfl⟩ := hi
    rw [outstanding_odd.2 ⟨rfl, o, ho, rfl⟩]
    rfl

section Mismatch

variable [ReferenceObject σ Op Ret] [DecidableEq Ret] [LawfulCheck σ]
variable {object now : σ} {ops : List (Completed Op Ret)} {o : Completed Op Ret} {ret : Ret}
variable {j k : Nat} {p : ProcessId} (h : FirstMismatch object ops k o ret)

include h

/-- What is linearizable ends ahead of the first return that replay does not come to. -/
theorem linearizable_take_iff_le :
    Linearizable object ((sequential ops).take j) ↔ j ≤ 2 * k + 1 := by
  obtain ⟨now, hnow, -, hnone⟩ := h.exists_performAll?
  obtain ⟨hk, rfl⟩ := List.getElem?_eq_some_iff.1 h.operation
  have hbefore : Linearizable object ((sequential ops).take (2 * k)) :=
    (linearizable_take_iff (Nat.le_of_lt hk)).2 (by simp [hnow])
  have hinvoke : Linearizable object ((sequential ops).take (2 * k + 1)) :=
    hbefore.take_succ (by rw [turn_invokes, h.operation]; rfl)
  constructor
  · intro hlin
    by_contra hlt
    have hafter : Linearizable object ((sequential ops).take (2 * (k + 1))) :=
      hlin.take_of_le (by omega)
    rw [linearizable_take_iff hk, List.take_add_one, h.operation, Option.toList_some,
      performAll?_concat, hnow] at hafter
    simp [hnone] at hafter
  · exact hinvoke.take_of_le

/-- Ahead of that return, nothing but the replayed result is rejected. -/
theorem rejection_iff {ret' : Ret} :
    Rejection object (sequential ops) o.process (2 * k + 1) ret' ↔ ret' = ret := by
  obtain ⟨now, hnow, rfl, hnone⟩ := h.exists_performAll?
  have hlt : k < ops.length := (List.getElem?_eq_some_iff.1 h.operation).1
  have hk : k ≤ ops.length := Nat.le_of_lt hlt
  have hreplay : replay? (sequential ops) object (order k) = some now :=
    (replay?_order object hk).trans hnow
  have he := (getElem?_sequential ops k).1.trans (congrArg _ h.operation)
  constructor
  · rintro ⟨hret, hw, ha, hq, -, he', hnow', -⟩
    obtain ⟨k', -, rfl, hk'⟩ := returns_iff.1 hret
    obtain rfl : k = k' := by omega
    obtain ⟨rfl, -⟩ := outstanding_odd.1 hq
    obtain rfl := eq_order_of_not_mem hw hk ha
    rw [hreplay] at hnow'
    rw [he] at he'
    cases hnow'
    cases he'
    rfl
  · rintro rfl
    have hret : Returns ((sequential ops).map Event.turn) (2 * k) (2 * k + 1) :=
      returns_iff.2 ⟨k, hlt, rfl, rfl⟩
    have hw : IsLinearization object ((sequential ops).take (2 * k + 1)) (order k) :=
      isLinearization_order_succ hk (by simp [hnow])
    exact .intro hret hw (not_mem_order k) (outstanding_odd.2 ⟨rfl, o, h.operation, rfl⟩)
      (not_mem_order k) he hreplay h.mismatched

theorem furthest_eq {reach : Reach Ret}
    (hending : Search.Ending (sequential ops) object (.ok (.notLinearizable reach)) now) :
    reach.furthest = 2 * k + 1 := by
  have hk : k < ops.length := (List.getElem?_eq_some_iff.1 h.operation).1
  cases hending with
  | notLinearizable _ hlt hfurthest =>
    have hle : reach.furthest ≤ 2 * k + 1 :=
      (linearizable_take_iff_le h).1 ((hfurthest _ (Nat.le_of_lt hlt)).2 (Nat.le_refl _))
    have hlength : 2 * k + 1 ≤ (sequential ops).length := by
      rw [length_sequential]
      omega
    have hge : 2 * k + 1 ≤ reach.furthest :=
      (hfurthest _ hlength).1 ((linearizable_take_iff_le h).2 (Nat.le_refl _))
    exact Nat.le_antisymm hle hge

theorem le_of_considered (hj : Considered object (sequential ops) p j) : j ≤ 2 * k + 1 := by
  rcases hj with ⟨-, hlin⟩ | ⟨ret', hrejection⟩
  · exact (linearizable_take_iff_le h).1 hlin
  · cases hrejection with
    | intro _ hw => exact (linearizable_take_iff_le h).1 ⟨_, hw⟩

theorem rejected_eq {r : ProcessReach Ret} (hr : r.Exact object (sequential ops) o.process) :
    r.rejected = [ret] := by
  have hfurthest : r.furthest = some (2 * k + 1) := by
    refine (hr.furthest _).2 ⟨.inr ⟨ret, (rejection_iff h).2 rfl⟩, fun j hj => ?_⟩
    exact le_of_considered h hj
  have hmem : ∀ ret', ret' ∈ r.rejected ↔ ret' ∈ [ret] := fun ret' => by
    simp [hr.rejected, hfurthest, rejection_iff h]
  have hperm := (List.perm_ext_iff_of_nodup hr.nodup (List.nodup_singleton ret)).2 hmem
  exact List.perm_singleton.1 hperm

end Mismatch

end Sequential

namespace Tester

open Search Linearizability.Sequential

variable [ReferenceObject σ Op Ret] [DecidableEq Ret]

/-- A tester that nothing stops early finds a sequential history linearizable exactly if every
operation was observed and replay accepts what was observed. Otherwise it comes to the return of
the first operation that replay does not accept, where it rejects what replay gives and nothing
else. -/
theorem judge_sequential [LawfulUndo σ] [LawfulCheck σ] (t : Tester σ)
    (hlimits : t.limits.Unlimited) (ops : List (Completed Op Ret)) :
    let judged := (t.judge (sequential ops)).1
    (judged = .ok .linearizable ↔ ∃ observed, observations? ops = some observed ∧
      (ReferenceObject.checkHistory t.object observed).1 = true) ∧
    (judged ≠ .ok .linearizable → ∃ k o ret reach r, FirstMismatch t.object ops k o ret ∧
      judged = .ok (.notLinearizable reach) ∧ reach.furthest = 2 * k + 1 ∧
      (sequential ops)[reach.furthest]? = some (.ret o.process o.result) ∧
      reach.process? o.process = some r ∧ r.rejected = [ret]) := by
  have hending := t.judge_ending (sequential ops) hlimits
  rcases hending.decides (alternating ops) with ⟨hlin, ho⟩ | ⟨hno, reach, ho⟩
  · rw [linearizable_iff, isSome_performAll?_iff] at hlin
    exact ⟨iff_of_true ho hlin, absurd ho⟩
  rw [linearizable_iff] at hno
  refine ⟨iff_of_false (by simp [ho]) (mt isSome_performAll?_iff.2 hno), fun _ => ?_⟩
  obtain ⟨k, o, ret, h⟩ := exists_firstMismatch (Option.not_isSome_iff_eq_none.1 hno)
  obtain ⟨visited, last, hexplores, rfl⟩ := t.exists_explores ho
  rw [ho] at hending
  have hfurthest := furthest_eq h hending
  have hanswer := (getElem?_sequential ops k).2.trans (congrArg _ h.operation)
  obtain ⟨r, hr, hexact⟩ := hexplores.exact (lt_processCount_of_getElem? hanswer)
  exact ⟨k, o, ret, _, r, h, ho, hfurthest, hfurthest ▸ hanswer, hr, rejected_eq h hexact⟩

/-- The second operation has not read what was written, so the search does not get to the third one,
which was not observed. -/
theorem judge_sequential_stale_read :
    let t : Tester (Register Nat) := { object := { value := 0 } }
    let ops : List (Completed (Register.Op Nat) (Register.Ret Nat)) :=
      [⟨⟨0⟩, "write(1)", .write 1, some .written, some .written⟩,
        ⟨⟨1⟩, "read()", .read, some (.read 0), some (.read 0)⟩,
        ⟨⟨0⟩, "read()", .read, none, none⟩]
    (t.judge (sequential (ops.take 1))).1 = .ok .linearizable ∧
    (t.judge (sequential ops)).1 =
      .ok (.notLinearizable ⟨3, [⟨some 1, []⟩, ⟨some 3, [.read 1]⟩]⟩) ∧
    ∃ o, FirstMismatch t.object ops 1 o (.read 1) := by
  intro t ops
  have hfail : (t.judge (sequential ops)).1 =
      .ok (.notLinearizable ⟨3, [⟨some 1, []⟩, ⟨some 3, [.read 1]⟩]⟩) := by
    cbv
  have haccepted := (judge_sequential t Limits.unlimited_default (ops.take 1)).1
  refine ⟨haccepted.2 ⟨[(.write 1, .written)], rfl, by decide⟩, hfail, ?_⟩
  obtain ⟨k, o, ret, reach, r, h, hjudged, hfurthest, -, hr, hrejected⟩ :=
    (judge_sequential t Limits.unlimited_default ops).2 (by simp [hfail])
  rw [hfail] at hjudged
  cases hjudged
  obtain rfl : k = 1 := by
    dsimp only at hfurthest
    omega
  obtain rfl : _ = o := Option.some.inj h.operation
  obtain rfl : _ = r := Option.some.inj hr
  obtain rfl : _ = ret := List.singleton_inj.1 hrejected
  exact ⟨_, h⟩

end Tester

end Linearizability
