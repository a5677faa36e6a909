import Linearizability.Proofs.RealTime
import Mathlib.Data.Finset.Card
import Mathlib.Data.Nat.Count

/-!
# Leaving calls out

A selection of the turns of a history keeps an invocation exactly if it keeps the return from it.
Leaving out the other calls changes positions, but neither which return belongs to which invocation
nor what precedes what.
-/

namespace Linearizability.Turn

variable {keep : Nat → Prop} [DecidablePred keep] {turns kept : List Turn} {p : ProcessId}
variable {a b i j n r : Nat}

theorem exists_of_lt_count (h : j < Nat.count keep n) : ∃ i < n, keep i ∧ Nat.count keep i = j := by
  induction n with
  | zero => simp at h
  | succ n ih =>
    by_cases hj : j < Nat.count keep n
    · obtain ⟨i, hi, hkeep⟩ := ih hj
      exact ⟨i, Nat.lt_succ_of_lt hi, hkeep⟩
    · rw [Nat.count_succ] at h
      split at h
      · exact ⟨n, Nat.lt_succ_self n, by assumption, by omega⟩
      · omega

variable (keep turns kept) in
/-- The turns that are kept, in their order. -/
structure Selection : Prop where
  length : kept.length = Nat.count keep turns.length
  turn : ∀ i < turns.length, keep i → kept[Nat.count keep i]? = turns[i]?
  closed : ∀ a r, Returns turns a r → (keep a ↔ keep r)

namespace Selection

theorem count_inj (hi : keep i) (hj : keep j) : Nat.count keep i = Nat.count keep j ↔ i = j :=
  ⟨Nat.count_injective hi hj, congrArg _⟩

theorem count_lt_iff (hi : keep i) : Nat.count keep i < Nat.count keep j ↔ i < j :=
  ⟨Nat.lt_of_count_lt_count, Nat.count_strict_mono hi⟩

theorem exists_kept (h : Selection keep turns kept) {turn : Turn} (hj : kept[j]? = some turn) :
    ∃ i, keep i ∧ Nat.count keep i = j ∧ turns[i]? = some turn := by
  have hlt := (List.getElem?_eq_some_iff.1 hj).1
  rw [h.length] at hlt
  obtain ⟨i, hi, hkeep, rfl⟩ := exists_of_lt_count hlt
  exact ⟨i, hkeep, rfl, (h.turn i hi hkeep).symm.trans hj⟩

/-- The outstanding invocation is the same one, unless it is left out. -/
theorem outstanding_count (h : Selection keep turns kept) (halt : Alternating turns)
    (hn : n ≤ turns.length) : outstanding kept p (Nat.count keep n) =
      (outstanding turns p n).bind fun a => if keep a then some (Nat.count keep a) else none := by
  induction n with
  | zero => simp [outstanding]
  | succ n ih =>
    have hlt : n < turns.length := hn
    have ih := ih (Nat.le_of_lt hlt)
    obtain ⟨⟨q, invokes⟩, hturn⟩ : ∃ turn, turns[n]? = some turn :=
      ⟨_, List.getElem?_eq_getElem hlt⟩
    by_cases hkeep : keep n
    · have hkept := (h.turn n hlt hkeep).trans hturn
      rw [Nat.count_succ, if_pos hkeep]
      by_cases hp : q = p
      · subst hp
        cases invokes with
        | true => simp [outstanding_succ_of_invokes hkept, outstanding_succ_of_invokes hturn, hkeep]
        | false => simp [outstanding_succ_of_returns hkept, outstanding_succ_of_returns hturn]
      · rw [outstanding_succ_of_ne hkept hp, outstanding_succ_of_ne hturn hp, ih]
    · rw [Nat.count_succ, if_neg hkeep, Nat.add_zero, ih]
      by_cases hp : q = p
      · subst hp
        have hinvokes := halt n _ hturn
        cases invokes with
        | true =>
          have ho : outstanding turns q n = none := Option.isNone_iff_eq_none.1 hinvokes.symm
          simp [outstanding_succ_of_invokes hturn, ho, hkeep]
        | false =>
          rw [outstanding_succ_of_returns hturn]
          refine Option.bind_eq_none_iff.2 fun a ho => if_neg fun ha => hkeep ?_
          exact (h.closed a n ⟨q, hturn, ho⟩).1 ha
      · rw [outstanding_succ_of_ne hturn hp]

theorem returns_count (h : Selection keep turns kept) (halt : Alternating turns) (ha : keep a)
    (hr : keep r) : Returns kept (Nat.count keep a) (Nat.count keep r) ↔ Returns turns a r := by
  constructor
  · rintro ⟨p, hret, ho⟩
    obtain ⟨i, hi, hcount, hturn⟩ := h.exists_kept hret
    obtain rfl := (count_inj hi hr).1 hcount
    have hlt := (List.getElem?_eq_some_iff.1 hturn).1
    rw [h.outstanding_count halt (Nat.le_of_lt hlt), Option.bind_eq_some_iff] at ho
    obtain ⟨b, hb, hkeep⟩ := ho
    rw [Option.ite_none_right_eq_some, Option.some.injEq] at hkeep
    obtain rfl := (count_inj hkeep.1 ha).1 hkeep.2
    exact ⟨p, hturn, hb⟩
  · intro hret
    obtain ⟨p, hturn, ho⟩ := hret
    have hlt := (List.getElem?_eq_some_iff.1 hturn).1
    refine ⟨p, (h.turn r hlt hr).trans hturn, ?_⟩
    rw [h.outstanding_count halt (Nat.le_of_lt hlt), ho]
    simp [ha]

theorem exists_returns (h : Selection keep turns kept) (halt : Alternating turns)
    (hret : Returns kept i j) : ∃ a r, keep a ∧ keep r ∧ Nat.count keep a = i ∧
      Nat.count keep r = j ∧ Returns turns a r := by
  obtain ⟨p, hturn, ho⟩ := hret
  obtain ⟨r, hr, rfl, -⟩ := h.exists_kept hturn
  obtain ⟨a, ha, rfl, -⟩ := h.exists_kept (invokes_of_outstanding ho)
  exact ⟨a, r, ha, hr, rfl, rfl, (h.returns_count halt ha hr).1 ⟨p, hturn, ho⟩⟩

theorem precedes_count (h : Selection keep turns kept) (halt : Alternating turns) (ha : keep a) :
    Precedes kept (Nat.count keep a) (Nat.count keep b) ↔ Precedes turns a b := by
  constructor
  · rintro ⟨j, hret, hlt⟩
    obtain ⟨a', r, ha', hr, hcount, rfl, hreturns⟩ := h.exists_returns halt hret
    obtain rfl := (count_inj ha' ha).1 hcount
    exact ⟨r, hreturns, (count_lt_iff hr).1 hlt⟩
  · rintro ⟨r, hret, hlt⟩
    have hr := (h.closed a r hret).1 ha
    exact ⟨_, (h.returns_count halt ha hr).2 hret, (count_lt_iff hr).2 hlt⟩

theorem alternating (h : Selection keep turns kept) (halt : Alternating turns) :
    Alternating kept := by
  intro j turn hj
  obtain ⟨i, hi, rfl, hturn⟩ := h.exists_kept hj
  have hlt := (List.getElem?_eq_some_iff.1 hturn).1
  rw [h.outstanding_count halt (Nat.le_of_lt hlt), halt i turn hturn]
  cases ho : outstanding turns turn.process i with
  | none => rfl
  | some a =>
    have hinvokes := halt i turn hturn
    rw [ho] at hinvokes
    have hret : turns[i]? = some ⟨turn.process, false⟩ := by
      rw [hturn, ← show turn.invokes = false from hinvokes]
    simp [(h.closed a i ⟨_, hret, ho⟩).2 hi]

end Selection

section Count

theorem any_invokes_of_returns (h : Returns turns a r) :
    turns[a]?.any Turn.invokes ∧ ¬ turns[r]?.any Turn.invokes := by
  obtain ⟨p, hr, ho⟩ := h
  simp [hr, invokes_of_outstanding ho]

theorem Alternating.exists_returns_of_any (h : Alternating turns) (hr : r < turns.length)
    (hno : ¬ turns[r]?.any Turn.invokes) : ∃ a, Returns turns a r := by
  have hturn : turns[r]? = some ⟨turns[r].process, false⟩ := by
    rw [List.getElem?_eq_getElem hr, Option.any_some, Bool.not_eq_true] at hno
    rw [List.getElem?_eq_getElem hr, ← hno]
  exact h.exists_returns hturn

/-- There are as many returns that are kept as calls that are kept and have one. -/
theorem Alternating.card_returns (halt : Alternating turns)
    (hclosed : ∀ a r, Returns turns a r → (keep a ↔ keep r)) :
    ((Finset.range turns.length).filter fun r => keep r ∧ ¬ turns[r]?.any Turn.invokes).card =
      ((Finset.range turns.length).filter fun a => (keep a ∧ turns[a]?.any Turn.invokes) ∧
        ¬ ∀ r < turns.length, ¬ Returns turns a r).card := by
  have hanswered : ∀ r ∈ (Finset.range turns.length).filter
      (fun r => keep r ∧ ¬ turns[r]?.any Turn.invokes), ∃ a, Returns turns a r := by
    intro r hr
    obtain ⟨hlt, -, hreturns⟩ := Finset.mem_filter.1 hr
    exact halt.exists_returns_of_any (Finset.mem_range.1 hlt) hreturns
  choose answered hanswered using hanswered
  refine Finset.card_bij answered (fun r hr => ?_) (fun r hr r' hr' heq => ?_) (fun a ha => ?_)
  · have hret := hanswered r hr
    obtain ⟨hlt, hkeep, -⟩ := Finset.mem_filter.1 hr
    have hlt := Finset.mem_range.1 hlt
    exact Finset.mem_filter.2 ⟨Finset.mem_range.2 (Nat.lt_trans hret.lt hlt),
      ⟨(hclosed _ r hret).2 hkeep, (any_invokes_of_returns hret).1⟩, fun hno => hno r hlt hret⟩
  · exact (hanswered r hr).unique (heq ▸ hanswered r' hr')
  · obtain ⟨-, ⟨hkeep, -⟩, hsome⟩ := Finset.mem_filter.1 ha
    obtain ⟨r, hr, hret⟩ : ∃ r < turns.length, Returns turns a r := by simpa using hsome
    refine ⟨r, Finset.mem_filter.2 ⟨Finset.mem_range.2 hr, (hclosed a r hret).1 hkeep,
      (any_invokes_of_returns hret).2⟩, (hanswered r _).unique_invocation hret⟩

/-- A call that is kept is kept together with its return, unless it has none. -/
theorem Alternating.count_add_unreturned {called : Nat → Prop} [DecidablePred called]
    (halt : Alternating turns) (hclosed : ∀ a r, Returns turns a r → (keep a ↔ keep r))
    (hcalled : ∀ a, called a ↔ keep a ∧ turns[a]?.any Turn.invokes) :
    Nat.count keep turns.length +
        Nat.count (fun a => called a ∧ ∀ r < turns.length, ¬ Returns turns a r) turns.length =
      2 * Nat.count called turns.length := by
  let kept := (Finset.range turns.length).filter keep
  let calls := (Finset.range turns.length).filter called
  have hkept : (kept.filter fun i => turns[i]?.any Turn.invokes).card +
      (kept.filter fun i => ¬ turns[i]?.any Turn.invokes).card = kept.card :=
    Finset.card_filter_add_card_filter_not _
  have hcalls : (calls.filter fun a => ∀ r < turns.length, ¬ Returns turns a r).card +
      (calls.filter fun a => ¬ ∀ r < turns.length, ¬ Returns turns a r).card = calls.card :=
    Finset.card_filter_add_card_filter_not _
  have hall : Nat.count keep turns.length = kept.card := Nat.count_eq_card_filter_range ..
  have hcount : Nat.count called turns.length = calls.card := Nat.count_eq_card_filter_range ..
  have hinvoked : (kept.filter fun i => turns[i]?.any Turn.invokes).card = calls.card := by
    rw [Finset.filter_filter]
    exact congrArg Finset.card (Finset.filter_congr fun a _ => (hcalled a).symm)
  have hreturned : (kept.filter fun i => ¬ turns[i]?.any Turn.invokes).card =
      (calls.filter fun a => ¬ ∀ r < turns.length, ¬ Returns turns a r).card := by
    rw [Finset.filter_filter, Finset.filter_filter, halt.card_returns hclosed]
    exact congrArg Finset.card (Finset.filter_congr fun a _ => by rw [hcalled])
  have hcut : Nat.count (fun a => called a ∧ ∀ r < turns.length, ¬ Returns turns a r)
      turns.length = (calls.filter fun a => ∀ r < turns.length, ¬ Returns turns a r).card := by
    rw [Finset.filter_filter, Nat.count_eq_card_filter_range]
  omega

end Count

end Linearizability.Turn
