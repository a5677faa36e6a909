import Linearizability.Proofs.RealTime
import Mathlib.Data.List.Induction
import Mathlib.Data.List.Nodup
import Mathlib.Data.List.Perm.Subperm

/-!
# Counting turns

Distinct positions of a list are no more than the entries that stand there. As every return in an
alternating history returns from an invocation of its own, at least half of the turns invoke.
-/

namespace Linearizability.Turn

section Positions

variable {α : Type} {P : α → Bool}

theorem countP_eq_length_range (l : List α) :
    l.countP P = ((List.range l.length).filter fun i => l[i]?.any P).length := by
  induction l using List.reverseRecOn with
  | nil => rfl
  | append_singleton l x ih =>
    have hcongr : (List.range l.length).filter (fun i => (l ++ [x])[i]?.any P) =
        (List.range l.length).filter fun i => l[i]?.any P :=
      List.filter_congr fun i hi => by rw [List.getElem?_append_left (List.mem_range.1 hi)]
    rw [List.countP_append, ih, List.length_append, List.length_singleton, List.range_succ,
      List.filter_append, List.length_append, hcongr]
    cases h : P x <;> simp [h]

theorem length_le_countP {l : List α} {positions : List Nat} (hnodup : positions.Nodup)
    (h : ∀ i ∈ positions, ∃ x, l[i]? = some x ∧ P x = true) : positions.length ≤ l.countP P := by
  rw [countP_eq_length_range]
  refine (hnodup.subperm fun i hi => ?_).length_le
  obtain ⟨x, hx, hP⟩ := h i hi
  exact List.mem_filter.2 ⟨List.mem_range.2 (List.getElem?_eq_some_iff.1 hx).1, by simp [hx, hP]⟩

end Positions

/-- This is the turn at `i`, and it is taken `k` times before. -/
def IsNth (turns : List Turn) (turn : Turn) (k i : Nat) : Prop :=
  turns[i]? = some turn ∧ (turns.take i).count turn = k

variable {turns : List Turn} {turn last : Turn} {i j k : Nat}

namespace IsNth

theorem count_take_succ (h : IsNth turns turn k i) : (turns.take (i + 1)).count turn = k + 1 := by
  rw [List.take_add_one, h.1, List.count_append, h.2]
  simp

theorem not_lt (h : IsNth turns turn k i) (h' : IsNth turns turn k j) : ¬ i < j := by
  intro hlt
  have hsub : (turns.take (i + 1)).Sublist (turns.take j) :=
    (List.take_prefix_take_left (show i + 1 ≤ j from hlt)).sublist
  have hle := hsub.count_le turn
  rw [h.count_take_succ, h'.2] at hle
  omega

theorem unique (h : IsNth turns turn k i) (h' : IsNth turns turn k j) : i = j :=
  Nat.le_antisymm (Nat.le_of_not_lt (h'.not_lt h)) (Nat.le_of_not_lt (h.not_lt h'))

theorem lt_count (h : IsNth turns turn k i) : k < turns.count turn := by
  have hle := (List.take_sublist (i + 1) turns).count_le turn
  rw [h.count_take_succ] at hle
  exact hle

theorem concat_iff : IsNth (turns ++ [last]) turn k i ↔
    IsNth turns turn k i ∨ i = turns.length ∧ last = turn ∧ turns.count turn = k := by
  rcases Nat.lt_trichotomy i turns.length with hlt | rfl | hlt
  · simp [IsNth, List.getElem?_append_left hlt, List.take_append_of_le_length (Nat.le_of_lt hlt),
      Nat.ne_of_lt hlt]
  · simp [IsNth]
  · simp [IsNth, List.getElem?_eq_none (Nat.le_of_lt hlt), Nat.ne_of_gt hlt,
      show ¬ i < turns.length + 1 by omega]

end IsNth

/-- The invocations of a process are those that returned and the outstanding one. -/
theorem Alternating.count_invokes (h : Alternating (turns.take i)) (p : ProcessId) :
    (turns.take i).count ⟨p, true⟩ =
      (turns.take i).count ⟨p, false⟩ + (outstanding turns p i).toList.length := by
  induction i with
  | zero => rfl
  | succ i ih =>
    have hprev : Alternating (turns.take i) := by
      have := h.take i
      rwa [List.take_take, Nat.min_eq_left (Nat.le_succ i)] at this
    have hnext : ∀ turn, turns[i]? = some turn →
        turn.invokes = (outstanding turns turn.process i).isNone := by
      intro turn hturn
      have hinvokes := h i turn (getElem?_take_eq_some_iff.2 ⟨Nat.lt_succ_self i, hturn⟩)
      rwa [outstanding_take (Nat.le_succ i)] at hinvokes
    rw [List.take_add_one, List.count_append, List.count_append, ih hprev]
    rcases turn_cases turns p i with hturn | hturn | hother
    · have ho : outstanding turns p i = none := by simpa using hnext _ hturn
      simp [outstanding_succ_of_invokes hturn, hturn, ho]
    · obtain ⟨a, ho⟩ : ∃ a, outstanding turns p i = some a :=
        Option.isSome_iff_exists.1 (by simpa using hnext _ hturn)
      simp [outstanding_succ_of_returns hturn, hturn, ho]
    · rw [outstanding_succ_of_forall_ne hother]
      cases hturn : turns[i]? with
      | none => simp
      | some turn =>
        obtain ⟨q, invokes⟩ := turn
        have hq : q ≠ p := hother _ hturn
        simp [hq]

/-- If every return returns from an invocation, there are no more returns than invocations. -/
theorem length_le_of_forall_returns
    (h : ∀ r p, turns[r]? = some ⟨p, false⟩ → ∃ a, Returns turns a r) :
    turns.length ≤ 2 * turns.countP Turn.invokes := by
  let returns := (List.range turns.length).filter fun r => turns[r]?.any (!·.invokes)
  have hreturns : ∀ r ∈ returns, ∃ a, Returns turns a r := by
    intro r hr
    obtain ⟨⟨p, invokes⟩, hturn, hinvokes⟩ :=
      (Option.any_eq_true _ _).1 (List.mem_filter.1 hr).2
    obtain rfl : invokes = false := by simpa using hinvokes
    exact h r p hturn
  choose! answered hanswered using hreturns
  have hnodup : (returns.map answered).Nodup := by
    refine (List.nodup_range.filter _).map_on fun r hr r' hr' heq => ?_
    exact (hanswered r hr).unique (heq ▸ hanswered r' hr')
  have hle := length_le_countP (P := Turn.invokes) hnodup fun a ha => by
    obtain ⟨r, hr, rfl⟩ := List.mem_map.1 ha
    obtain ⟨p, -, ho⟩ := hanswered r hr
    exact ⟨_, invokes_of_outstanding ho, rfl⟩
  have hcount : turns.countP (!·.invokes) = returns.length := countP_eq_length_range turns
  have htotal := List.length_eq_countP_add_countP Turn.invokes (l := turns)
  simp only [Bool.not_eq_true, Bool.decide_eq_false] at htotal
  rw [List.length_map] at hle
  omega

theorem Alternating.length_le (h : Alternating turns) :
    turns.length ≤ 2 * turns.countP Turn.invokes :=
  length_le_of_forall_returns fun _ _ => h.exists_returns

/-- The invocations of the processes up to one are its own and those of the processes before it. -/
theorem countP_invokes_le_add (turns : List Turn) (n : Nat) :
    turns.countP (fun turn => turn.invokes && turn.process.toNat ≤ n) ≤
      turns.countP (fun turn => turn.invokes && turn.process.toNat < n) +
        turns.count ⟨.ofNat n, true⟩ := by
  induction turns with
  | nil => exact Nat.zero_le _
  | cons turn turns ih =>
    obtain ⟨q, invokes⟩ := turn
    simp only [List.countP_cons, List.count_cons]
    by_cases hq : q.toNat = n
    · obtain rfl : q = .ofNat n := by
        rw [← hq, ProcessId.ofNat, ProcessId.toNat, UInt64.ofNat_toNat]
      cases invokes with
      | true =>
        simp only [hq, Nat.le_refl, Nat.lt_irrefl, decide_true, decide_false, Bool.and_self,
          Bool.and_false, Bool.false_eq_true, BEq.rfl, if_true, if_false]
        omega
      | false => simpa using ih
    · have hsame : q.toNat ≤ n ↔ q.toNat < n := by omega
      simp only [hsame]
      omega

theorem countP_invokes_le {k : Nat} (hcount : ∀ p, turns.count ⟨p, true⟩ ≤ k) (n : Nat) :
    turns.countP (fun turn => turn.invokes && turn.process.toNat < n) ≤ n * k := by
  induction n with
  | zero => simp
  | succ n ih =>
    have hle := countP_invokes_le_add turns n
    have hlast := hcount (.ofNat n)
    simp only [Nat.lt_succ_iff, Nat.succ_mul]
    omega

end Linearizability.Turn
