import Linearizability.Proofs.Search.Bisimulation
import Linearizability.Proofs.Search.Branch
import Mathlib.Logic.Relation

/-!
# The loop of the search

A search that nothing stops early repeats its step until the step halts. The main statement is that
this happens from every state, whatever the object answers, and that the history alone bounds the
number of steps. A run within its limits is the loop, and a run on a smaller budget breaks it off.
-/

namespace Linearizability.Search

variable {σ Op Ret : Type} [ReferenceObject σ Op Ret] [DecidableEq Ret]

/-- The search halts with its `n`-th step. -/
inductive Ends (events : Array (Event Op Ret)) :
    Search σ Ret → Nat → Except Fault (Verdict Ret) → σ → Prop
  | halt {s outcome left} (h : s.step events = .halt outcome left) : Ends events s 1 outcome left
  | next {s s' n outcome left} (h : s.step events = .next s')
      (rest : Ends events s' n outcome left) : Ends events s (n + 1) outcome left

theorem exists_ends (events : Array (Event Op Ret)) (s : Search σ Ret) :
    ∃ n outcome left, n ≤ s.cost events + 1 ∧ Ends events s n outcome left := by
  induction hcost : s.cost events using Nat.strong_induction_on generalizing s with
  | _ cost ih =>
    subst hcost
    cases hstep : s.step events with
    | halt outcome left => exact ⟨1, outcome, left, by omega, .halt hstep⟩
    | next s' =>
      have hlt := cost_step hstep
      obtain ⟨n, outcome, left, hn, hends⟩ := ih _ hlt s' rfl
      exact ⟨n + 1, outcome, left, by omega, .next hstep hends⟩

omit [ReferenceObject σ Op Ret] [DecidableEq Ret] in
/-- What the loop costs from the start depends on the history only. -/
theorem cost_start (object : σ) (events : List (Event Op Ret)) :
    (start object events).cost events.toArray =
      advanceCost (processCount events) events.length 0 := by
  simp [cost, start, taskCost, pathCost, pendingCount, List.countP_replicate, Phase.isPending]

section Runs

variable {events : Array (Event Op Ret)} {s : Search σ Ret} {limits : Limits σ} {k n : Nat}
variable {outcome : Except Fault (Verdict Ret)} {left : σ}

omit [ReferenceObject σ Op Ret] [DecidableEq Ret] in
theorem Limits.any_maxSteps_eq_false (h : ∀ m, limits.maxSteps = some m → k < m) :
    limits.maxSteps.any (· < k + 1) = false := by
  cases hm : limits.maxSteps with
  | none => rfl
  | some m =>
    have := h m hm
    simp only [Option.any_some, decide_eq_false_iff_not]
    omega

/-- A run that is not cancelled, on a budget that is large enough, is the loop. -/
theorem Ends.run_eq (h : Ends events s n outcome left)
    (hcancelled : ∀ steps object, limits.cancelled steps object = false)
    (hmax : ∀ m, limits.maxSteps = some m → k + n ≤ m) :
    run events limits k s = ⟨outcome, left, k + n⟩ := by
  induction h generalizing k with
  | halt hstep =>
    rw [Search.run_eq, hcancelled, Limits.any_maxSteps_eq_false hmax, hstep]
    rfl
  | @next s s' n outcome left hstep rest ih =>
    have hfirst : ∀ m, limits.maxSteps = some m → k < m := by
      intro m hm
      have := hmax m hm
      omega
    have hlater : ∀ m, limits.maxSteps = some m → k + 1 + n ≤ m := by
      intro m hm
      have := hmax m hm
      omega
    have hrest := ih hlater
    rw [Nat.add_right_comm] at hrest
    rw [Search.run_eq, hcancelled, Limits.any_maxSteps_eq_false hfirst, hstep]
    exact hrest

end Runs

section Moves

variable {events : List (Event Op Ret)} {object left : σ} {s s' : Search σ Ret} {k m n : Nat}
variable {outcome : Except Fault (Verdict Ret)} {limits : Limits σ}

/-- The moves of a loop lead to the state in which it halts. -/
theorem Ends.exists_halt (h : Ends events.toArray s n outcome left) :
    ∃ last, Relation.ReflTransGen (Move events) s last ∧ Halt events last outcome left := by
  induction h with
  | @halt s outcome left hstep =>
    have hhalt := stepOf_step events s
    rw [hstep] at hhalt
    exact ⟨s, .refl, hhalt⟩
  | @next s s' n outcome left hstep rest ih =>
    have hmove := stepOf_step events s
    rw [hstep] at hmove
    obtain ⟨last, hreach, hhalt⟩ := ih
    exact ⟨last, .head hmove hreach, hhalt⟩

variable [LawfulUndo σ]

theorem OnBranch.moves (h : OnBranch events object s)
    (hreach : Relation.ReflTransGen (Move events) s s') : OnBranch events object s' := by
  induction hreach with
  | refl => exact h
  | tail _ hm ih => exact ih.move hm

/-- A budget that the loop exceeds breaks it off, and the object is restored. -/
theorem Ends.run_exhausted (h : Ends events.toArray s n outcome left)
    (hb : OnBranch events object s)
    (hcancelled : ∀ steps object, limits.cancelled steps object = false)
    (hmax : limits.maxSteps = some m) (hk : k ≤ m) (hm : m < k + n) :
    run events.toArray limits k s = ⟨.ok .exhausted, object, m + 1⟩ := by
  have hbroken : ∀ s : Search σ Ret, OnBranch events object s →
      run events.toArray limits m s = ⟨.ok .exhausted, object, m + 1⟩ := by
    intro s hb
    rw [Search.run_eq, hcancelled, hmax]
    simp [stop, hb.conclude_eq]
  induction h generalizing k with
  | halt hstep =>
    obtain rfl : k = m := by omega
    exact hbroken _ hb
  | @next s s' n outcome left hstep rest ih =>
    rcases Nat.lt_or_eq_of_le hk with hlt | rfl
    · have hmove := stepOf_step events s
      rw [hstep] at hmove
      have hfirst : ∀ m', limits.maxSteps = some m' → k < m' := by
        intro m' hm'
        rw [hmax] at hm'
        exact Option.some.inj hm' ▸ hlt
      rw [Search.run_eq, hcancelled, Limits.any_maxSteps_eq_false hfirst, hstep]
      exact ih (hb.move hmove) hlt (by omega)
    · exact hbroken s hb

end Moves

end Linearizability.Search
