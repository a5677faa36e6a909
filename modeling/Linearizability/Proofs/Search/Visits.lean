import Linearizability.Proofs.Search.Bisimulation

/-!
# What a run visits

Whatever its limits, a run takes steps from one search to the next until it is stopped or its step
halts. What it does is told by the searches that it visits. Each step lowers the cost, so no two of
them cost the same.
-/

namespace Linearizability.Search

variable {σ Op Ret : Type} [ReferenceObject σ Op Ret] [DecidableEq Ret]

/-- Steps lead from the search to the last one. These are the searches that they leave, the latest
first. -/
inductive Visits (events : List (Event Op Ret)) (s : Search σ Ret) :
    List (Search σ Ret) → Search σ Ret → Prop
  | start : Visits events s [] s
  | step {visited t t'} (h : Visits events s visited t)
      (hstep : t.step events.toArray = .next t') : Visits events s (t :: visited) t'

/-- How a run ends that has come to this search. -/
inductive Concludes (events : List (Event Op Ret)) (s : Search σ Ret) : Result σ Ret → Prop
  | interrupted (n : Nat) : Concludes events s (s.stop .interrupted n)
  | exhausted (n : Nat) : Concludes events s (s.stop .exhausted n)
  | halted {outcome left} (n : Nat) (h : s.step events.toArray = .halt outcome left) :
      Concludes events s ⟨outcome, left, n⟩

variable {events : List (Event Op Ret)} {s s' t last : Search σ Ret}
variable {visited : List (Search σ Ret)}

theorem move_of_step (h : s.step events.toArray = .next s') : Move events s s' := by
  have hmove := stepOf_step events s
  rwa [h] at hmove

theorem halt_of_step {outcome : Except Fault (Verdict Ret)} {left : σ}
    (h : s.step events.toArray = .halt outcome left) : Halt events s outcome left := by
  have hhalt := stepOf_step events s
  rwa [h] at hhalt

namespace Visits

theorem head (hstep : s.step events.toArray = .next s') (h : Visits events s' visited last) :
    Visits events s (visited ++ [s]) last := by
  induction h with
  | start => exact .step .start hstep
  | step _ hlater ih => exact .step ih hlater

/-- Every search but the last one is left for another one of the run. -/
theorem exists_step (h : Visits events s visited last) (ht : t ∈ visited) :
    ∃ t', t.step events.toArray = .next t' ∧ t' ∈ last :: visited := by
  induction h with
  | start => simp at ht
  | @step visited u u' h hstep ih =>
    rcases List.mem_cons.1 ht with rfl | ht
    · exact ⟨u', hstep, List.mem_cons_self⟩
    · obtain ⟨t', hstep', hmem⟩ := ih ht
      exact ⟨t', hstep', List.mem_cons_of_mem u' hmem⟩

theorem start_mem (h : Visits events s visited last) : s ∈ last :: visited := by
  induction h with
  | start => exact List.mem_cons_self
  | step _ _ ih => exact List.mem_cons_of_mem _ ih

/-- What holds at the start and is kept by every move holds of all searches of the run. -/
theorem keeps {motive : Search σ Ret → Prop} (h : Visits events s visited last) (hs : motive s)
    (move : ∀ t t', motive t → Move events t t' → motive t') :
    ∀ t ∈ last :: visited, motive t := by
  induction h with
  | start => simpa using hs
  | @step visited u u' h hstep ih =>
    intro t ht
    rcases List.mem_cons.1 ht with rfl | ht
    · exact move u t (ih u List.mem_cons_self) (move_of_step hstep)
    · exact ih t ht

/-- A run that loses a property loses it with one of its steps. -/
theorem exists_loses {motive : Search σ Ret → Prop} (h : Visits events s visited last)
    (hs : motive s) (hlast : ¬ motive last) :
    ∃ t t', t ∈ visited ∧ t' ∈ last :: visited ∧ t.step events.toArray = .next t' ∧
      motive t ∧ ¬ motive t' := by
  induction h with
  | start => exact absurd hs hlast
  | @step visited u u' h hstep ih =>
    by_cases hu : motive u
    · exact ⟨u, u', List.mem_cons_self, List.mem_cons_self, hstep, hu, hlast⟩
    · obtain ⟨t, t', ht, ht', hstep', hmotive, hno⟩ := ih hu
      exact ⟨t, t', List.mem_cons_of_mem u ht, List.mem_cons_of_mem u' ht', hstep', hmotive, hno⟩

/-- From each of its searches on, the run is a run. -/
theorem exists_rest (h : Visits events s visited last) (ht : t ∈ last :: visited) :
    ∃ later, Visits events t later last ∧ ∀ u ∈ later, u ∈ visited := by
  induction h with
  | start =>
    obtain rfl : t = s := by simpa using ht
    exact ⟨[], .start, by simp⟩
  | @step visited u u' h hstep ih =>
    rcases List.mem_cons.1 ht with rfl | ht
    · exact ⟨[], .start, by simp⟩
    · obtain ⟨later, hlater, hmem⟩ := ih ht
      refine ⟨u :: later, .step hlater hstep, ?_⟩
      intro v hv
      rcases List.mem_cons.1 hv with rfl | hv
      · exact List.mem_cons_self
      · exact List.mem_cons_of_mem u (hmem v hv)

/-- Steps leave no choice, so of two runs from one search one leads through the end of the other. -/
theorem comparable {earlier : List (Search σ Ret)} (h : Visits events s earlier t)
    (h' : Visits events s visited last) : t ∈ last :: visited ∨ last ∈ earlier := by
  induction h with
  | start => exact .inl h'.start_mem
  | @step earlier u u' h hstep ih =>
    rcases ih with hu | hlast
    · rcases List.mem_cons.1 hu with rfl | hu
      · exact .inr List.mem_cons_self
      · obtain ⟨t', hstep', hmem⟩ := h'.exists_step hu
        obtain rfl : u' = t' := by simpa [hstep] using hstep'
        exact .inl hmem
    · exact .inr (List.mem_cons_of_mem u hlast)

theorem cost_lt (h : Visits events s visited last) (ht : t ∈ visited) :
    last.cost events.toArray < t.cost events.toArray := by
  induction h with
  | start => simp at ht
  | @step visited u u' h hstep ih =>
    have hlt := cost_step hstep
    rcases List.mem_cons.1 ht with rfl | ht
    · exact hlt
    · exact Nat.lt_trans hlt (ih ht)

theorem pairwise_cost (h : Visits events s visited last) :
    visited.Pairwise fun t u => t.cost events.toArray < u.cost events.toArray := by
  induction h with
  | start => exact List.Pairwise.nil
  | step h _ ih => exact List.pairwise_cons.2 ⟨fun t ht => h.cost_lt ht, ih⟩

/-- On an object that stands for another one, the same searches are visited. -/
theorem translated {τ Op' : Type} [ReferenceObject τ Op' Ret] {f : Op → Op'} {g : σ → τ}
    (hR : BisimulationAlong f fun a b => g a = b) (h : Visits events s visited last) :
    Visits (events.map (.mapOp f)) (s.withObject (g s.object))
      (visited.map fun t => t.withObject (g t.object)) (last.withObject (g last.object)) := by
  induction h with
  | start => exact .start
  | @step visited t t' h hstep ih =>
    have hrelated := step_related hR events.toArray (s := t) rfl
    rw [hstep, List.map_toArray] at hrelated
    generalize hnext : (t.withObject (g t.object)).step (events.map (.mapOp f)).toArray = next
      at hrelated
    cases hrelated with
    | next _ hobject =>
      subst hobject
      exact .step ih hnext

end Visits

/-- Every run visits searches up to the one in which it ends. -/
theorem exists_visits (events : List (Event Op Ret)) (limits : Limits σ) (n : Nat)
    (s : Search σ Ret) : ∃ visited last, Visits events s visited last ∧
      Concludes events last (run events.toArray limits n s) := by
  fun_induction run events.toArray limits n s with
  | case1 n s _ => exact ⟨[], s, .start, .interrupted n⟩
  | case2 n s _ _ => exact ⟨[], s, .start, .exhausted (n + 1)⟩
  | case3 n s _ _ s' hstep ih =>
    obtain ⟨visited, last, hvisits, hends⟩ := ih
    exact ⟨visited ++ [s], last, hvisits.head hstep, hends⟩
  | case4 n s _ _ outcome left hstep => exact ⟨[], s, .start, .halted (n + 1) hstep⟩

end Linearizability.Search
