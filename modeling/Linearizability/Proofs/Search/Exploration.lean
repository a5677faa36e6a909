import Linearizability.Proofs.Search.Ending
import Linearizability.Proofs.Search.Tree
import Linearizability.Proofs.Search.Visits

/-!
# What a search has explored

A search that has no choice left has been on every branch of its tree, and wherever a branch waits
at a return it has tried every candidate: it goes on to the next one at once, or when all that
followed from the last one is taken back. So ahead of a return it has tried each outstanding
operation after each linearization that leaves out both this operation and the one that returns.
-/

namespace Linearizability.Search

open Turn

variable {σ Op Ret : Type} [ReferenceObject σ Op Ret] [DecidableEq Ret]
variable {events : List (Event Op Ret)} {object now : σ} {s s' t last : Search σ Ret}
variable {visited : List (Search σ Ret)} {path : List Marker} {phases : List Phase}
variable {r p : ProcessId} {a i j k l q : Nat} {result : Option Ret}

section Refuted

omit [DecidableEq Ret] in
theorem conclude_eq_ok {verdict verdict' : Verdict Ret}
    (h : (s.conclude verdict).1 = .ok verdict') : verdict = verdict' := by
  unfold conclude at h
  split at h
  · simpa using h
  · simp at h

/-- A run finds the history not to be linearizable only when it has no choice left. -/
theorem Concludes.refuted {res : Result σ Ret} {reach : Reach Ret} (h : Concludes events last res)
    (hres : res.outcome = .ok (.notLinearizable reach)) :
    last.task = none ∧ last.path = [] ∧ last.reach = reach := by
  cases h with
  | interrupted n => cases conclude_eq_ok hres
  | exhausted n => cases conclude_eq_ok hres
  | halted n hstep =>
    dsimp only at hres
    subst hres
    generalize houtcome : (Except.ok (Verdict.notLinearizable reach) : Except Fault _) = outcome
      at hstep
    cases halt_of_step hstep with
    | found => cases conclude_eq_ok houtcome.symm
    | refuted ht hpath =>
      cases houtcome
      exact ⟨ht, hpath, rfl⟩
    | overlapping | unmatched | idleCandidate | rejectFailed | takeBackFailed | beyondHistory |
      unknownProcess | unknownCandidate | noInvocation | unknownMarker => cases houtcome

end Refuted

/-- The search is at this position of its branch and has yet to choose there. -/
def Arrives (t : Search σ Ret) (i : Nat) : Prop :=
  t.task = some (.advance i) ∨ ∃ r, t.task = some (.linearize r i 0)

/-- These are the searches that a run visits until it has no choice left. -/
structure Explores (events : List (Event Op Ret)) (object : σ) (visited : List (Search σ Ret))
    (last : Search σ Ret) : Prop where
  visits : Visits events (Search.start object events) visited last
  task : last.task = none
  path : last.path = []

theorem Visits.reflTransGen (h : Visits events s visited last) :
    Relation.ReflTransGen (Move events) s last := by
  induction h with
  | start => exact .refl
  | step _ hstep ih => exact ih.tail (move_of_step hstep)

theorem Visits.onBranch [LawfulUndo σ] (h : Visits events (Search.start object events) visited last)
    (ht : t ∈ last :: visited) : OnBranch events object t :=
  h.keeps (OnBranch.start events object) (fun _ _ hb hm => hb.move hm) t ht

/-- A choice that is no longer in force was taken back, and the next candidate was tried. -/
theorem Visits.exists_next_candidate {before : Phase} (h : Visits events s visited last)
    (hpath : last.path = []) (hs : .linearized r i k p before :: path <:+ s.path) :
    ∃ t ∈ last :: visited, t.path = path ∧ t.task = some (.linearize r i (k + 1)) := by
  obtain ⟨t, t', -, ht', hstep, hin, hout⟩ := h.exists_loses
    (motive := fun u => .linearized r i k p before :: path <:+ u.path) hs (by simp [hpath])
  -- The choice stays on the path until it is the latest one and is taken back itself.
  have hpop {marker : Marker} (htop : t.path = marker :: t'.path) :
      marker = .linearized r i k p before ∧ t'.path = path := by
    rw [htop] at hin
    rcases List.suffix_cons_iff.1 hin with heq | hsuffix
    · exact ⟨(List.cons.inj heq).1.symm, (List.cons.inj heq).2.symm⟩
    · exact absurd hsuffix hout
  cases move_of_step hstep with
  | invoke | commit | pass | passCommitted =>
    exact absurd (hin.trans (List.suffix_cons _ _)) hout
  | arrive | arriveCommitted | exhaust | skip | reject => exact absurd hin hout
  | uninvoke ht hpath => cases (hpop hpath).1
  | takeBack ht hpath | reopen ht hpath =>
    obtain ⟨heq, hrest⟩ := hpop hpath
    cases heq
    exact ⟨_, ht', hrest, rfl⟩

namespace Explores

variable (h : Explores events object visited last)

include h

theorem mem_of_task {task : Task} (ht : t ∈ last :: visited) (htask : t.task = some task) :
    t ∈ visited := by
  rcases List.mem_cons.1 ht with rfl | ht
  · simp [h.task] at htask
  · exact ht

theorem exists_move (ht : t ∈ visited) : ∃ t' ∈ last :: visited, Move events t t' := by
  obtain ⟨t', hstep, ht'⟩ := h.visits.exists_step ht
  exact ⟨t', ht', move_of_step hstep⟩

theorem mem_of_move {task : Task} (ht : t ∈ visited) (hm : Move events t s)
    (htask : s.task = some task) : s ∈ visited := by
  obtain ⟨t', hstep, ht'⟩ := h.visits.exists_step ht
  rw [hm.step_eq] at hstep
  cases hstep
  exact h.mem_of_task ht' htask

variable [LawfulUndo σ]

theorem onBranch (ht : t ∈ visited) : OnBranch events object t :=
  h.visits.onBranch (List.mem_cons_of_mem last ht)

theorem exists_next_candidate (ht : t ∈ visited) (htask : t.task = some (.linearize r i k))
    (hk : k + 1 < t.phases.length) :
    ∃ t' ∈ visited, t'.path = t.path ∧ t'.task = some (.linearize r i (k + 1)) := by
  obtain ⟨hb, ⟨result, he⟩, -⟩ := (h.onBranch ht).of_linearize htask
  have hne : candidate t.phases.length r k ≠ r := by
    intro hc
    have := (hb.candidate_eq_self_iff he (by omega)).1 hc
    omega
  obtain ⟨t', ht', hm⟩ := h.exists_move ht
  cases hm with
  | skip htask' =>
    rw [htask] at htask'
    cases htask'
    exact ⟨_, h.mem_of_task ht' rfl, rfl, rfl⟩
  | commit htask' =>
    rw [htask] at htask'
    cases htask'
    obtain ⟨later, hlater, hsub⟩ := h.visits.exists_rest ht'
    obtain ⟨u, hu, hpath, hnext⟩ :=
      hlater.exists_next_candidate h.path (List.suffix_refl _)
    have hmem : u ∈ last :: visited := by
      rcases List.mem_cons.1 hu with rfl | hu
      · exact List.mem_cons_self
      · exact List.mem_cons_of_mem last (hsub u hu)
    exact ⟨u, h.mem_of_task hmem hnext, hpath, hnext⟩
  | reject htask' =>
    rw [htask] at htask'
    cases htask'
    rw [if_neg hne] at ht'
    exact ⟨_, h.mem_of_task ht' rfl, rfl, rfl⟩
  | exhaust htask' hk' =>
    rw [htask] at htask'
    cases htask'
    omega
  | pass htask' _ hc | passCommitted htask' _ hc =>
    rw [htask] at htask'
    cases htask'
    exact absurd hc hne
  | invoke htask' | arrive htask' | arriveCommitted htask' | uninvoke htask' | takeBack htask'
  | reopen htask' => simp [htask] at htask'

theorem exists_later_candidate (ht : t ∈ visited) (htask : t.task = some (.linearize r i k))
    (hkl : k ≤ l) (hl : l < processCount events) :
    ∃ t' ∈ visited, t'.path = t.path ∧ t'.task = some (.linearize r i l) := by
  induction l, hkl using Nat.le_induction with
  | base => exact ⟨t, ht, rfl, htask⟩
  | succ l hkl ih =>
    obtain ⟨u, hu, hpath, hutask⟩ := ih (by omega)
    obtain ⟨i', hb⟩ := (h.onBranch hu).exists_branch
    obtain ⟨t', ht', hpath', htask'⟩ :=
      h.exists_next_candidate hu hutask (by rw [hb.length_phases]; exact hl)
    exact ⟨t', ht', hpath'.trans hpath, htask'⟩

/-- A search that is on a branch has the phases and the object that the branch has. -/
theorem eq_of_path (ht : t ∈ visited) (hpath : t.path = path)
    (hb : Branch events object path i phases now) :
    t.phases = phases ∧ t.object = now ∧ ∀ task, t.task = some task → task.position = i := by
  have honBranch := h.onBranch ht
  obtain ⟨j, hb'⟩ := honBranch.exists_branch
  rw [hpath] at hb'
  obtain ⟨-, hphases, hobject⟩ := hb'.unique hb
  refine ⟨hphases, hobject, ?_⟩
  intro task htask
  have hat := honBranch.branch_of_task htask
  rw [hpath] at hat
  exact (hat.unique hb).1

/-- Where a search has arrived at a return that it waits for, it goes on to every candidate. -/
theorem exists_candidate (hb : Branch events object path i phases now) (ht : t ∈ visited)
    (hpath : t.path = path) (harrives : Arrives t i) (he : events[i]? = some (.ret r result))
    (hr : r.lookup? phases = some (.pending a)) (hk : k < phases.length) :
    ∃ u ∈ visited, u.path = path ∧ u.phases = phases ∧ u.object = now ∧
      u.task = some (.linearize r i k) := by
  obtain ⟨first, hfirst, hpathFirst, htaskFirst⟩ : ∃ first ∈ visited, first.path = path ∧
      first.task = some (.linearize r i 0) := by
    rcases harrives with htask | ⟨r', htask⟩
    · obtain ⟨hphases, -, -⟩ := h.eq_of_path ht hpath hb
      rw [← hphases] at hr
      exact ⟨_, h.mem_of_move ht (.arrive htask he hr) rfl, hpath, rfl⟩
    · obtain ⟨-, ⟨result', he'⟩, -⟩ := (h.onBranch ht).of_linearize htask
      rw [he] at he'
      cases he'
      exact ⟨t, ht, hpath, htask⟩
  rw [hb.length_phases] at hk
  obtain ⟨u, hu, hpathLater, htask⟩ :=
    h.exists_later_candidate hfirst htaskFirst (Nat.zero_le k) hk
  obtain ⟨hphases, hobject, -⟩ := h.eq_of_path hu (hpathLater.trans hpathFirst) hb
  exact ⟨u, hu, hpathLater.trans hpathFirst, hphases, hobject, htask⟩

/-- Every branch of the tree is visited. -/
theorem exists_arrives (hb : Branch events object path i phases now) :
    ∃ t ∈ visited, t.path = path ∧ Arrives t i := by
  induction hb with
  | start => exact ⟨_, h.mem_of_task h.visits.start_mem rfl, rfl, .inl rfl⟩
  | invoke hb he hp ih =>
    obtain ⟨t, ht, rfl, harrives⟩ := ih
    obtain ⟨rfl, -, -⟩ := h.eq_of_path ht rfl hb
    rcases harrives with htask | ⟨r, htask⟩
    · exact ⟨_, h.mem_of_move ht (.invoke htask he hp) rfl, rfl, .inl rfl⟩
    · obtain ⟨-, ⟨result, he'⟩, -⟩ := (h.onBranch ht).of_linearize htask
      rw [he] at he'
      cases he'
  | @commit _ _ _ _ r _ _ _ _ _ hb he hr hk hne hp hq ih =>
    obtain ⟨t, ht, hpath, harrives⟩ := ih
    obtain ⟨u, hu, rfl, rfl, rfl, htask⟩ := h.exists_candidate hb ht hpath harrives he hr hk
    exact ⟨_, h.mem_of_move hu (.commit htask hk hp hne hq) rfl, rfl, .inr ⟨r, rfl⟩⟩
  | pass hb he hr hk hc hq ih =>
    obtain ⟨t, ht, hpath, harrives⟩ := ih
    obtain ⟨u, hu, rfl, rfl, rfl, htask⟩ := h.exists_candidate hb ht hpath harrives he hr hk
    exact ⟨_, h.mem_of_move hu (.pass htask hk hc hr hq) rfl, rfl, .inl rfl⟩
  | @passCommitted _ _ _ _ r _ k hb he hr hk hc ih =>
    obtain ⟨t, ht, rfl, harrives⟩ := ih
    obtain ⟨rfl, -, -⟩ := h.eq_of_path ht rfl hb
    have hlast := (hb.candidate_eq_self_iff he hk).1 hc
    rcases harrives with htask | ⟨r', htask⟩
    · have hmem := h.mem_of_move ht (.arriveCommitted htask he hr) rfl
      rw [← hlast, Nat.add_sub_cancel] at hmem
      exact ⟨_, h.mem_of_move hmem (.passCommitted rfl hk hc hr) rfl, rfl, .inl rfl⟩
    · obtain ⟨-, ⟨result', he'⟩, hphase⟩ := (h.onBranch ht).of_linearize htask
      rw [he] at he'
      cases he'
      rcases hphase with ⟨-, hlen⟩ | ⟨q, hq⟩
      · obtain rfl : k = 0 := by omega
        exact ⟨_, h.mem_of_move ht (.passCommitted htask hk hc hr) rfl, rfl, .inl rfl⟩
      · rw [hr] at hq
        cases hq

theorem ending : Ending events object (.ok (.notLinearizable last.reach)) object :=
  ending_of_exhausted h.visits.reflTransGen h.task h.path

/-- What is linearizable is passed without a break. -/
theorem alternating_take (hlin : Linearizable object (events.take j)) :
    Alternating ((events.map Event.turn).take j) := by
  by_contra hno
  obtain ⟨v, hv⟩ := exists_firstBreak hno
  have hlt := hv.lt_length
  rw [List.length_take] at hlt
  cases h.ending with
  | notLinearizable hbreak _ _ => exact hbreak v hv.of_take (hlin.take_of_le (by omega))

end Explores

section Tries

/-- The search lets the operation `q` of a process take effect before the return at `j`, after those
in `w`. -/
def Tries (t : Search σ Ret) (j : Nat) (w : List Nat) (p : ProcessId) (q : Nat) : Prop :=
  ∃ r k, t.task = some (.linearize r j k) ∧ k < t.phases.length ∧
    candidate t.phases.length r k = p ∧ p.lookup? t.phases = some (.pending q) ∧ effects t.path = w

omit [ReferenceObject σ Op Ret] [DecidableEq Ret] in
theorem Tries.effects_eq {w : List Nat} (h : Tries t j w p q) : effects t.path = w := by
  obtain ⟨_, _, _, _, _, _, heffects⟩ := h
  exact heffects

/-- The position of the return, the process and its operation that the next step tries. -/
def tried? (s : Search σ Ret) : Option (Nat × ProcessId × Nat) :=
  match s.task with
  | some (.linearize r j k) =>
    if k < s.phases.length then
      match (candidate s.phases.length r k).lookup? s.phases with
      | some (.pending q) => some (j, candidate s.phases.length r k, q)
      | _ => none
    else none
  | _ => none

variable {w : List Nat}

omit [ReferenceObject σ Op Ret] [DecidableEq Ret] in
theorem tried?_eq_some_iff : s.tried? = some (j, p, q) ↔ Tries s j (effects s.path) p q := by
  constructor
  · intro h
    unfold tried? at h
    split at h
    · rename_i r i k htask
      split at h
      · rename_i hk
        split at h
        · rename_i a hp
          cases h
          exact ⟨r, k, htask, hk, rfl, hp, rfl⟩
        · cases h
      · cases h
    · cases h
  · rintro ⟨r, k, htask, hk, rfl, hp, -⟩
    simp [tried?, htask, hk, hp]

omit [ReferenceObject σ Op Ret] [DecidableEq Ret] in
theorem tried?_eq_none_of_task (h : ∀ r i k, s.task ≠ some (.linearize r i k)) :
    s.tried? = none := by
  unfold tried?
  split
  · exact absurd ‹_› (h _ _ _)
  · rfl

omit [ReferenceObject σ Op Ret] [DecidableEq Ret] in
theorem tried?_eq_none_of_le (ht : s.task = some (.linearize r j k)) (hk : s.phases.length ≤ k) :
    s.tried? = none := by
  simp [tried?, ht, Nat.not_lt.2 hk]

omit [ReferenceObject σ Op Ret] [DecidableEq Ret] in
theorem tried?_eq_none_of_phase {phase : Phase} (ht : s.task = some (.linearize r j k))
    (hp : (candidate s.phases.length r k).lookup? s.phases = some phase)
    (hphase : phase.isPending = false) : s.tried? = none := by
  cases phase with
  | pending => simp [Phase.isPending] at hphase
  | idle | committed => simp [tried?, ht, hp]

/-- Operations are tried ahead of a return whose own operation has yet to take effect. -/
theorem OnBranch.waits_of_tries (h : OnBranch events object t) (ht : Tries t j w p q) :
    Branch events object t.path j t.phases t.object ∧ Waits events j t.phases := by
  obtain ⟨r, k, htask, hk, rfl, hp, -⟩ := ht
  obtain ⟨hb, ⟨result, he⟩, hr⟩ := h.of_linearize htask
  refine ⟨hb, r, result, ?_⟩
  rcases hr with ⟨hr, hlen⟩ | ⟨a, hr⟩
  · rw [(hb.candidate_eq_self_iff he hk).2 (by omega), hr] at hp
    cases hp
  · exact ⟨a, he, hr⟩

theorem OnBranch.of_tries (h : OnBranch events object t) (ht : Tries t j w p q) :
    IsLinearization object (events.take j) w ∧ replay? events object w = some t.object ∧
      (∃ a, Returns (events.map Event.turn) a j ∧ a ∉ w) ∧
      outstanding (events.map Event.turn) p j = some q ∧ q ∉ w := by
  obtain ⟨hb, r, result, a, he, hr⟩ := h.waits_of_tries ht
  obtain ⟨r', k, htask, hk, hc, hp, rfl⟩ := ht
  have hc := hb.consistent
  obtain ⟨hor, har⟩ := hc.outstanding_of_pending hr
  obtain ⟨hoq, hq⟩ := hc.outstanding_of_pending hp
  exact ⟨hc.linearization, hc.replay, ⟨a, ⟨r, turn_returns_iff.2 ⟨result, he⟩, hor⟩, har⟩, hoq, hq⟩

/-- Two searches that try the same operation after the same ones differ in their objects and in how
far they got. -/
theorem OnBranch.eq_of_tries {u : Search σ Ret} {i : Nat} {p' : ProcessId}
    (h : OnBranch events object t) (ht : Tries t j w p q) (h' : OnBranch events object u)
    (hu : Tries u i w p' q) : t.path = u.path ∧ t.phases = u.phases ∧ t.task = u.task := by
  obtain ⟨hb, hw⟩ := h.waits_of_tries ht
  obtain ⟨hb', hw'⟩ := h'.waits_of_tries hu
  obtain ⟨r, k, htask, hk, rfl, hp, heffects⟩ := ht
  obtain ⟨r', k', htask', hk', rfl, hp', heffects'⟩ := hu
  have hpath := hb.path_unique hw hb' hw' (heffects.trans heffects'.symm)
  rw [← hpath] at hb'
  obtain ⟨rfl, hphases, -⟩ := hb.unique hb'
  rw [← hphases] at hk' hp'
  obtain ⟨-, ⟨result, he⟩, -⟩ := h.of_linearize htask
  obtain ⟨-, ⟨result', he'⟩, -⟩ := h'.of_linearize htask'
  rw [he] at he'
  cases he'
  have hk := hb.candidate_injective he hk hk' (hb.consistent.process_unique hp hp')
  rw [htask, htask', hk]
  exact ⟨hpath, hphases, rfl⟩

/-- Every operation that is outstanding at a return is tried after every linearization that leaves
out both this operation and the one that returns. -/
theorem Explores.exists_tries [LawfulUndo σ] (h : Explores events object visited last)
    (hw : IsLinearization object (events.take j) w) (hret : Returns (events.map Event.turn) a j)
    (ha : a ∉ w) (ho : outstanding (events.map Event.turn) p j = some q) (hq : q ∉ w) :
    ∃ t ∈ visited, Tries t j w p q := by
  obtain ⟨path, phases, now, hb, rfl⟩ := Branch.exists_waits hw (h.alternating_take ⟨w, hw⟩) hret ha
  obtain ⟨r, result, b, he, hr⟩ := hb.waits_of_returns hret ha
  obtain ⟨k, hk, hc, hp⟩ := hb.exists_candidate he ho hq
  obtain ⟨t, ht, hpath, harrives⟩ := h.exists_arrives hb
  obtain ⟨u, hu, rfl, rfl, -, htask⟩ := h.exists_candidate hb ht hpath harrives he hr hk
  exact ⟨u, hu, r, k, htask, hk, hc, hp, rfl⟩

end Tries

end Linearizability.Search
