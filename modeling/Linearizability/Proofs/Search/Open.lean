import Linearizability.Proofs.Search.Branch

/-!
# What a search can still find

A search is open to the linearizations that extend what took effect on its branch, or on an earlier
part of the path, by a candidate that it has not tried there. The main statement is that no move
opens or closes a search, so that one that ends without a task and without a path has missed
nothing. The linearizations are those of the first `j` events, for any `j` that the search has not
passed.
-/

namespace Linearizability.Search

open Turn

variable {σ Op Ret : Type} [ReferenceObject σ Op Ret] [DecidableEq Ret]

/-- Some linearization of the first `j` events begins with these operations. -/
def Extends (events : List (Event Op Ret)) (object : σ) (j : Nat) (w : List Nat) : Prop :=
  ∃ order, IsLinearization object (events.take j) order ∧ w <+: order

/-- Taking the `k`-th candidate leads on to a linearization. -/
def CandidateOpen (events : List (Event Op Ret)) (object : σ) (j : Nat) (w : List Nat)
    (phases : List Phase) (r : ProcessId) (k : Nat) : Prop :=
  match (candidate phases.length r k).lookup? phases with
  | some (.pending q) => Extends events object j (w ++ [q])
  | some .committed => candidate phases.length r k = r ∧ Extends events object j w
  | _ => False

def TaskOpen (events : List (Event Op Ret)) (object : σ) (j : Nat) (w : List Nat)
    (phases : List Phase) : Option Task → Prop
  | none => False
  | some (.advance i) => i ≤ j ∧ Extends events object j w
  | some (.linearize r i k) =>
    i < j ∧ ∃ l, k ≤ l ∧ l < phases.length ∧ CandidateOpen events object j w phases r l

/-- Some choice on the path has a later candidate that leads to a linearization. -/
def PathOpen (events : List (Event Op Ret)) (object : σ) (j : Nat) :
    List Marker → List Phase → Prop
  | [], _ => False
  | .invoked p :: path, phases => PathOpen events object j path (phases.set p.toNat .idle)
  | .linearized r i k p before :: path, phases =>
    TaskOpen events object j (effects path) (phases.set p.toNat before)
        (some (.linearize r i (k + 1))) ∨
      PathOpen events object j path (phases.set p.toNat before)

def Open (events : List (Event Op Ret)) (object : σ) (j : Nat) (s : Search σ Ret) : Prop :=
  TaskOpen events object j (effects s.path) s.phases s.task ∨
    PathOpen events object j s.path s.phases

variable {events : List (Event Op Ret)} {object now : σ} {w : List Nat} {i j k q : Nat}
variable {path : List Marker} {phases : List Phase} {r : ProcessId} {s s' : Search σ Ret}

section Candidates

theorem Extends.of_append (h : Extends events object j (w ++ [q])) : Extends events object j w := by
  obtain ⟨order, horder, hpre⟩ := h
  exact ⟨order, horder, (List.prefix_append w [q]).trans hpre⟩

theorem CandidateOpen.extends (h : CandidateOpen events object j w phases r k) :
    Extends events object j w := by
  unfold CandidateOpen at h
  split at h
  · exact h.of_append
  · exact h.2
  · exact h.elim

theorem not_taskOpen_none : ¬ TaskOpen events object j w phases none := id

theorem taskOpen_advance_iff : TaskOpen events object j w phases (some (.advance i)) ↔
    i ≤ j ∧ Extends events object j w := Iff.rfl

/-- The candidate at hand and the later ones. -/
theorem taskOpen_linearize_iff (hk : k < phases.length) :
    TaskOpen events object j w phases (some (.linearize r i k)) ↔
      i < j ∧ CandidateOpen events object j w phases r k ∨
        TaskOpen events object j w phases (some (.linearize r i (k + 1))) := by
  constructor
  · rintro ⟨hij, l, hkl, hl, hopen⟩
    rcases Nat.lt_or_eq_of_le hkl with hlt | rfl
    · exact .inr ⟨hij, l, hlt, hl, hopen⟩
    · exact .inl ⟨hij, hopen⟩
  · rintro (⟨hij, hopen⟩ | ⟨hij, l, hkl, hl, hopen⟩)
    · exact ⟨hij, k, Nat.le_refl k, hk, hopen⟩
    · exact ⟨hij, l, by omega, hl, hopen⟩

theorem not_taskOpen_linearize (hk : phases.length ≤ k) :
    ¬ TaskOpen events object j w phases (some (.linearize r i k)) := by
  rintro ⟨_, l, hkl, hl, _⟩
  omega

theorem candidateOpen_pending_iff
    (hp : (candidate phases.length r k).lookup? phases = some (.pending q)) :
    CandidateOpen events object j w phases r k ↔ Extends events object j (w ++ [q]) := by
  simp only [CandidateOpen, hp]

theorem candidateOpen_committed_iff (hc : candidate phases.length r k = r)
    (hr : r.lookup? phases = some .committed) :
    CandidateOpen events object j w phases r k ↔ Extends events object j w := by
  simp only [CandidateOpen, hc, hr, true_and]

/-- No linearization goes on with an operation that returns something else than observed. -/
theorem not_extends_append (hw : replay? events object w = some now)
    (hq : takeEffect? events now q = none) : ¬ Extends events object j (w ++ [q]) := by
  rintro ⟨order, horder, rest, rfl⟩
  have hlegal := (IsLinearization.take_iff.1 horder).2.2.2.2
  rw [replay?_append, replay?_append_singleton hw, hq] at hlegal
  simp at hlegal

end Candidates

/-- Every linearization goes on with one of the candidates at a return that is to be passed. -/
theorem Branch.taskOpen_iff {a : Nat} {result : Option Ret}
    (h : Branch events object path i phases now) (he : events[i]? = some (.ret r result))
    (hr : r.lookup? phases = some (.pending a)) :
    TaskOpen events object j (effects path) phases (some (.linearize r i 0)) ↔
      i < j ∧ Extends events object j (effects path) := by
  refine and_congr_right fun hij => ⟨fun ⟨l, _, _, hopen⟩ => hopen.extends, ?_⟩
  rintro ⟨order, horder, hpre⟩
  have hc := h.consistent
  obtain ⟨ho, ha⟩ := hc.outstanding_of_pending hr
  obtain ⟨x, p, hx, hxw, hxo⟩ := hc.linearization.exists_next hc.alternating horder hpre hij
    ⟨r, turn_returns_iff.2 ⟨result, he⟩, ho⟩ ha
  obtain ⟨l, hl, rfl, hphase⟩ := h.exists_candidate he hxo hxw
  exact ⟨l, Nat.zero_le l, hl, (candidateOpen_pending_iff hphase).2 ⟨order, horder, hx⟩⟩

theorem open_start : Open events object j (Search.start object events) ↔
    Linearizable object (events.take j) := by
  simp only [Open, Search.start, TaskOpen, PathOpen, effects, Nat.zero_le, true_and, or_false]
  constructor
  · rintro ⟨order, horder, _⟩
    exact ⟨order, horder⟩
  · rintro ⟨order, horder⟩
    exact ⟨order, horder, List.nil_prefix⟩

theorem not_open_of_exhausted (ht : s.task = none) (hpath : s.path = []) :
    ¬ Open events object j s := by
  simp [Open, ht, hpath, TaskOpen, PathOpen]

/-- No move opens or closes a search, unless it passes the position in question. -/
theorem open_move (h : OnBranch events object s) (hm : Move events s s')
    (hj : s.task ≠ some (.advance j)) : Open events object j s' ↔ Open events object j s := by
  have hlater {i : Nat} (hi : s.task = some (.advance i)) : i + 1 ≤ j ↔ i ≤ j := by
    have hne : i ≠ j := by
      rintro rfl
      exact hj hi
    omega
  cases hm with
  | invoke ht he hp =>
    simp only [Open, ht, PathOpen, effects, ProcessId.set_set_of_lookup? hp, taskOpen_advance_iff,
      hlater ht]
  | arrive ht he hr =>
    simp only [OnBranch, ht] at h
    simp only [Open, ht, h.taskOpen_iff he hr, taskOpen_advance_iff, Nat.lt_iff_add_one_le,
      hlater ht]
  | @arriveCommitted i r result ht he hr =>
    simp only [OnBranch, ht] at h
    have hlen := ProcessId.lt_length_of_lookup? hr
    have hlast : s.phases.length - 1 < s.phases.length := by omega
    have hc := (h.candidate_eq_self_iff he hlast).2 (by omega)
    have hno : ¬ TaskOpen events object j (effects s.path) s.phases
        (some (.linearize r i (s.phases.length - 1 + 1))) := not_taskOpen_linearize (by omega)
    simp only [Open, ht, taskOpen_linearize_iff hlast, hno, or_false,
      candidateOpen_committed_iff hc hr, taskOpen_advance_iff, Nat.lt_iff_add_one_le, hlater ht]
  | exhaust ht hk => simp only [Open, ht, not_taskOpen_linearize hk, not_taskOpen_none]
  | @skip r i k phase ht hk hp hphase hne =>
    have hno : ¬ CandidateOpen events object j (effects s.path) s.phases r k := by
      cases phase <;> simp_all [CandidateOpen, Phase.isPending]
    simp only [Open, ht, taskOpen_linearize_iff hk, hno, and_false, false_or]
  | @commit r i k q left ht hk hp hne hq =>
    simp only [OnBranch, ht] at h
    obtain ⟨hb, ⟨result, he⟩, ⟨hr, hlen⟩ | ⟨a, hr⟩⟩ := h
    · exact absurd ((hb.candidate_eq_self_iff he hk).2 (by omega)) hne
    · have hb' := hb.commit he hr hk hne hp hq
      have hr' : r.lookup? (s.phases.set (candidate s.phases.length r k).toNat .committed) =
          some (.pending a) := by rwa [ProcessId.lookup?_set_ne hne]
      have hopen := hb'.taskOpen_iff (j := j) he hr'
      simp only [effects] at hopen
      simp only [Open, ht, Search.commit, PathOpen, effects, ProcessId.set_set_of_lookup? hp, hopen,
        taskOpen_linearize_iff hk, candidateOpen_pending_iff hp, or_assoc]
  | @pass r i k q left ht hk hc hr hq =>
    have hp : (candidate s.phases.length r k).lookup? s.phases = some (.pending q) := by rwa [hc]
    simp only [Open, ht, passReturn, PathOpen, effects, ProcessId.set_set_of_lookup? hr,
      taskOpen_advance_iff, taskOpen_linearize_iff hk, candidateOpen_pending_iff hp, or_assoc,
      Nat.lt_iff_add_one_le]
  | passCommitted ht hk hc hr =>
    simp only [Open, ht, passReturn, PathOpen, effects, ProcessId.set_set_of_lookup? hr,
      taskOpen_advance_iff, taskOpen_linearize_iff hk, candidateOpen_committed_iff hc hr, or_assoc,
      Nat.lt_iff_add_one_le]
  | @reject r i k q p label op expected left ht hk hp he hne hu =>
    simp only [OnBranch, ht] at h
    obtain ⟨hb, ⟨result, hret⟩, -⟩ := h
    have hno : ¬ CandidateOpen events object j (effects s.path) s.phases r k := by
      rw [candidateOpen_pending_iff hp]
      exact not_extends_append hb.consistent.replay (takeEffect?_eq_none he hne)
    by_cases hc : candidate s.phases.length r k = r
    · have hlast := (hb.candidate_eq_self_iff hret hk).1 hc
      have hend : ¬ TaskOpen events object j (effects s.path) s.phases
          (some (.linearize r i (k + 1))) := not_taskOpen_linearize (by omega)
      simp only [Open, ht, rejectThen, hc, if_true, taskOpen_linearize_iff hk, hno, hend, and_false,
        or_false, not_taskOpen_none]
    · simp only [Open, ht, rejectThen, hc, if_false, taskOpen_linearize_iff hk, hno, and_false,
        false_or]
  | uninvoke ht hpath hp => simp only [Open, ht, hpath, PathOpen, not_taskOpen_none]
  | takeBack ht hpath hp hu => simp only [Open, ht, hpath, PathOpen, not_taskOpen_none, false_or]
  | reopen ht hpath hp hbefore =>
    simp only [Open, ht, hpath, PathOpen, not_taskOpen_none, false_or]

end Linearizability.Search
