import Linearizability.Proofs.Search.Notes
import Linearizability.Reference.Register
import Linearizability.Tester

/-!
# What a tester tells of each process

A tester that finds a history not to be linearizable tells for each process how far it was
considered, and which results the reference object gave there in place of the observed one. The main
statement is that this depends on nothing but the history: no result is missing, and none is left
over from the search of a shorter part.
-/

namespace Linearizability

open Turn

variable {σ Op Ret : Type} [ReferenceObject σ Op Ret] [DecidableEq Ret]

/-- Ahead of the return at `j`, after a linearization `w` that leaves out the operation `a` which
returns there and the operation `q` of the process, the latter returns this result instead of the
observed one. -/
inductive Rejection (object : σ) (events : List (Event Op Ret)) (p : ProcessId) (j : Nat) :
    Ret → Prop
  | intro {a w q label op expected now} (hret : Returns (events.map Event.turn) a j)
      (hw : IsLinearization object (events.take j) w) (ha : a ∉ w)
      (ho : outstanding (events.map Event.turn) p j = some q) (hq : q ∉ w)
      (he : events[q]? = some (.invoke p label op expected))
      (hnow : replay? events object w = some now)
      (hne : expected ≠ some (ReferenceObject.apply now op).1) :
      Rejection object events p j (ReferenceObject.apply now op).1

/-- The process takes its turn at `j` after a linearizable part of the history, or a result of its
operation is rejected there. -/
def Considered (object : σ) (events : List (Event Op Ret)) (p : ProcessId) (j : Nat) : Prop :=
  (∃ event, events[j]? = some event ∧ event.process = p) ∧
      Linearizable object (events.take j) ∨
    ∃ ret, Rejection object events p j ret

/-- The entry of a process tells of the furthest position at which it is considered, and of the
results that are rejected there. -/
structure ProcessReach.Exact (object : σ) (events : List (Event Op Ret)) (p : ProcessId)
    (r : ProcessReach Ret) : Prop where
  furthest : ∀ j, r.furthest = some j ↔
    Considered object events p j ∧ ∀ i, Considered object events p i → i ≤ j
  none : r.furthest = none ↔ ∀ j, ¬ Considered object events p j
  nodup : r.rejected.Nodup
  rejected : ∀ ret, ret ∈ r.rejected ↔
    ∃ j, r.furthest = some j ∧ Rejection object events p j ret
  observed : ∀ j q label op ret, r.furthest = some j →
    outstanding (events.map Event.turn) p j = some q →
    events[q]? = some (.invoke p label op (some ret)) → ret ∉ r.rejected

namespace Search

variable {events : List (Event Op Ret)} {object : σ} {last : Search σ Ret}
variable {visited : List (Search σ Ret)} {p : ProcessId} {j : Nat} {ret : Ret}
variable [LawfulUndo σ] (h : Explores events object visited last)

include h

theorem Explores.mem_rejected_iff :
    ⟨p, j, some ret⟩ ∈ visited.filterMap (note? events) ↔ Rejection object events p j ret := by
  rw [List.mem_filterMap]
  constructor
  · rintro ⟨t, ht, hnote⟩
    rcases note?_cases hnote with ⟨i, event, -, -, heq⟩ | ⟨_, _, q, _, htries, hrejected, heq⟩
    · cases heq
    · cases heq
      obtain ⟨hw, hnow, ⟨a, hret, ha⟩, ho, hq⟩ := (h.onBranch ht).of_tries htries
      obtain ⟨_, label, op, expected, he, rfl, hne⟩ := rejected?_eq_some_iff.1 hrejected
      obtain ⟨_, _, _, he'⟩ := turn_invokes_iff.1 (invokes_of_outstanding ho)
      rw [he] at he'
      cases he'
      exact .intro hret hw ha ho hq he hnow hne
  · intro hrejection
    cases hrejection with
    | intro hret hw ha ho hq he hnow hne =>
      obtain ⟨t, ht, htries⟩ := h.exists_tries hw hret ha ho hq
      obtain ⟨-, hreplay, -⟩ := (h.onBranch ht).of_tries htries
      rw [hnow] at hreplay
      cases hreplay
      refine ⟨t, ht, ?_⟩
      rw [note?_of_tries htries, rejected?_eq_some_iff.2 ⟨_, _, _, _, he, rfl, hne⟩]
      rfl

/-- A search that is open to a part of the history comes to the event after it. -/
theorem Explores.mem_reached_iff :
    ⟨p, j, none⟩ ∈ visited.filterMap (note? events) ↔
      (∃ event, events[j]? = some event ∧ event.process = p) ∧
        Linearizable object (events.take j) := by
  rw [List.mem_filterMap]
  constructor
  · rintro ⟨t, ht, hnote⟩
    rcases note?_cases hnote with ⟨i, event, htask, he, heq⟩ | ⟨_, _, _, _, -, -, heq⟩
    · cases heq
      exact ⟨⟨event, he, rfl⟩, ((h.onBranch ht).branch_of_task htask).linearizable⟩
    · cases heq
  · rintro ⟨⟨event, he, rfl⟩, hlin⟩
    obtain ⟨t, t', ht, -, hstep, hopen, hclosed⟩ := h.visits.exists_loses
      (motive := Open events object j) (open_start.2 hlin) (not_open_of_exhausted h.task h.path)
    have htask : t.task = some (.advance j) := by
      by_contra hne
      exact hclosed ((open_move (h.onBranch ht) (move_of_step hstep) hne).2 hopen)
    exact ⟨t, ht, by simp [note?, htask, he]⟩

theorem Explores.exists_note_iff :
    (∃ n ∈ visited.filterMap (note? events), n.process = p ∧ n.position = j) ↔
      Considered object events p j := by
  constructor
  · rintro ⟨⟨_, _, rejected⟩, hmem, rfl, rfl⟩
    cases rejected with
    | none => exact .inl (h.mem_reached_iff.1 hmem)
    | some ret => exact .inr ⟨ret, h.mem_rejected_iff.1 hmem⟩
  · rintro (hreached | ⟨ret, hrejection⟩)
    · exact ⟨_, h.mem_reached_iff.2 hreached, rfl, rfl⟩
    · exact ⟨_, h.mem_rejected_iff.2 hrejection, rfl, rfl⟩

theorem Explores.exact (hp : p.toNat < processCount events) :
    ∃ r, last.reach.process? p = some r ∧ r.Exact object events p := by
  let own := (visited.reverse.filterMap (note? events)).filter (·.process = p)
  have hown : ∀ n, n ∈ own ↔ n ∈ visited.filterMap (note? events) ∧ n.process = p := by
    intro n
    rw [List.mem_filter, List.filterMap_reverse, List.mem_reverse, decide_eq_true_eq]
  have hconsidered : ∀ j, (∃ n ∈ own, n.position = j) ↔ Considered object events p j := by
    intro j
    rw [← h.exists_note_iff]
    simp only [hown, and_assoc]
  have hrejection : ∀ j ret, (∃ n ∈ own, n.position = j ∧ n.rejected = some ret) ↔
      Rejection object events p j ret := by
    intro j ret
    rw [← h.mem_rejected_iff]
    constructor
    · rintro ⟨⟨_, _, _⟩, hn, rfl, rfl⟩
      obtain ⟨hmem, rfl⟩ := (hown _).1 hn
      exact hmem
    · intro hmem
      exact ⟨_, (hown _).2 ⟨hmem, rfl⟩, rfl, rfl⟩
  have hsums := ProcessReach.sums_foldl own
  have hentry : last.reach.process? p = some (own.foldl ProcessReach.note {}) := by
    rw [h.visits.reach_eq, Reach.process?_foldl, Search.start, Reach.process?_blank hp]
    rfl
  refine ⟨_, hentry, ?_⟩
  generalize own.foldl ProcessReach.note {} = r at hsums
  have hrejected : ∀ ret, ret ∈ r.rejected ↔
      ∃ j, r.furthest = some j ∧ Rejection object events p j ret := by
    intro ret
    rw [hsums.mem_rejected_iff]
    simp only [hrejection]
  exact {
    furthest := by
      intro j
      rw [hsums.furthest_eq_some_iff, hconsidered]
      refine and_congr_right fun _ => ⟨?_, ?_⟩
      · intro hle i hi
        obtain ⟨n, hn, rfl⟩ := (hconsidered i).2 hi
        exact hle n hn
      · intro hle n hn
        exact hle n.position ((hconsidered _).1 ⟨n, hn, rfl⟩)
    none := by
      rw [hsums.furthest_eq_none_iff, List.eq_nil_iff_forall_not_mem]
      constructor
      · intro hnil j hj
        obtain ⟨n, hn, -⟩ := (hconsidered j).2 hj
        exact hnil n hn
      · intro hno n hn
        exact hno n.position ((hconsidered _).1 ⟨n, hn, rfl⟩)
    nodup := hsums.nodup_rejected
    rejected := hrejected
    observed := by
      intro j q label op ret hj ho hq hmem
      obtain ⟨i, hi, hrejected⟩ := (hrejected ret).1 hmem
      obtain rfl : j = i := Option.some.inj (hj.symm.trans hi)
      cases hrejected with
      | intro _ _ _ ho' _ he' _ hne =>
        rw [ho] at ho'
        cases ho'
        rw [hq] at he'
        cases he'
        exact hne rfl }

end Search

namespace Tester

open Search

variable {events : List (Event Op Ret)}

theorem exists_explores (t : Tester σ) {reach : Reach Ret}
    (hfail : (t.judge events).1 = .ok (.notLinearizable reach)) :
    ∃ visited last, Explores events t.object visited last ∧ last.reach = reach := by
  obtain ⟨visited, last, hvisits, hconcludes⟩ :=
    exists_visits events t.limits 0 (Search.start t.object events)
  obtain ⟨htask, hpath, hreach⟩ := hconcludes.refuted hfail
  exact ⟨visited, last, ⟨hvisits, htask, hpath⟩, hreach⟩

variable [LawfulUndo σ]

/-- Whatever the limits of a tester that finds a history not to be linearizable, its entry for a
process tells the furthest position at which the process is considered, and exactly the results that
are rejected there. -/
theorem judge_processes (t : Tester σ) (events : List (Event Op Ret)) {reach : Reach Ret}
    (hfail : (t.judge events).1 = .ok (.notLinearizable reach)) :
    reach.processes.length = processCount events ∧
      ∀ p, p.toNat < processCount events →
        ∃ r, reach.process? p = some r ∧ r.Exact t.object events p := by
  obtain ⟨visited, last, h, rfl⟩ := t.exists_explores hfail
  refine ⟨?_, fun p hp => h.exact hp⟩
  rw [h.visits.reach_eq, Reach.length_processes_foldl]
  simp [Search.start, Reach.blank]

/-- The second process has read what the first one writes, so ahead of its return the third could
only have read the same. -/
theorem judge_processes_stale_read :
    let history : List (Event (Register.Op Nat) (Register.Ret Nat)) :=
      [.invoke ⟨0⟩ "write(1)" (.write 1) (some .written),
        .invoke ⟨1⟩ "read()" .read (some (.read 1)),
        .ret ⟨1⟩ (some (.read 1)),
        .invoke ⟨2⟩ "read()" .read (some (.read 0)),
        .ret ⟨2⟩ (some (.read 0)),
        .ret ⟨0⟩ (some .written)]
    ∃ reach, (({ object := { value := 0 } } : Tester (Register Nat)).judge history).1 =
        .ok (.notLinearizable reach) ∧
      reach.process? ⟨2⟩ = some ⟨some 4, [.read 1]⟩ ∧
      ∀ ret, Rejection ({ value := 0 } : Register Nat) history ⟨2⟩ 4 ret ↔ ret = .read 1 := by
  intro history
  have hfail : (({ object := { value := 0 } } : Tester (Register Nat)).judge history).1 =
      .ok (.notLinearizable ⟨4, [⟨some 0, []⟩, ⟨some 2, [.read 0]⟩, ⟨some 4, [.read 1]⟩]⟩) := by
    cbv
  refine ⟨_, hfail, rfl, ?_⟩
  obtain ⟨r, hr, hexact⟩ := (judge_processes _ history hfail).2 ⟨2⟩ (by decide)
  obtain rfl : _ = r := Option.some.inj hr
  intro ret
  simpa using (hexact.rejected ret).symm

end Tester
end Linearizability
