import Linearizability.Proofs.Judgment
import Linearizability.Proofs.Search.Notes
import Linearizability.Reference.Register

/-!
# The path tells the state of a search

A search keeps its object, the phases of the processes and its task apart from the choices on its
path, and changes them one by one. The main statement is that at the beginning of every step the
path alone tells what they are, also on a history that breaks the alternation. So no step of the
search names an event or a process that is not there, if the machine has laid out its tables.
-/

namespace Linearizability

variable {σ Op Ret : Type}

namespace Search

/-- How many events the choices on the path have passed. An invocation is passed by one choice, and
a return by the choice that its own process has taken effect. -/
def passed : List Marker → Nat
  | [] => 0
  | .invoked _ :: path => passed path + 1
  | .linearized r _ _ p _ :: path => if p = r then passed path + 1 else passed path

/-- The phase in which the path leaves the process, which the latest choice about it decides. -/
def phaseOn (p : ProcessId) : List Marker → Phase
  | [] => .idle
  | .invoked q :: path => if q = p then .pending (passed path) else phaseOn p path
  | .linearized r _ _ q _ :: path =>
    if q = p then if q = r then .idle else .committed else phaseOn p path

variable [ReferenceObject σ Op Ret] [DecidableEq Ret]

/-- The choices that a marker can stand for, those before it being `below`. It tells the phase that
its process was in. -/
inductive StandsFor (events : List (Event Op Ret)) (below : List Marker) : Marker → Prop
  | invoked {p label op expected}
      (he : events[passed below]? = some (.invoke p label op expected))
      (hp : phaseOn p below = .idle) : StandsFor events below (.invoked p)
  | linearized {r result k p before} (he : events[passed below]? = some (.ret r result))
      (hr : phaseOn r below ≠ .idle) (hk : k < processCount events)
      (hc : candidate (processCount events) r k = p) (hp : phaseOn p below = before)
      (hidle : before ≠ .idle) (hcommitted : before = .committed → p = r) :
      StandsFor events below (.linearized r (passed below) k p before)

/-- The path tells everything else about the search but how far it got. -/
structure ToldByPath (events : List (Event Op Ret)) (object : σ) (s : Search σ Ret) : Prop where
  /-- The operations that took effect on the path give what their processes observed, and lead from
  the object at the start to the one at hand. -/
  object : replay? events object (effects s.path) = some s.object
  phase : ∀ p : ProcessId, p.toNat < processCount events →
    p.lookup? s.phases = some (phaseOn p s.path)
  /-- The invocation is the latest one of its process that the path has passed, and the process
  has not returned since. -/
  pending : ∀ (p : ProcessId) (q : Nat), p.lookup? s.phases = some (.pending q) →
    q < passed s.path ∧
    (∃ label op expected, events[q]? = some (.invoke p label op expected)) ∧
    ∀ j event, q < j → j < passed s.path → events[j]? = some event → event.process ≠ p
  markers : ∀ marker below, marker :: below <:+ s.path → StandsFor events below marker
  advance : ∀ i, s.task = some (.advance i) → i = passed s.path ∧ i ≤ events.length
  linearize : ∀ r i k, s.task = some (.linearize r i k) → i = passed s.path ∧
    (∃ result, events[i]? = some (.ret r result)) ∧
    ∃ phase ≠ .idle, r.lookup? s.phases = some phase

/-- Every process that the history, the path or a candidate names has a phase and an entry in the
reach, and the next step finds what it looks for. -/
structure StaysInRange (events : List (Event Op Ret)) (s : Search σ Ret) : Prop where
  phases : s.phases.length = processCount events
  reach : s.reach.processes.length = processCount events
  history : ∀ event ∈ events, event.process.toNat < processCount events
  path : ∀ marker ∈ s.path, marker.process.toNat < processCount events
  /-- The next candidate is found by a sum of machine words. Tables of half as many entries as there
  are words do not fit into any memory. -/
  sums : processCount events ≤ 2 ^ 63 → ∀ r i k, s.task = some (.linearize r i k) →
    k + 1 < processCount events → r.toNat + 1 + k < 2 ^ 64
  candidates : ∀ r i k, s.task = some (.linearize r i k) → k < processCount events →
    (candidate (processCount events) r k).toNat < processCount events
  step : ∀ left, s.step events.toArray ≠ .halt (.error .outOfRange) left
  /-- A pending process waits for an operation, whatever the object on which it is tried. -/
  attempt : ∀ (p : ProcessId) (q : Nat), p.lookup? s.phases = some (.pending q) →
    ∀ object : σ, attempt events.toArray q object ≠ .absent
  /-- A process is not found idle once the search has arrived at its return. -/
  returning : ∀ r i k, s.task = some (.linearize r i k) → ∀ j p left,
    s.step events.toArray ≠ .halt (.error (.unmatchedReturn j p)) left

/-- The run begins a step with the search `t` after it has counted `n` steps from `s`. -/
inductive BeginsStep (events : List (Event Op Ret)) (limits : Limits σ) (s : Search σ Ret) :
    Nat → Search σ Ret → Prop
  | first : BeginsStep events limits s 0 s
  | next {n t t'} (h : BeginsStep events limits s n t)
      (hcancelled : limits.cancelled n t.object = false)
      (hmax : limits.maxSteps.any (· < n + 1) = false)
      (hstep : t.step events.toArray = .next t') : BeginsStep events limits s (n + 1) t'

variable {events : List (Event Op Ret)} {object now : σ} {path below : List Marker}
variable {phases : List Phase} {phase : Phase} {marker : Marker} {i n q : Nat} {p r : ProcessId}
variable {s t : Search σ Ret} {limits : Limits σ}

namespace BeginsStep

theorem exists_visits (h : BeginsStep events limits s n t) :
    ∃ visited, Visits events s visited t := by
  induction h with
  | first => exact ⟨[], .start⟩
  | next _ _ _ hstep ih =>
    obtain ⟨visited, hvisits⟩ := ih
    exact ⟨_, hvisits.step hstep⟩

/-- What a run comes to, it comes to from each of its steps on. -/
theorem run_eq (h : BeginsStep events limits s n t) :
    run events.toArray limits n t = run events.toArray limits 0 s := by
  induction h with
  | first => rfl
  | next _ hcancelled hmax hstep ih =>
    rename_i n t t' _
    rw [← ih, Search.run_eq events.toArray limits n t, hcancelled, hmax, hstep]
    rfl

/-- The steps of a run lead to one in which it ends. -/
theorem exists_last (h : BeginsStep events limits s n t) :
    ∃ m last, BeginsStep events limits s m last ∧
      Concludes events last (run events.toArray limits 0 s) := by
  have hrun := h.run_eq
  fun_induction run events.toArray limits n t with
  | case1 n t => exact ⟨n, t, h, hrun ▸ .interrupted n⟩
  | case2 n t => exact ⟨n, t, h, hrun ▸ .exhausted (n + 1)⟩
  | case3 n t hcancelled hmax t' hstep ih =>
    exact ih (h.next (by simpa using hcancelled) (by simpa using hmax) hstep) hrun
  | case4 n t _ _ outcome left hstep => exact ⟨n, t, h, hrun ▸ .halted (n + 1) hstep⟩

end BeginsStep

namespace Branch

theorem position_eq (h : Branch events object path i phases now) : i = passed path := by
  induction h with
  | start => rfl
  | invoke _ _ _ ih => rw [passed, ih]
  | commit _ _ _ _ hne _ _ ih => rwa [passed, if_neg hne]
  | pass _ _ _ _ _ _ ih | passCommitted _ _ _ _ _ ih => rw [passed, if_pos rfl, ih]

theorem phase_eq (h : Branch events object path i phases now)
    (hp : p.lookup? phases = some phase) : phase = phaseOn p path := by
  induction h generalizing phase with
  | start =>
    rw [ProcessId.lookup?, List.getElem?_replicate, Option.ite_none_right_eq_some] at hp
    exact (Option.some.inj hp.2).symm
  | invoke h _ _ ih =>
    rcases ProcessId.eq_or_lookup?_of_set hp with ⟨rfl, rfl⟩ | ⟨hne, hp⟩
    · rw [phaseOn, if_pos rfl, h.position_eq]
    · rw [phaseOn, if_neg hne, ih hp]
  | commit _ _ _ _ hne _ _ ih =>
    rcases ProcessId.eq_or_lookup?_of_set hp with ⟨rfl, rfl⟩ | ⟨hne', hp⟩
    · rw [phaseOn, if_pos rfl, if_neg hne]
    · rw [phaseOn, if_neg hne', ih hp]
  | pass _ _ _ _ _ _ ih | passCommitted _ _ _ _ _ ih =>
    rcases ProcessId.eq_or_lookup?_of_set hp with ⟨rfl, rfl⟩ | ⟨hne, hp⟩
    · rw [phaseOn, if_pos rfl, if_pos rfl]
    · rw [phaseOn, if_neg hne, ih hp]

theorem lookup?_eq_phaseOn (h : Branch events object path i phases now)
    (hp : p.toNat < processCount events) : p.lookup? phases = some (phaseOn p path) := by
  rw [← h.length_phases] at hp
  obtain ⟨phase, hphase⟩ := Option.isSome_iff_exists.1 (ProcessId.lookup?_isSome_iff.2 hp)
  rw [hphase, h.phase_eq hphase]

theorem standsFor (h : Branch events object (marker :: below) i phases now) :
    StandsFor events below marker := by
  cases h with
  | invoke h he hp =>
    obtain rfl := h.position_eq
    exact .invoked he (h.phase_eq hp).symm
  | commit h he hr hk _ hp _ =>
    obtain rfl := h.position_eq
    rw [h.length_phases] at hk hp ⊢
    exact .linearized he (by simp [← h.phase_eq hr]) hk rfl (h.phase_eq hp).symm (by simp) (by simp)
  | pass h he hr hk hc _ =>
    obtain rfl := h.position_eq
    rw [h.length_phases] at hk hc
    exact .linearized he (by simp [← h.phase_eq hr]) hk hc (h.phase_eq hr).symm (by simp) (by simp)
  | passCommitted h he hr hk hc =>
    obtain rfl := h.position_eq
    rw [h.length_phases] at hk hc
    exact .linearized he (by simp [← h.phase_eq hr]) hk hc (h.phase_eq hr).symm (by simp)
      fun _ => rfl

/-- A pending process has done nothing on the path since the operation that it waits for. -/
theorem latest_of_pending (h : Branch events object path i phases now)
    (hp : p.lookup? phases = some (.pending q)) : q < passed path ∧
    (∃ label op expected, events[q]? = some (.invoke p label op expected)) ∧
    ∀ j event, q < j → j < passed path → events[j]? = some event → event.process ≠ p := by
  obtain rfl := h.position_eq
  obtain ⟨hlt, hinvokes, hbetween⟩ :=
    Turn.outstanding_eq_some_iff.1 (h.consistent.outstanding_of_pending hp).1
  refine ⟨hlt, Turn.turn_invokes_iff.1 hinvokes, ?_⟩
  intro j event hqj hj he
  exact hbetween j event.turn hqj hj (by simp [he])

end Branch

namespace OnBranch

variable (h : OnBranch events object s)

include h

theorem lookup?_of_linearize {k : Nat} (ht : s.task = some (.linearize r i k)) :
    ∃ phase ≠ .idle, r.lookup? s.phases = some phase := by
  obtain ⟨-, -, ⟨hr, -⟩ | ⟨q, hr⟩⟩ := h.of_linearize ht
  · exact ⟨_, by simp, hr⟩
  · exact ⟨_, by simp, hr⟩

theorem toldByPath : ToldByPath events object s := by
  obtain ⟨i, hb⟩ := h.exists_branch
  exact {
    object := hb.consistent.replay
    phase := fun p hp => hb.lookup?_eq_phaseOn hp
    pending := fun p q hp => hb.latest_of_pending hp
    markers := by
      intro marker below hs
      obtain ⟨_, _, _, hb⟩ := hb.of_suffix hs
      exact hb.standsFor
    advance := by
      intro i ht
      have hb := h.branch_of_task ht
      exact ⟨hb.position_eq, hb.le_length⟩
    linearize := by
      intro r i k ht
      obtain ⟨hb, hreturn, -⟩ := h.of_linearize ht
      exact ⟨hb.position_eq, hreturn, h.lookup?_of_linearize ht⟩ }

theorem marker_lt (hm : marker ∈ s.path) : marker.process.toNat < processCount events := by
  obtain ⟨i, hb⟩ := h.exists_branch
  obtain ⟨later, below, hpath⟩ := List.append_of_mem hm
  obtain ⟨_, phases, _, hb⟩ := hb.of_suffix (hpath ▸ List.suffix_append later (marker :: below))
  rw [← hb.length_phases]
  exact hb.marker_lt

theorem attempt_ne_absent (hp : p.lookup? s.phases = some (.pending q)) (tried : σ) :
    attempt events.toArray q tried ≠ .absent := by
  obtain ⟨i, hb⟩ := h.exists_branch
  obtain ⟨-, ⟨label, op, expected, he⟩, -⟩ := hb.latest_of_pending hp
  unfold attempt
  simp only [List.getElem?_toArray, he]
  split
  · simp
  · split <;> simp

variable [LawfulUndo σ] {outcome : Except Fault (Verdict Ret)} {left : σ}

/-- A search looks for nothing that is not there, and misses an invocation only at a return that it
is about to pass. -/
theorem fault_of_halt (hstep : s.step events.toArray = .halt outcome left) :
    outcome ≠ .error .outOfRange ∧
      ∀ j p, outcome = .error (.unmatchedReturn j p) → s.task = some (.advance j) := by
  rcases h.halt (halt_of_step hstep) with ⟨-, rfl, -⟩ | ⟨-, -, rfl, -⟩ |
    ⟨i, event, ht, -, -, ⟨-, rfl, -⟩ | ⟨-, rfl, -⟩⟩
  · simp
  · simp
  · simp
  · refine ⟨by simp, ?_⟩
    intro j p hfault
    cases hfault
    exact ht

theorem staysInRange (hreach : s.reach.processes.length = processCount events) :
    StaysInRange events s := by
  obtain ⟨i, hb⟩ := h.exists_branch
  exact {
    phases := hb.length_phases
    reach := hreach
    history := fun event hevent => lt_processCount hevent
    path := fun marker hm => h.marker_lt hm
    sums := by
      intro hcount r i k ht hk
      obtain ⟨-, ⟨result, he⟩, -⟩ := h.of_linearize ht
      have hr : r.toNat < processCount events := lt_processCount_of_getElem? he
      omega
    candidates := by
      intro r i k ht hk
      obtain ⟨-, ⟨result, he⟩, -⟩ := h.of_linearize ht
      exact toNat_candidate_lt (processCount_le events) (lt_processCount_of_getElem? he) hk
    step := fun left hstep => (h.fault_of_halt hstep).1 rfl
    attempt := fun p q hp tried => h.attempt_ne_absent hp tried
    returning := by
      intro r i k ht j p left hstep
      have ht' := (h.fault_of_halt hstep).2 j p rfl
      simp [ht] at ht' }

end OnBranch

/-- No move changes the number of the processes in the reach. -/
theorem Visits.length_reach {visited : List (Search σ Ret)}
    (h : Visits events (Search.start object events) visited s) :
    s.reach.processes.length = processCount events := by
  rw [h.reach_eq, Reach.length_processes_foldl]
  simp [Search.start, Reach.blank]

end Search

namespace Tester

variable [ReferenceObject σ Op Ret] [DecidableEq Ret] [LawfulUndo σ]

theorem judge_ne_outOfRange (t : Tester σ) (events : List (Event Op Ret)) :
    (t.judge events).1 ≠ .error .outOfRange := by
  rcases t.judge_ok_or_break events with ⟨verdict, hverdict, -⟩ | ⟨v, event, -, -, hfault⟩
  · simp [hverdict]
  · rw [hfault]
    unfold Search.Fault.ofBreak
    split <;> simp

/-- Whatever its limits and the history, a tester searches if memory has room for a table with an
entry for each process. It begins every step with a search that its path tells and in which nothing
is out of range, and it ends in one of these steps. Without room it does nothing. All this holds on
a machine that does not check its sums unless the last process has an event. -/
theorem judge?_told_by_path (t : Tester σ) (machine : Machine) (events : List (Event Op Ret))
    (hlast : machine.overflow = .wrapping → ∀ event ∈ events, event.process ≠ .last) :
    ((t.judge? machine events).isSome ↔ ∀ event ∈ events, event.process.index < machine.room) ∧
    ∀ s, Search.begin? machine t.object events = some s →
      (∀ n u, Search.BeginsStep events t.limits s n u →
        u.ToldByPath events t.object ∧ u.StaysInRange events) ∧
      (∃ n last, Search.BeginsStep events t.limits s n last ∧
        Search.Concludes events last (s.run events.toArray t.limits 0)) ∧
      t.judge? machine events = some (t.judgeFrom s events) ∧
      (t.judgeFrom s events).1 ≠ .error .outOfRange := by
  refine ⟨by simp [Option.isSome_iff_exists, judge?_eq_some_iff hlast], fun s hs => ?_⟩
  have hjudge : t.judge? machine events = some (t.judgeFrom s events) := by rw [judge?, hs]; rfl
  obtain ⟨-, rfl⟩ := (Search.begin?_eq_some_iff hlast).1 hs
  refine ⟨fun n u hu => ?_, Search.BeginsStep.first.exists_last, hjudge,
    t.judge_ne_outOfRange events⟩
  obtain ⟨visited, hvisits⟩ := hu.exists_visits
  have hbranch := hvisits.onBranch List.mem_cons_self
  exact ⟨hbranch.toldByPath, hbranch.staysInRange hvisits.length_reach⟩

/-- The second process returns twice, and what it read must have been written before. -/
def strayReturn : List (Event (Register.Op Nat) (Register.Ret Nat)) :=
  [.invoke ⟨0⟩ "write(1)" (.write 1) (some .written),
    .invoke ⟨1⟩ "read()" .read (some (.read 1)),
    .ret ⟨1⟩ (some (.read 1)),
    .ret ⟨1⟩ (some (.read 1))]

/-- After four steps the write has taken effect ahead of the read. -/
theorem judge?_told_by_path_stray_return :
    (∀ event ∈ strayReturn, event.process ≠ .last) ∧ ∃ s : Search (Register Nat) (Register.Ret Nat),
      s.path = [.linearized ⟨1⟩ 2 0 ⟨0⟩ (.pending 0), .invoked ⟨1⟩, .invoked ⟨0⟩] ∧
      s.ToldByPath strayReturn (⟨0, []⟩ : Register Nat) ∧ s.StaysInRange strayReturn := by
  let t : Tester (Register Nat) := { object := ⟨0, []⟩ }
  have hlast : ∀ event ∈ strayReturn, event.process ≠ .last := by decide
  have hstart : Search.BeginsStep strayReturn t.limits (Search.start t.object strayReturn) 0 _ :=
    .first
  have hinvoked := (hstart.next rfl rfl (Search.Move.invoke rfl rfl rfl).step_eq).next rfl rfl
    (Search.Move.invoke rfl rfl rfl).step_eq
  have harrived := hinvoked.next rfl rfl (Search.Move.arrive rfl rfl rfl).step_eq
  have hwritten := harrived.next rfl rfl
    (Search.Move.commit (q := 0) rfl (by decide) (by decide) (by decide)
      (takeEffect?_eq_some_iff.2 ⟨⟨0⟩, "write(1)", .write 1, rfl, rfl⟩)).step_eq
  obtain ⟨-, htold⟩ := judge?_told_by_path t ⟨.wrapping, 2⟩ strayReturn fun _ => hlast
  exact ⟨hlast, _, by decide, (htold _ rfl).1 4 _ hwritten⟩

/-- The last process has no entry in any table. Where sums are checked, nothing is searched. -/
theorem judge?_last_process :
    let events : List (Event (Queue.Op Nat) (Queue.Ret Nat)) :=
      [.invoke .last "poll()" .dequeue none]
    let t : Tester (Queue Nat) := { object := Queue.ofList [] }
    t.judge? ⟨.checked, 4096⟩ events = none ∧
      (t.judge? ⟨.wrapping, 4096⟩ events).map Prod.fst = some (.error .outOfRange) := by
  intro events t
  refine ⟨rfl, ?_⟩
  have hbegin : Search.begin? ⟨.wrapping, 4096⟩ t.object events =
      some ⟨t.object, [], [], .blank 0, some (.advance 0)⟩ := rfl
  rw [judge?, hbegin, Option.map_some, judgeFrom, Search.run_eq]
  rfl

end Tester
end Linearizability
