import Linearizability.Proofs.Search.Candidate
import Linearizability.Proofs.Search.Move

/-!
# Branches of the search

The choices on the path of a search determine everything else that it works with. They make a branch
of its tree: how far it got in the history, the phases of the processes, and the reference object.
The main statements are that the operations that took effect on a branch linearize the part of the
history that it passed, and that a search with exact undo stays on branches until it halts.
-/

namespace Linearizability.Search

open Turn

/-- The operations that took effect on the path, the earliest first. -/
def effects : List Marker → List Nat
  | [] => []
  | .linearized _ _ _ _ (.pending q) :: path => effects path ++ [q]
  | _ :: path => effects path

/-- The phase of a process ahead of event `i`, when the operations in `w` took effect. -/
def phaseAt (turns : List Turn) (w : List Nat) (i : Nat) (p : ProcessId) : Phase :=
  match outstanding turns p i with
  | none => .idle
  | some q => if q ∈ w then .committed else .pending q

section Phases

variable {turns : List Turn} {w : List Nat} {i q : Nat} {p r : ProcessId}

theorem phaseAt_eq_idle_iff : phaseAt turns w i p = .idle ↔ outstanding turns p i = none := by
  unfold phaseAt
  split
  · simp [*]
  · split <;> simp [*]

theorem phaseAt_eq_pending_iff :
    phaseAt turns w i p = .pending q ↔ outstanding turns p i = some q ∧ q ∉ w := by
  unfold phaseAt
  split
  · simp [*]
  · rename_i a ho
    split
    · simp only [reduceCtorEq, ho, Option.some.injEq, false_iff, not_and, not_not]
      rintro rfl
      assumption
    · simp only [Phase.pending.injEq, ho, Option.some.injEq]
      constructor
      · rintro rfl
        exact ⟨rfl, by assumption⟩
      · exact fun h => h.1

theorem phaseAt_eq_committed_iff :
    phaseAt turns w i p = .committed ↔ ∃ q ∈ w, outstanding turns p i = some q := by
  unfold phaseAt
  split
  · simp [*]
  · split <;> simp [*]

theorem phaseAt_succ_of_invokes (h : turns[i]? = some ⟨p, true⟩) (hi : i ∉ w) :
    phaseAt turns w (i + 1) p = .pending i :=
  phaseAt_eq_pending_iff.2 ⟨outstanding_succ_of_invokes h, hi⟩

theorem phaseAt_succ_of_returns (h : turns[i]? = some ⟨p, false⟩) :
    phaseAt turns w (i + 1) p = .idle :=
  phaseAt_eq_idle_iff.2 (outstanding_succ_of_returns h)

theorem phaseAt_succ_of_ne {turn : Turn} (h : turns[i]? = some turn) (hne : turn.process ≠ p) :
    phaseAt turns w (i + 1) p = phaseAt turns w i p := by
  simp [phaseAt, outstanding_succ_of_ne h hne]

theorem phaseAt_append_self (h : outstanding turns p i = some q) :
    phaseAt turns (w ++ [q]) i p = .committed :=
  phaseAt_eq_committed_iff.2 ⟨q, by simp, h⟩

theorem phaseAt_append_of_ne (h : outstanding turns p i = some q) (hne : p ≠ r) :
    phaseAt turns (w ++ [q]) i r = phaseAt turns w i r := by
  unfold phaseAt
  split
  · rfl
  · rename_i a ho
    have haq : a ≠ q := by
      rintro rfl
      have := (invokes_of_outstanding h).symm.trans (invokes_of_outstanding ho)
      exact hne (by simpa using this)
    simp [haq]

end Phases

variable {σ Op Ret : Type} [ReferenceObject σ Op Ret] [DecidableEq Ret]

/-- The choices on the path lead from the start to this position, these phases and this object. -/
inductive Branch (events : List (Event Op Ret)) (object : σ) :
    List Marker → Nat → List Phase → σ → Prop
  | start : Branch events object [] 0 (List.replicate (processCount events) .idle) object
  | invoke {path i phases now p label op expected} (h : Branch events object path i phases now)
      (he : events[i]? = some (.invoke p label op expected))
      (hp : p.lookup? phases = some .idle) :
      Branch events object (.invoked p :: path) (i + 1) (phases.set p.toNat (.pending i)) now
  | commit {path i phases now r result a k q left} (h : Branch events object path i phases now)
      (he : events[i]? = some (.ret r result)) (hr : r.lookup? phases = some (.pending a))
      (hk : k < phases.length) (hne : candidate phases.length r k ≠ r)
      (hp : (candidate phases.length r k).lookup? phases = some (.pending q))
      (hq : takeEffect? events now q = some left) :
      Branch events object
        (.linearized r i k (candidate phases.length r k) (.pending q) :: path) i
        (phases.set (candidate phases.length r k).toNat .committed) left
  | pass {path i phases now r result k q left} (h : Branch events object path i phases now)
      (he : events[i]? = some (.ret r result)) (hr : r.lookup? phases = some (.pending q))
      (hk : k < phases.length) (hc : candidate phases.length r k = r)
      (hq : takeEffect? events now q = some left) :
      Branch events object (.linearized r i k r (.pending q) :: path) (i + 1)
        (phases.set r.toNat .idle) left
  | passCommitted {path i phases now r result k} (h : Branch events object path i phases now)
      (he : events[i]? = some (.ret r result)) (hr : r.lookup? phases = some .committed)
      (hk : k < phases.length) (hc : candidate phases.length r k = r) :
      Branch events object (.linearized r i k r .committed :: path) (i + 1)
        (phases.set r.toNat .idle) now

/-- What the position and the operations that took effect say about a branch. -/
structure Consistent (events : List (Event Op Ret)) (object : σ) (w : List Nat) (i : Nat)
    (phases : List Phase) (now : σ) : Prop where
  phase : ∀ p phase, p.lookup? phases = some phase → phase = phaseAt (events.map Event.turn) w i p
  replay : replay? events object w = some now
  linearization : IsLinearization object (events.take i) w
  alternating : Alternating ((events.map Event.turn).take i)

namespace Consistent

variable {events : List (Event Op Ret)} {object now left : σ} {w : List Nat} {i q : Nat}
variable {phases : List Phase} {p r : ProcessId}

theorem start :
    Consistent events object [] 0 (List.replicate (processCount events) .idle) object where
  phase p phase h := by
    rw [ProcessId.lookup?, List.getElem?_replicate, Option.ite_none_right_eq_some] at h
    exact (Option.some.inj h.2).symm
  replay := rfl
  linearization := .nil
  alternating := by intro i turn h; simp at h

theorem mem_lt (h : Consistent events object w i phases now) (hq : q ∈ w) : q < i :=
  h.linearization.lt_of_take hq

theorem outstanding_of_pending (h : Consistent events object w i phases now)
    (hp : p.lookup? phases = some (.pending q)) :
    outstanding (events.map Event.turn) p i = some q ∧ q ∉ w :=
  phaseAt_eq_pending_iff.1 (h.phase p _ hp).symm

theorem invoke {label : String} {op : Op} {expected : Option Ret}
    (h : Consistent events object w i phases now)
    (he : events[i]? = some (.invoke p label op expected)) (hp : p.lookup? phases = some .idle) :
    Consistent events object w (i + 1) (phases.set p.toNat (.pending i)) now := by
  have hturn := turn_invokes_iff.2 ⟨label, op, expected, he⟩
  have hidle := phaseAt_eq_idle_iff.1 (h.phase p _ hp).symm
  exact {
    phase := by
      intro p' phase hp'
      rcases ProcessId.eq_or_lookup?_of_set hp' with ⟨rfl, rfl⟩ | ⟨hne, hp'⟩
      · exact (phaseAt_succ_of_invokes hturn fun hi => Nat.lt_irrefl i (h.mem_lt hi)).symm
      · rw [phaseAt_succ_of_ne hturn hne]
        exact h.phase p' phase hp'
    replay := h.replay
    linearization := by
      refine h.linearization.take_succ ?_
      rintro a ⟨p', hret, -⟩
      simp [hturn] at hret
    alternating := h.alternating.take_succ hturn (by simp [hidle]) }

theorem takeEffect (h : Consistent events object w i phases now)
    (hp : p.lookup? phases = some (.pending q)) (hq : takeEffect? events now q = some left) :
    Consistent events object (w ++ [q]) i (phases.set p.toNat .committed) left := by
  obtain ⟨ho, hqw⟩ := h.outstanding_of_pending hp
  exact {
    phase := by
      intro p' phase hp'
      rcases ProcessId.eq_or_lookup?_of_set hp' with ⟨rfl, rfl⟩ | ⟨hne, hp'⟩
      · exact (phaseAt_append_self ho).symm
      · rw [phaseAt_append_of_ne ho hne]
        exact h.phase p' phase hp'
    replay := by rw [replay?_append_singleton h.replay, hq]
    linearization := h.linearization.append ho hqw h.replay hq
    alternating := h.alternating }

theorem passReturn {result : Option Ret} (h : Consistent events object w i phases now)
    (he : events[i]? = some (.ret r result)) (hr : r.lookup? phases = some .committed) :
    Consistent events object w (i + 1) (phases.set r.toNat .idle) now := by
  have hturn := turn_returns_iff.2 ⟨result, he⟩
  obtain ⟨q, hq, ho⟩ := phaseAt_eq_committed_iff.1 (h.phase r _ hr).symm
  exact {
    phase := by
      intro p phase hp
      rcases ProcessId.eq_or_lookup?_of_set hp with ⟨rfl, rfl⟩ | ⟨hne, hp⟩
      · exact (phaseAt_succ_of_returns hturn).symm
      · rw [phaseAt_succ_of_ne hturn hne]
        exact h.phase p phase hp
    replay := h.replay
    linearization := by
      refine h.linearization.take_succ ?_
      rintro a ⟨p, hret, ha⟩
      obtain rfl : r = p := by simpa [hturn] using hret
      obtain rfl : q = a := by simpa [ho] using ha
      exact hq
    alternating := h.alternating.take_succ hturn (by simp [ho]) }

end Consistent

namespace Branch

variable {events : List (Event Op Ret)} {object now : σ} {path : List Marker} {i : Nat}
variable {phases : List Phase}

theorem length_phases (h : Branch events object path i phases now) :
    phases.length = processCount events := by
  induction h with
  | start => simp
  | invoke _ _ _ ih | commit _ _ _ _ _ _ _ ih | pass _ _ _ _ _ _ ih | passCommitted _ _ _ _ _ ih =>
    simpa using ih

theorem consistent (h : Branch events object path i phases now) :
    Consistent events object (effects path) i phases now := by
  induction h with
  | start => exact .start
  | invoke _ he hp ih => exact ih.invoke he hp
  | commit _ _ _ _ _ hp hq ih => exact ih.takeEffect hp hq
  | pass _ he hr _ _ hq ih =>
    have hlt := ProcessId.lt_length_of_lookup? hr
    have := (ih.takeEffect hr hq).passReturn he (ProcessId.lookup?_set_self hlt)
    rwa [List.set_set] at this
  | passCommitted _ he hr _ _ ih => exact ih.passReturn he hr

theorem le_length (h : Branch events object path i phases now) : i ≤ events.length := by
  induction h with
  | start => exact Nat.zero_le _
  | invoke _ he _ _ | pass _ he _ _ _ _ _ | passCommitted _ he _ _ _ _ =>
    exact (List.getElem?_eq_some_iff.1 he).1
  | commit _ _ _ _ _ _ _ ih => exact ih

theorem marker_lt {marker : Marker} (h : Branch events object (marker :: path) i phases now) :
    marker.process.toNat < phases.length := by
  cases h with
  | invoke _ _ hp | commit _ _ _ _ _ hp _ | pass _ _ hp _ _ _ | passCommitted _ _ hp _ _ =>
    rw [List.length_set]
    exact ProcessId.lt_length_of_lookup? hp

variable {k q : Nat} {p r : ProcessId} {before : Phase}

theorem lookup?_isSome (h : Branch events object path i phases now) {event : Event Op Ret}
    (he : events[q]? = some event) : ∃ phase, event.process.lookup? phases = some phase := by
  have := lt_processCount_of_getElem? he
  rw [← h.length_phases] at this
  exact Option.isSome_iff_exists.1 (ProcessId.lookup?_isSome_iff.2 this)

theorem lookup?_eq_phaseAt (h : Branch events object path i phases now) {event : Event Op Ret}
    (he : events[q]? = some event) : event.process.lookup? phases =
      some (phaseAt (events.map Event.turn) (effects path) i event.process) := by
  obtain ⟨phase, hphase⟩ := h.lookup?_isSome he
  rw [hphase, h.consistent.phase _ phase hphase]

theorem candidate_eq_self_iff (h : Branch events object path i phases now) {result : Option Ret}
    (he : events[q]? = some (.ret r result)) (hk : k < phases.length) :
    candidate phases.length r k = r ↔ k + 1 = phases.length := by
  have hr := lt_processCount_of_getElem? he
  have hcount := processCount_le events
  rw [← h.length_phases] at hr hcount
  exact Search.candidate_eq_self_iff hcount hr hk

theorem candidate_lookup?_isSome (h : Branch events object path i phases now) {result : Option Ret}
    (he : events[q]? = some (.ret r result)) (hk : k < phases.length) :
    ((candidate phases.length r k).lookup? phases).isSome := by
  have hr := lt_processCount_of_getElem? he
  have hcount := processCount_le events
  rw [← h.length_phases] at hr hcount
  exact ProcessId.lookup?_isSome_iff.2 (toNat_candidate_lt hcount hr hk)

theorem candidate_injective (h : Branch events object path i phases now) {result : Option Ret}
    (he : events[q]? = some (.ret r result)) {l : Nat} (hk : k < phases.length)
    (hl : l < phases.length)
    (hc : candidate phases.length r k = candidate phases.length r l) : k = l := by
  have hr := lt_processCount_of_getElem? he
  have hcount := processCount_le events
  rw [← h.length_phases] at hr hcount
  exact Search.candidate_injective hcount hr hk hl hc

/-- An outstanding operation that has yet to take effect is the one of some candidate. -/
theorem exists_candidate (h : Branch events object path i phases now) {result : Option Ret}
    (he : events[i]? = some (.ret r result))
    (ho : outstanding (events.map Event.turn) p i = some q) (hq : q ∉ effects path) :
    ∃ k < phases.length, candidate phases.length r k = p ∧
      p.lookup? phases = some (.pending q) := by
  obtain ⟨label, op, expected, hqe⟩ := turn_invokes_iff.1 (invokes_of_outstanding ho)
  have hpending : p.lookup? phases = some (.pending q) := by
    rw [← phaseAt_eq_pending_iff.2 ⟨ho, hq⟩]
    exact h.lookup?_eq_phaseAt hqe
  have hr := lt_processCount_of_getElem? he
  have hp := lt_processCount_of_getElem? hqe
  have hcount := processCount_le events
  rw [← h.length_phases] at hr hp hcount
  obtain ⟨k, hk, hc⟩ := Search.exists_candidate hcount hr hp
  exact ⟨k, hk, hc, hpending⟩

section TakingBack

theorem uninvoke (h : Branch events object (.invoked p :: path) i phases now) :
    ∃ j, Branch events object path j (phases.set p.toNat .idle) now := by
  cases h with
  | invoke h he hp => exact ⟨_, by rwa [ProcessId.set_set_of_lookup? hp]⟩

theorem reopen {j : Nat}
    (h : Branch events object (.linearized r i k p before :: path) j phases now)
    (hbefore : before.isPending = false) :
    Branch events object path i (phases.set p.toNat before) now ∧
      (∃ result, events[i]? = some (.ret r result)) ∧
      r.lookup? (phases.set p.toNat before) = some .committed ∧ phases.length = k + 1 := by
  cases h with
  | commit | pass => simp [Phase.isPending] at hbefore
  | passCommitted h he hr hk hc =>
    rw [ProcessId.set_set_of_lookup? hr, List.length_set]
    exact ⟨h, ⟨_, he⟩, hr, ((h.candidate_eq_self_iff he hk).1 hc).symm⟩

variable [LawfulUndo σ]

theorem undo_of_takeEffect? {left : σ} (h : takeEffect? events now q = some left) :
    ReferenceObject.undo left = (.ok (), now) := by
  obtain ⟨_, _, op, _, rfl⟩ := takeEffect?_eq_some_iff.1 h
  exact LawfulUndo.undo_apply now op

theorem takeBack {j : Nat} {left : σ}
    (h : Branch events object (.linearized r i k p (.pending q) :: path) j phases now)
    (hu : ReferenceObject.undo now = (.ok (), left)) :
    Branch events object path i (phases.set p.toNat (.pending q)) left ∧
      (∃ result, events[i]? = some (.ret r result)) ∧
      ∃ a, r.lookup? (phases.set p.toNat (.pending q)) = some (.pending a) := by
  cases h with
  | commit h he hr _ _ hp hq =>
    obtain rfl : _ = left := congrArg Prod.snd ((undo_of_takeEffect? hq).symm.trans hu)
    rw [ProcessId.set_set_of_lookup? hp]
    exact ⟨h, ⟨_, he⟩, _, hr⟩
  | pass h he hr _ _ hq =>
    obtain rfl : _ = left := congrArg Prod.snd ((undo_of_takeEffect? hq).symm.trans hu)
    rw [ProcessId.set_set_of_lookup? hr]
    exact ⟨h, ⟨_, he⟩, _, hr⟩

theorem undo_ne_error {j : Nat} {left : σ} {cause : NothingToUndo}
    (h : Branch events object (.linearized r i k p (.pending q) :: path) j phases now) :
    ReferenceObject.undo now ≠ (.error cause, left) := by
  cases h with
  | commit _ _ _ _ _ _ hq | pass _ _ _ _ _ hq => simp [undo_of_takeEffect? hq]

/-- Undoing what took effect on a branch gives back the object from the start. -/
theorem restore_eq (h : Branch events object path i phases now) :
    restore path now = (.ok (), object) := by
  induction h with
  | start => rfl
  | invoke _ _ _ ih | passCommitted _ _ _ _ _ ih => simpa [restore] using ih
  | commit _ _ _ _ _ _ hq ih | pass _ _ _ _ _ hq ih =>
    simpa [restore, undo_of_takeEffect? hq] using ih

end TakingBack

end Branch

/-- The search works on a branch. While it tries candidates for a return, the returning process is
pending, or it is committed and only the last candidate is left. -/
def OnBranch (events : List (Event Op Ret)) (object : σ) (s : Search σ Ret) : Prop :=
  match s.task with
  | some (.advance i) => Branch events object s.path i s.phases s.object
  | some (.linearize r i k) =>
    Branch events object s.path i s.phases s.object ∧
      (∃ result, events[i]? = some (.ret r result)) ∧
      (r.lookup? s.phases = some .committed ∧ s.phases.length ≤ k + 1 ∨
        ∃ q, r.lookup? s.phases = some (.pending q))
  | none => ∃ i, Branch events object s.path i s.phases s.object

namespace OnBranch

variable {events : List (Event Op Ret)} {object : σ} {s s' : Search σ Ret}

theorem start (events : List (Event Op Ret)) (object : σ) :
    OnBranch events object (Search.start object events) :=
  Branch.start

theorem exists_branch (h : OnBranch events object s) :
    ∃ i, Branch events object s.path i s.phases s.object := by
  unfold OnBranch at h
  split at h
  · exact ⟨_, h⟩
  · exact ⟨_, h.1⟩
  · exact h

theorem of_linearize {r : ProcessId} {i k : Nat} (h : OnBranch events object s)
    (ht : s.task = some (.linearize r i k)) :
    Branch events object s.path i s.phases s.object ∧
      (∃ result, events[i]? = some (.ret r result)) ∧
      (r.lookup? s.phases = some .committed ∧ s.phases.length ≤ k + 1 ∨
        ∃ q, r.lookup? s.phases = some (.pending q)) := by
  simpa only [OnBranch, ht] using h

variable [LawfulUndo σ]

theorem conclude_eq (h : OnBranch events object s) (verdict : Verdict Ret) :
    s.conclude verdict = (.ok verdict, object) := by
  obtain ⟨i, hb⟩ := h.exists_branch
  simp [conclude, hb.restore_eq]

theorem move (h : OnBranch events object s) (hm : Move events s s') :
    OnBranch events object s' := by
  cases hm with
  | invoke ht he hp =>
    simp only [OnBranch, ht] at h
    exact h.invoke he hp
  | arrive ht he hr =>
    simp only [OnBranch, ht] at h
    exact ⟨h, ⟨_, he⟩, .inr ⟨_, hr⟩⟩
  | arriveCommitted ht he hr =>
    simp only [OnBranch, ht] at h
    exact ⟨h, ⟨_, he⟩, .inl ⟨hr, by dsimp only; omega⟩⟩
  | exhaust ht hk =>
    simp only [OnBranch, ht] at h
    exact ⟨_, h.1⟩
  | skip ht hk hp hphase hne =>
    simp only [OnBranch, ht] at h
    obtain ⟨hb, he, hr⟩ := h
    exact ⟨hb, he, hr.imp_left fun ⟨hr, hlen⟩ => ⟨hr, by dsimp only; omega⟩⟩
  | commit ht hk hp hne hq =>
    simp only [OnBranch, ht] at h
    obtain ⟨hb, ⟨result, he⟩, ⟨hr, hlen⟩ | ⟨a, hr⟩⟩ := h
    · exact absurd ((hb.candidate_eq_self_iff he hk).2 (by omega)) hne
    · refine ⟨hb.commit he hr hk hne hp hq, ⟨result, he⟩, .inr ⟨a, ?_⟩⟩
      rwa [Search.commit, ProcessId.lookup?_set_ne hne]
  | pass ht hk hc hr hq =>
    simp only [OnBranch, ht] at h
    obtain ⟨hb, ⟨result, he⟩, -⟩ := h
    exact hb.pass he hr hk hc hq
  | passCommitted ht hk hc hr =>
    simp only [OnBranch, ht] at h
    obtain ⟨hb, ⟨result, he⟩, -⟩ := h
    exact hb.passCommitted he hr hk hc
  | @reject r i k q p label op expected left ht hk hp he hne hu =>
    obtain rfl : s.object = left :=
      congrArg Prod.snd ((LawfulUndo.undo_apply s.object op).symm.trans hu)
    simp only [OnBranch, ht] at h
    obtain ⟨hb, he, hr⟩ := h
    by_cases hc : candidate s.phases.length r k = r
    · simp only [OnBranch, rejectThen, hc, if_true]
      exact ⟨i, hb⟩
    · simp only [OnBranch, rejectThen, hc, if_false]
      exact ⟨hb, he, hr.imp_left fun ⟨hr, hlen⟩ => ⟨hr, by omega⟩⟩
  | uninvoke ht hpath hp =>
    simp only [OnBranch, ht, hpath] at h
    obtain ⟨i, hb⟩ := h
    exact hb.uninvoke
  | takeBack ht hpath hp hu =>
    simp only [OnBranch, ht, hpath] at h
    obtain ⟨i, hb⟩ := h
    obtain ⟨hb, he, hr⟩ := hb.takeBack hu
    exact ⟨hb, he, .inr hr⟩
  | reopen ht hpath hp hbefore =>
    simp only [OnBranch, ht, hpath] at h
    obtain ⟨i, hb⟩ := h
    obtain ⟨hb, he, hr, hlen⟩ := hb.reopen hbefore
    exact ⟨hb, he, .inl ⟨hr, by simp only [List.length_set]; omega⟩⟩

/-- Apart from the two verdicts, a search on a branch ends only at the first event that breaks the
alternation of its process. -/
theorem halt {outcome : Except Fault (Verdict Ret)} {left : σ} (h : OnBranch events object s)
    (hh : Halt events s outcome left) :
    s.task = some (.advance events.length) ∧ outcome = .ok .linearizable ∧ left = object ∨
    s.task = none ∧ s.path = [] ∧ outcome = .ok (.notLinearizable s.reach) ∧ left = object ∨
    ∃ i event, s.task = some (.advance i) ∧ events[i]? = some event ∧ left = s.object ∧
      (event.isInvoke = true ∧ outcome = .error (.overlappingInvocation i event.process) ∧
          outstanding (events.map Event.turn) event.process i ≠ none ∨
        event.isInvoke = false ∧ outcome = .error (.unmatchedReturn i event.process) ∧
          outstanding (events.map Event.turn) event.process i = none) := by
  cases hh with
  | found ht =>
    rw [h.conclude_eq]
    exact .inl ⟨ht, rfl, rfl⟩
  | refuted ht hpath =>
    obtain ⟨i, hb⟩ := h.exists_branch
    have := hb.restore_eq
    rw [hpath] at this
    exact .inr (.inl ⟨ht, hpath, rfl, congrArg Prod.snd this⟩)
  | overlapping ht he hp hne =>
    simp only [OnBranch, ht] at h
    refine .inr (.inr ⟨_, _, ht, he, rfl, .inl ⟨rfl, rfl, fun ho => hne ?_⟩⟩)
    rw [h.consistent.phase _ _ hp]
    exact phaseAt_eq_idle_iff.2 ho
  | unmatched ht he hr =>
    simp only [OnBranch, ht] at h
    refine .inr (.inr ⟨_, _, ht, he, rfl, .inr ⟨rfl, rfl, ?_⟩⟩)
    exact phaseAt_eq_idle_iff.1 (h.consistent.phase _ _ hr).symm
  | idleCandidate ht hk hc hr =>
    simp only [OnBranch, ht, hr] at h
    simp at h
  | rejectFailed ht hk hp he hne hu => simp [LawfulUndo.undo_apply] at hu
  | takeBackFailed ht hpath hp hu =>
    simp only [OnBranch, ht, hpath] at h
    obtain ⟨i, hb⟩ := h
    exact absurd hu hb.undo_ne_error
  | beyondHistory ht hi =>
    simp only [OnBranch, ht] at h
    exact absurd h.le_length (by omega)
  | unknownProcess ht he hp =>
    obtain ⟨i, hb⟩ := h.exists_branch
    obtain ⟨phase, hphase⟩ := hb.lookup?_isSome he
    simp [hp] at hphase
  | unknownCandidate ht hk hp =>
    simp only [OnBranch, ht] at h
    obtain ⟨hb, ⟨result, he⟩, -⟩ := h
    simpa [hp] using hb.candidate_lookup?_isSome he hk
  | noInvocation ht hk hp he =>
    simp only [OnBranch, ht] at h
    obtain ⟨ho, _⟩ := h.1.consistent.outstanding_of_pending hp
    obtain ⟨label, op, expected, hq⟩ := turn_invokes_iff.1 (invokes_of_outstanding ho)
    exact absurd hq (he _ _ _ _)
  | unknownMarker ht hpath hp =>
    simp only [OnBranch, ht, hpath] at h
    obtain ⟨i, hb⟩ := h
    exact absurd hb.marker_lt (by omega)

end OnBranch

end Linearizability.Search
