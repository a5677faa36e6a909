import Linearizability.Proofs.Search.Loop
import Linearizability.Proofs.Search.Open

/-!
# How a search ends

A search that nothing stops early passes every event, or has tried every branch, or comes to an
event that breaks the alternation of its process. The main statement is that what is linearizable
decides which of the three it is, and where. The furthest position of a search that has tried every
branch is the length of the longest part that is linearizable.
-/

namespace Linearizability.Search

open Turn

variable {σ Op Ret : Type}

/-- What a search finds wrong with an event that breaks the alternation of its process. -/
def Fault.ofBreak (i : Nat) (event : Event Op Ret) : Fault :=
  if event.isInvoke then .overlappingInvocation i event.process
  else .unmatchedReturn i event.process

def Task.position : Task → Nat
  | .advance i | .linearize _ i _ => i

variable [ReferenceObject σ Op Ret] [DecidableEq Ret] {events : List (Event Op Ret)}
variable {object left : σ} {s s' last : Search σ Ret} {i j v : Nat}

section Furthest

/-- Only where a search works can it get further, and it always does so when it passes an event. -/
theorem Move.furthest_eq (hm : Move events s s') :
    s'.reach.furthest = s.reach.furthest ∧ (∀ i, s.task ≠ some (.advance i)) ∨
      ∃ task, s.task = some task ∧ s'.reach.furthest = max s.reach.furthest task.position := by
  cases hm with
  | invoke ht _ _ | arrive ht _ _ | arriveCommitted ht _ _ | reject ht _ _ _ _ _ =>
    exact .inr ⟨_, ht, rfl⟩
  | exhaust ht _ | skip ht _ _ _ _ | commit ht _ _ _ _ | pass ht _ _ _ _
  | passCommitted ht _ _ _ | uninvoke ht _ _ | takeBack ht _ _ _ | reopen ht _ _ _ =>
    exact .inl ⟨rfl, by simp [ht]⟩

theorem Move.furthest_le (hm : Move events s s') : s.reach.furthest ≤ s'.reach.furthest := by
  rcases hm.furthest_eq with ⟨heq, -⟩ | ⟨task, -, heq⟩
  · exact heq.ge
  · rw [heq]
    exact Nat.le_max_left _ _

theorem Move.le_furthest (hm : Move events s s') (ht : s.task = some (.advance i)) :
    i ≤ s'.reach.furthest := by
  rcases hm.furthest_eq with ⟨-, hne⟩ | ⟨task, htask, heq⟩
  · exact absurd ht (hne i)
  · obtain rfl : task = .advance i := Option.some.inj (htask.symm.trans ht)
    rw [heq]
    exact Nat.le_max_right _ _

theorem OnBranch.branch_of_task {task : Task} (h : OnBranch events object s)
    (ht : s.task = some task) :
    Branch events object s.path task.position s.phases s.object := by
  simp only [OnBranch, ht] at h
  cases task with
  | advance i => exact h
  | linearize r i k => exact h.1

theorem Branch.linearizable {path : List Marker} {phases : List Phase} {now : σ}
    (h : Branch events object path i phases now) : Linearizable object (events.take i) :=
  ⟨effects path, h.consistent.linearization⟩

/-- The part of the history up to the furthest position is linearizable. -/
theorem OnBranch.linearizable_move (h : OnBranch events object s) (hm : Move events s s')
    (hlin : Linearizable object (events.take s.reach.furthest)) :
    Linearizable object (events.take s'.reach.furthest) := by
  rcases hm.furthest_eq with ⟨heq, -⟩ | ⟨task, ht, heq⟩
  · rwa [heq]
  · rw [heq]
    rcases Nat.le_total s.reach.furthest task.position with hle | hle
    · rw [Nat.max_eq_right hle]
      exact (h.branch_of_task ht).linearizable
    · rwa [Nat.max_eq_left hle]

end Furthest

section Breaks

/-- A move passes an event only if its process alternates there. -/
theorem OnBranch.alternating_of_move (h : OnBranch events object s) (hm : Move events s s')
    (ht : s.task = some (.advance i)) : Alternating ((events.map Event.turn).take (i + 1)) := by
  have hc := (h.branch_of_task ht).consistent
  simp only [Task.position] at hc
  cases hm with
  | invoke ht' he hp =>
    obtain rfl : _ = i := by simpa [ht] using ht'.symm
    exact (hc.invoke he hp).alternating
  | arrive ht' he hr =>
    obtain rfl : _ = i := by simpa [ht] using ht'.symm
    obtain ⟨ho, -⟩ := hc.outstanding_of_pending hr
    exact hc.alternating.take_succ (turn_returns_iff.2 ⟨_, he⟩) (by simp [ho])
  | arriveCommitted ht' he hr =>
    obtain rfl : _ = i := by simpa [ht] using ht'.symm
    exact (hc.passReturn he hr).alternating
  | exhaust ht' _ | skip ht' _ _ _ _ | commit ht' _ _ _ _ | pass ht' _ _ _ _
  | passCommitted ht' _ _ _ | reject ht' _ _ _ _ _ | uninvoke ht' _ _ | takeBack ht' _ _ _
  | reopen ht' _ _ _ =>
    simp [ht] at ht'

theorem OnBranch.task_ne_of_firstBreak (h : OnBranch events object s) (hm : Move events s s')
    (hv : FirstBreak (events.map Event.turn) v) : s.task ≠ some (.advance v) := by
  intro ht
  exact hv.breaks (h.alternating_of_move hm ht)

end Breaks

section Moves

variable [LawfulUndo σ]

theorem OnBranch.linearizable_moves (h : OnBranch events object s)
    (hreach : Relation.ReflTransGen (Move events) s last)
    (hlin : Linearizable object (events.take s.reach.furthest)) :
    Linearizable object (events.take last.reach.furthest) := by
  induction hreach with
  | refl => exact hlin
  | tail hreach hm ih => exact (h.moves hreach).linearizable_move hm ih

/-- A search does not lose what it is open to before it gets there. -/
theorem OnBranch.open_or_le_moves (h : OnBranch events object s)
    (hreach : Relation.ReflTransGen (Move events) s last) (hopen : Open events object j s) :
    Open events object j last ∨ j ≤ last.reach.furthest := by
  induction hreach with
  | refl => exact .inl hopen
  | @tail middle last hreach hm ih =>
    rcases ih with hopen | hle
    · by_cases ht : middle.task = some (.advance j)
      · exact .inr (hm.le_furthest ht)
      · exact .inl ((open_move (h.moves hreach) hm ht).2 hopen)
    · exact .inr (hle.trans hm.furthest_le)

/-- What lies ahead of an event that no move passes stays open. -/
theorem OnBranch.open_moves (h : OnBranch events object s)
    (hreach : Relation.ReflTransGen (Move events) s last)
    (hpass : ∀ s s', OnBranch events object s → Move events s s' → s.task ≠ some (.advance j))
    (hopen : Open events object j s) : Open events object j last := by
  induction hreach with
  | refl => exact hopen
  | tail hreach hm ih =>
    have hlast := h.moves hreach
    exact (open_move hlast hm (hpass _ _ hlast hm)).2 ih

end Moves

/-- The ways in which a search ends, with the outcome and the object that it leaves. -/
inductive Ending (events : List (Event Op Ret)) (object : σ) :
    Except Fault (Verdict Ret) → σ → Prop
  | linearizable (halt : Alternating (events.map Event.turn))
      (hlin : Linearizable object events) : Ending events object (.ok .linearizable) object
  | notLinearizable {reach}
      (hbreak : ∀ v, FirstBreak (events.map Event.turn) v → ¬ Linearizable object (events.take v))
      (hlt : reach.furthest < events.length)
      (hfurthest : ∀ j, j ≤ events.length →
        (Linearizable object (events.take j) ↔ j ≤ reach.furthest)) :
      Ending events object (.ok (.notLinearizable reach)) object
  | broken {v event order left} (he : events[v]? = some event)
      (hv : FirstBreak (events.map Event.turn) v)
      (horder : IsLinearization object (events.take v) order)
      (hleft : replay? events object order = some left) :
      Ending events object (.error (.ofBreak v event)) left

section Halting

theorem Branch.ending_of_length {path : List Marker} {phases : List Phase} {now : σ}
    (h : Branch events object path events.length phases now) :
    Ending events object (.ok .linearizable) object := by
  have halt := h.consistent.alternating
  rw [List.take_of_length_le (by simp)] at halt
  have hlin := h.linearizable
  rw [List.take_length] at hlin
  exact .linearizable halt hlin

/-- A branch that comes to an event that breaks the alternation has passed all that is before it. -/
theorem Branch.ending_of_breaks {path : List Marker} {phases : List Phase} {now : σ}
    {event : Event Op Ret} (h : Branch events object path v phases now)
    (he : events[v]? = some event)
    (hbreak : event.turn.invokes ≠
      (outstanding (events.map Event.turn) event.turn.process v).isNone) :
    Ending events object (.error (.ofBreak v event)) now := by
  have hturn : (events.map Event.turn)[v]? = some event.turn := by simp [he]
  exact .broken he ((firstBreak_iff hturn).2 ⟨h.consistent.alternating, hbreak⟩)
    h.consistent.linearization h.consistent.replay

/-- A search that has tried every branch was never open to more than it came to. -/
theorem ending_of_exhausted [LawfulUndo σ]
    (hreach : Relation.ReflTransGen (Move events) (start object events) last)
    (ht : last.task = none) (hpath : last.path = []) :
    Ending events object (.ok (.notLinearizable last.reach)) object := by
  have hstart := OnBranch.start events object
  have hclosed : ∀ j, ¬ Open events object j last := fun j => not_open_of_exhausted ht hpath
  have hno : ¬ Linearizable object events := by
    intro hlin
    have hopen : Open events object events.length (start object events) := by
      rwa [open_start, List.take_length]
    exact hclosed _ (hstart.open_moves hreach (fun _ _ _ hm => hm.task_ne) hopen)
  have hfurthest : Linearizable object (events.take last.reach.furthest) :=
    hstart.linearizable_moves hreach ⟨[], .nil⟩
  refine .notLinearizable ?_ ?_ ?_
  · intro v hv hlin
    exact hclosed v (hstart.open_moves hreach
      (fun _ _ hb hm => hb.task_ne_of_firstBreak hm hv) (open_start.2 hlin))
  · by_contra hle
    rw [List.take_of_length_le (by omega)] at hfurthest
    exact hno hfurthest
  · intro j _
    constructor
    · intro hlin
      exact (hstart.open_or_le_moves hreach (open_start.2 hlin)).resolve_left (hclosed j)
    · intro hle
      exact hfurthest.take_of_le hle

/-- A search that halts with a verdict has passed every event or has tried every branch. -/
theorem OnBranch.halt_ok [LawfulUndo σ] {verdict : Verdict Ret} (h : OnBranch events object s)
    (hhalt : Halt events s (.ok verdict) left) : left = object ∧
      (s.task = some (.advance events.length) ∧ verdict = .linearizable ∨
        s.task = none ∧ s.path = [] ∧ verdict = .notLinearizable s.reach) := by
  rcases h.halt hhalt with ⟨ht, ho, hleft⟩ | ⟨ht, hpath, ho, hleft⟩ | ⟨_, _, _, _, _, hbreak⟩
  · exact ⟨hleft, .inl ⟨ht, Except.ok.inj ho⟩⟩
  · exact ⟨hleft, .inr ⟨ht, hpath, Except.ok.inj ho⟩⟩
  · rcases hbreak with ⟨-, ho, -⟩ | ⟨-, ho, -⟩ <;> simp at ho

/-- A search that halts without a verdict has come to an event that breaks the alternation. -/
theorem OnBranch.ending_of_error [LawfulUndo σ] {fault : Fault} (h : OnBranch events object s)
    (hhalt : Halt events s (.error fault) left) : Ending events object (.error fault) left := by
  rcases h.halt hhalt with ⟨-, ho, -⟩ | ⟨-, -, ho, -⟩ | ⟨v, event, ht, he, rfl, hbreak⟩
  · simp at ho
  · simp at ho
  · have hb : Branch events object s.path v s.phases s.object := h.branch_of_task ht
    rcases hbreak with ⟨hinvoke, hfault, ho⟩ | ⟨hret, hfault, ho⟩
    · have hending := hb.ending_of_breaks he fun heq =>
        ho (by simpa [Event.turn, hinvoke] using heq)
      rwa [Fault.ofBreak, if_pos hinvoke, ← hfault] at hending
    · have hending := hb.ending_of_breaks he (by simp [Event.turn, hret, ho])
      rwa [Fault.ofBreak, if_neg (by simp [hret]), ← hfault] at hending

theorem Ends.ending [LawfulUndo σ] {outcome : Except Fault (Verdict Ret)} {n : Nat}
    (h : Ends events.toArray (start object events) n outcome left) :
    Ending events object outcome left := by
  obtain ⟨last, hreach, hhalt⟩ := h.exists_halt
  have hlast := (OnBranch.start events object).moves hreach
  cases outcome with
  | error fault => exact hlast.ending_of_error hhalt
  | ok verdict =>
    obtain ⟨rfl, ⟨ht, rfl⟩ | ⟨ht, hpath, rfl⟩⟩ := hlast.halt_ok hhalt
    · exact (hlast.branch_of_task ht).ending_of_length
    · exact ending_of_exhausted hreach ht hpath

/-- Whatever stops a run, it gives a verdict and leaves the object from the start, or it has come to
an event that breaks the alternation. -/
theorem run_ending [LawfulUndo σ] (limits : Limits σ) (n : Nat) (h : OnBranch events object s) :
    (∃ verdict, (run events.toArray limits n s).outcome = .ok verdict ∧
      (run events.toArray limits n s).object = object) ∨
    ∃ fault, (run events.toArray limits n s).outcome = .error fault ∧
      Ending events object (.error fault) (run events.toArray limits n s).object := by
  refine run_induct (motive := fun _ s result => OnBranch events object s →
    (∃ verdict, result.outcome = .ok verdict ∧ result.object = object) ∨
    ∃ fault, result.outcome = .error fault ∧ Ending events object (.error fault) result.object)
    ?_ ?_ ?_ ?_ n s h
  · intro n s _ h
    exact .inl ⟨.interrupted, by simp [stop, h.conclude_eq]⟩
  · intro n s _ h
    exact .inl ⟨.exhausted, by simp [stop, h.conclude_eq]⟩
  · intro n s s' result hm ih h
    exact ih (h.move hm)
  · intro n s outcome left hhalt h
    cases outcome with
    | error fault => exact .inr ⟨fault, rfl, h.ending_of_error hhalt⟩
    | ok verdict => exact .inl ⟨verdict, rfl, (h.halt_ok hhalt).1⟩

end Halting

namespace Ending

variable {outcome : Except Fault (Verdict Ret)}

/-- A search with exact undo ends with a conclusive verdict, or at a process that does not
alternate. -/
theorem isConclusive_or_break (h : Ending events object outcome left) :
    (∃ verdict, outcome = .ok verdict ∧ verdict.isConclusive = true) ∨
      ∃ i p, outcome = .error (.overlappingInvocation i p) ∨
        outcome = .error (.unmatchedReturn i p) := by
  cases h with
  | linearizable => exact .inl ⟨_, rfl, rfl⟩
  | notLinearizable => exact .inl ⟨_, rfl, rfl⟩
  | @broken v event =>
    refine .inr ⟨v, event.process, ?_⟩
    unfold Fault.ofBreak
    split
    · exact .inl rfl
    · exact .inr rfl

theorem decides (h : Ending events object outcome left)
    (halt : Alternating (events.map Event.turn)) :
    Linearizable object events ∧ outcome = .ok .linearizable ∨
      ¬ Linearizable object events ∧ ∃ reach, outcome = .ok (.notLinearizable reach) := by
  cases h with
  | linearizable _ hlin => exact .inl ⟨hlin, rfl⟩
  | @notLinearizable reach _ hlt hfurthest =>
    refine .inr ⟨?_, reach, rfl⟩
    intro hlin
    have hle := (hfurthest events.length (Nat.le_refl _)).1 (hlin.take _)
    omega
  | broken _ hv _ _ => exact absurd halt hv.not_alternating

theorem ne_error (h : Ending events object outcome left)
    (halt : Alternating (events.map Event.turn)) (fault : Fault) : outcome ≠ .error fault := by
  cases h with
  | linearizable | notLinearizable => simp
  | broken _ hv _ _ => exact absurd halt hv.not_alternating

theorem eq_error_of_firstBreak {event : Event Op Ret} (h : Ending events object outcome left)
    (hv : FirstBreak (events.map Event.turn) v) (he : events[v]? = some event)
    (hlin : Linearizable object (events.take v)) :
    outcome = .error (.ofBreak v event) ∧
      ∃ order, IsLinearization object (events.take v) order ∧
        replay? events object order = some left := by
  cases h with
  | linearizable halt _ => exact absurd halt hv.not_alternating
  | notLinearizable hbreak _ _ => exact absurd hlin (hbreak v hv)
  | broken he' hv' horder hleft =>
    obtain rfl := hv'.unique hv
    obtain rfl := Option.some.inj (he'.symm.trans he)
    exact ⟨rfl, _, horder, hleft⟩

theorem furthest_lt_of_firstBreak (h : Ending events object outcome left)
    (hv : FirstBreak (events.map Event.turn) v) (hno : ¬ Linearizable object (events.take v)) :
    ∃ reach, outcome = .ok (.notLinearizable reach) ∧ reach.furthest < v := by
  cases h with
  | linearizable halt _ => exact absurd halt hv.not_alternating
  | @notLinearizable reach _ _ hfurthest =>
    have hle : v ≤ events.length := by
      have := hv.lt_length
      rw [List.length_map] at this
      exact Nat.le_of_lt this
    exact ⟨reach, rfl, Nat.lt_of_not_le fun hge => hno ((hfurthest v hle).2 hge)⟩
  | broken _ hv' horder _ =>
    obtain rfl := hv'.unique hv
    exact absurd ⟨_, horder⟩ hno

end Ending

end Linearizability.Search
