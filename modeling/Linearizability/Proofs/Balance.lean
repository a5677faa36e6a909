import Linearizability.Proofs.Search.Bisimulation
import Linearizability.Proofs.Search.Ending
import Linearizability.Reference.Probe
import Linearizability.Reference.Register
import Linearizability.Tester
import Mathlib.Data.List.Permutation

/-!
# What a search leaves of its object

Whatever its object does, a search undoes only what it applied, and it has undone everything when it
gives a verdict. The applications that are not taken back are those on its path: this holds after
every move. So with exact undo every verdict leaves the object as it was, and a tester can go on to
the next history as if it were fresh.
-/

namespace Linearizability

variable {σ Op Ret : Type}

namespace Probe

def Entry.isUndone : Entry Op Ret → Bool
  | .applied .. => false
  | .undone => true

def undosIn (word : List (Entry Op Ret)) : Nat := word.countP Entry.isUndone

def appliesIn (word : List (Entry Op Ret)) : Nat := word.countP fun entry => !entry.isUndone

theorem undosIn_reverse (word : List (Entry Op Ret)) : undosIn word.reverse = undosIn word :=
  List.countP_reverse

theorem appliesIn_reverse (word : List (Entry Op Ret)) : appliesIn word.reverse = appliesIn word :=
  List.countP_reverse

/-- In a log every undo has an application of its own to take back, and this many applications are
left. The latest entry comes first. -/
inductive Nested : List (Entry Op Ret) → Nat → Prop
  | nil : Nested [] 0
  | applied {log n} (op : Op) (ret : Ret) (h : Nested log n) :
      Nested (.applied op ret :: log) (n + 1)
  | undone {log n} (h : Nested log (n + 1)) : Nested (.undone :: log) n

namespace Nested

variable {log word : List (Entry Op Ret)} {n : Nat}

theorem appliesIn_eq (h : Nested log n) : appliesIn log = undosIn log + n := by
  induction h with
  | nil => rfl
  | applied op ret _ ih =>
    simp only [appliesIn, undosIn, List.countP_cons, Entry.isUndone] at ih ⊢
    simp only [Bool.not_false, if_true, Bool.false_eq_true, if_false]
    omega
  | undone _ ih =>
    simp only [appliesIn, undosIn, List.countP_cons, Entry.isUndone] at ih ⊢
    simp only [Bool.not_true, if_true, Bool.false_eq_true, if_false]
    omega

theorem exists_of_suffix (h : Nested log n) (hword : word <:+ log) : ∃ m, Nested word m := by
  induction h with
  | nil => exact ⟨0, List.suffix_nil.1 hword ▸ .nil⟩
  | @applied log n op ret h ih =>
    rcases List.suffix_cons_iff.1 hword with rfl | hword
    · exact ⟨n + 1, h.applied op ret⟩
    · exact ih hword
  | @undone log n h ih =>
    rcases List.suffix_cons_iff.1 hword with rfl | hword
    · exact ⟨n, h.undone⟩
    · exact ih hword

/-- In the order of time, no beginning of the log has more undos than applications. -/
theorem undosIn_le (h : Nested log n) {before : List (Entry Op Ret)}
    (hpre : before <+: log.reverse) : undosIn before ≤ appliesIn before := by
  have hsuffix : before.reverse <:+ log := by
    simpa using List.reverse_suffix.2 hpre
  obtain ⟨m, hm⟩ := h.exists_of_suffix hsuffix
  have := hm.appliesIn_eq
  rw [appliesIn_reverse, undosIn_reverse] at this
  omega

end Nested

/-- The probe lets every undo through, and this many applications are left in its log. -/
structure Holds (p : Probe σ Op Ret) (n : Nat) : Prop where
  undoLimit : p.undoLimit = none
  nested : Nested p.log n

namespace Holds

variable {p : Probe σ Op Ret} {n : Nat}

theorem start (object : σ) : Holds ({ object } : Probe σ Op Ret) 0 := ⟨rfl, .nil⟩

variable [ReferenceObject σ Op Ret]

theorem apply (h : p.Holds n) (op : Op) : (ReferenceObject.apply p op).2.Holds (n + 1) :=
  ⟨h.undoLimit, h.nested.applied op _⟩

/-- A failing undo is one of the calls, too. -/
theorem undo (h : p.Holds (n + 1)) : (ReferenceObject.undo p).2.Holds n := by
  have hundo : ReferenceObject.undo p = ((ReferenceObject.undo p.object).1,
      { p with
        object := (ReferenceObject.undo p.object).2
        undos := p.undos + 1
        log := .undone :: p.log }) := by
    simp [ReferenceObject.undo, Probe.undo, h.undoLimit]
  rw [hundo]
  exact ⟨h.undoLimit, h.nested.undone⟩

end Holds

variable [ReferenceObject σ Op Ret]

/-- A probe without a limit cannot be told from the object that it watches. -/
theorem bisimulation : Bisimulation fun (object : σ) (p : Probe σ Op Ret) =>
    p.object = object ∧ p.undoLimit = none where
  apply := by
    rintro _ p ⟨rfl, hlimit⟩ op
    exact ⟨rfl, rfl, hlimit⟩
  undo := by
    rintro _ p ⟨rfl, hlimit⟩
    simp [ReferenceObject.undo, Probe.undo, hlimit]

end Probe

namespace Search

open Probe

/-- The same moments to stop, for an object that is watched. -/
def Limits.watched (limits : Limits σ) : Limits (Probe σ Op Ret) where
  maxSteps := limits.maxSteps
  cancelled steps p := limits.cancelled steps p.object

variable [ReferenceObject σ Op Ret]

section Watched

variable {path : List Marker} {p : Probe σ Op Ret} {s s' : Search (Probe σ Op Ret) Ret}

theorem holds_restore (h : p.Holds (effects path).length) :
    ∃ n, (restore path p).2.Holds n ∧ ((restore path p).1 = .ok () → n = 0) := by
  induction path generalizing p with
  | nil => exact ⟨0, h, fun _ => rfl⟩
  | cons marker path ih =>
    cases marker with
    | invoked => exact ih h
    | linearized r i k process before =>
      cases before with
      | idle | committed => exact ih h
      | pending q =>
        simp only [effects, List.length_append, List.length_singleton] at h
        have hu := h.undo
        simp only [restore]
        split
        · rename_i object hundo
          rw [hundo] at hu
          exact ih hu
        · rename_i cause object hundo
          rw [hundo] at hu
          exact ⟨_, hu, by simp⟩

theorem holds_conclude (h : s.object.Holds (effects s.path).length) (verdict : Verdict Ret) :
    ∃ n, (s.conclude verdict).2.Holds n ∧ ∀ given, (s.conclude verdict).1 = .ok given → n = 0 := by
  obtain ⟨n, hn, hzero⟩ := holds_restore h
  unfold conclude
  generalize restore s.path s.object = left at hn hzero ⊢
  obtain ⟨answer, object⟩ := left
  cases answer with
  | ok => exact ⟨n, hn, fun _ _ => hzero rfl⟩
  | error e => exact ⟨n, hn, by simp⟩

variable {events : List (Event Op Ret)}

theorem holds_halt {outcome : Except Fault (Verdict Ret)} {left : Probe σ Op Ret}
    (h : s.object.Holds (effects s.path).length) (hh : Halt events s outcome left) :
    ∃ n, left.Holds n ∧ ∀ verdict, outcome = .ok verdict → n = 0 := by
  cases hh with
  | found => exact holds_conclude h _
  | refuted ht hpath =>
    rw [hpath] at h
    exact ⟨0, h, fun _ _ => rfl⟩
  | overlapping | unmatched | idleCandidate | beyondHistory | unknownProcess | unknownCandidate |
    noInvocation | unknownMarker => exact ⟨_, h, by simp⟩
  | @rejectFailed _ _ _ _ _ _ op _ _ _ ht hk hp he hne hu =>
    have := (h.apply op).undo
    rw [hu] at this
    exact ⟨_, this, by simp⟩
  | takeBackFailed ht hpath hp hu =>
    simp only [hpath, effects, List.length_append, List.length_singleton] at h
    have := h.undo
    rw [hu] at this
    exact ⟨_, this, by simp⟩

variable [DecidableEq Ret]

/-- The applications that a move leaves in the log are those on the path that it leads to. -/
theorem holds_move (h : s.object.Holds (effects s.path).length) (hm : Move events s s') :
    s'.object.Holds (effects s'.path).length := by
  cases hm with
  | invoke | arrive | arriveCommitted | exhaust | skip | passCommitted =>
    simpa [effects, passReturn]
  | commit ht hk hp hne hq | pass ht hk hc hr hq =>
    obtain ⟨_, _, op, _, rfl⟩ := takeEffect?_eq_some_iff.1 hq
    simpa [effects, Search.commit, passReturn] using h.apply op
  | @reject _ _ _ _ _ _ op _ _ ht hk hp he hne hu =>
    have := (h.apply op).undo
    rw [hu] at this
    exact this
  | uninvoke ht hpath hp => simpa [effects, hpath] using h
  | takeBack ht hpath hp hu =>
    simp only [hpath, effects, List.length_append, List.length_singleton] at h
    have := h.undo
    rw [hu] at this
    exact this
  | @reopen _ _ _ _ before _ ht hpath hp hbefore =>
    cases before with
    | pending => simp [Phase.isPending] at hbefore
    | idle | committed => simpa [effects, hpath] using h

theorem holds_run (events : List (Event Op Ret)) (limits : Limits (Probe σ Op Ret)) (n : Nat)
    (h : s.object.Holds (effects s.path).length) :
    ∃ m, (run events.toArray limits n s).object.Holds m ∧
      ∀ verdict, (run events.toArray limits n s).outcome = .ok verdict → m = 0 := by
  refine run_induct (motive := fun _ s result => s.object.Holds (effects s.path).length →
    ∃ m, result.object.Holds m ∧ ∀ verdict, result.outcome = .ok verdict → m = 0) ?_ ?_ ?_ ?_ n s h
  · intro n s _ h
    exact holds_conclude h _
  · intro n s _ h
    exact holds_conclude h _
  · intro n s s' result hm ih h
    exact ih (holds_move h hm)
  · intro n s outcome left hh h
    exact holds_halt h hh

end Watched

variable [DecidableEq Ret] [LawfulUndo σ] {events : List (Event Op Ret)} {object : σ}
variable {s : Search σ Ret} {verdict : Verdict Ret}

/-- With exact undo every verdict leaves the object from the start. -/
theorem run_object (limits : Limits σ) (n : Nat) (h : OnBranch events object s)
    (hverdict : (run events.toArray limits n s).outcome = .ok verdict) :
    (run events.toArray limits n s).object = object := by
  rcases run_ending limits n h with ⟨-, -, hobject⟩ | ⟨fault, herror, -⟩
  · exact hobject
  · simp [herror] at hverdict

end Search

namespace Tester

variable [ReferenceObject σ Op Ret] [DecidableEq Ret]

/-- The outcome of judging a history, and the steps that it took. -/
def judgment (t : Tester σ) (events : List (Event Op Ret)) :
    Except Search.Fault (Verdict Ret) × Nat :=
  ((t.judge events).1, (t.judge events).2.steps)

/-- One tester judges the histories in turn, each within its own limits. -/
def judgments (t : Tester σ) :
    List (Search.Limits σ × List (Event Op Ret)) → List (Except Search.Fault (Verdict Ret) × Nat)
  | [] => []
  | (limits, events) :: rest =>
    { t with limits }.judgment events :: ({ t with limits }.judge events).2.judgments rest

section Exact

variable [LawfulUndo σ]

theorem judge_object {t : Tester σ} {events : List (Event Op Ret)} {verdict : Verdict Ret}
    (hverdict : (t.judge events).1 = .ok verdict) : (t.judge events).2.object = t.object :=
  Search.run_object t.limits 0 (Search.OnBranch.start events t.object) hverdict

theorem judgments_eq_map {t : Tester σ} {histories : List (Search.Limits σ × List (Event Op Ret))}
    (h : ∀ judgment ∈ t.judgments histories, ∃ verdict, judgment.1 = .ok verdict) :
    t.judgments histories = histories.map fun (limits, events) =>
      ({ object := t.object, limits } : Tester σ).judgment events := by
  induction histories generalizing t with
  | nil => rfl
  | cons history rest ih =>
    obtain ⟨limits, events⟩ := history
    simp only [judgments, List.mem_cons, forall_eq_or_imp] at h
    obtain ⟨⟨verdict, hverdict⟩, hrest⟩ := h
    have hobject := judge_object (t := { t with limits }) hverdict
    simp only [judgments, List.map_cons, ih hrest, hobject]
    rfl

end Exact

/-- The calls on the object are those that a watching probe notes. No beginning of them has more
undos than applications, and a verdict comes only when there are as many. Hence with exact undo a
verdict leaves the object as it was, and histories judged in turn until verdicts are judged as by
fresh testers. -/
theorem judge_balanced (object : σ) (limits : Search.Limits σ) (events : List (Event Op Ret)) :
    let judged := ({ object, limits } : Tester σ).judge events
    let watched := ({ object := { object }, limits := limits.watched } :
      Tester (Probe σ Op Ret)).judge events
    let word := watched.2.object.log.reverse
    (watched.1 = judged.1 ∧ watched.2.steps = judged.2.steps ∧
        watched.2.object.object = judged.2.object) ∧
      (∀ before, before <+: word → Probe.undosIn before ≤ Probe.appliesIn before) ∧
      (∀ verdict, judged.1 = .ok verdict → Probe.undosIn word = Probe.appliesIn word) ∧
      (LawfulUndo σ →
        (∀ verdict, judged.1 = .ok verdict → judged.2.object = object) ∧
        ∀ histories : List (Search.Limits σ × List (Event Op Ret)),
          (∀ judgment ∈ ({ object } : Tester σ).judgments histories,
            ∃ verdict, judgment.1 = .ok verdict) →
          ({ object } : Tester σ).judgments histories = histories.map fun (limits, events) =>
            ({ object, limits } : Tester σ).judgment events) := by
  intro judged watched word
  obtain ⟨houtcome, hsteps, hobject, -⟩ := Search.run_related Probe.bisimulation limits
    limits.watched rfl (fun n a p h => by simp [Search.Limits.watched, h.1]) events.toArray 0
    (Search.start object events) { object } ⟨rfl, rfl⟩
  have hstart : (Search.start { object : Probe σ Op Ret } events).object.Holds
      (Search.effects (Search.start { object : Probe σ Op Ret } events).path).length :=
    Probe.Holds.start object
  obtain ⟨n, hholds, hzero⟩ := Search.holds_run events limits.watched 0 hstart
  refine ⟨⟨houtcome.symm, hsteps.symm, hobject⟩, fun before hpre => hholds.nested.undosIn_le hpre,
    fun verdict hverdict => ?_, fun hundo => ⟨fun verdict hverdict => judge_object hverdict,
      fun histories hverdicts => judgments_eq_map hverdicts⟩⟩
  have hword : Probe.appliesIn word = Probe.undosIn word + n := by
    simp only [word, Probe.appliesIn_reverse, Probe.undosIn_reverse]
    exact hholds.nested.appliesIn_eq
  rw [hzero verdict (houtcome.symm.trans hverdict)] at hword
  exact hword.symm

/-- A search that is interrupted while an operation is in effect leaves nothing behind. -/
theorem judgments_after_interruption :
    let history : List (Event (Register.Op Nat) (Register.Ret Nat)) :=
      [.invoke ⟨0⟩ "read()" .read (some (.read 1)),
        .invoke ⟨1⟩ "write(1)" (.write 1) (some .written),
        .ret ⟨0⟩ (some (.read 1))]
    let histories : List (Search.Limits (Register Nat) × List (Event _ _)) :=
      [({ cancelled := fun steps _ => steps == 5 }, history), ({}, history)]
    ({ object := { value := 0 } } : Tester (Register Nat)).judgments histories =
      histories.map fun (limits, events) =>
        ({ object := { value := 0 }, limits } : Tester (Register Nat)).judgment events := by
  intro history histories
  refine ((judge_balanced { value := 0 } {} []).2.2.2 inferInstance).2 histories ?_
  have hjudgments : ({ object := { value := 0 } } : Tester (Register Nat)).judgments histories =
      [(.ok .interrupted, 5), (.ok .linearizable, 7)] := by cbv
  simp [hjudgments]

end Tester
end Linearizability
