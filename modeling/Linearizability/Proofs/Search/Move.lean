import Linearizability.Search.Run
import Linearizability.Proofs.Linearization

/-!
# Moves of the search

Whatever the reference object and the history, a step of the search either makes one of twelve moves
or halts for one of a few reasons. The main statement is the induction over a run that follows:
what every move, every halt and both early stops respect holds of the whole run.
-/

namespace Linearizability.Search

variable {σ Op Ret : Type} [ReferenceObject σ Op Ret] [DecidableEq Ret]

def Marker.process : Marker → ProcessId
  | .invoked process | .linearized _ _ _ process _ => process

/-- The searches that one step leads to. -/
inductive Move (events : List (Event Op Ret)) (s : Search σ Ret) : Search σ Ret → Prop
  | invoke {i p label op expected} (ht : s.task = some (.advance i))
      (he : events[i]? = some (.invoke p label op expected))
      (hp : p.lookup? s.phases = some .idle) :
      Move events s { s with
        phases := s.phases.set p.toNat (.pending i)
        path := .invoked p :: s.path
        reach := s.reach.reached p i
        task := some (.advance (i + 1)) }
  | arrive {i r result q} (ht : s.task = some (.advance i))
      (he : events[i]? = some (.ret r result)) (hr : r.lookup? s.phases = some (.pending q)) :
      Move events s { s with reach := s.reach.reached r i, task := some (.linearize r i 0) }
  | arriveCommitted {i r result} (ht : s.task = some (.advance i))
      (he : events[i]? = some (.ret r result)) (hr : r.lookup? s.phases = some .committed) :
      Move events s { s with
        reach := s.reach.reached r i
        task := some (.linearize r i (s.phases.length - 1)) }
  | exhaust {r i k} (ht : s.task = some (.linearize r i k)) (hk : s.phases.length ≤ k) :
      Move events s { s with task := none }
  | skip {r i k phase} (ht : s.task = some (.linearize r i k)) (hk : k < s.phases.length)
      (hp : (candidate s.phases.length r k).lookup? s.phases = some phase)
      (hphase : phase.isPending = false) (hne : candidate s.phases.length r k ≠ r) :
      Move events s { s with task := some (.linearize r i (k + 1)) }
  | commit {r i k q object} (ht : s.task = some (.linearize r i k)) (hk : k < s.phases.length)
      (hp : (candidate s.phases.length r k).lookup? s.phases = some (.pending q))
      (hne : candidate s.phases.length r k ≠ r)
      (hq : takeEffect? events s.object q = some object) :
      Move events s (s.commit r i k (candidate s.phases.length r k) (.pending q) object)
  | pass {r i k q object} (ht : s.task = some (.linearize r i k)) (hk : k < s.phases.length)
      (hc : candidate s.phases.length r k = r) (hr : r.lookup? s.phases = some (.pending q))
      (hq : takeEffect? events s.object q = some object) :
      Move events s (s.passReturn r i k (.pending q) object)
  | passCommitted {r i k} (ht : s.task = some (.linearize r i k)) (hk : k < s.phases.length)
      (hc : candidate s.phases.length r k = r) (hr : r.lookup? s.phases = some .committed) :
      Move events s (s.passReturn r i k .committed s.object)
  | reject {r i k q p label op expected object} (ht : s.task = some (.linearize r i k))
      (hk : k < s.phases.length)
      (hp : (candidate s.phases.length r k).lookup? s.phases = some (.pending q))
      (he : events[q]? = some (.invoke p label op expected))
      (hne : expected ≠ some (ReferenceObject.apply s.object op).1)
      (hu : ReferenceObject.undo (ReferenceObject.apply s.object op).2 = (.ok (), object)) :
      Move events s (s.rejectThen (candidate s.phases.length r k) i
        (ReferenceObject.apply s.object op).1 object
        (if candidate s.phases.length r k = r then none else some (.linearize r i (k + 1))))
  | uninvoke {p path} (ht : s.task = none) (hpath : s.path = .invoked p :: path)
      (hp : p.toNat < s.phases.length) :
      Move events s { s with phases := s.phases.set p.toNat .idle, path, task := none }
  | takeBack {r i k p q path object} (ht : s.task = none)
      (hpath : s.path = .linearized r i k p (.pending q) :: path) (hp : p.toNat < s.phases.length)
      (hu : ReferenceObject.undo s.object = (.ok (), object)) :
      Move events s { s with
        object
        phases := s.phases.set p.toNat (.pending q)
        path
        task := some (.linearize r i (k + 1)) }
  | reopen {r i k p before path} (ht : s.task = none)
      (hpath : s.path = .linearized r i k p before :: path) (hp : p.toNat < s.phases.length)
      (hbefore : before.isPending = false) :
      Move events s { s with
        phases := s.phases.set p.toNat before
        path
        task := some (.linearize r i (k + 1)) }

/-- The reasons for which a step is the last one, with the outcome and the object that it leaves. -/
inductive Halt (events : List (Event Op Ret)) (s : Search σ Ret) :
    Except Fault (Verdict Ret) → σ → Prop
  | found (ht : s.task = some (.advance events.length)) :
      Halt events s (s.conclude .linearizable).1 (s.conclude .linearizable).2
  | refuted (ht : s.task = none) (hpath : s.path = []) :
      Halt events s (.ok (.notLinearizable s.reach)) s.object
  | overlapping {i p label op expected phase} (ht : s.task = some (.advance i))
      (he : events[i]? = some (.invoke p label op expected))
      (hp : p.lookup? s.phases = some phase) (hne : phase ≠ .idle) :
      Halt events s (.error (.overlappingInvocation i p)) s.object
  | unmatched {i r result} (ht : s.task = some (.advance i))
      (he : events[i]? = some (.ret r result)) (hr : r.lookup? s.phases = some .idle) :
      Halt events s (.error (.unmatchedReturn i r)) s.object
  | idleCandidate {r i k} (ht : s.task = some (.linearize r i k)) (hk : k < s.phases.length)
      (hc : candidate s.phases.length r k = r) (hr : r.lookup? s.phases = some .idle) :
      Halt events s (.error (.unmatchedReturn i r)) s.object
  | rejectFailed {r i k q p label op expected cause object}
      (ht : s.task = some (.linearize r i k)) (hk : k < s.phases.length)
      (hp : (candidate s.phases.length r k).lookup? s.phases = some (.pending q))
      (he : events[q]? = some (.invoke p label op expected))
      (hne : expected ≠ some (ReferenceObject.apply s.object op).1)
      (hu : ReferenceObject.undo (ReferenceObject.apply s.object op).2 = (.error cause, object)) :
      Halt events s (.error (.undoFailed i cause)) object
  | takeBackFailed {r i k p q path cause object} (ht : s.task = none)
      (hpath : s.path = .linearized r i k p (.pending q) :: path) (hp : p.toNat < s.phases.length)
      (hu : ReferenceObject.undo s.object = (.error cause, object)) :
      Halt events s (.error (.undoFailed i cause)) object
  | beyondHistory {i} (ht : s.task = some (.advance i)) (hi : events.length < i) :
      Halt events s (.error .outOfRange) s.object
  | unknownProcess {i event} (ht : s.task = some (.advance i)) (he : events[i]? = some event)
      (hp : event.process.lookup? s.phases = none) :
      Halt events s (.error .outOfRange) s.object
  | unknownCandidate {r i k} (ht : s.task = some (.linearize r i k)) (hk : k < s.phases.length)
      (hp : (candidate s.phases.length r k).lookup? s.phases = none) :
      Halt events s (.error .outOfRange) s.object
  | noInvocation {r i k q} (ht : s.task = some (.linearize r i k)) (hk : k < s.phases.length)
      (hp : (candidate s.phases.length r k).lookup? s.phases = some (.pending q))
      (he : ∀ p label op expected, events[q]? ≠ some (.invoke p label op expected)) :
      Halt events s (.error .outOfRange) s.object
  | unknownMarker {marker path} (ht : s.task = none) (hpath : s.path = marker :: path)
      (hp : s.phases.length ≤ marker.process.toNat) :
      Halt events s (.error .outOfRange) s.object

variable {events : List (Event Op Ret)} {s s' : Search σ Ret}

theorem attempt_matched_iff {q : Nat} {object left : σ} :
    attempt events.toArray q object = .matched left ↔ takeEffect? events object q = some left := by
  rw [takeEffect?_eq_some_iff]
  unfold attempt
  simp only [List.getElem?_toArray]
  split
  · rename_i process label op expected he
    simp only [he, Option.some.injEq, Event.invoke.injEq]
    constructor
    · intro h
      split at h
      · rename_i hret
        exact ⟨process, label, op, ⟨rfl, rfl, rfl, hret⟩, by simpa using h⟩
      · split at h <;> simp at h
    · rintro ⟨_, _, _, ⟨rfl, rfl, rfl, hret⟩, rfl⟩
      simp [hret]
  · rename_i hno
    simp only [reduceCtorEq, false_iff]
    rintro ⟨process, label, op, he, _⟩
    exact hno _ _ _ _ he

/-- What an attempt that does not match makes of the object. -/
theorem attempt_unmatched {q : Nat} {object : σ} (h : takeEffect? events object q = none) :
    (∃ p label op expected, events[q]? = some (.invoke p label op expected) ∧
      expected ≠ some (ReferenceObject.apply object op).1 ∧
      (∀ restored, ReferenceObject.undo (ReferenceObject.apply object op).2 = (.ok (), restored) →
        attempt events.toArray q object =
          .mismatched (ReferenceObject.apply object op).1 restored) ∧
      (∀ cause left, ReferenceObject.undo (ReferenceObject.apply object op).2 =
          (.error cause, left) → attempt events.toArray q object = .undoFailed cause left)) ∨
    (∀ p label op expected, events[q]? ≠ some (.invoke p label op expected)) ∧
      attempt events.toArray q object = .absent := by
  cases he : events[q]? with
  | none => exact Or.inr ⟨by simp, by simp [attempt, he]⟩
  | some event =>
    cases event with
    | invoke p label op expected =>
      have hne : expected ≠ some (ReferenceObject.apply object op).1 := by
        rintro rfl
        have := takeEffect?_eq_some_iff.2 ⟨p, label, op, he, rfl⟩
        simp [h] at this
      exact Or.inl ⟨p, label, op, expected, rfl, hne,
        fun restored hu => by simp [attempt, he, hne, hu],
        fun cause left hu => by simp [attempt, he, hne, hu]⟩
    | ret p result => exact Or.inr ⟨by simp, by simp [attempt, he]⟩

/-- The step is one of the moves, or one of the halts. -/
def StepOf (events : List (Event Op Ret)) (s : Search σ Ret) : Step σ Ret → Prop
  | .next s' => Move events s s'
  | .halt outcome object => Halt events s outcome object

theorem stepOf_advance {i : Nat} (ht : s.task = some (.advance i)) :
    StepOf events s (s.advance events.toArray i) := by
  unfold advance
  simp only [List.getElem?_toArray, List.size_toArray]
  split
  · rename_i he
    split
    · rename_i hi
      exact .found (hi ▸ ht)
    · rename_i hi
      exact .beyondHistory ht (by have := List.getElem?_eq_none_iff.1 he; omega)
  · rename_i process label op expected he
    split
    · rename_i hp
      exact .unknownProcess ht he hp
    · rename_i hp
      exact .invoke ht he hp
    · rename_i phase hne hp
      exact .overlapping ht he hp hne
  · rename_i process result he
    split
    · rename_i hp
      exact .unknownProcess ht he hp
    · rename_i hp
      exact .unmatched ht he hp
    · rename_i hp
      exact .arriveCommitted ht he hp
    · rename_i q hp
      exact .arrive ht he hp

theorem stepOf_linearize {r : ProcessId} {i k : Nat} (ht : s.task = some (.linearize r i k)) :
    StepOf events s (s.linearize events.toArray r i k) := by
  unfold linearize
  split
  · rename_i hk
    exact .exhaust ht hk
  · rename_i hk
    have hk : k < s.phases.length := by omega
    dsimp only
    split
    · rename_i hp
      exact .unknownCandidate ht hk hp
    · rename_i hp
      split
      · rename_i hc
        exact .idleCandidate ht hk hc (hc ▸ hp)
      · rename_i hc
        exact .skip ht hk hp rfl hc
    · rename_i hp
      split
      · rename_i hc
        exact .passCommitted ht hk hc (hc ▸ hp)
      · rename_i hc
        exact .skip ht hk hp rfl hc
    · rename_i q hp
      cases hq : takeEffect? events s.object q with
      | some object =>
        rw [attempt_matched_iff.2 hq]
        dsimp only
        split
        · rename_i hc
          exact .pass ht hk hc (hc ▸ hp) hq
        · rename_i hc
          exact .commit ht hk hp hc hq
      | none =>
        rcases attempt_unmatched hq with ⟨p, label, op, expected, he, hne, hok, herror⟩ | ⟨he, hno⟩
        · cases hu : ReferenceObject.undo (ReferenceObject.apply s.object op).2 with
          | mk answer object =>
            cases answer with
            | ok _ =>
              rw [hok _ hu]
              exact .reject ht hk hp he hne hu
            | error cause =>
              rw [herror _ _ hu]
              exact .rejectFailed ht hk hp he hne hu
        · rw [hno]
          exact .noInvocation ht hk hp he

theorem stepOf_backtrack {marker : Marker} {path : List Marker} (ht : s.task = none)
    (hpath : s.path = marker :: path) : StepOf events s (s.backtrack path marker) := by
  cases marker with
  | invoked p =>
    by_cases hp : p.toNat < s.phases.length
    · simpa [StepOf, backtrack, ProcessId.replace?, hp] using Move.uninvoke ht hpath hp
    · simpa [StepOf, backtrack, ProcessId.replace?, hp] using
        Halt.unknownMarker ht hpath (by simpa [Marker.process] using hp)
  | linearized r i k p before =>
    by_cases hp : p.toNat < s.phases.length
    · cases before with
      | pending q =>
        cases hu : ReferenceObject.undo s.object with
        | mk answer object =>
          cases answer with
          | ok _ =>
            simpa [StepOf, backtrack, ProcessId.replace?, hp, hu] using Move.takeBack ht hpath hp hu
          | error cause =>
            simpa [StepOf, backtrack, ProcessId.replace?, hp, hu] using
              Halt.takeBackFailed ht hpath hp hu
      | idle =>
        simpa [StepOf, backtrack, ProcessId.replace?, hp] using Move.reopen ht hpath hp rfl
      | committed =>
        simpa [StepOf, backtrack, ProcessId.replace?, hp] using Move.reopen ht hpath hp rfl
    · simpa [StepOf, backtrack, ProcessId.replace?, hp] using
        Halt.unknownMarker ht hpath (by simpa [Marker.process] using hp)

theorem stepOf_step (events : List (Event Op Ret)) (s : Search σ Ret) :
    StepOf events s (s.step events.toArray) := by
  unfold step
  split
  · exact stepOf_advance ‹_›
  · exact stepOf_linearize ‹_›
  · split
    · exact Halt.refuted ‹_› ‹_›
    · exact stepOf_backtrack ‹_› ‹_›

/-- Only one move can be made, and the step makes it. -/
theorem Move.step_eq (hm : Move events s s') : s.step events.toArray = .next s' := by
  unfold step
  cases hm with
  | invoke ht he hp => simp [ht, advance, he, hp]
  | arrive ht he hr | arriveCommitted ht he hr => simp [ht, advance, he, hr]
  | exhaust ht hk => simp [ht, linearize, hk]
  | @skip _ _ _ phase ht hk hp hphase hne =>
    cases phase with
    | pending q => simp [Phase.isPending] at hphase
    | idle | committed => simp [ht, linearize, Nat.not_le.2 hk, hp, hne]
  | commit ht hk hp hne hq =>
    simp [ht, linearize, Nat.not_le.2 hk, hp, attempt_matched_iff.2 hq, hne]
  | pass ht hk hc hr hq =>
    simp [ht, linearize, Nat.not_le.2 hk, hc, hr, attempt_matched_iff.2 hq]
  | passCommitted ht hk hc hr => simp [ht, linearize, Nat.not_le.2 hk, hc, hr]
  | reject ht hk hp he hne hu =>
    simp [ht, linearize, Nat.not_le.2 hk, hp, attempt, he, hne, hu]
  | uninvoke ht hpath hp => simp [ht, hpath, backtrack, ProcessId.replace?, hp]
  | takeBack ht hpath hp hu => simp [ht, hpath, backtrack, ProcessId.replace?, hp, hu]
  | @reopen _ _ _ _ before _ ht hpath hp hbefore =>
    cases before with
    | pending q => simp [Phase.isPending] at hbefore
    | idle | committed => simp [ht, hpath, backtrack, ProcessId.replace?, hp]

/-- At the end of the history there is nothing left to pass. -/
theorem Move.task_ne (hm : Move events s s') : s.task ≠ some (.advance events.length) := by
  intro ht
  cases hm with
  | invoke ht' he _ | arrive ht' he _ | arriveCommitted ht' he _ =>
    simp only [ht, Option.some.injEq, Task.advance.injEq] at ht'
    simp [← ht'] at he
  | exhaust ht' _ | skip ht' _ _ _ _ | commit ht' _ _ _ _ | pass ht' _ _ _ _
  | passCommitted ht' _ _ _ | reject ht' _ _ _ _ _ | uninvoke ht' _ _ | takeBack ht' _ _ _
  | reopen ht' _ _ _ =>
    simp [ht] at ht'

/-- A move leaves the object alone, performs an operation, tries one in vain, or takes back the
latest one. -/
theorem Move.object_cases (hm : Move events s s') : s'.object = s.object ∨
    (∃ op, s'.object = (ReferenceObject.apply s.object op).2) ∨
    (∃ op, ReferenceObject.undo (ReferenceObject.apply s.object op).2 = (.ok (), s'.object)) ∨
    ReferenceObject.undo s.object = (.ok (), s'.object) := by
  cases hm with
  | invoke | arrive | arriveCommitted | exhaust | skip | passCommitted | uninvoke | reopen =>
    exact .inl rfl
  | commit _ _ _ _ hq | pass _ _ _ _ hq =>
    obtain ⟨_, _, op, _, rfl⟩ := takeEffect?_eq_some_iff.1 hq
    exact .inr (.inl ⟨op, rfl⟩)
  | reject _ _ _ _ _ hu => exact .inr (.inr (.inl ⟨_, hu⟩))
  | takeBack _ _ _ hu => exact .inr (.inr (.inr hu))

omit [DecidableEq Ret] in
/-- A search halts with the object restored for a verdict, or leaves it alone, or cannot take back
an operation. -/
theorem Halt.object_cases {outcome : Except Fault (Verdict Ret)} {object : σ}
    (hh : Halt events s outcome object) : (outcome, object) = s.conclude .linearizable ∨
    (object = s.object ∧ ∀ i cause, outcome ≠ .error (.undoFailed i cause)) ∨
    ∃ i cause, outcome = .error (.undoFailed i cause) ∧
      ((∃ op, ReferenceObject.undo (ReferenceObject.apply s.object op).2 = (.error cause, object)) ∨
        ReferenceObject.undo s.object = (.error cause, object)) := by
  cases hh with
  | found => exact .inl rfl
  | refuted | overlapping | unmatched | idleCandidate | beyondHistory | unknownProcess |
    unknownCandidate | noInvocation | unknownMarker => exact .inr (.inl ⟨rfl, by simp⟩)
  | rejectFailed _ _ _ _ _ hu => exact .inr (.inr ⟨_, _, rfl, .inl ⟨_, hu⟩⟩)
  | takeBackFailed _ _ _ hu => exact .inr (.inr ⟨_, _, rfl, .inr hu⟩)

variable {limits : Limits σ}

/-- A relation between the state of a search and its result holds of every run if both early stops
and every halt establish it, and every move hands it back from the search that follows. -/
theorem run_induct {motive : Nat → Search σ Ret → Result σ Ret → Prop}
    (interrupted : ∀ n s, limits.cancelled n s.object = true → motive n s (s.stop .interrupted n))
    (exhausted : ∀ n s, limits.maxSteps.any (· < n + 1) = true →
      motive n s (s.stop .exhausted (n + 1)))
    (move : ∀ n s s' result, Move events s s' → motive (n + 1) s' result → motive n s result)
    (halt : ∀ n s outcome object, Halt events s outcome object →
      motive n s ⟨outcome, object, n + 1⟩)
    (n : Nat) (s : Search σ Ret) : motive n s (run events.toArray limits n s) := by
  fun_induction run events.toArray limits n s with
  | case1 n s hcancelled => exact interrupted n s hcancelled
  | case2 n s _ hexhausted => exact exhausted n s hexhausted
  | case3 n s _ _ s' hstep ih =>
    have hmove := stepOf_step events s
    rw [hstep] at hmove
    exact move n s s' _ hmove ih
  | case4 n s _ _ outcome object hstep =>
    have hhalt := stepOf_step events s
    rw [hstep] at hhalt
    exact halt n s outcome object hhalt

end Linearizability.Search
