import Linearizability.Proofs.Search.Move

/-!
# Searches on related objects

A search learns of its object only what the operations return and how the undos end. On two objects
that cannot be told apart in that way, it takes the same steps to the same outcome. The objects may
even be given operations of different types, as long as one kind translates into the other.
-/

namespace Linearizability

variable {σ τ Op Op' Ret : Type}

/-- Related objects give the same results and answers, and stay related. -/
structure Bisimulation [ReferenceObject σ Op Ret] [ReferenceObject τ Op Ret] (R : σ → τ → Prop) :
    Prop where
  apply : ∀ {a b}, R a b → ∀ op, (ReferenceObject.apply a op).1 = (ReferenceObject.apply b op).1 ∧
    R (ReferenceObject.apply a op).2 (ReferenceObject.apply b op).2
  undo : ∀ {a b}, R a b → (ReferenceObject.undo a).1 = (ReferenceObject.undo b).1 ∧
    R (ReferenceObject.undo a).2 (ReferenceObject.undo b).2

namespace Event

/-- The event with the operation translated. -/
def mapOp (f : Op → Op') : Event Op Ret → Event Op' Ret
  | .invoke process label op expected => .invoke process label (f op) expected
  | .ret process result => .ret process result

@[simp] theorem process_mapOp (f : Op → Op') (event : Event Op Ret) :
    (event.mapOp f).process = event.process := by
  cases event <;> rfl

@[simp] theorem mapOp_id : (mapOp id : Event Op Ret → Event Op Ret) = id := by
  funext event
  cases event <;> rfl

end Event

section Translated

variable [ReferenceObject σ Op Ret] [ReferenceObject τ Op' Ret]

/-- Related objects give the same results and answers, and stay related, when the second one is
given the translated operations. -/
structure BisimulationAlong (f : Op → Op') (R : σ → τ → Prop) : Prop where
  apply : ∀ {a b}, R a b → ∀ op,
    (ReferenceObject.apply a op).1 = (ReferenceObject.apply b (f op)).1 ∧
      R (ReferenceObject.apply a op).2 (ReferenceObject.apply b (f op)).2
  undo : ∀ {a b}, R a b → (ReferenceObject.undo a).1 = (ReferenceObject.undo b).1 ∧
    R (ReferenceObject.undo a).2 (ReferenceObject.undo b).2

end Translated

theorem Bisimulation.along [ReferenceObject σ Op Ret] [ReferenceObject τ Op Ret]
    {R : σ → τ → Prop} (h : Bisimulation R) : BisimulationAlong id R :=
  ⟨h.apply, h.undo⟩

namespace Search

variable {R : σ → τ → Prop} {a : σ} {b : τ}

/-- The same search on another object. -/
def withObject (s : Search σ Ret) (b : τ) : Search τ Ret := ⟨b, s.phases, s.path, s.reach, s.task⟩

@[simp] theorem withObject_object (s : Search σ Ret) (b : τ) : (s.withObject b).object = b := rfl

theorem processCount_map (f : Op → Op') (events : List (Event Op Ret)) :
    processCount (events.map (.mapOp f)) = processCount events := by
  simp [processCount, List.foldl_map]

theorem withObject_start (f : Op → Op') (a : σ) (events : List (Event Op Ret)) (b : τ) :
    (start a events).withObject b = start b (events.map (.mapOp f)) := by
  simp [withObject, start, processCount_map]

inductive StepRelated (R : σ → τ → Prop) : Step σ Ret → Step τ Ret → Prop
  | next (s : Search σ Ret) {b : τ} (h : R s.object b) :
      StepRelated R (.next s) (.next (s.withObject b))
  | halt (outcome : Except Fault (Verdict Ret)) {a : σ} {b : τ} (h : R a b) :
      StepRelated R (.halt outcome a) (.halt outcome b)

inductive AttemptRelated (R : σ → τ → Prop) : Attempt σ Ret → Attempt τ Ret → Prop
  | matched {a : σ} {b : τ} (h : R a b) : AttemptRelated R (.matched a) (.matched b)
  | mismatched (ret : Ret) {a : σ} {b : τ} (h : R a b) :
      AttemptRelated R (.mismatched ret a) (.mismatched ret b)
  | undoFailed (cause : NothingToUndo) {a : σ} {b : τ} (h : R a b) :
      AttemptRelated R (.undoFailed cause a) (.undoFailed cause b)
  | absent : AttemptRelated R .absent .absent

structure ResultRelated (R : σ → τ → Prop) (result : Result σ Ret) (result' : Result τ Ret) :
    Prop where
  outcome : result.outcome = result'.outcome
  steps : result.steps = result'.steps
  object : R result.object result'.object

section Related

variable [ReferenceObject σ Op Ret] [ReferenceObject τ Op' Ret] {f : Op → Op'}
variable (hR : BisimulationAlong f R)

include hR

/-- Two undos of related objects both succeed, or both fail for the same cause. -/
theorem undo_related (h : R a b) :
    (∃ a' b', ReferenceObject.undo a = (.ok (), a') ∧ ReferenceObject.undo b = (.ok (), b') ∧
        R a' b') ∨
      ∃ cause a' b', ReferenceObject.undo a = (.error cause, a') ∧
        ReferenceObject.undo b = (.error cause, b') ∧ R a' b' := by
  have hu := hR.undo h
  cases ha : ReferenceObject.undo a with
  | mk answer a' =>
    cases hb : ReferenceObject.undo b with
    | mk answer' b' =>
      rw [ha, hb] at hu
      obtain ⟨rfl, hrel⟩ := hu
      cases answer with
      | ok => exact .inl ⟨a', b', rfl, rfl, hrel⟩
      | error cause => exact .inr ⟨cause, a', b', rfl, rfl, hrel⟩

theorem restore_related (h : R a b) (path : List Marker) :
    (restore path a).1 = (restore path b).1 ∧ R (restore path a).2 (restore path b).2 := by
  induction path generalizing a b with
  | nil => exact ⟨rfl, h⟩
  | cons marker path ih =>
    cases marker with
    | invoked => simpa only [restore] using ih h
    | linearized r i k p before =>
      cases before with
      | idle | committed => simpa only [restore] using ih h
      | pending q =>
        rcases undo_related hR h with ⟨a', b', ha, hb, hrel⟩ | ⟨cause, a', b', ha, hb, hrel⟩
        · simpa only [restore, ha, hb] using ih hrel
        · simpa only [restore, ha, hb, true_and] using hrel

theorem conclude_related {s : Search σ Ret} (h : R s.object b) (verdict : Verdict Ret) :
    (s.conclude verdict).1 = ((s.withObject b).conclude verdict).1 ∧
      R (s.conclude verdict).2 ((s.withObject b).conclude verdict).2 := by
  have hrestore := restore_related hR h s.path
  unfold conclude
  dsimp only [withObject]
  generalize restore s.path s.object = left at hrestore ⊢
  generalize restore s.path b = left' at hrestore ⊢
  obtain ⟨answer, a'⟩ := left
  obtain ⟨answer', b'⟩ := left'
  obtain ⟨rfl, hrel⟩ := hrestore
  cases answer with
  | ok | error => exact ⟨rfl, hrel⟩

theorem stop_related {s : Search σ Ret} (h : R s.object b) (verdict : Verdict Ret) (n : Nat) :
    ResultRelated R (s.stop verdict n) ((s.withObject b).stop verdict n) := by
  obtain ⟨houtcome, hrel⟩ := conclude_related hR h verdict
  exact ⟨houtcome, rfl, hrel⟩

theorem advance_related (events : Array (Event Op Ret)) {s : Search σ Ret} (h : R s.object b)
    (i : Nat) :
    StepRelated R (s.advance events i) ((s.withObject b).advance (events.map (.mapOp f)) i) := by
  unfold advance
  rw [Array.getElem?_map, Array.size_map]
  cases events[i]? with
  | none =>
    dsimp only [Option.map_none]
    split
    · obtain ⟨houtcome, hrel⟩ := conclude_related hR h .linearizable
      rw [← houtcome]
      exact .halt _ hrel
    · exact .halt _ h
  | some event =>
    cases event with
    | invoke process label op expected =>
      dsimp only [Option.map_some, Event.mapOp, withObject]
      cases process.lookup? s.phases with
      | none => exact .halt _ h
      | some phase =>
        cases phase with
        | idle => exact .next _ h
        | pending | committed => exact .halt _ h
    | ret process result =>
      dsimp only [Option.map_some, Event.mapOp, withObject]
      cases process.lookup? s.phases with
      | none => exact .halt _ h
      | some phase =>
        cases phase with
        | idle => exact .halt _ h
        | pending | committed => exact .next _ h

theorem backtrack_related {s : Search σ Ret} (h : R s.object b) (path : List Marker)
    (marker : Marker) :
    StepRelated R (s.backtrack path marker) ((s.withObject b).backtrack path marker) := by
  cases marker with
  | invoked p =>
    simp only [backtrack, withObject]
    cases p.replace? .idle s.phases with
    | none => exact .halt _ h
    | some phases => exact .next _ h
  | linearized r i k p before =>
    simp only [backtrack, withObject]
    cases p.replace? before s.phases with
    | none => exact .halt _ h
    | some phases =>
      cases before with
      | idle | committed => exact .next _ h
      | pending q =>
        rcases undo_related hR h with ⟨a', b', ha, hb, hrel⟩ | ⟨cause, a', b', ha, hb, hrel⟩
        · simp only [ha, hb]
          exact .next _ hrel
        · simp only [ha, hb]
          exact .halt _ hrel

variable [DecidableEq Ret]

theorem attempt_related (events : Array (Event Op Ret)) (q : Nat) (h : R a b) :
    AttemptRelated R (attempt events q a) (attempt (events.map (.mapOp f)) q b) := by
  unfold attempt
  rw [Array.getElem?_map]
  cases events[q]? with
  | none => exact .absent
  | some event =>
    cases event with
    | ret process result => exact .absent
    | invoke process label op expected =>
      obtain ⟨hret, hrel⟩ := hR.apply h op
      dsimp only [Option.map_some, Event.mapOp]
      rw [hret]
      split
      · exact .matched hrel
      · rcases undo_related hR hrel with ⟨a', b', ha, hb, hrel⟩ | ⟨cause, a', b', ha, hb, hrel⟩
        · rw [ha, hb]
          exact .mismatched _ hrel
        · rw [ha, hb]
          exact .undoFailed cause hrel

theorem linearize_related (events : Array (Event Op Ret)) {s : Search σ Ret} (h : R s.object b)
    (r : ProcessId) (i k : Nat) :
    StepRelated R (s.linearize events r i k)
      ((s.withObject b).linearize (events.map (.mapOp f)) r i k) := by
  unfold linearize
  dsimp only [withObject]
  by_cases hk : s.phases.length ≤ k
  · simp only [hk, if_true]
    exact .next _ h
  simp only [hk, if_false]
  generalize candidate s.phases.length r k = process
  cases process.lookup? s.phases with
  | none => exact .halt _ h
  | some phase =>
    cases phase with
    | idle =>
      by_cases hp : process = r
      · simp only [hp, if_true]
        exact .halt _ h
      · simp only [hp, if_false]
        exact .next _ h
    | committed =>
      by_cases hp : process = r
      · simp only [hp, if_true]
        exact .next _ h
      · simp only [hp, if_false]
        exact .next _ h
    | pending q =>
      have hattempt := attempt_related hR events q h
      dsimp only
      generalize attempt events q s.object = left at hattempt ⊢
      generalize attempt (events.map (.mapOp f)) q b = left' at hattempt ⊢
      cases hattempt with
      | matched hrel =>
        by_cases hp : process = r
        · simp only [hp, if_true]
          exact .next _ hrel
        · simp only [hp, if_false]
          exact .next _ hrel
      | mismatched ret hrel => exact .next _ hrel
      | undoFailed cause hrel => exact .halt _ hrel
      | absent => exact .halt _ h

theorem step_related (events : Array (Event Op Ret)) {s : Search σ Ret} (h : R s.object b) :
    StepRelated R (s.step events) ((s.withObject b).step (events.map (.mapOp f))) := by
  unfold step
  dsimp only [withObject]
  split
  · exact advance_related hR events h _
  · exact linearize_related hR events h _ _ _
  · split
    · exact .halt _ h
    · exact backtrack_related hR h _ _

end Related

variable [DecidableEq Ret]

section Runs

variable [ReferenceObject σ Op Ret]

theorem run_eq (events : Array (Event Op Ret)) (limits : Limits σ) (n : Nat) (s : Search σ Ret) :
    run events limits n s =
      if limits.cancelled n s.object then s.stop .interrupted n
      else if limits.maxSteps.any (· < n + 1) then s.stop .exhausted (n + 1)
      else match s.step events with
        | .next s => run events limits (n + 1) s
        | .halt outcome object => ⟨outcome, object, n + 1⟩ := by
  rw [run]
  split
  · rfl
  · split
    · rfl
    · split <;> simp [*]

/-- Runs on related objects, stopped at the same moments, count the same steps to the same
outcome. -/
theorem run_translated [ReferenceObject τ Op' Ret] {f : Op → Op'} (hR : BisimulationAlong f R)
    (limits : Limits σ) (limits' : Limits τ) (hmax : limits.maxSteps = limits'.maxSteps)
    (hcancelled : ∀ n a b, R a b → limits.cancelled n a = limits'.cancelled n b)
    (events : Array (Event Op Ret)) (n : Nat) (s : Search σ Ret) (b : τ) (h : R s.object b) :
    ResultRelated R (run events limits n s)
      (run (events.map (.mapOp f)) limits' n (s.withObject b)) := by
  fun_induction run events limits n s generalizing b with
  | case1 n s hc =>
    rw [hcancelled n _ b h] at hc
    rw [run_eq, withObject_object, if_pos hc]
    exact stop_related hR h .interrupted n
  | case2 n s hc hx =>
    rw [hcancelled n _ b h] at hc
    rw [hmax] at hx
    rw [run_eq, withObject_object, if_neg hc, if_pos hx]
    exact stop_related hR h .exhausted (n + 1)
  | case3 n s hc hx s' hstep ih =>
    rw [hcancelled n _ b h] at hc
    rw [hmax] at hx
    rw [run_eq _ limits', withObject_object, if_neg hc, if_neg hx]
    have hrelated := step_related hR events h
    rw [hstep] at hrelated
    generalize (s.withObject b).step (events.map (.mapOp f)) = next at hrelated ⊢
    cases hrelated with
    | next _ hrel => exact ih _ hrel
  | case4 n s hc hx outcome object hstep =>
    rw [hcancelled n _ b h] at hc
    rw [hmax] at hx
    rw [run_eq _ limits', withObject_object, if_neg hc, if_neg hx]
    have hrelated := step_related hR events h
    rw [hstep] at hrelated
    generalize (s.withObject b).step (events.map (.mapOp f)) = next at hrelated ⊢
    cases hrelated with
    | halt _ hrel => exact ⟨rfl, rfl, hrel⟩

/-- On the same events, if the objects are given the same operations. -/
theorem run_related [ReferenceObject τ Op Ret] (hR : Bisimulation R) (limits : Limits σ)
    (limits' : Limits τ) (hmax : limits.maxSteps = limits'.maxSteps)
    (hcancelled : ∀ n a b, R a b → limits.cancelled n a = limits'.cancelled n b)
    (events : Array (Event Op Ret)) (n : Nat) (s : Search σ Ret) (b : τ) (h : R s.object b) :
    ResultRelated R (run events limits n s) (run events limits' n (s.withObject b)) := by
  have hrun := run_translated hR.along limits limits' hmax hcancelled events n s b h
  rwa [Event.mapOp_id, Array.map_id] at hrun

end Runs

end Search
end Linearizability
