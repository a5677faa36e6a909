import Linearizability.Proofs.Recorder.Discipline
import Linearizability.Trial

/-!
# Trials are interleavings

Under any schedule the recorder of a trial sees processes that return from each call before they
make the next. So whenever the capture is taken, nothing in it is malformed.
-/

namespace Linearizability

open Turn

variable {σ : Type} {subject : Subject σ} {p : ProcessId} {kind : RecorderKind} {processes : Nat}

/-- Whether the process has a call outstanding, as far as it can still tell the recorder. -/
def Worker.isCalling? : Worker → Option Bool
  | .ready _ | .chosen _ _ => some false
  | .invoked _ _ | .answered _ _ => some true
  | .finished | .panicked | .stalled => none

namespace Session

/-- The recorder was told of these steps, and the workers know what they have told it. -/
structure Interleaves (kind : RecorderKind) (processes : Nat) (s : Session σ)
    (actions : List Recorder.Action) : Prop where
  recorder : s.recorder = (Recorder.new kind processes).run actions
  length : s.workers.length = processes
  told : ∀ action ∈ actions, action.turn.process.toNat < processes
  alternating : Alternating (actions.map Recorder.Action.turn)
  calling : ∀ p worker calling, p.lookup? s.workers = some worker →
    worker.isCalling? = some calling →
      (outstanding (actions.map Recorder.Action.turn) p actions.length).isSome = calling

variable {s : Session σ} {actions : List Recorder.Action} {worker worker' : Worker} {object : σ}
variable {calling : Bool} {schedule : List ProcessId}

namespace Interleaves

variable (h : Interleaves kind processes s actions)

include h

/-- A turn at which the recorder is told nothing. -/
theorem of_quiet (hworker : p.lookup? s.workers = some worker)
    (hcalling : worker'.isCalling? = none ∨ worker'.isCalling? = worker.isCalling?) :
    Interleaves kind processes ⟨object, s.recorder, s.workers.set p.toNat worker'⟩ actions where
  recorder := h.recorder
  length := by simpa using h.length
  told := h.told
  alternating := h.alternating
  calling q other calling hq hother := by
    rcases ProcessId.eq_or_lookup?_of_set hq with ⟨rfl, rfl⟩ | ⟨-, hq⟩
    · rcases hcalling with hcalling | hcalling
      · simp [hcalling] at hother
      · exact h.calling p worker calling hworker (hcalling ▸ hother)
    · exact h.calling q other calling hq hother

/-- A turn at which the recorder is told of a step that keeps to the alternation. -/
theorem of_action {action : Recorder.Action} {r : Recorder}
    (haction : (action.perform s.recorder).2 = r) (hworker : p.lookup? s.workers = some worker)
    (hbefore : worker.isCalling? = some !calling) (hafter : worker'.isCalling? = some calling)
    (hturn : action.turn = ⟨p, calling⟩) :
    Interleaves kind processes ⟨object, r, s.workers.set p.toNat worker'⟩ (actions ++ [action])
    where
  recorder := by rw [Recorder.run_concat, ← h.recorder, haction]
  length := by simpa using h.length
  told other hmem := by
    rcases List.mem_append.1 hmem with hmem | hmem
    · exact h.told other hmem
    · rw [List.mem_singleton.1 hmem, hturn, ← h.length]
      exact ProcessId.lt_length_of_lookup? hworker
  alternating := by
    rw [List.map_append, List.map_singleton]
    refine h.alternating.concat ?_
    rw [hturn, List.length_map, ← Option.not_isSome, h.calling p worker _ hworker hbefore,
      Bool.not_not]
  calling q other callingq hq hother := by
    have hlength : (actions ++ [action]).length =
        (actions.map Recorder.Action.turn).length + 1 := by simp
    rw [List.map_append, List.map_singleton, hlength, isSome_outstanding_concat, hturn]
    rcases ProcessId.eq_or_lookup?_of_set hq with ⟨rfl, rfl⟩ | ⟨hne, hq⟩
    · simpa [hafter] using hother
    · rw [if_neg hne, List.length_map]
      exact h.calling q other callingq hq hother

theorem turn (p : ProcessId) :
    ∃ actions', Interleaves kind processes (s.turn subject p) actions' := by
  cases hworker : p.lookup? s.workers with
  | none => exact ⟨actions, by simpa [Session.turn, hworker] using h⟩
  | some worker =>
    simp only [Session.turn, hworker]
    cases worker with
    | ready agenda =>
      rw [advance]
      split
      · exact ⟨actions, h.of_quiet hworker (.inl rfl)⟩
      · exact ⟨actions, h.of_quiet hworker (.inl rfl)⟩
      · exact ⟨actions, h.of_quiet hworker (.inr rfl)⟩
    | chosen call agenda =>
      rw [advance]
      cases hinvoke : s.recorder.invoke? p call with
      | none => exact ⟨actions, h.of_quiet hworker (.inl rfl)⟩
      | some told =>
        have haction : ((Recorder.Action.invoke p call).perform s.recorder).2 = told.2 := by
          simp only [Recorder.Action.perform, hinvoke]
        exact ⟨_, h.of_action haction hworker rfl rfl rfl⟩
    | invoked call agenda =>
      rw [advance]
      dsimp only
      split
      · exact ⟨actions, h.of_quiet hworker (.inr rfl)⟩
      · exact ⟨actions, h.of_quiet hworker (.inl rfl)⟩
    | answered value agenda =>
      rw [advance]
      cases hret : s.recorder.ret? p value with
      | none => exact ⟨actions, h.of_quiet hworker (.inl rfl)⟩
      | some told =>
        have haction : ((Recorder.Action.ret p value).perform s.recorder).2 = told := by
          simp only [Recorder.Action.perform, hret]
        exact ⟨_, h.of_action haction hworker rfl rfl rfl⟩
    | finished => exact ⟨actions, h.of_quiet hworker (.inl rfl)⟩
    | panicked => exact ⟨actions, h.of_quiet hworker (.inl rfl)⟩
    | stalled => exact ⟨actions, h.of_quiet hworker (.inl rfl)⟩

end Interleaves

theorem interleaves_start (t : Trial σ) (agendas : List Agenda) :
    Interleaves t.settings.recorder agendas.length (t.start agendas) [] where
  recorder := rfl
  length := List.length_map _
  told := by simp
  alternating := by simp [Alternating]
  calling p worker calling hworker hcalling := by
    simp only [Trial.start, ProcessId.lookup?, List.getElem?_map, Option.map_eq_some_iff] at hworker
    obtain ⟨agenda, -, rfl⟩ := hworker
    simpa [Worker.isCalling?, outstanding] using hcalling

theorem exists_interleaves (subject : Subject σ) (h : Interleaves kind processes s actions)
    (schedule : List ProcessId) :
    ∃ actions', Interleaves kind processes (s.follow subject schedule) actions' := by
  induction schedule generalizing s actions with
  | nil => exact ⟨actions, h⟩
  | cons p schedule ih =>
    obtain ⟨actions', h'⟩ := h.turn p
    exact ih h'

end Session

/-- A capture is adapted to a history without malformed records, also if it is taken while
processes are still at work. -/
theorem Trial.capture_wellformed {Op Ret : Type} (t : Trial σ) (agendas : List Agenda)
    (schedule : List ProcessId) (vocabulary : Vocabulary Op Ret) :
    let records := ((t.start agendas).follow t.subject schedule).capture.records
    records.length ≤ 2 ^ 64 →
      Adaptation.Wellformed vocabulary records (Adaptation.ofRecords vocabulary records)
        (Adaptation.sources vocabulary records) := by
  intro records hlength
  obtain ⟨actions, h⟩ :=
    Session.exists_interleaves t.subject (Session.interleaves_start t agendas) schedule
  have hrecords : records =
      ((Recorder.new t.settings.recorder agendas.length).run actions).records :=
    congrArg Recorder.records h.recorder
  have hsize : actions.length = records.length := by
    have hturns := congrArg List.length (Recorder.turns_logOf agendas.length h.alternating)
    have hperm := (Recorder.keeps_run t.settings.recorder agendas.length actions).logs.entries
    have hall : (actions.map Recorder.Action.turn).filter
        (fun turn => turn.process.toNat < agendas.length) = actions.map Recorder.Action.turn := by
      refine List.filter_eq_self.2 fun turn hmem => ?_
      obtain ⟨action, haction, rfl⟩ := List.mem_map.1 hmem
      simpa using h.told action haction
    rw [hall, List.length_map, List.length_map] at hturns
    rw [hrecords, Recorder.records_eq, (Record.sorted_perm _).length_eq, hperm.length_eq, hturns]
  rw [hrecords]
  exact Recorder.wellformed_run _ _ h.alternating (hsize ▸ hlength) vocabulary

end Linearizability
