import Linearizability.Proofs.Counting
import Linearizability.Proofs.Trial.Progress
import Linearizability.Trial
import Mathlib.Algebra.BigOperators.Group.Finset.Piecewise
import Mathlib.Algebra.BigOperators.Ring.Finset
import Mathlib.Algebra.Order.BigOperators.Group.Finset

/-!
# What a capture tells

A capture holds all that the processes did, process by process, and how many of them did not get
through. It is complete exactly if it holds an invocation and a return for each operation. A process
may not even begin, but only if calls that never come back keep all threads.
-/

namespace Linearizability

variable {σ : Type} {subject : Subject σ} {p : ProcessId} {agenda : Agenda}
variable {agendas : List Agenda} {deeds done : List Deed} {log : List Record} {worker : Worker}
variable {schedule : List ProcessId} {threads : Nat}

/-- The number of calls of the process that came back. -/
def Capture.completed (capture : Capture) (p : ProcessId) : Nat :=
  (recordsOf p capture.records).countP (!isCall ·)

namespace Worker

def isFinished : Worker → Bool
  | .finished => true
  | _ => false

end Worker

section Shares

theorem length_transcript_eq (p : ProcessId) (deeds : List Deed) : (transcript p deeds).length =
    (exchanges deeds).length + (transcript p deeds).countP (!isCall ·) := by
  have htotal := List.length_eq_countP_add_countP isCall (l := transcript p deeds)
  rw [countP_isCall_transcript] at htotal
  simpa using htotal

/-- A process that ends has its share recorded, or it did not finish. -/
theorem Ends.share (h : Ends p agenda done worker) :
    (transcript p done).length ≤ 2 * agenda.count ∧
      ((transcript p done).length = 2 * agenda.count ↔ worker.isFinished) ∧
      ((transcript p done).countP (!isCall ·) = agenda.count ↔ worker.isFinished) := by
  have hlength := length_transcript_eq p done
  cases h with
  | finished hperforms hback hrest =>
    have hall := length_transcript hback p
    have hcount := hperforms.count_eq
    exact ⟨by omega, iff_of_true (by omega) rfl, iff_of_true (by omega) rfl⟩
  | @panicked before count _ g g' operation hperforms hback hchoose =>
    have hall := length_transcript hback p
    have hcount : agenda.count = (exchanges before).length + (count + 1) := hperforms.count_eq
    have hsame : exchanges (before ++ [.chose p operation g' none]) = exchanges before := by
      simp [exchanges, Deed.exchange?]
    rw [transcript_append before rfl] at hlength ⊢
    rw [hsame] at hlength
    have hunfinished : ¬ Worker.panicked.isFinished := by simp [Worker.isFinished]
    exact ⟨by omega, iff_of_false (by omega) hunfinished, iff_of_false (by omega) hunfinished⟩
  | @stalled before _ rest rest' call hperforms hback hcall =>
    have hall := length_transcript hback p
    have hcount : agenda.count = (exchanges before).length + rest.count := hperforms.count_eq
    have hrest := hcall.count_eq
    rw [Agenda.exchanges_concat hcall, List.length_append, List.length_singleton] at hlength
    rw [transcript_concat before hcall] at hlength ⊢
    rw [List.length_append] at hlength ⊢
    simp only [Exchange.entries, List.length_singleton] at hlength ⊢
    have hunfinished : ¬ Worker.stalled.isFinished := by simp [Worker.isFinished]
    exact ⟨by omega, iff_of_false (by omega) hunfinished, iff_of_false (by omega) hunfinished⟩

/-- At rest a process has come to its end, and all that it did is recorded. -/
theorem Session.Stage.ends {entries : List (CallId × Record.Kind)}
    (h : Stage p agenda done entries worker) (hrest : worker.isAtRest) :
    Ends p agenda done worker ∧ entries = transcript p done := by
  cases h with
  | ready | chosen | invoked | answered => simp [Worker.isAtRest] at hrest
  | ended hends => exact ⟨hends, rfl⟩

/-- A process never has more recorded than its share. -/
theorem Session.Stage.length_le {entries : List (CallId × Record.Kind)}
    (h : Stage p agenda done entries worker) : entries.length ≤ 2 * agenda.count := by
  cases h with
  | ready hperforms hback | chosen hperforms hback hcall =>
    have hcount := hperforms.count_eq
    rw [length_transcript hback]
    omega
  | invoked hperforms hback hcall | answered hperforms hback hcall =>
    have hcount := hperforms.count_eq
    have hrest := hcall.count_eq
    rw [List.length_append, length_transcript hback, List.length_singleton]
    omega
  | ended hends => exact hends.share.1

theorem count_of_shares {processes operations i : Nat}
    (h : agendas.map Agenda.count = Agenda.shares processes operations)
    (hi : agendas[i]? = some agenda) :
    i < processes ∧ agenda.count = Agenda.share processes operations i := by
  have hlength := congrArg List.length h
  simp only [Agenda.shares, List.length_map, List.length_range] at hlength
  have hlt : i < processes := hlength ▸ (List.getElem?_eq_some_iff.1 hi).1
  have hcount := congrArg (·[i]?) h
  simp only [Agenda.shares, List.getElem?_map, hi, List.getElem?_range hlt, Option.map_some,
    Option.some.injEq] at hcount
  exact ⟨hlt, hcount⟩

end Shares

namespace Trial

variable {t : Trial σ} {capture : Capture} {left : σ} {workers : List Worker}

/-- What a capture tells after this schedule: the processes did this, in this order, and ended so,
or they did not begin because calls that never come back keep all threads. -/
structure Story (t : Trial σ) (threads : Nat) (schedule : List ProcessId) (agendas : List Agenda)
    (capture : Capture) (left : σ) (deeds : List Deed) (workers : List Worker) : Prop where
  shares : agendas.map Agenda.count =
    Agenda.shares t.settings.processes.toNat t.settings.operations.toNat
  answers : Answers t.subject t.object deeds left
  doing : ∀ deed ∈ deeds, deed.process.toNat < agendas.length
  records : ∀ p, recordsOf p capture.records = transcript p (doneBy p deeds)
  length : workers.length = agendas.length
  ends : ∀ p agenda worker, p.lookup? agendas = some agenda → p.lookup? workers = some worker →
    p ∈ schedule → Ends p agenda (doneBy p deeds) worker
  waits : ∀ p agenda, p.lookup? agendas = some agenda → p ∉ schedule →
    doneBy p deeds = [] ∧ p.lookup? workers = some (.ready agenda) ∧
      threads ≤ workers.countP Worker.isStalled
  stragglers : capture.stragglers = workers.countP Worker.isStraggler
  panicked : capture.panicked = workers.countP Worker.isPanicked

namespace Story

variable (h : Story t threads schedule agendas capture left deeds workers)

include h

theorem length_agendas : agendas.length = t.settings.processes.toNat := by
  have hlength := congrArg List.length h.shares
  simpa [Agenda.shares] using hlength

theorem length_agendas_le : agendas.length ≤ 2 ^ 64 := by
  rw [h.length_agendas]
  exact Nat.le_of_lt (UInt64.toNat_lt _)

theorem recorded : ∀ record ∈ capture.records, record.process.toNat < agendas.length := by
  intro record hmem
  have hentry : (record.call, record.kind) ∈ recordsOf record.process capture.records :=
    List.mem_map_of_mem (List.mem_filter.2 ⟨hmem, by simp⟩)
  rw [h.records, transcript] at hentry
  obtain ⟨⟨e, i⟩, he, -⟩ := List.mem_flatMap.1 hentry
  obtain ⟨deed, hdeed, -⟩ := List.mem_filterMap.1 (List.fst_mem_of_mem_zipIdx he)
  obtain ⟨hmade, hprocess⟩ := List.mem_filter.1 hdeed
  rw [← show deed.process = record.process by simpa using hprocess]
  exact h.doing deed hmade

/-- A process has its share recorded, or it did not finish. -/
theorem share {i : Nat} (hi : i < t.settings.processes.toNat) :
    let share := Agenda.share t.settings.processes.toNat t.settings.operations.toNat i
    (recordsOf (.ofNat i) capture.records).length ≤ 2 * share ∧
      ((recordsOf (.ofNat i) capture.records).length = 2 * share ∧ .ofNat i ∈ schedule ↔
        workers[i]?.any Worker.isFinished) ∧
      (capture.completed (.ofNat i) = share ∧ .ofNat i ∈ schedule ↔
        workers[i]?.any Worker.isFinished) := by
  have hagendas : i < agendas.length := by rwa [h.length_agendas]
  have hworkers : i < workers.length := by rwa [h.length]
  have hagenda : (ProcessId.ofNat i).lookup? agendas = some agendas[i] :=
    ProcessId.lookup?_ofNat h.length_agendas_le hagendas
  have hworker : (ProcessId.ofNat i).lookup? workers = some workers[i] :=
    ProcessId.lookup?_ofNat (h.length ▸ h.length_agendas_le) hworkers
  have hcount := (count_of_shares h.shares (List.getElem?_eq_getElem hagendas)).2
  intro share
  by_cases hbegins : ProcessId.ofNat i ∈ schedule
  · have hshare := (h.ends _ _ _ hagenda hworker hbegins).share
    rw [hcount] at hshare
    simpa [Capture.completed, h.records, List.getElem?_eq_getElem hworkers, hbegins] using hshare
  · obtain ⟨hnothing, hready, -⟩ := h.waits _ _ hagenda hbegins
    obtain hready : workers[i] = .ready agendas[i] := Option.some.inj (hworker.symm.trans hready)
    simp [h.records, hnothing, transcript, exchanges, hbegins, List.getElem?_eq_getElem hworkers,
      hready, Worker.isFinished]

end Story

end Trial
end Linearizability
