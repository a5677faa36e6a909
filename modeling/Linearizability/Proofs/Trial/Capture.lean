import Linearizability.Proofs.Trial.Rest
import Linearizability.Proofs.Trial.Story
import Linearizability.Subject.Sample
import Mathlib.Data.List.Permutation

/-!
# How a trial ends

When everything that does finish has finished, the capture tells what the processes did, whatever
the schedule. In a pool that has fewer threads than there are processes, calls that never come back
may keep a process from beginning.
-/

namespace Linearizability.Trial

variable {σ : Type} {t : Trial σ} {capture : Capture} {left : σ} {p : ProcessId} {agenda : Agenda}
variable {agendas : List Agenda} {deeds done : List Deed} {log : List Record} {worker : Worker}
variable {workers : List Worker} {schedule : List ProcessId} {threads : Nat}

section Session

variable {s : Session σ}
variable (h : Session.Progress t.subject t.object agendas s log deeds)
variable (hshares : agendas.map Agenda.count =
  Agenda.shares t.settings.processes.toNat t.settings.operations.toNat)

include h

include hshares

end Session

section Stalled

variable (hstall : ∀ object call, (t.subject.apply object call).1 = .stalled)

include hstall

/-- If no call ever comes back, whoever begins a script is stalled in its first call. -/
theorem Story.isStalled (h : Story t threads schedule agendas capture left deeds workers)
    {call : Call} {calls : List Call}
    (hagenda : p.lookup? agendas = some (.scripted (call :: calls)))
    (hworker : p.lookup? workers = some worker) (hbegins : p ∈ schedule) : worker.isStalled := by
  have hends := h.ends p _ worker hagenda hworker hbegins
  generalize hdone : doneBy p deeds = done at hends
  cases hends with
  | stalled => rfl
  | panicked hperforms hback hchoose =>
    obtain ⟨later, hlater, -⟩ := hperforms.of_scripted rfl
    simp at hlater
  | finished hperforms hback hrest =>
    -- The process is finished with calls that came back, and there are none.
    obtain ⟨later, rfl, hcalls⟩ := hperforms.of_scripted rfl
    obtain rfl : later = [] := List.eq_nil_of_length_eq_zero hrest
    obtain ⟨e, he⟩ : ∃ e, e ∈ exchanges done := by
      refine List.exists_mem_of_ne_nil _ fun hnone => ?_
      simp [hnone] at hcalls
    obtain ⟨deed, hdeed, hexchange⟩ := List.mem_filterMap.1 he
    have hcalled : .called e ∈ deeds := by
      cases deed with
      | chose => simp [Deed.exchange?] at hexchange
      | called e' =>
        obtain rfl := Option.some.inj hexchange
        exact List.mem_of_mem_filter (hdone ▸ hdeed)
    obtain ⟨now, hresponse⟩ := h.answers.exists_apply hcalled
    exact absurd (hresponse.symm.trans (hstall now e.call)) (hback e he)

end Stalled

end Linearizability.Trial
