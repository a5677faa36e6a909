import Linearizability.Proofs.Trial.Plan
import Linearizability.Trial

/-!
# How processes come to rest

A process takes at most four turns for each call of its agenda, and one more to notice the end. So
it comes to rest under any schedule that gives it turns enough. A pool of threads gives them to
whoever begins, and somebody does not begin only if a call that never comes back keeps each thread.
-/

namespace Linearizability

variable {σ : Type} {subject : Subject σ} {p : ProcessId} {agendas : List Agenda}
variable {worker : Worker}

namespace Worker

end Worker

namespace Session

variable {s : Session σ} {schedule : List ProcessId}

/-- All that does finish has finished: whoever began is at rest, and if somebody did not begin, then
calls that never come back keep all threads. -/
structure Settled (threads : Nat) (schedule : List ProcessId) (workers : List Worker) : Prop where
  rests : ∀ p worker, p.lookup? workers = some worker → p ∈ schedule → worker.isAtRest
  kept : ∀ p, p.toNat < workers.length → p ∉ schedule →
    threads ≤ workers.countP Worker.isStalled

section Pool

variable {threads i : Nat} {agenda : Agenda} {later : List (Agenda × Nat)}

end Pool

end Session
end Linearizability
