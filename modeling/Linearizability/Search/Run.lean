import Linearizability.Search.Cost

/-!
# Running a search

A run repeats the step until the search halts. Before each step it asks whether cancellation was
requested, then counts the step and compares the count with the budget.
-/

namespace Linearizability.Search

variable {σ Op Ret : Type}

/-- What may stop a search early. -/
structure Limits (σ : Type) where
  maxSteps : Option Nat := none
  /-- Whether cancellation is requested, after this many steps and with the object in this state. -/
  cancelled : Nat → σ → Bool := fun _ _ => false

/-- How a run ended, what it left of the object, and the steps that it counted. -/
structure Result (σ Ret : Type) where
  outcome : Except Fault (Verdict Ret)
  object : σ
  steps : Nat

variable [ReferenceObject σ Op Ret]

/-- The run is stopped with a verdict for which no branch was explored to its end. -/
def stop (s : Search σ Ret) (verdict : Verdict Ret) (steps : Nat) : Result σ Ret :=
  let (outcome, object) := s.conclude verdict
  ⟨outcome, object, steps⟩

variable [DecidableEq Ret]

def run (events : Array (Event Op Ret)) (limits : Limits σ) (steps : Nat) (s : Search σ Ret) :
    Result σ Ret :=
  if limits.cancelled steps s.object then s.stop .interrupted steps
  else if limits.maxSteps.any (· < steps + 1) then s.stop .exhausted (steps + 1)
  else
    match _ : s.step events with
    | .next s => run events limits (steps + 1) s
    | .halt outcome object => ⟨outcome, object, steps + 1⟩
termination_by s.cost events
decreasing_by exact cost_step ‹_›

end Linearizability.Search
