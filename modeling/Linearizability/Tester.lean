import Linearizability.Search.Run
import Linearizability.Search.Tables

/-!
# The linearizability tester

A tester decides whether histories are linearizable with respect to its reference object. After
every verdict the object is as it was before, so the tester can go on to the next history.
-/

namespace Linearizability

structure Tester (σ : Type) where
  object : σ
  limits : Search.Limits σ := {}
  /-- The steps of the latest search. -/
  steps : Nat := 0

namespace Tester

variable {σ Op Ret : Type}

def withMaxSteps (t : Tester σ) (maxSteps : Nat) : Tester σ :=
  { t with limits.maxSteps := some maxSteps }

/-- The search asks this before each of its steps. -/
def withCancellation (t : Tester σ) (cancelled : Nat → σ → Bool) : Tester σ :=
  { t with limits.cancelled := cancelled }

variable [ReferenceObject σ Op Ret] [DecidableEq Ret]

/-- An error leaves the object as the search left it. -/
def judgeFrom (t : Tester σ) (s : Search σ Ret) (events : List (Event Op Ret)) :
    Except Search.Fault (Verdict Ret) × Tester σ :=
  let result := s.run events.toArray t.limits 0
  (result.outcome, { t with object := result.object, steps := result.steps })

/-- The judgment on a machine that has a table of any size. -/
def judge (t : Tester σ) (events : List (Event Op Ret)) :
    Except Search.Fault (Verdict Ret) × Tester σ :=
  t.judgeFrom (Search.start t.object events) events

/-- Nothing is judged if the search does not begin. -/
def judge? (t : Tester σ) (machine : Machine) (events : List (Event Op Ret)) :
    Option (Except Search.Fault (Verdict Ret) × Tester σ) :=
  (Search.begin? machine t.object events).map (t.judgeFrom · events)

end Tester
end Linearizability
