import Linearizability.Reach

/-!
# Verdicts

A search finds a linearization, or shows that there is none, or is stopped before it knows. The
latter two verdicts say nothing about the history.
-/

namespace Linearizability

inductive Verdict (Ret : Type) where
  | linearizable
  | notLinearizable (reach : Reach Ret)
  | interrupted
  | exhausted
  deriving DecidableEq

namespace Verdict

variable {Ret : Type}

def isLinearizable : Verdict Ret → Bool
  | .linearizable => true
  | _ => false

def isConclusive : Verdict Ret → Bool
  | .linearizable | .notLinearizable _ => true
  | _ => false

def reach? : Verdict Ret → Option (Reach Ret)
  | .notLinearizable reach => some reach
  | _ => none

end Verdict
end Linearizability
