import Linearizability.Reference.Basic
import Linearizability.Verdict

/-!
# A search in progress

The search walks the history from left to right and decides at each return which outstanding
operations take effect before it. Every choice leaves a marker on the path, so the latest one can be
taken back and the next candidate tried.
-/

namespace Linearizability

/-- A condition that ends a search without a verdict. It tells of a malformed history, or of a
reference object that cannot take back what was applied. -/
inductive Search.Fault where
  | undoFailed (index : Nat) (cause : NothingToUndo)
  | overlappingInvocation (index : Nat) (process : ProcessId)
  | unmatchedReturn (index : Nat) (process : ProcessId)
  /-- A task or a marker named an event or a process that is not there. -/
  | outOfRange
  deriving DecidableEq

namespace Search.Fault

def cause? : Fault → Option NothingToUndo
  | .undoFailed _ cause => some cause
  | _ => none

instance : ToString Fault where
  toString
    | .undoFailed index _ => "reference object undo failed at event " ++ toString index
    | .overlappingInvocation index process => "event " ++ toString index ++ ": " ++
        toString process ++ " invoked an operation while another was outstanding"
    | .unmatchedReturn index process => "event " ++ toString index ++ ": " ++
        toString process ++ " returned without an outstanding invocation"
    | .outOfRange => "search left the range of its history"

end Search.Fault

/-- Where a process stands on the path. -/
inductive Search.Phase where
  | idle
  /-- It waits for the operation invoked by this event. -/
  | pending (invocation : Nat)
  /-- Its operation took effect ahead of its return. -/
  | committed
  deriving DecidableEq

namespace Search.Phase

def isPending : Phase → Bool
  | .pending _ => true
  | _ => false

end Search.Phase

inductive Search.Task where
  /-- Pass the event at this position. -/
  | advance (i : Nat)
  /-- Let the `k`-th candidate take effect before the return at position `i`. -/
  | linearize (returning : ProcessId) (i k : Nat)
  deriving DecidableEq

inductive Search.Marker where
  | invoked (process : ProcessId)
  /-- The `k`-th candidate, which was in phase `before`, took effect or was found committed. -/
  | linearized (returning : ProcessId) (i k : Nat) (process : ProcessId) (before : Search.Phase)
  deriving DecidableEq

structure Search (σ Ret : Type) where
  object : σ
  /-- One entry per process. -/
  phases : List Search.Phase
  /-- The choices in force, the latest first. -/
  path : List Search.Marker
  reach : Reach Ret
  /-- Without a task the latest choice is taken back. -/
  task : Option Search.Task

namespace Search

variable {σ Op Ret : Type}

/-- Processes are numbered from zero. That the number is a machine word is up to `begin?`. -/
def processCount (events : List (Event Op Ret)) : Nat :=
  events.foldl (fun count event => max count (event.process.toNat + 1)) 0

def start (object : σ) (events : List (Event Op Ret)) : Search σ Ret where
  object
  phases := List.replicate (processCount events) .idle
  path := []
  reach := .blank (processCount events)
  task := some (.advance 0)

/-- The processes after the returning one come first, in a circle, and the returning one comes last.
-/
def candidate (count : Nat) (returning : ProcessId) (k : Nat) : ProcessId :=
  if k + 1 = count then returning else .ofNat ((returning.toNat + 1 + k) % count)

end Search
end Linearizability
