import Linearizability.Subject

/-!
# Workloads

A workload says which calls a trial makes. It is dealt to the processes so that their shares differ
by at most one call: a script in contiguous blocks, and random calls from a generator for each
process.
-/

namespace Linearizability

inductive Workload where
  /-- Every call is an operation chosen at random, with arguments from the subject. -/
  | random
  /-- As before, from generators that depend on the seed and the process alone. -/
  | seeded (seed : UInt64)
  /-- At least as many calls as the trial makes. -/
  | scripted (calls : List Call)

inductive WorkloadError where
  | tooShort (required available : Nat)
  | noOperations
  deriving DecidableEq

instance : ToString WorkloadError where
  toString
    | .tooShort required available => "scripted workload holds " ++ toString available ++
        " calls but " ++ toString required ++ " are required"
    | .noOperations => "a random workload requires the invoker to list at least one operation"

/-- The calls that a process is still to make. -/
inductive Agenda where
  | scripted (calls : List Call)
  | random (count : Nat) (menu : List Operation) (generator : Generator)

namespace Agenda

/-- The number of calls of a process; the first processes make the calls that are left over. -/
def share (processes operations p : Nat) : Nat :=
  operations / processes + if p < operations % processes then 1 else 0

def shares (processes operations : Nat) : List Nat :=
  (List.range processes).map (share processes operations)

/-- Consecutive blocks of these sizes. -/
def deal : List Nat → List Call → List (List Call)
  | [], _ => []
  | count :: counts, calls => calls.take count :: deal counts (calls.drop count)

/-- The number of calls still to make. -/
def count : Agenda → Nat
  | .scripted calls => calls.length
  | .random count _ _ => count

/-- One agenda for each process. `entropy` holds the keys for a workload without a seed. -/
def ofWorkload (entropy : Nat → ChaCha.Key) (processes operations : Nat) (menu : List Operation) :
    Workload → Except WorkloadError (List Agenda)
  | .scripted calls =>
    if calls.length < operations then .error (.tooShort operations calls.length)
    else .ok ((deal (shares processes operations) calls).map .scripted)
  | .random => drawn fun p => { key := entropy p }
  | .seeded seed => drawn fun p => .ofSeed (seed + .ofNat p)
where
  drawn (generator : Nat → Generator) : Except WorkloadError (List Agenda) :=
    if menu.isEmpty then .error .noOperations
    else .ok ((List.range processes).map fun p =>
      .random (share processes operations p) menu (generator p))

end Agenda
end Linearizability
