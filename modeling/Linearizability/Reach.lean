import Linearizability.Event

/-!
# How far a search got

A search that fails tells the furthest position of the history that one of its branches reached. For
each process it tells the furthest position at which the process was considered, and the results
that the reference object gave there in place of the observed one.
-/

namespace Linearizability

structure ProcessReach (Ret : Type) where
  furthest : Option Nat := none
  rejected : List Ret := []
  deriving DecidableEq

structure Reach (Ret : Type) where
  furthest : Nat
  processes : List (ProcessReach Ret)
  deriving DecidableEq

namespace ProcessReach

variable {Ret : Type}

/-- A further position discards what was rejected before it. -/
def reach (r : ProcessReach Ret) (i : Nat) : ProcessReach Ret :=
  if r.furthest.all (· < i) then ⟨some i, []⟩ else r

/-- Only rejections at the furthest position are kept, and each result once. -/
def reject [DecidableEq Ret] (r : ProcessReach Ret) (i : Nat) (ret : Ret) :
    ProcessReach Ret :=
  if r.furthest = some i ∧ ret ∉ r.rejected then ⟨r.furthest, r.rejected ++ [ret]⟩ else r

end ProcessReach

namespace Reach

variable {Ret : Type}

def blank (processCount : Nat) : Reach Ret :=
  ⟨0, List.replicate processCount {}⟩

def reached (r : Reach Ret) (process : ProcessId) (i : Nat) : Reach Ret :=
  ⟨max r.furthest i, r.processes.modify process.toNat (·.reach i)⟩

def rejected [DecidableEq Ret] (r : Reach Ret) (process : ProcessId) (i : Nat) (ret : Ret) :
    Reach Ret :=
  let r := r.reached process i
  ⟨r.furthest, r.processes.modify process.toNat (·.reject i ret)⟩

def process? (r : Reach Ret) (process : ProcessId) : Option (ProcessReach Ret) :=
  process.lookup? r.processes

/-- The history through the furthest position. -/
def searchedPart {Op : Type} (r : Reach Ret) (events : List (Event Op Ret)) :
    List (Event Op Ret) :=
  events.take (r.furthest + 1)

end Reach
end Linearizability
