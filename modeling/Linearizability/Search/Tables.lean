import Linearizability.Search.Basic

/-!
# The tables of a search

A search keeps tables with one entry for each process, up to the one with the largest number. Their
size is a sum of machine words, one more than that number. The sum is no word if the number is the
largest of all words: a machine that checks its sums stops then, and one that does not lays out
tables in which the process has no entry. A search does not begin either where memory has no room
for its tables.
-/

namespace Linearizability

/-- What a machine makes of a sum that is no word. -/
inductive Overflow where
  | checked
  /-- Only the lower bits are kept. -/
  | wrapping
  deriving DecidableEq

def Overflow.succ? : Overflow → UInt64 → Option UInt64
  | .checked, n => if n + 1 = 0 then none else some (n + 1)
  | .wrapping, n => some (n + 1)

/-- What a search runs on. -/
structure Machine where
  overflow : Overflow
  /-- The entries of the largest table that memory has room for. -/
  room : UInt64

/-- The process with the largest number. -/
def ProcessId.last : ProcessId := .ofNat (UInt64.size - 1)

namespace Search

variable {σ Op Ret : Type}

/-- There is none if the machine stops at a sum. -/
def tableSize? (overflow : Overflow) (events : List (Event Op Ret)) : Option UInt64 :=
  events.foldlM (fun size event => (overflow.succ? event.process.index).map (max size)) 0

/-- The start of a search with the tables that the machine lays out for it. -/
def begin? (machine : Machine) (object : σ) (events : List (Event Op Ret)) :
    Option (Search σ Ret) :=
  (tableSize? machine.overflow events).bind fun size =>
    if size ≤ machine.room then
      some { start object events with
        phases := List.replicate size.toNat .idle
        reach := .blank size.toNat }
    else none

end Search
end Linearizability
