import Linearizability.Adaptation
import Linearizability.Duration
import Linearizability.Text.Aligned
import Linearizability.Verdict

/-!
# Reports

A report holds what was learned from one history: the verdict, the events that were searched, the
records that could not be used, and counts. An expectation of the verdict that is not met fails with
a message, after printing what speaks against it.
-/

namespace Linearizability

structure Counts where
  /-- The invocations among the records. -/
  operations : UInt64 := 0
  /-- The events that were searched. -/
  events : UInt64 := 0
  ignored : UInt64 := 0
  malformed : UInt64 := 0
  stragglers : UInt64 := 0
  panicked : UInt64 := 0
  steps : UInt64 := 0
  deriving DecidableEq

structure Report (Op Ret : Type) where
  verdict : Verdict Ret
  events : List (Event Op Ret)
  malformed : List MalformedRecord
  captureElapsed : Duration := .zero
  counts : Counts

/-- The lines that were printed, and the message of the failure if the expectation was not met. -/
structure Expectation where
  printed : List String := []
  failure : Option String := none
  deriving DecidableEq

namespace Report

variable {Op Ret : Type} [ConstructorForm Ret] (r : Report Op Ret)

/-- Red on a terminal. -/
def highlighted (line : String) : String := "\x1b[38;5;1m" ++ line ++ "\x1b[0m"

/-- The events with their numbers, counted from `start`. The event at position `furthest` is
highlighted. -/
def numbered (start : Nat) (furthest : Option Nat) (events : List (Event Op Ret)) : List String :=
  events.zipIdx.map fun (event, i) =>
    let line := Text.alignRight 4 (toString (i + start)) ++ ". " ++ toString event
    if some i = furthest then highlighted line else line

def searchedHistory : List String :=
  "Searched history:" :: numbered 0 (r.verdict.reach?.map (·.furthest)) r.events

/-- A process that the search never considered is left out. -/
def rejections (reach : Reach Ret) : List String :=
  reach.processes.zipIdx.filterMap fun (process, p) => process.furthest.map fun furthest =>
    "\tP" ++ toString p ++ " reached event " ++ toString (furthest + 1) ++
      " where the reference object could return " ++
      String.ofList (constructorForm process.rejected)

def explanation (reach : Reach Ret) : List String :=
  "History prefix reaching the furthest point of the search:" ::
    numbered 1 (some reach.furthest) (reach.searchedPart r.events) ++ rejections reach

def linearization : List String :=
  "History with a linearization:" ::
    r.events.zipIdx.map fun (event, i) => "\t" ++ toString (i + 1) ++ ". " ++ toString event

def interruptedMessage : String := "Search was interrupted before reaching a verdict."

def exhaustedMessage (steps : UInt64) : String :=
  "Search exhausted its budget of steps after " ++ toString steps ++ " steps."

/-- Every expectation asks first that no record is malformed. -/
def expectWellFormed (otherwise : Expectation) : Expectation :=
  if r.malformed.isEmpty then otherwise
  else {
    printed := "Malformed records:" :: r.malformed.map fun m => "\t" ++ toString m
    failure := some ("History contains " ++ toString r.malformed.length ++ " malformed records.") }

def expectLinearizable : Expectation :=
  r.expectWellFormed <|
    match r.verdict with
    | .linearizable => {}
    | .notLinearizable reach => {
        printed := r.explanation reach
        failure := some "History is not linearizable." }
    | .interrupted => { failure := some interruptedMessage }
    | .exhausted => { failure := some (exhaustedMessage r.counts.steps) }

def expectNotLinearizable : Expectation :=
  r.expectWellFormed <|
    match r.verdict with
    | .notLinearizable _ => {}
    | .linearizable => {
        printed := r.linearization
        failure := some "Done, but expected a non-linearizable history." }
    | .interrupted => { failure := some interruptedMessage }
    | .exhausted => { failure := some (exhaustedMessage r.counts.steps) }

end Report
end Linearizability
