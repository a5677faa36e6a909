import Linearizability.Event

/-!
# Histories built by hand

Events are added one at a time. A process has at most one outstanding operation, and a return tells
the invocation that it answers what the process observed.
-/

namespace Linearizability

inductive History.Refusal where
  | alreadyPending (process : ProcessId) (label : String)
  | nothingPending (process : ProcessId)
  deriving DecidableEq

instance : ToString History.Refusal where
  toString
    | .alreadyPending process label => toString process ++ " invoked " ++ label ++
        " while an earlier operation was still outstanding"
    | .nothingPending process =>
        toString process ++ " returned without an outstanding invocation"

structure History (Op Ret : Type) where
  events : Array (Event Op Ret) := #[]
  /-- The processes with an outstanding operation, each with the position of its invocation. -/
  outstanding : List (ProcessId × Nat) := []

namespace History

variable {Op Ret : Type}

def empty : History Op Ret := {}

def invoke (h : History Op Ret) (process : ProcessId) (label : String) (op : Op) :
    Except History.Refusal (History Op Ret) :=
  match h.outstanding.lookup process with
  | some _ => .error (.alreadyPending process label)
  | none => .ok {
      events := h.events.push (.invoke process label op none)
      outstanding := (process, h.events.size) :: h.outstanding }

def ret (h : History Op Ret) (process : ProcessId) (result : Ret) :
    Except History.Refusal (History Op Ret) :=
  match h.outstanding.lookup process with
  | none => .error (.nothingPending process)
  | some invocation => .ok {
      events := (h.events.modify invocation (·.withExpected (some result))).push
        (.ret process (some result))
      outstanding := h.outstanding.filter (·.1 ≠ process) }

/-- An operation and its return at once. -/
def invokeAndReturn (h : History Op Ret) (process : ProcessId) (label : String) (op : Op)
    (result : Ret) : Except History.Refusal (History Op Ret) := do
  (← h.invoke process label op).ret process result

end History
end Linearizability
