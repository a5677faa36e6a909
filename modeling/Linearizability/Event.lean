import Linearizability.Process
import Linearizability.Value.Printer

/-!
# Events

A history is a list of events: a process invokes an operation, and later the operation returns. An
invocation knows the result that its process observes; it has none if the operation never returns or
if no result of the reference object could be the observed one.
-/

namespace Linearizability

inductive Event (Op Ret : Type) where
  | invoke (process : ProcessId) (label : String) (op : Op) (expected : Option Ret)
  | ret (process : ProcessId) (result : Option Ret)
  deriving DecidableEq

namespace Event

variable {Op Ret : Type}

def process : Event Op Ret → ProcessId
  | .invoke process _ _ _ | .ret process _ => process

def isInvoke : Event Op Ret → Bool
  | .invoke .. => true
  | .ret .. => false

/-- The invocation with the result that its process observed; a return is left alone. -/
def withExpected (result : Option Ret) : Event Op Ret → Event Op Ret
  | .invoke process label op _ => .invoke process label op result
  | event => event

instance [ConstructorForm Ret] : ToString (Event Op Ret) where
  toString
    | .invoke process label _ _ => toString process ++ " invokes " ++ label
    | .ret process (some result) =>
      toString process ++ " returns " ++ String.ofList (constructorForm result)
    | .ret process none => toString process ++ " returns an unrecognized result"

end Event
end Linearizability
