import Linearizability.Value.Order
import Linearizability.Value.Printer

/-!
# Operations and calls

An operation is what a subject offers; a call binds it to arguments. A call may have another number
of arguments than its operation announces.
-/

namespace Linearizability

structure Operation where
  name : String
  arity : UInt64
  deriving DecidableEq, Inhabited

namespace Operation

instance : Ord Operation :=
  ⟨fun a b => (compare a.name b.name).then (compare a.arity b.arity)⟩

instance : ToString Operation := ⟨fun op => op.name ++ "/" ++ toString op.arity⟩

end Operation

structure Call where
  operation : Operation
  args : List Value
  deriving DecidableEq, Inhabited

namespace Call

/-- The operation announces as many arguments as there are. -/
def named (name : String) (args : List Value) : Call :=
  ⟨⟨name, .ofNat args.length⟩, args⟩

def name (call : Call) : String := call.operation.name

def arg? (call : Call) (i : Nat) : Option Value := call.args[i]?

instance : Ord Call :=
  ⟨fun a b => (compare a.operation b.operation).then (compareLists compare a.args b.args)⟩

def shortForm (call : Call) : List Char :=
  Text.applied call.name (Text.commaSeparated (call.args.map Value.shortForm))

instance : ToString Call := ⟨fun call => String.ofList call.shortForm⟩

end Call
end Linearizability
