import Linearizability.Call
import Linearizability.Process

/-!
# Records

An entry of a recorded history: a process invoked a call, or its call returned a value. Sequence
numbers order the records of all processes.
-/

namespace Linearizability

inductive Record.Kind where
  | invoke (call : Call)
  | ret (value : Value)
  deriving DecidableEq, Inhabited

structure Record where
  seq : UInt64
  process : ProcessId
  call : CallId
  kind : Record.Kind
  deriving DecidableEq, Inhabited

namespace Record

def invoke (seq : UInt64) (id : CallId) (call : Call) : Record :=
  ⟨seq, id.process, id, .invoke call⟩

def ret (seq : UInt64) (id : CallId) (value : Value) : Record :=
  ⟨seq, id.process, id, .ret value⟩

def isInvocation (record : Record) : Bool :=
  match record.kind with
  | .invoke _ => true
  | .ret _ => false

instance : ToString Record where
  toString record :=
    let start := "[" ++ toString record.seq ++ "] " ++ toString record.call
    match record.kind with
    | .invoke call => start ++ " invokes " ++ toString call
    | .ret value => start ++ " returns " ++ toString value

/-- The records in order of their sequence numbers; equal numbers keep their order. -/
def sorted (records : List Record) : List Record :=
  records.mergeSort fun a b => a.seq ≤ b.seq

end Record
end Linearizability
