import Linearizability.Event
import Linearizability.Record
import Linearizability.Vocabulary

/-!
# From records to events

Records become events in the order of their sequence numbers. The returns of a process answer its
invocations first come, first served; a call outside the vocabulary is left out together with the
next return of its process. A return with nothing to answer is malformed and left out as well.
-/

namespace Linearizability

structure MalformedRecord where
  seq : UInt64
  process : ProcessId
  deriving DecidableEq

instance : ToString MalformedRecord where
  toString m := "record " ++ toString m.seq ++ ": " ++ toString m.process ++
    " returned without a pending invocation"

structure Adaptation (Op Ret : Type) where
  events : List (Event Op Ret)
  /-- The number of invocations outside the vocabulary. -/
  ignored : Nat
  malformed : List MalformedRecord

namespace Adaptation

variable {Op Ret : Type}

/-- An invocation that waits for its return. -/
structure Waiting (Op : Type) where
  process : ProcessId
  op : Op
  /-- The position of its event. -/
  position : Nat

structure Progress (Op Ret : Type) where
  events : Array (Event Op Ret) := #[]
  /-- The earliest invocation comes first. -/
  waiting : List (Waiting Op) := []
  /-- For each invocation left out whose return is still to come, its process. -/
  swallowing : List ProcessId := []
  ignored : Nat := 0
  malformed : Array MalformedRecord := #[]

namespace Progress

def invoke (a : Progress Op Ret) (vocabulary : Vocabulary Op Ret) (process : ProcessId)
    (call : Call) : Progress Op Ret :=
  match vocabulary.translate call with
  | some op => { a with
      events := a.events.push (.invoke process (toString call) op none)
      waiting := a.waiting ++ [⟨process, op, a.events.size⟩] }
  | none => { a with
      swallowing := process :: a.swallowing
      ignored := a.ignored + 1 }

def ret (a : Progress Op Ret) (vocabulary : Vocabulary Op Ret) (seq : UInt64) (process : ProcessId)
    (value : Value) : Progress Op Ret :=
  if process ∈ a.swallowing then { a with swallowing := a.swallowing.erase process }
  else
    match a.waiting.find? (·.process = process) with
    | some invocation =>
      let result := vocabulary.observe invocation.op value
      { a with
        events := (a.events.modify invocation.position (·.withExpected result)).push
          (.ret process result)
        waiting := a.waiting.eraseP (·.process = process) }
    | none => { a with malformed := a.malformed.push ⟨seq, process⟩ }

def add (vocabulary : Vocabulary Op Ret) (a : Progress Op Ret) (record : Record) :
    Progress Op Ret :=
  match record.kind with
  | .invoke call => a.invoke vocabulary record.process call
  | .ret value => a.ret vocabulary record.seq record.process value

end Progress

/-- Records with equal sequence numbers keep their order. -/
def ofRecords (vocabulary : Vocabulary Op Ret) (records : List Record) : Adaptation Op Ret :=
  let a := (Record.sorted records).foldl (Progress.add vocabulary) {}
  ⟨a.events.toList, a.ignored, a.malformed.toList⟩

end Adaptation
end Linearizability
