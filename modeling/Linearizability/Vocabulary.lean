import Linearizability.Call
import Linearizability.Reference.Queue
import Linearizability.Reference.Register
import Linearizability.Reference.Stack

/-!
# Vocabularies

A vocabulary says which calls of a subject are operations of a reference object, and what the
subject's values tell about the results. A failed call has no result that a reference object could
give.
-/

namespace Linearizability

structure Vocabulary (Op Ret : Type) where
  /-- There is none for a call outside the vocabulary. -/
  translate : Call → Option Op
  /-- There is none for a value that no result explains. -/
  observe : Op → Value → Option Ret

namespace Vocabulary

/-- Adding an item answers `true` or nothing, and taking from an empty queue answers null. -/
def queue : Vocabulary (Queue.Op Value) (Queue.Ret Value) where
  translate call :=
    if call.name ∈ ["offer", "enqueue", "add", "push"] then (call.arg? 0).map .enqueue
    else if call.name ∈ ["poll", "dequeue", "remove"] then some .dequeue
    else none
  observe
    | _, .failed _ => none
    | .enqueue _, .bool true | .enqueue _, .null => some .enqueued
    | .enqueue _, _ => none
    | .dequeue, .null => some (.dequeued none)
    | .dequeue, value => some (.dequeued (some value))

/-- A size is an integer that is not negative. -/
def stack : Vocabulary (Stack.Op Value) (Stack.Ret Value) where
  translate call :=
    if call.name = "push" then (call.arg? 0).map .push
    else if call.name = "pop" then some .pop
    else if call.name ∈ ["len", "size"] then some .size
    else none
  observe
    | _, .failed _ => none
    | .push _, .bool true | .push _, .null => some .pushed
    | .push _, _ => none
    | .pop, .null => some (.popped none)
    | .pop, value => some (.popped (some value))
    | .size, .int n => if 0 ≤ n.toInt then some (.size (.ofNat n.toInt.toNat)) else none
    | .size, _ => none

/-- Whatever a write answers, it took place. -/
def register : Vocabulary (Register.Op Value) (Register.Ret Value) where
  translate call :=
    if call.name ∈ ["write", "set", "put"] then (call.arg? 0).map .write
    else if call.name ∈ ["read", "get"] then some .read
    else none
  observe
    | _, .failed _ => none
    | .write _, _ => some .written
    | .read, value => some (.read value)

end Vocabulary
end Linearizability
