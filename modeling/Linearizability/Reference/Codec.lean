import Linearizability.Json.Codec
import Linearizability.Reference.Queue
import Linearizability.Reference.Register
import Linearizability.Reference.Stack

/-!
# Operations and results as JSON

An operation or a result is an alternative, whose content is the item that it carries. The absent
item of a removal is `null`, while an item that is null itself is written like any other value.
-/

namespace Linearizability

open JsonCodec

variable {α : Type} [JsonCodec α]

instance : JsonCodec (Queue.Op α) where
  encode
    | .enqueue item => .tagged "Enqueue" (encode item)
    | .dequeue => .str "Dequeue"
  decode json :=
    match json.alternative? with
    | some ("Enqueue", some content) => (decode content).map .enqueue
    | some ("Dequeue", content) => if Json.isVoid content then some .dequeue else none
    | _ => none

instance : JsonCodec (Queue.Ret α) where
  encode
    | .enqueued => .str "EnqueueOk"
    | .dequeued item => .tagged "DequeueOk" (encode item)
  decode json :=
    match json.alternative? with
    | some ("EnqueueOk", content) => if Json.isVoid content then some .enqueued else none
    | some ("DequeueOk", some content) => (decode content).map .dequeued
    | _ => none

instance : JsonCodec (Stack.Op α) where
  encode
    | .push item => .tagged "Push" (encode item)
    | .pop => .str "Pop"
    | .size => .str "Len"
  decode json :=
    match json.alternative? with
    | some ("Push", some content) => (decode content).map .push
    | some ("Pop", content) => if Json.isVoid content then some .pop else none
    | some ("Len", content) => if Json.isVoid content then some .size else none
    | _ => none

instance : JsonCodec (Stack.Ret α) where
  encode
    | .pushed => .str "PushOk"
    | .popped item => .tagged "PopOk" (encode item)
    | .size n => .tagged "LenOk" (encode n)
  decode json :=
    match json.alternative? with
    | some ("PushOk", content) => if Json.isVoid content then some .pushed else none
    | some ("PopOk", some content) => (decode content).map .popped
    | some ("LenOk", some content) => (decode content).map .size
    | _ => none

instance : JsonCodec (Register.Op α) where
  encode
    | .write value => .tagged "Write" (encode value)
    | .read => .str "Read"
  decode json :=
    match json.alternative? with
    | some ("Write", some content) => (decode content).map .write
    | some ("Read", content) => if Json.isVoid content then some .read else none
    | _ => none

instance : JsonCodec (Register.Ret α) where
  encode
    | .written => .str "WriteOk"
    | .read value => .tagged "ReadOk" (encode value)
  decode json :=
    match json.alternative? with
    | some ("WriteOk", content) => if Json.isVoid content then some .written else none
    | some ("ReadOk", some content) => (decode content).map .read
    | _ => none

end Linearizability
