import Linearizability.Record
import Linearizability.Value.Codec

/-!
# Records as JSON

A process is a bare number; operations, calls and records are objects with a field for each part.
-/

namespace Linearizability

open JsonCodec

instance : JsonCodec ProcessId where
  encode p := encode p.index
  decode json := (decode json).map ProcessId.mk

instance : JsonCodec CallId where
  encode id := .obj [("process", encode id.process), ("index", encode id.index)]
  decode json := do
    let [process, index] ← json.record? ["process", "index"] | none
    return ⟨← required process, ← required index⟩

instance : JsonCodec Operation where
  encode op := .obj [("name", encode op.name), ("arity", encode op.arity)]
  decode json := do
    let [name, arity] ← json.record? ["name", "arity"] | none
    return ⟨← required name, ← required arity⟩

instance : JsonCodec Call where
  encode call := .obj [("operation", encode call.operation), ("args", encode call.args)]
  decode json := do
    let [operation, args] ← json.record? ["operation", "args"] | none
    return ⟨← required operation, ← required args⟩

instance : JsonCodec Record.Kind where
  encode
    | .invoke call => .tagged "Invoke" (encode call)
    | .ret value => .tagged "Return" (encode value)
  decode json :=
    match json.alternative? with
    | some ("Invoke", some content) => (decode content).map .invoke
    | some ("Return", some content) => (decode content).map .ret
    | _ => none

instance : JsonCodec Record where
  encode record := .obj [("seq", encode record.seq), ("process", encode record.process),
    ("call", encode record.call), ("kind", encode record.kind)]
  decode json := do
    let [seq, process, call, kind] ← json.record? ["seq", "process", "call", "kind"] | none
    return ⟨← required seq, ← required process, ← required call, ← required kind⟩

end Linearizability
