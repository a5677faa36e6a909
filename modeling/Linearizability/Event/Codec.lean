import Linearizability.Event
import Linearizability.Record.Codec

/-!
# Events as JSON

An event is an alternative with fields of its own. An expected or observed result that is not there
is `null`.
-/

namespace Linearizability

open JsonCodec

instance {Op Ret : Type} [JsonCodec Op] [JsonCodec Ret] : JsonCodec (Event Op Ret) where
  encode
    | .invoke process label op expected => .tagged "Invoke" (.obj [("process", encode process),
        ("label", encode label), ("op", encode op), ("expected", encode expected)])
    | .ret process result => .tagged "Return" (.obj [("process", encode process),
        ("result", encode result)])
  decode json := do
    match json.alternative? with
    | some ("Invoke", some content) =>
      let [process, label, op, expected] ← content.branch? ["process", "label", "op", "expected"]
        | none
      return .invoke (← required process) (← required label) (← required op) (← nullable expected)
    | some ("Return", some content) =>
      let [process, result] ← content.branch? ["process", "result"] | none
      return .ret (← required process) (← nullable result)
    | _ => none

end Linearizability
