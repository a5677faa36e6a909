import Linearizability.Json.Codec
import Linearizability.Verdict

/-!
# Verdicts as JSON

Only a failure has content: the furthest positions and what was rejected there.
-/

namespace Linearizability

open JsonCodec

variable {Ret : Type} [JsonCodec Ret]

instance : JsonCodec (ProcessReach Ret) where
  encode r := .obj [("furthest", encode r.furthest), ("rejected", encode r.rejected)]
  decode json := do
    let [furthest, rejected] ← json.record? ["furthest", "rejected"] | none
    return ⟨← nullable furthest, ← required rejected⟩

instance : JsonCodec (Reach Ret) where
  encode r := .obj [("furthest", encode r.furthest), ("processes", encode r.processes)]
  decode json := do
    let [furthest, processes] ← json.record? ["furthest", "processes"] | none
    return ⟨← required furthest, ← required processes⟩

instance : JsonCodec (Verdict Ret) where
  encode
    | .linearizable => .str "Success"
    | .notLinearizable reach => .tagged "Failure" (encode reach)
    | .interrupted => .str "Interrupted"
    | .exhausted => .str "OutOfSteam"
  decode json :=
    match json.alternative? with
    | some ("Success", content) => if Json.isVoid content then some .linearizable else none
    | some ("Failure", some content) => (decode content).map .notLinearizable
    | some ("Interrupted", content) => if Json.isVoid content then some .interrupted else none
    | some ("OutOfSteam", content) => if Json.isVoid content then some .exhausted else none
    | _ => none

end Linearizability
