import Linearizability.Trial
import Linearizability.Report

/-!
# Settings and counts as JSON

Objects with a field for each part.
-/

namespace Linearizability

open JsonCodec

instance : JsonCodec RecorderKind where
  encode
    | .shared => .str "Shared"
    | .perProcess => .str "PerProcess"
  decode json :=
    match json.alternative? with
    | some ("Shared", content) => if Json.isVoid content then some .shared else none
    | some ("PerProcess", content) => if Json.isVoid content then some .perProcess else none
    | _ => none

instance : JsonCodec Settings where
  encode s := .obj [("processes", encode s.processes), ("operations", encode s.operations),
    ("join_timeout", encode s.joinTimeout), ("recorder", encode s.recorder)]
  decode json := do
    let [processes, operations, joinTimeout, recorder] ←
      json.record? ["processes", "operations", "join_timeout", "recorder"] | none
    return ⟨← required processes, ← required operations, ← required joinTimeout,
      ← required recorder⟩

instance : JsonCodec Counts where
  encode s := .obj [("operations", encode s.operations), ("events", encode s.events),
    ("ignored", encode s.ignored), ("malformed", encode s.malformed),
    ("stragglers", encode s.stragglers), ("panicked", encode s.panicked), ("steps", encode s.steps)]
  decode json := do
    let [operations, events, ignored, malformed, stragglers, panicked, steps] ← json.record?
      ["operations", "events", "ignored", "malformed", "stragglers", "panicked", "steps"] | none
    return ⟨← required operations, ← required events, ← required ignored, ← required malformed,
      ← required stragglers, ← required panicked, ← required steps⟩

end Linearizability
