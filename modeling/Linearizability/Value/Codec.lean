import Linearizability.Json.Codec
import Linearizability.Value

/-!
# Values as JSON

A value is an alternative named for its kind.
-/

namespace Linearizability.Value

mutual

def toJson : Value → Json
  | .null => .str "Null"
  | .bool b => .tagged "Bool" (JsonCodec.encode b)
  | .int n => .tagged "Int" (JsonCodec.encode n)
  | .str s => .tagged "Str" (JsonCodec.encode s)
  | .list items => .tagged "List" (.arr (toJsonAll items))
  | .failed reason => .tagged "Failed" (JsonCodec.encode reason)

def toJsonAll : List Value → List Json
  | [] => []
  | item :: items => toJson item :: toJsonAll items

end

mutual

def ofJson? : Json → Option Value
  | .str "Null" => some .null
  | .obj [("Null", .null)] => some .null
  | .obj [("Bool", content)] => (JsonCodec.decode content).map .bool
  | .obj [("Int", content)] => (JsonCodec.decode content).map .int
  | .obj [("Str", content)] => (JsonCodec.decode content).map .str
  | .obj [("List", .arr items)] => (ofJsonAll? items).map .list
  | .obj [("Failed", content)] => (JsonCodec.decode content).map .failed
  | _ => none

def ofJsonAll? : List Json → Option (List Value)
  | [] => some []
  | item :: items => do return (← ofJson? item) :: (← ofJsonAll? items)

end

instance : JsonCodec Value := ⟨toJson, ofJson?⟩

end Linearizability.Value
