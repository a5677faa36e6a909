import Linearizability.Json

/-!
# Values as JSON documents

A type's encoding and decoding stand side by side. Decoding refuses a number outside the type's
range, and an absent value is `null`.
-/

namespace Linearizability

class JsonCodec (α : Type) where
  encode : α → Json
  decode : Json → Option α

namespace JsonCodec

instance : JsonCodec Bool where
  encode b := .bool b
  decode
    | .bool b => some b
    | _ => none

instance : JsonCodec String where
  encode s := .str s
  decode
    | .str s => some s
    | _ => none

/-- A natural number below `bound`. -/
def decodeBelow (bound : Nat) : Json → Option Nat
  | .int n => if 0 ≤ n ∧ n < bound then some n.toNat else none
  | _ => none

/-- Lengths and positions are read as machine words. -/
instance : JsonCodec Nat where
  encode n := .int n
  decode := decodeBelow UInt64.size

instance : JsonCodec UInt64 where
  encode n := .int n.toNat
  decode json := (decodeBelow UInt64.size json).map UInt64.ofNat

instance : JsonCodec UInt32 where
  encode n := .int n.toNat
  decode json := (decodeBelow UInt32.size json).map UInt32.ofNat

instance : JsonCodec Int64 where
  encode n := .int n.toInt
  decode
    | .int n =>
      if Int64.minValue.toInt ≤ n ∧ n ≤ Int64.maxValue.toInt then some (.ofInt n) else none
    | _ => none

instance : JsonCodec Int32 where
  encode n := .int n.toInt
  decode
    | .int n =>
      if Int32.minValue.toInt ≤ n ∧ n ≤ Int32.maxValue.toInt then some (.ofInt n) else none
    | _ => none

instance {α : Type} [JsonCodec α] : JsonCodec (List α) where
  encode items := .arr (items.map encode)
  decode
    | .arr items => items.mapM decode
    | _ => none

instance {α : Type} [JsonCodec α] : JsonCodec (Option α) where
  encode
    | none => .null
    | some a => encode a
  decode
    | .null => some none
    | json => (decode json).map some

/-- A field that must be present. -/
def required {α : Type} [JsonCodec α] (field : Option Json) : Option α :=
  field.bind decode

/-- An absent field stands for `null`. -/
def nullable {α : Type} [JsonCodec α] (field : Option Json) : Option (Option α) :=
  decode (field.getD .null)

end JsonCodec
end Linearizability
