import Linearizability.Value

/-!
# Conversion to values

What a subject's own types become when they cross the boundary. A size beyond the integers' range
becomes the largest integer, and an absent value becomes null.
-/

namespace Linearizability

class ToValue (α : Type) where
  toValue : α → Value

export ToValue (toValue)

instance : ToValue Bool := ⟨.bool⟩

instance : ToValue Int64 := ⟨.int⟩

instance : ToValue Int32 := ⟨fun n => .int n.toInt64⟩

instance : ToValue UInt64 := ⟨fun n => .int (Int64.ofInt (min n.toNat Int64.maxValue.toInt))⟩

instance : ToValue String := ⟨.str⟩

instance {α : Type} [ToValue α] : ToValue (Option α) where
  toValue
    | none => .null
    | some a => toValue a

instance {α : Type} [ToValue α] : ToValue (List α) where
  toValue items := .list (items.map toValue)

end Linearizability
