import Linearizability.Text.Quoted
import Linearizability.Value

/-!
# Written forms of values

The short form reads like a literal of the subject's language. The constructor form names the kind
of every value, so that results of different types can be told apart in a report.
-/

namespace Linearizability

/-- A type whose values have a constructor form. -/
class ConstructorForm (α : Type) where
  constructorForm : α → List Char

export ConstructorForm (constructorForm)

instance {α : Type} [ConstructorForm α] : ConstructorForm (Option α) where
  constructorForm
    | none => "None".toList
    | some a => Text.applied "Some" (constructorForm a)

instance {α : Type} [ConstructorForm α] : ConstructorForm (List α) where
  constructorForm items := Text.bracketed (items.map constructorForm)

namespace Value

def boolForm (b : Bool) : List Char :=
  (if b then "true" else "false").toList

mutual

def shortForm : Value → List Char
  | .null => "null".toList
  | .bool b => boolForm b
  | .int n => Text.decimal n.toInt
  | .str s => Text.quoted s.toList
  | .list items => Text.bracketed (shortForms items)
  | .failed reason => Text.applied "failed" reason.toList

def shortForms : List Value → List (List Char)
  | [] => []
  | item :: items => shortForm item :: shortForms items

end

theorem shortForms_eq_map : ∀ items, shortForms items = items.map shortForm
  | [] => by simp [shortForms]
  | _ :: items => by simp [shortForms, shortForms_eq_map items]

mutual

def fullForm : Value → List Char
  | .null => "Null".toList
  | .bool b => Text.applied "Bool" (boolForm b)
  | .int n => Text.applied "Int" (Text.decimal n.toInt)
  | .str s => Text.applied "Str" (Text.quoted s.toList)
  | .list items => Text.applied "List" (Text.bracketed (fullForms items))
  | .failed reason => Text.applied "Failed" (Text.quoted reason.toList)

def fullForms : List Value → List (List Char)
  | [] => []
  | item :: items => fullForm item :: fullForms items

end

theorem fullForms_eq_map : ∀ items, fullForms items = items.map fullForm
  | [] => by simp [fullForms]
  | _ :: items => by simp [fullForms, fullForms_eq_map items]

instance : ConstructorForm Value := ⟨fullForm⟩

instance : ToString Value := ⟨fun v => String.ofList v.shortForm⟩

end Value
end Linearizability
