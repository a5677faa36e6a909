/-!
# JSON documents

A document keeps the order of an object's fields. Integers are exact; a number written with a
fraction or an exponent is not an integer, whatever its value, and is kept as its text.
-/

namespace Linearizability

inductive Json where
  | null
  | bool (b : Bool)
  | int (n : Int)
  | real (text : String)
  | str (s : String)
  | arr (items : List Json)
  | obj (fields : List (String × Json))
  deriving Inhabited

namespace Json

def field? : Json → String → Option Json
  | .obj fields, name => fields.lookup name
  | _, _ => none

/-- The named fields of a record: an object, in which other fields are ignored and absent ones show
as `none`, or an array of exactly these fields in order. -/
def record? (names : List String) : Json → Option (List (Option Json))
  | .obj fields => some (names.map fun name => fields.lookup name)
  | .arr items => if items.length = names.length then some (items.map some) else none
  | _ => none

/-- The named fields of an alternative that has fields of its own, which only an object can hold. -/
def branch? (names : List String) : Json → Option (List (Option Json))
  | .obj fields => some (names.map fun name => fields.lookup name)
  | _ => none

/-- An alternative is its bare name, or an object whose only field is that name with the content. -/
def alternative? : Json → Option (String × Option Json)
  | .str name => some (name, none)
  | .obj [(name, content)] => some (name, some content)
  | _ => none

/-- An alternative without content may also be written with the content `null`. -/
def isVoid : Option Json → Bool
  | none | some .null => true
  | _ => false

/-- The alternative of that name, with its content. -/
def tagged (name : String) (content : Json) : Json :=
  .obj [(name, content)]

end Json
end Linearizability
