import Linearizability.Value

/-!
# The order of values

Null comes first, then booleans, integers, texts, lists and failures. Two values of one kind compare
by content: texts by code point, lists element by element with a shorter list before its extensions.
-/

namespace Linearizability

/-- The first difference decides, and a list comes before its extensions. -/
def compareLists {α : Type} (compareItems : α → α → Ordering) : List α → List α → Ordering
  | [], [] => .eq
  | [], _ :: _ => .lt
  | _ :: _, [] => .gt
  | a :: as, b :: bs => (compareItems a b).then (compareLists compareItems as bs)

namespace Value

def rank : Value → Nat
  | .null => 0
  | .bool _ => 1
  | .int _ => 2
  | .str _ => 3
  | .list _ => 4
  | .failed _ => 5

mutual

def order : Value → Value → Ordering
  | .bool a, .bool b => compare a b
  | .int a, .int b => compare a.toInt b.toInt
  | .str a, .str b => compare a b
  | .list as, .list bs => orderAll as bs
  | .failed a, .failed b => compare a b
  | a, b => compare a.rank b.rank

def orderAll : List Value → List Value → Ordering
  | [], [] => .eq
  | [], _ :: _ => .lt
  | _ :: _, [] => .gt
  | a :: as, b :: bs => (order a b).then (orderAll as bs)

end

instance : Ord Value := ⟨order⟩

theorem orderAll_eq_compareLists : ∀ as bs : List Value, orderAll as bs = compareLists order as bs
  | [], [] => by simp [orderAll, compareLists]
  | [], _ :: _ => by simp [orderAll, compareLists]
  | _ :: _, [] => by simp [orderAll, compareLists]
  | _ :: as, _ :: bs => by simp [orderAll, compareLists, orderAll_eq_compareLists as bs]

end Value
end Linearizability
