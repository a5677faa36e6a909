/-!
# Values

Arguments and results pass a dynamically typed boundary, so all of them share one type. A failed
call has the reason of its failure for a result.
-/

namespace Linearizability

inductive Value where
  | null
  | bool (b : Bool)
  | int (n : Int64)
  | str (s : String)
  | list (items : List Value)
  | failed (reason : String)
  deriving Inhabited

namespace Value

def isFailed : Value → Bool
  | .failed _ => true
  | _ => false

def asInt : Value → Option Int64
  | .int n => some n
  | _ => none

def asBool : Value → Option Bool
  | .bool b => some b
  | _ => none

mutual

def equal : Value → Value → Bool
  | .null, .null => true
  | .bool a, .bool b => a = b
  | .int a, .int b => a = b
  | .str a, .str b => a = b
  | .list as, .list bs => equalAll as bs
  | .failed a, .failed b => a = b
  | _, _ => false

def equalAll : List Value → List Value → Bool
  | [], [] => true
  | a :: as, b :: bs => equal a b && equalAll as bs
  | _, _ => false

end

mutual

theorem equal_iff : ∀ a b : Value, equal a b = true ↔ a = b
  | .list as, b => by cases b <;> simp [equal, equalAll_iff as]
  | .null, b => by cases b <;> simp [equal]
  | .bool _, b => by cases b <;> simp [equal]
  | .int _, b => by cases b <;> simp [equal]
  | .str _, b => by cases b <;> simp [equal]
  | .failed _, b => by cases b <;> simp [equal]

theorem equalAll_iff : ∀ as bs : List Value, equalAll as bs = true ↔ as = bs
  | [], bs => by cases bs <;> simp [equalAll]
  | a :: as, bs => by cases bs <;> simp [equalAll, equal_iff a, equalAll_iff as]

end

instance : DecidableEq Value := fun a b => decidable_of_iff _ (equal_iff a b)

end Value
end Linearizability
