import Linearizability.Call
import Linearizability.Generator.Uniform
import Linearizability.Process

/-!
# Subjects

A subject is the object under test. It is called by name, and a call may return, fail, panic, or
never come back. Randomly generated calls ask the subject for arguments, which may panic as well;
like a call, the choice may look at the object and change it.
-/

namespace Linearizability

structure CallFailure where
  reason : String
  deriving DecidableEq

instance : ToString CallFailure := ⟨CallFailure.reason⟩

inductive Response where
  | returned (value : Value)
  | failed (failure : CallFailure)
  /-- A panic carries a text, or something else. -/
  | panicked (text : Option String)
  | stalled

namespace Response

/-- What is recorded for the call; nothing is if it never comes back. -/
def value? : Response → Option Value
  | .returned value => some value
  | .failed failure => some (.failed failure.reason)
  | .panicked text => some (.failed (text.getD "panic"))
  | .stalled => none

end Response

namespace Subject

/-- Arguments drawn at random are small integers below this bound. -/
def argumentRange : Nat := 100

def drawIntegers : Nat → Generator → List Value × Generator
  | 0, g => ([], g)
  | n + 1, g =>
    let (i, g) := g.below64 argumentRange
    let (values, g) := drawIntegers n g
    (.int (.ofNat i) :: values, g)

end Subject

structure Subject (σ : Type) where
  /-- What a random workload chooses from. -/
  operations : List Operation
  apply : σ → Call → Response × σ
  /-- There are none if the choice panics. One integer for each parameter is drawn by default. -/
  arguments : σ → Operation → ProcessId → Generator → Option (List Value × Generator) × σ :=
    fun object operation _ g => (some (Subject.drawIntegers operation.arity.toNat g), object)

end Linearizability
