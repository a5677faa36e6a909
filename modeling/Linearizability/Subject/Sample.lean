import Linearizability.Subject

/-!
# Sample subjects

Objects for trying out a checker, some of them faulty on purpose. Each of them understands a few
calls that fail, panic or stall whatever the object is.
-/

namespace Linearizability

inductive Sample.Kind where
  | echo
  | queue
  | twoQueues
  | stack
  | register
  | tornRegister
  /-- It supports no call. -/
  | inert
  deriving DecidableEq

structure Sample where
  kind : Sample.Kind
  /-- The operations in place of the usual ones. -/
  menu : Option (List Operation) := none
  /-- A queue denies every offer whose call number is a multiple of this, unless it is zero. -/
  lieEvery : Nat := 0
  /-- A queue moves the item to its end instead of handing it out, in the same way. -/
  hideEvery : Nat := 0
  /-- The processes for which choosing arguments panics. -/
  panicArguments : List ProcessId := []

namespace Sample

structure State where
  /-- The calls so far. -/
  calls : Nat := 0
  /-- The offers so far. -/
  offers : Nat := 0
  items : List Value := []
  /-- The items of the second of two queues. -/
  others : List Value := []
  value : Value := .null

def Kind.usualMenu : Kind → List Operation
  | .queue | .twoQueues => [⟨"offer", 1⟩, ⟨"poll", 0⟩, ⟨"size", 0⟩]
  | .stack => [⟨"push", 1⟩, ⟨"pop", 0⟩, ⟨"size", 0⟩]
  | .register | .tornRegister => [⟨"write", 1⟩, ⟨"read", 0⟩]
  | .echo | .inert => [⟨"echo", 1⟩]

/-- Whether the rule for every `every`-th call applies to call number `n`. -/
def isDue (every n : Nat) : Bool := every ≠ 0 ∧ n % every = 0

def size (items : List Value) : Value := .int (.ofNat items.length)

/-- The answer to call number `s.calls`, if it is supported. -/
def answer (sample : Sample) (s : State) (call : Call) : Option (Value × State) :=
  match sample.kind, call.name, call.arg? 0 with
  | .echo, "echo", argument => some (argument.getD .null, s)
  | .echo, _, _ => some (.list call.args, s)
  | .queue, "offer", some item =>
    some (.bool (!isDue sample.lieEvery s.calls), { s with items := s.items ++ [item] })
  | .queue, "poll", _ =>
    match s.items with
    | [] => some (.null, s)
    | item :: items =>
      if isDue sample.hideEvery s.calls then some (.null, { s with items := items ++ [item] })
      else some (item, { s with items })
  | .queue, "size", _ => some (size s.items, s)
  | .twoQueues, "offer", some item =>
    let s := { s with offers := s.offers + 1 }
    some (.bool true, if s.offers % 2 = 1 then { s with items := s.items ++ [item] }
      else { s with others := s.others ++ [item] })
  | .twoQueues, "poll", _ =>
    match s.items, s.others with
    | item :: items, _ => some (item, { s with items })
    | [], item :: others => some (item, { s with others })
    | [], [] => some (.null, s)
  | .twoQueues, "size", _ => some (size (s.items ++ s.others), s)
  | .stack, "push", some item => some (.null, { s with items := item :: s.items })
  | .stack, "pop", _ =>
    match s.items with
    | [] => some (.null, s)
    | item :: items => some (item, { s with items })
  | .stack, "size", _ => some (size s.items, s)
  | .register, "write", some value | .tornRegister, "write", some value =>
    some (.null, { s with value })
  | .register, "read", _ => some (s.value, s)
  | .tornRegister, "read", _ => some (.null, s)
  | _, _, _ => none

def apply (sample : Sample) (s : State) (call : Call) : Response × State :=
  match call.name with
  | "fail" => (.failed ⟨toString call⟩, s)
  | "panic_str" => (.panicked (some "exploded"), s)
  | "panic_string" => (.panicked (some (toString call)), s)
  | "panic_other" => (.panicked none, s)
  | "stall" => (.stalled, s)
  | name =>
    let s := { s with calls := s.calls + 1 }
    match sample.answer s call with
    | some (value, s) => (.returned value, s)
    | none => (.failed ⟨"unsupported: " ++ name⟩, s)

def subject (sample : Sample) : Subject State where
  operations := sample.menu.getD sample.kind.usualMenu
  apply := sample.apply
  arguments s operation process g :=
    if process ∈ sample.panicArguments then (none, s)
    else (some (Subject.drawIntegers operation.arity.toNat g), s)

end Sample
end Linearizability
