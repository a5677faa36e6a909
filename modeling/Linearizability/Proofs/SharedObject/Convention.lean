import Linearizability.Value.Conversion
import Linearizability.Vocabulary
import Mathlib.Algebra.Ring.Nat

/-!
# How subjects answer

A subject passes arguments and results as values, and some of these have a meaning of their own:
null stands for an absent item, and a failed call has no result. As long as the items can be told
from such values, the result of an operation can be read off the value that reports it.
-/

namespace Linearizability

/-- How the results of a reference object are reported, so that its vocabulary understands them. -/
structure Convention (σ Op Ret : Type) [ReferenceObject σ Op Ret] where
  vocabulary : Vocabulary Op Ret
  /-- The arguments without a meaning of their own. -/
  Plain : Value → Prop
  /-- The values by which a subject may report a result. -/
  Reports : Ret → Value → Prop
  /-- The object has plain contents, and room for this many more operations. -/
  Fit : Nat → σ → Prop
  observe_eq : ∀ {n object call op value}, Fit (n + 1) object →
    vocabulary.translate call = some op → (∀ arg ∈ call.args, Plain arg) →
    Reports (ReferenceObject.apply object op).1 value →
    vocabulary.observe op value = some (ReferenceObject.apply object op).1
  fit_apply : ∀ {n object call op}, Fit (n + 1) object → vocabulary.translate call = some op →
    (∀ arg ∈ call.args, Plain arg) → Fit n (ReferenceObject.apply object op).2

namespace Convention

variable {call : Call} {value item : Value}

/-- An item that is neither null nor a failure. -/
def IsItem (value : Value) : Prop := value ≠ .null ∧ value.isFailed = false

/-- What a value tells about the item that was taken, if it reports one or its absence. -/
def taken? : Value → Option (Option Value)
  | .failed _ => none
  | .null => some none
  | value => some (some value)

theorem taken?_of_isItem (h : IsItem item) : taken? item = some (some item) := by
  obtain ⟨hnull, hfailed⟩ := h
  cases item with
  | null => exact absurd rfl hnull
  | failed reason => simp [Value.isFailed] at hfailed
  | bool | int | str | list => rfl

/-- An operation that is given an item is given the first argument of its call. -/
theorem mem_args_of_arg? {Op : Type} {make : Value → Op} {named : Prop} [Decidable named]
    {otherwise : Option Op} (hmake : ∀ arg, make arg = make item → arg = item)
    (hotherwise : otherwise ≠ some (make item))
    (h : (if named then (call.arg? 0).map make else otherwise) = some (make item)) :
    item ∈ call.args := by
  split at h
  · obtain ⟨arg, harg, heq⟩ := Option.map_eq_some_iff.1 h
    obtain rfl := hmake arg heq
    exact List.mem_of_getElem? harg
  · exact absurd h hotherwise

section Queue

theorem mem_args_of_enqueue (h : Vocabulary.queue.translate call = some (.enqueue item)) :
    item ∈ call.args :=
  mem_args_of_arg? (fun _ => Queue.Op.enqueue.inj) (by split <;> simp) h

theorem observe_dequeue (value : Value) :
    Vocabulary.queue.observe .dequeue value = (taken? value).map .dequeued := by
  cases value with
  | bool b => cases b <;> rfl
  | _ => rfl

/-- An enqueued item answers true or null, and an empty queue answers null. -/
def queue : Convention (Queue Value) (Queue.Op Value) (Queue.Ret Value) where
  vocabulary := .queue
  Plain := IsItem
  Reports
    | .enqueued, value => value = .bool true ∨ value = .null
    | .dequeued item, value => value = item.getD .null
  Fit _ q := ∀ item ∈ q.items, IsItem item
  observe_eq := by
    rintro _ ⟨items, reversals⟩ call op value hfit - - hreports
    cases op with
    | enqueue item =>
      rcases hreports with rfl | rfl <;> rfl
    | dequeue =>
      cases items with
      | nil =>
        obtain rfl : value = .null := hreports
        rfl
      | cons item items =>
        obtain rfl : value = item := hreports
        rw [observe_dequeue, taken?_of_isItem (hfit value List.mem_cons_self)]
        rfl
  fit_apply := by
    rintro _ ⟨items, reversals⟩ call op hfit htranslate hargs
    cases op with
    | enqueue item =>
      intro other hother
      rcases List.mem_append.1 hother with hmem | hmem
      · exact hfit other hmem
      · obtain rfl := List.mem_singleton.1 hmem
        exact hargs other (mem_args_of_enqueue htranslate)
    | dequeue =>
      cases items with
      | nil => exact hfit
      | cons item items => exact fun other hother => hfit other (List.mem_cons_of_mem item hother)

end Queue

section Stack

theorem mem_args_of_push (h : Vocabulary.stack.translate call = some (.push item)) :
    item ∈ call.args := by
  refine mem_args_of_arg? (fun _ => Stack.Op.push.inj) ?_ h
  split
  · simp
  · split <;> simp

theorem observe_pop (value : Value) :
    Vocabulary.stack.observe .pop value = (taken? value).map .popped := by
  cases value with
  | bool b => cases b <;> rfl
  | _ => rfl

/-- A length in the range of the integers is read as it was. -/
theorem observe_size {n : UInt64} (h : n.toNat < 2 ^ 63) :
    Vocabulary.stack.observe .size (toValue n) = some (.size n) := by
  have hmin : min (n.toNat : Int) (2 ^ 63 - 1) = n.toNat := by omega
  have hint : (Int64.ofInt (n.toNat : Int)).toInt = n.toNat :=
    Int64.toInt_ofInt_of_le (by omega) (by omega)
  have hvalue : toValue n = .int (Int64.ofInt n.toNat) := congrArg (Value.int ∘ Int64.ofInt) hmin
  rw [hvalue]
  simp only [Vocabulary.stack, hint]
  simp

/-- A pushed item answers true or null, and an empty stack answers null. -/
def stack : Convention (Stack Value) (Stack.Op Value) (Stack.Ret Value) where
  vocabulary := .stack
  Plain := IsItem
  Reports
    | .pushed, value => value = .bool true ∨ value = .null
    | .popped item, value => value = item.getD .null
    | .size n, value => value = toValue n
  Fit n s := (∀ item ∈ s.items, IsItem item) ∧ s.items.length + n ≤ 2 ^ 63
  observe_eq := by
    rintro _ ⟨items, reversals⟩ call op value ⟨hitems, hlength⟩ - - hreports
    cases op with
    | push item => rcases hreports with rfl | rfl <;> rfl
    | pop =>
      cases items with
      | nil =>
        obtain rfl : value = .null := hreports
        rfl
      | cons item items =>
        obtain rfl : value = item := hreports
        rw [observe_pop, taken?_of_isItem (hitems value List.mem_cons_self)]
        rfl
    | size =>
      obtain rfl : value = toValue (UInt64.ofNat items.length) := hreports
      refine observe_size ?_
      rw [UInt64.toNat_ofNat']
      dsimp only at hlength
      omega
  fit_apply := by
    rintro _ ⟨items, reversals⟩ call op ⟨hitems, hlength⟩ htranslate hargs
    dsimp only at hlength
    cases op with
    | push item =>
      refine ⟨fun other hother => ?_, ?_⟩
      · rcases List.mem_cons.1 hother with rfl | hmem
        · exact hargs other (mem_args_of_push htranslate)
        · exact hitems other hmem
      · simp only [ReferenceObject.apply, Stack.apply, List.length_cons]
        omega
    | pop =>
      cases items with
      | nil => exact ⟨hitems, by simp only [ReferenceObject.apply, Stack.apply]; omega⟩
      | cons item items =>
        refine ⟨fun other hother => hitems other (List.mem_cons_of_mem item hother), ?_⟩
        simp only [List.length_cons] at hlength
        simp only [ReferenceObject.apply, Stack.apply]
        omega
    | size => exact ⟨hitems, by simp only [ReferenceObject.apply, Stack.apply]; omega⟩

end Stack

section Register

theorem mem_args_of_write (h : Vocabulary.register.translate call = some (.write item)) :
    item ∈ call.args :=
  mem_args_of_arg? (fun _ => Register.Op.write.inj) (by split <;> simp) h

theorem observe_read (h : item.isFailed = false) :
    Vocabulary.register.observe .read item = some (.read item) := by
  cases item with
  | failed reason => simp [Value.isFailed] at h
  | null | bool | int | str | list => rfl

/-- A write answers true or null, and a read answers the value, which may be null. -/
def register : Convention (Register Value) (Register.Op Value) (Register.Ret Value) where
  vocabulary := .register
  Plain value := value.isFailed = false
  Reports
    | .written, value => value = .bool true ∨ value = .null
    | .read held, value => value = held
  Fit _ r := r.value.isFailed = false
  observe_eq := by
    rintro _ ⟨held, reversals⟩ call op value hfit - - hreports
    cases op with
    | write item => rcases hreports with rfl | rfl <;> rfl
    | read =>
      obtain rfl : value = held := hreports
      exact observe_read hfit
  fit_apply := by
    rintro _ ⟨held, reversals⟩ call op hfit htranslate hargs
    cases op with
    | write item => exact hargs item (mem_args_of_write htranslate)
    | read => exact hfit

end Register

end Convention
end Linearizability
