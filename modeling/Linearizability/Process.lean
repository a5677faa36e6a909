import Linearizability.Text.Aligned

/-!
# Processes and calls by name

A process is a single-threaded caller, named by its number. A call is named by its process and its
position among the calls of that process, so an invocation and its return stay paired after the
records of several processes are merged.
-/

namespace Linearizability

structure ProcessId where
  index : UInt64
  deriving DecidableEq, Inhabited

namespace ProcessId

/-- The position of the process in a table with one entry per process. -/
def toNat (p : ProcessId) : Nat := p.index.toNat

def ofNat (n : Nat) : ProcessId := ⟨.ofNat n⟩

theorem toNat_ofNat {n : Nat} (h : n < UInt64.size) : (ofNat n).toNat = n :=
  UInt64.toNat_ofNat_of_lt' h

theorem toNat_injective {p q : ProcessId} (h : p.toNat = q.toNat) : p = q := by
  cases p; cases q; simpa [toNat, UInt64.toNat_inj] using h

@[simp] theorem toNat_inj {p q : ProcessId} : p.toNat = q.toNat ↔ p = q :=
  ⟨toNat_injective, congrArg toNat⟩

instance : Ord ProcessId := ⟨fun p q => compare p.index q.index⟩

instance : ToString ProcessId := ⟨fun p => "P" ++ toString p.index⟩

/-- Only the number is aligned; the letter stands before the filling. -/
def alignRight (width : Nat) (p : ProcessId) : String :=
  "P" ++ Text.alignRight width (toString p.index)

def alignLeft (width : Nat) (p : ProcessId) : String :=
  "P" ++ Text.alignLeft width (toString p.index)

/-- The entry of a process in a table. -/
def lookup? {α : Type} (p : ProcessId) (table : List α) : Option α :=
  table[p.toNat]?

/-- The table with another entry for the process, unless it has none. -/
def replace? {α : Type} (p : ProcessId) (a : α) (table : List α) : Option (List α) :=
  if p.toNat < table.length then some (table.set p.toNat a) else none

section Table

variable {α : Type} {p q : ProcessId} {a b : α} {table : List α}

theorem lookup?_isSome_iff : (p.lookup? table).isSome ↔ p.toNat < table.length := by
  simp [lookup?]

theorem lt_length_of_lookup? (h : p.lookup? table = some a) : p.toNat < table.length :=
  (List.getElem?_eq_some_iff.1 h).1

theorem lookup?_ofNat {i : Nat} (hlength : table.length ≤ UInt64.size) (hi : i < table.length) :
    (ofNat i).lookup? table = some table[i] := by
  rw [lookup?, toNat_ofNat (Nat.lt_of_lt_of_le hi hlength), List.getElem?_eq_getElem hi]

theorem lookup?_set_self (h : p.toNat < table.length) :
    p.lookup? (table.set p.toNat a) = some a := by
  simp [lookup?, h]

theorem lookup?_set_ne (h : p ≠ q) : q.lookup? (table.set p.toNat a) = q.lookup? table :=
  List.getElem?_set_ne fun hpq => h (toNat_inj.1 hpq)

theorem eq_or_lookup?_of_set (h : q.lookup? (table.set p.toNat a) = some b) :
    p = q ∧ b = a ∨ p ≠ q ∧ q.lookup? table = some b := by
  by_cases hpq : p = q
  · subst hpq
    have hp : p.toNat < table.length := by simpa using lt_length_of_lookup? h
    rw [lookup?_set_self hp] at h
    exact .inl ⟨rfl, (Option.some.inj h).symm⟩
  · rw [lookup?_set_ne hpq] at h
    exact .inr ⟨hpq, h⟩

theorem set_set_of_lookup? (h : p.lookup? table = some a) :
    (table.set p.toNat b).set p.toNat a = table := by
  obtain ⟨hp, rfl⟩ := List.getElem?_eq_some_iff.1 h
  simp

end Table

end ProcessId

structure CallId where
  process : ProcessId
  index : UInt32
  deriving DecidableEq, Inhabited

namespace CallId

instance : Ord CallId :=
  ⟨fun a b => (compare a.process b.process).then (compare a.index b.index)⟩

instance : ToString CallId := ⟨fun id => toString id.process ++ "#" ++ toString id.index⟩

end CallId
end Linearizability
