import Linearizability.Proofs.Search.Candidate
import Linearizability.Search.Tables

/-!
# When a search begins

A machine lays out the tables that a search asks for, if memory has room for them. Only the process
with the largest number asks for a table that is beyond machine words, and a machine that does not
check its sums must not meet it.
-/

namespace Linearizability

variable {σ Op Ret : Type} {events : List (Event Op Ret)} {event : Event Op Ret} {p : ProcessId}
variable {overflow : Overflow} {machine : Machine}

theorem ProcessId.ne_last_iff : p ≠ .last ↔ p.toNat + 1 < 2 ^ 64 := by
  have hlt := p.toNat_lt
  have hlast : ProcessId.last.toNat = 2 ^ 64 - 1 := rfl
  rw [Ne, ← toNat_inj, hlast]
  omega

/-- All other processes have numbers with a successor, on every machine. -/
theorem Overflow.succ?_of_ne_last (overflow : Overflow) (h : p ≠ .last) :
    ∃ n, overflow.succ? p.index = some n ∧ n.toNat = p.toNat + 1 := by
  have hsum : (p.index + 1).toNat = p.toNat + 1 := by
    rw [UInt64.toNat_add]
    exact Nat.mod_eq_of_lt (ProcessId.ne_last_iff.1 h)
  have hzero : p.index + 1 ≠ 0 := by
    rw [Ne, ← UInt64.toNat_inj, hsum]
    exact Nat.succ_ne_zero _
  refine ⟨p.index + 1, ?_, hsum⟩
  cases overflow with
  | checked => exact if_neg hzero
  | wrapping => rfl

namespace Search

theorem tableSize?_concat (overflow : Overflow) (events : List (Event Op Ret))
    (event : Event Op Ret) : tableSize? overflow (events ++ [event]) =
      (tableSize? overflow events).bind fun size =>
        (overflow.succ? event.process.index).map (max size) := by
  rw [tableSize?, List.foldlM_append]
  simp [tableSize?]

theorem exists_tableSize? (overflow : Overflow) (h : ∀ event ∈ events, event.process ≠ .last) :
    ∃ size, tableSize? overflow events = some size ∧ size.toNat = processCount events := by
  induction events using List.reverseRecOn with
  | nil => exact ⟨0, rfl, rfl⟩
  | append_singleton events event ih =>
    rw [List.forall_mem_append, List.forall_mem_singleton] at h
    obtain ⟨size, hsize, htoNat⟩ := ih h.1
    obtain ⟨n, hn, hsucc⟩ := overflow.succ?_of_ne_last h.2
    refine ⟨max size n, by simp [tableSize?_concat, hsize, hn], ?_⟩
    rw [processCount_concat, UInt64.toNat_max, htoNat, hsucc]

theorem tableSize?_checked_of_last (h : ∃ event ∈ events, event.process = .last) :
    tableSize? .checked events = none := by
  induction events using List.reverseRecOn with
  | nil => simp at h
  | append_singleton events event ih =>
    rw [tableSize?_concat]
    by_cases hlast : event.process = .last
    · rw [hlast]
      exact Option.bind_eq_none_iff.2 fun _ _ => rfl
    · rw [ih (by simpa [hlast] using h)]
      rfl

theorem begin?_of_ne_last (object : σ) (h : ∀ event ∈ events, event.process ≠ .last) :
    (begin? machine object events : Option (Search σ Ret)) =
      if processCount events ≤ machine.room.toNat then some (start object events) else none := by
  obtain ⟨size, hsize, htoNat⟩ := exists_tableSize? machine.overflow h
  rw [begin?, hsize, Option.bind_some, ← htoNat]
  simp only [UInt64.le_iff_toNat_le, htoNat, start]

/-- A search begins with an entry for each of its processes, if there is room for the tables. -/
theorem begin?_eq_some_iff {object : σ} {s : Search σ Ret}
    (h : machine.overflow = .wrapping → ∀ event ∈ events, event.process ≠ .last) :
    begin? machine object events = some s ↔
      (∀ event ∈ events, event.process.index < machine.room) ∧ start object events = s := by
  by_cases hlast : ∃ event ∈ events, event.process = .last
  · obtain ⟨event, hmem, hevent⟩ := hlast
    have hchecked : machine.overflow = .checked := by
      cases hoverflow : machine.overflow with
      | checked => rfl
      | wrapping => exact absurd hevent (h hoverflow event hmem)
    have hroom : ¬ event.process.index < machine.room := by
      have hlt := machine.room.toNat_lt
      have hlast : ProcessId.last.index.toNat = 2 ^ 64 - 1 := rfl
      rw [hevent, UInt64.lt_iff_toNat_lt, hlast]
      omega
    rw [begin?, hchecked, tableSize?_checked_of_last ⟨event, hmem, hevent⟩]
    simp only [Option.bind_none, reduceCtorEq, false_iff]
    exact fun hs => hroom (hs.1 event hmem)
  · rw [begin?_of_ne_last object (by simpa using hlast), Option.ite_none_right_eq_some,
      Option.some.injEq, processCount_le_iff]
    rfl

end Search
end Linearizability
