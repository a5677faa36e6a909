import Linearizability.Search.Basic
import Mathlib.Algebra.Ring.Nat
import Mathlib.Data.List.Basic
import Mathlib.Data.List.Induction
import Mathlib.Tactic.ByContra

/-!
# Candidates

At a return the search considers every process of the history once, the returning process last.
-/

namespace Linearizability

theorem ProcessId.toNat_lt (p : ProcessId) : p.toNat < 2 ^ 64 := p.index.toNat_lt

namespace Search

variable {Op Ret : Type} {events : List (Event Op Ret)} {event : Event Op Ret}
variable {count k l : Nat} {p r : ProcessId}

theorem processCount_concat (events : List (Event Op Ret)) (event : Event Op Ret) :
    processCount (events ++ [event]) = max (processCount events) (event.process.toNat + 1) := by
  simp [processCount]

theorem processCount_le_iff :
    processCount events ≤ count ↔ ∀ event ∈ events, event.process.toNat < count := by
  induction events using List.reverseRecOn with
  | nil => simp [processCount]
  | append_singleton events event ih =>
    rw [processCount_concat, Nat.max_le, ih, List.forall_mem_append, List.forall_mem_singleton,
      Nat.succ_le_iff]

theorem lt_processCount (h : event ∈ events) : event.process.toNat < processCount events :=
  processCount_le_iff.1 (Nat.le_refl _) event h

theorem lt_processCount_of_getElem? {i : Nat} (h : events[i]? = some event) :
    event.process.toNat < processCount events :=
  lt_processCount (List.mem_of_getElem? h)

theorem processCount_le (events : List (Event Op Ret)) : processCount events ≤ 2 ^ 64 :=
  processCount_le_iff.2 fun event _ => event.process.toNat_lt

section Candidates

theorem toNat_candidate (hcount : count ≤ 2 ^ 64) (hr : r.toNat < count) (hk : k + 1 < count) :
    (candidate count r k).toNat =
      if r.toNat + 1 + k < count then r.toNat + 1 + k else r.toNat + 1 + k - count := by
  have hmod : (r.toNat + 1 + k) % count =
      if r.toNat + 1 + k < count then r.toNat + 1 + k else r.toNat + 1 + k - count := by
    split
    · exact Nat.mod_eq_of_lt ‹_›
    · rw [Nat.mod_eq_sub_mod (by omega), Nat.mod_eq_of_lt (by omega)]
  have hlt : (r.toNat + 1 + k) % count < count := Nat.mod_lt _ (by omega)
  rw [candidate, if_neg (by omega), ProcessId.toNat_ofNat (Nat.lt_of_lt_of_le hlt hcount), hmod]

theorem candidate_eq_self_iff (hcount : count ≤ 2 ^ 64) (hr : r.toNat < count) (hk : k < count) :
    candidate count r k = r ↔ k + 1 = count := by
  constructor
  · intro h
    by_contra hne
    have := toNat_candidate hcount hr (show k + 1 < count by omega)
    rw [h] at this
    split at this <;> omega
  · intro h
    rw [candidate, if_pos h]

theorem toNat_candidate_lt (hcount : count ≤ 2 ^ 64) (hr : r.toNat < count) (hk : k < count) :
    (candidate count r k).toNat < count := by
  by_cases hlast : k + 1 = count
  · rwa [(candidate_eq_self_iff hcount hr hk).2 hlast]
  · rw [toNat_candidate hcount hr (by omega)]
    split <;> omega

theorem exists_candidate (hcount : count ≤ 2 ^ 64) (hr : r.toNat < count) (hp : p.toNat < count) :
    ∃ k, k < count ∧ candidate count r k = p := by
  rcases Nat.lt_trichotomy p.toNat r.toNat with hlt | heq | hlt
  · refine ⟨p.toNat + count - r.toNat - 1, by omega, ProcessId.toNat_injective ?_⟩
    rw [toNat_candidate hcount hr (by omega), if_neg (by omega)]
    omega
  · obtain rfl := ProcessId.toNat_injective heq
    exact ⟨count - 1, by omega, (candidate_eq_self_iff hcount hr (by omega)).2 (by omega)⟩
  · refine ⟨p.toNat - r.toNat - 1, by omega, ProcessId.toNat_injective ?_⟩
    rw [toNat_candidate hcount hr (by omega), if_pos (by omega)]
    omega

theorem candidate_injective (hcount : count ≤ 2 ^ 64) (hr : r.toNat < count)
    (hk : k < count) (hl : l < count) (h : candidate count r k = candidate count r l) : k = l := by
  by_cases hlast : k + 1 = count ∨ l + 1 = count
  · have hk' := candidate_eq_self_iff hcount hr hk
    have hl' := candidate_eq_self_iff hcount hr hl
    rw [h] at hk'
    have hboth : k + 1 = count ↔ l + 1 = count := hk'.symm.trans hl'
    omega
  · have htoNat : (candidate count r k).toNat = (candidate count r l).toNat := congrArg _ h
    rw [toNat_candidate hcount hr (by omega), toNat_candidate hcount hr (by omega)] at htoNat
    split at htoNat <;> split at htoNat <;> omega

end Candidates
end Search
end Linearizability
