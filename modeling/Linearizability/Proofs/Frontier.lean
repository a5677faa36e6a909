import Linearizability.Proofs.Judgment
import Linearizability.Reference.Register

/-!
# Where a history stops being linearizable

A tester that finds a history not to be linearizable tells the furthest position that its search
reached. The main statement is that this position depends on nothing but the history: the event
there is the return with which the history stops being linearizable, and every longer part of the
history is judged with the same furthest position.
-/

namespace Linearizability

open Turn

variable {σ Op Ret : Type} [ReferenceObject σ Op Ret] [DecidableEq Ret]
variable {events : List (Event Op Ret)}

section Ending

variable {object left left' : σ} {outcome : Except Search.Fault (Verdict Ret)} {reach : Reach Ret}
variable {j : Nat}

namespace Search.Ending

theorem furthest_lt (h : Ending events object (.ok (.notLinearizable reach)) left) :
    reach.furthest < events.length := by
  cases h with
  | notLinearizable _ hlt _ => exact hlt

theorem linearizable_take_iff (h : Ending events object (.ok (.notLinearizable reach)) left)
    (hj : j ≤ events.length) :
    Linearizable object (events.take j) ↔ j ≤ reach.furthest := by
  cases h with
  | notLinearizable _ _ hfurthest => exact hfurthest j hj

/-- An invocation at the furthest position would leave the history linearizable. -/
theorem exists_ret (h : Ending events object (.ok (.notLinearizable reach)) left) :
    ∃ p result, events[reach.furthest]? = some (.ret p result) := by
  have hlt := h.furthest_lt
  cases he : events[reach.furthest]? with
  | none =>
    have := List.getElem?_eq_none_iff.1 he
    omega
  | some event =>
    cases event with
    | ret p result => exact ⟨p, result, rfl⟩
    | invoke p label op expected =>
      have hlin := (h.linearizable_take_iff (Nat.le_of_lt hlt)).2 (Nat.le_refl _)
      have hnext := hlin.take_succ (turn_invokes_iff.2 ⟨label, op, expected, he⟩)
      have := (h.linearizable_take_iff hlt).1 hnext
      omega

/-- The history stops being linearizable before it breaks the alternation. -/
theorem not_linearizable_take (h : Ending events object (.ok (.notLinearizable reach)) left)
    (hj : FirstBreak (events.map Event.turn) j) : ¬ Linearizable object (events.take j) := by
  cases h with
  | notLinearizable hbreak _ _ => exact hbreak j hj

/-- A part of the history ends like the whole if it contains the furthest position, and in success
if not. -/
theorem take (h : Ending events object (.ok (.notLinearizable reach)) left)
    (hj : j ≤ events.length) (h' : Ending (events.take j) object outcome left') :
    j ≤ reach.furthest ∧ outcome = .ok .linearizable ∨
      reach.furthest < j ∧
        ∃ reach', outcome = .ok (.notLinearizable reach') ∧ reach'.furthest = reach.furthest := by
  cases h' with
  | linearizable _ hlin => exact .inl ⟨(h.linearizable_take_iff hj).1 hlin, rfl⟩
  | @broken v _ order _ _ hv horder _ =>
    have hvj : v < j := by
      have := hv.lt_length
      rw [List.length_map, List.length_take] at this
      omega
    rw [List.map_take] at hv
    rw [List.take_take, Nat.min_eq_left (Nat.le_of_lt hvj)] at horder
    exact absurd ⟨order, horder⟩ (h.not_linearizable_take hv.of_take)
  | @notLinearizable reach' _ hlt hfurthest =>
    rw [List.length_take, Nat.min_eq_left hj] at hlt hfurthest
    have hsame : ∀ i ≤ j, i ≤ reach.furthest ↔ i ≤ reach'.furthest := by
      intro i hi
      rw [← hfurthest i hi, List.take_take, Nat.min_eq_left hi,
        h.linearizable_take_iff (hi.trans hj)]
    have hlater := hsame j (Nat.le_refl j)
    have hhere := hsame reach'.furthest (Nat.le_of_lt hlt)
    have hthere := hsame reach.furthest
    exact .inr ⟨by omega, reach', rfl, by omega⟩

end Search.Ending

end Ending

namespace Tester

variable [LawfulUndo σ]

/-- When a tester finds a history not to be linearizable, a return stands at the furthest position.
The history before it is judged to be linearizable, and each longer part to fail at the same
position. So the searched part is the shortest one that is not linearizable. -/
theorem judge_searchedPart (t : Tester σ) (events : List (Event Op Ret))
    (hlimits : t.limits.Unlimited) {reach : Reach Ret}
    (hfail : (t.judge events).1 = .ok (.notLinearizable reach)) :
    (∃ p result, events[reach.furthest]? = some (.ret p result)) ∧
      (t.judge (events.take reach.furthest)).1 = .ok .linearizable ∧
      (∀ j, reach.furthest < j → j ≤ events.length → ∃ reach',
        (t.judge (events.take j)).1 = .ok (.notLinearizable reach') ∧
          reach'.furthest = reach.furthest) ∧
      (reach.searchedPart events).length = reach.furthest + 1 ∧
      ¬ Linearizable t.object (reach.searchedPart events) ∧
      ∀ part, part <+: events → ¬ Linearizable t.object part →
        reach.searchedPart events <+: part := by
  have hending := t.judge_ending events hlimits
  rw [hfail] at hending
  have hlt := hending.furthest_lt
  refine ⟨hending.exists_ret, ?_, ?_, ?_, ?_, ?_⟩
  · have hbefore := t.judge_ending (events.take reach.furthest) hlimits
    rcases hending.take (Nat.le_of_lt hlt) hbefore with ⟨-, ho⟩ | ⟨hgt, -⟩
    · exact ho
    · omega
  · intro j hj hlen
    rcases hending.take hlen (t.judge_ending (events.take j) hlimits) with ⟨hle, -⟩ | ⟨-, hfailed⟩
    · omega
    · exact hfailed
  · rw [Reach.searchedPart, List.length_take, Nat.min_eq_left hlt]
  · intro hlin
    have := (hending.linearizable_take_iff hlt).1 hlin
    omega
  · intro part hpre hno
    have heq := List.prefix_iff_eq_take.1 hpre
    have hlen := hpre.length_le
    rw [heq] at hno ⊢
    have hgt : ¬ part.length ≤ reach.furthest :=
      fun hle => hno ((hending.linearizable_take_iff hlen).2 hle)
    exact List.take_prefix_take_left (by omega)

/-- The second process has read what the first one writes, so the third must not read the old value
after that. Its return is where the history stops being linearizable. -/
theorem judge_stale_read :
    let history : List (Event (Register.Op Nat) (Register.Ret Nat)) :=
      [.invoke ⟨0⟩ "write(1)" (.write 1) (some .written),
        .invoke ⟨1⟩ "read()" .read (some (.read 1)),
        .ret ⟨1⟩ (some (.read 1)),
        .invoke ⟨2⟩ "read()" .read (some (.read 0)),
        .ret ⟨2⟩ (some (.read 0)),
        .ret ⟨0⟩ (some .written)]
    let t : Tester (Register Nat) := { object := { value := 0 } }
    (t.judge (history.take 4)).1 = .ok .linearizable ∧
      ∃ reach, (t.judge (history.take 5)).1 = .ok (.notLinearizable reach) ∧
        reach.furthest = 4 := by
  intro history t
  have hfail : (t.judge history).1 = .ok (.notLinearizable
      ⟨4, [⟨some 0, []⟩, ⟨some 2, [.read 0]⟩, ⟨some 4, [.read 1]⟩]⟩) := by cbv
  obtain ⟨-, hbefore, hlater, -⟩ :=
    judge_searchedPart t history Search.Limits.unlimited_default hfail
  exact ⟨hbefore, hlater 5 (by decide) (by decide)⟩

end Tester
end Linearizability
