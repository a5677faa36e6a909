import Linearizability.Proofs.Trial.Plan

/-!
# How a workload is dealt

A script is dealt in consecutive blocks, one for each process. The main statement is that the blocks
are the calls that the trial makes, in the order of the script, and that they are as even as they
can be, the larger ones first. Random workloads are dealt in the same shares.
-/

namespace Linearizability.Agenda

variable {processes operations p q : Nat} {script : List Call} {menu : List Operation}

/-- These blocks are what the processes make of a script, the first process first. -/
structure IsDeal (processes operations : Nat) (script : List Call) (blocks : List (List Call)) :
    Prop where
  /-- No call is lost, repeated or moved. -/
  flatten : blocks.flatten = script.take operations
  length : blocks.length = processes
  size : ∀ p block, blocks[p]? = some block →
    block.length = operations / processes + if p < operations % processes then 1 else 0
  /-- A later block is never larger, and at most one call smaller. -/
  even : blocks.Pairwise fun a b => b.length ≤ a.length ∧ a.length ≤ b.length + 1

theorem flatten_deal (counts : List Nat) (calls : List Call) :
    (deal counts calls).flatten = calls.take counts.sum := by
  induction counts generalizing calls with
  | nil => simp [deal]
  | cons count counts ih => rw [deal, List.flatten_cons, ih, List.sum_cons, List.take_add]

/-- Whoever makes one of the calls that are left over comes before whoever does not. -/
theorem share_le_of_le (processes operations : Nat) (h : p ≤ q) :
    share processes operations q ≤ share processes operations p ∧
      share processes operations p ≤ share processes operations q + 1 := by
  unfold share
  split <;> split <;> omega

theorem pairwise_shares (processes operations : Nat) :
    (shares processes operations).Pairwise fun a b => b ≤ a ∧ a ≤ b + 1 := by
  refine List.pairwise_map.2 (List.pairwise_lt_range.imp ?_)
  intro p q hlt
  exact share_le_of_le processes operations (Nat.le_of_lt hlt)

theorem isDeal_deal (hprocesses : processes ≠ 0) (hscript : operations ≤ script.length) :
    IsDeal processes operations script (deal (shares processes operations) script) := by
  have hsum : (shares processes operations).sum = operations := sum_shares operations hprocesses
  have hlengths : (deal (shares processes operations) script).map List.length =
      shares processes operations := map_length_deal (Nat.le_trans (Nat.le_of_eq hsum) hscript)
  exact {
    flatten := by rw [flatten_deal, hsum]
    length := by
      have hlength := congrArg List.length hlengths
      simpa [shares] using hlength
    size := by
      intro p block hblock
      have hp : (shares processes operations)[p]? = some block.length := by
        rw [← hlengths, List.getElem?_map, hblock, Option.map_some]
      obtain ⟨_, hshare⟩ := List.getElem?_eq_some_iff.1 hp
      rw [← hshare]
      simp [shares, share]
    even := by
      have heven := pairwise_shares processes operations
      rw [← hlengths] at heven
      exact List.pairwise_map.1 heven }

/-- A workload that is not scripted asks only for something to choose from. -/
theorem exists_ofWorkload (entropy : Nat → ChaCha.Key) (processes operations : Nat)
    (hmenu : menu ≠ []) {workload : Workload} (hrandom : ∀ script, workload ≠ .scripted script) :
    ∃ agendas, ofWorkload entropy processes operations menu workload = .ok agendas := by
  cases workload with
  | scripted script => exact absurd rfl (hrandom script)
  | random | seeded => simp [ofWorkload, ofWorkload.drawn, hmenu]

/-- A script that is too short is rejected, with both lengths. Any other one is dealt in blocks that
tile its beginning, and a workload that is not scripted is dealt in shares of the same sizes. -/
theorem ofWorkload_deals (entropy : Nat → ChaCha.Key) (menu : List Operation) (operations : Nat)
    (hprocesses : 1 ≤ processes) :
    (∀ script, ofWorkload entropy processes operations menu (.scripted script) =
        .error (.tooShort operations script.length) ↔ script.length < operations) ∧
      (∀ script, ¬ script.length < operations → ∃ blocks,
        ofWorkload entropy processes operations menu (.scripted script) =
            .ok (blocks.map .scripted) ∧
          IsDeal processes operations script blocks) ∧
      (menu ≠ [] → ∀ workload, (∀ script, workload ≠ .scripted script) → ∃ agendas,
        ofWorkload entropy processes operations menu workload = .ok agendas ∧
          agendas.map count = (List.range processes).map fun p =>
            operations / processes + if p < operations % processes then 1 else 0) := by
  have hne : processes ≠ 0 := Nat.ne_of_gt hprocesses
  refine ⟨fun script => ?_, fun script hscript => ?_, fun hmenu workload hrandom => ?_⟩
  · by_cases hscript : script.length < operations
    · simp [ofWorkload, hscript]
    · simp [ofWorkload, hscript]
  · refine ⟨deal (shares processes operations) script, ?_, isDeal_deal hne (Nat.not_lt.1 hscript)⟩
    rw [ofWorkload, if_neg hscript]
  · obtain ⟨agendas, hok⟩ := exists_ofWorkload entropy processes operations hmenu hrandom
    exact ⟨agendas, hok, (ofWorkload_ok hne hok).1⟩

/-- Seven calls of ten are made by three processes. -/
theorem ofWorkload_deals_seven_of_ten :
    let script := (List.range 10).map fun n => Call.named "add" [.int (.ofNat n)]
    ∃ blocks : List (List Call),
      ofWorkload (fun _ => default) 3 7 [] (.scripted script) = .ok (blocks.map .scripted) ∧
        blocks.flatten = script.take 7 ∧ blocks.map List.length = [3, 2, 2] := by
  intro script
  obtain ⟨blocks, hok, hdeal⟩ :=
    (ofWorkload_deals (fun _ => default) [] 7 (by decide : 1 ≤ 3)).2.1 script (by decide)
  refine ⟨blocks, hok, hdeal.flatten, ?_⟩
  obtain ⟨first, second, third, rfl⟩ := List.length_eq_three.1 hdeal.length
  have hfirst := hdeal.size 0 first rfl
  have hsecond := hdeal.size 1 second rfl
  have hthird := hdeal.size 2 third rfl
  simp [hfirst, hsecond, hthird]

end Linearizability.Agenda
