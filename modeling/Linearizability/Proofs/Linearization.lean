import Linearizability.Proofs.RealTime
import Linearizability.Reference.Basic
import Mathlib.Data.List.Infix
import Mathlib.Data.List.TakeWhile

/-!
# Linearizations

A linearization puts invocations of a history, said by their positions, into an order in which they
could have taken effect one after another. The main statement is that whenever a return is the first
one that a linearization has yet to account for, the next operation of the linearization is
outstanding at that return.
-/

namespace Linearizability

open Turn

variable {σ Op Ret : Type} [ReferenceObject σ Op Ret] [DecidableEq Ret]

/-- The object after the invocation at this position took effect, if it returned what its process
observed. -/
def takeEffect? (events : List (Event Op Ret)) (object : σ) (q : Nat) : Option σ :=
  match events[q]? with
  | some (.invoke _ _ op (some ret)) =>
    if (ReferenceObject.apply object op).1 = ret then some (ReferenceObject.apply object op).2
    else none
  | _ => none

def replay? (events : List (Event Op Ret)) (object : σ) (order : List Nat) : Option σ :=
  order.foldlM (takeEffect? events) object

structure IsLinearization (object : σ) (events : List (Event Op Ret)) (order : List Nat) :
    Prop where
  nodup : order.Nodup
  /-- Every operation that has returned took effect. -/
  complete : ∀ a r, Returns (events.map Event.turn) a r → a ∈ order
  /-- No operation took effect ahead of one that had returned before it was invoked. -/
  realTime : order.Pairwise fun a b => ¬ Precedes (events.map Event.turn) b a
  /-- One after another, the operations return what their processes observed. -/
  legal : (replay? events object order).isSome

def Linearizable (object : σ) (events : List (Event Op Ret)) : Prop :=
  ∃ order, IsLinearization object events order

variable {events : List (Event Op Ret)} {object object' left : σ} {w L : List Nat}
variable {a i j n q r x : Nat} {p : ProcessId}

section Replay

theorem takeEffect?_eq_some_iff : takeEffect? events object q = some left ↔
    ∃ process label op, events[q]? = some
        (.invoke process label op (some (ReferenceObject.apply object op).1)) ∧
      (ReferenceObject.apply object op).2 = left := by
  unfold takeEffect?
  split
  · rename_i process label op ret he
    simp only [he, Option.ite_none_right_eq_some, Option.some.injEq, Event.invoke.injEq]
    constructor
    · rintro ⟨hret, hleft⟩
      exact ⟨process, label, op, ⟨rfl, rfl, rfl, hret.symm⟩, hleft⟩
    · rintro ⟨_, _, _, ⟨rfl, rfl, rfl, hret⟩, hleft⟩
      exact ⟨hret.symm, hleft⟩
  · rename_i hno
    simp only [reduceCtorEq, false_iff]
    rintro ⟨process, label, op, he, _⟩
    exact hno _ _ _ _ he

/-- An operation that would return something else does not take effect. -/
theorem takeEffect?_eq_none {label : String} {op : Op} {expected : Option Ret}
    (he : events[q]? = some (.invoke p label op expected))
    (hne : expected ≠ some (ReferenceObject.apply object op).1) :
    takeEffect? events object q = none := by
  refine Option.eq_none_iff_forall_ne_some.2 ?_
  intro left hleft
  obtain ⟨_, _, _, he', _⟩ := takeEffect?_eq_some_iff.1 hleft
  rw [he] at he'
  simp only [Option.some.injEq, Event.invoke.injEq] at he'
  obtain ⟨-, -, rfl, hexpected⟩ := he'
  exact hne hexpected

theorem takeEffect?_take (h : q < n) :
    takeEffect? (events.take n) object q = takeEffect? events object q := by
  simp [takeEffect?, h]

theorem invokes_of_takeEffect? (h : takeEffect? events object q = some left) :
    ∃ p, (events.map Event.turn)[q]? = some ⟨p, true⟩ := by
  obtain ⟨process, label, op, he, _⟩ := takeEffect?_eq_some_iff.1 h
  exact ⟨process, turn_invokes_iff.2 ⟨label, op, _, he⟩⟩

theorem replay?_append : replay? events object (w ++ L) =
    (replay? events object w).bind fun object => replay? events object L := by
  rw [replay?, List.foldlM_append]
  rfl

theorem replay?_append_singleton (h : replay? events object w = some object') :
    replay? events object (w ++ [q]) = takeEffect? events object' q := by
  rw [replay?_append, h]
  simp [replay?]

theorem invokes_of_replay? (h : replay? events object w = some left) (hq : q ∈ w) :
    ∃ p, (events.map Event.turn)[q]? = some ⟨p, true⟩ := by
  obtain ⟨before, after, rfl⟩ := List.append_of_mem hq
  rw [replay?_append, Option.bind_eq_some_iff] at h
  obtain ⟨middle, _, h⟩ := h
  rw [replay?, List.foldlM_cons, Option.bind_eq_bind, Option.bind_eq_some_iff] at h
  obtain ⟨_, hq, _⟩ := h
  exact invokes_of_takeEffect? hq

theorem replay?_take (h : ∀ q ∈ w, q < n) :
    replay? (events.take n) object w = replay? events object w := by
  induction w generalizing object with
  | nil => rfl
  | cons q w ih =>
    simp only [replay?, List.foldlM_cons, takeEffect?_take (h q (by simp))]
    exact congrArg _ (funext fun object => ih (fun x hx => h x (by simp [hx])))

end Replay

namespace IsLinearization

theorem invokes (h : IsLinearization object events w) (hq : q ∈ w) :
    ∃ p, (events.map Event.turn)[q]? = some ⟨p, true⟩ := by
  obtain ⟨left, hleft⟩ := Option.isSome_iff_exists.1 h.legal
  exact invokes_of_replay? hleft hq

theorem lt_of_take (h : IsLinearization object (events.take i) w) (hq : q ∈ w) : q < i := by
  obtain ⟨p, hp⟩ := h.invokes hq
  rw [List.map_take] at hp
  exact (getElem?_take_eq_some_iff.1 hp).1

/-- A linearization of the first `i` events, said with the positions of the whole history. -/
theorem take_iff : IsLinearization object (events.take i) w ↔
    w.Nodup ∧ (∀ a r, r < i → Returns (events.map Event.turn) a r → a ∈ w) ∧
      w.Pairwise (fun a b => ¬ Precedes (events.map Event.turn) b a) ∧ (∀ q ∈ w, q < i) ∧
      (replay? events object w).isSome := by
  constructor
  · intro h
    have hlt : ∀ q ∈ w, q < i := fun q hq => h.lt_of_take hq
    refine ⟨h.nodup, fun a r hr hret => ?_, ?_, hlt, by rw [← replay?_take hlt]; exact h.legal⟩
    · exact h.complete a r (by rw [List.map_take]; exact returns_take.2 ⟨hr, hret⟩)
    · refine h.realTime.imp_of_mem fun {a b} ha _ hab hprec => hab ?_
      rw [List.map_take]
      exact (precedes_take (Nat.le_of_lt (hlt a ha))).2 hprec
  · rintro ⟨hnodup, hcomplete, hrealTime, hlt, hlegal⟩
    refine ⟨hnodup, fun a r hret => ?_, ?_, by rwa [replay?_take hlt]⟩
    · rw [List.map_take] at hret
      obtain ⟨hr, hret⟩ := returns_take.1 hret
      exact hcomplete a r hr hret
    · refine hrealTime.imp_of_mem fun {a b} ha _ hab hprec => hab ?_
      rw [List.map_take] at hprec
      exact (precedes_take (Nat.le_of_lt (hlt a ha))).1 hprec

theorem nil : IsLinearization object (events.take 0) [] :=
  take_iff.2 ⟨List.nodup_nil, by simp, List.Pairwise.nil, by simp, rfl⟩

/-- One more event changes nothing once the operation that returns there took effect. -/
theorem take_succ (h : IsLinearization object (events.take i) w)
    (hret : ∀ a, Returns (events.map Event.turn) a i → a ∈ w) :
    IsLinearization object (events.take (i + 1)) w := by
  obtain ⟨hnodup, hcomplete, hrealTime, hlt, hlegal⟩ := take_iff.1 h
  refine take_iff.2 ⟨hnodup, fun a r hr ha => ?_, hrealTime, fun q hq => ?_, hlegal⟩
  · rcases Nat.lt_succ_iff_lt_or_eq.1 hr with hr | rfl
    · exact hcomplete a r hr ha
    · exact hret a ha
  · exact Nat.lt_succ_of_lt (hlt q hq)

/-- An outstanding operation can take effect after all others. -/
theorem append (h : IsLinearization object (events.take i) w)
    (ho : outstanding (events.map Event.turn) p i = some q) (hq : q ∉ w)
    (hreplay : replay? events object w = some object')
    (heffect : takeEffect? events object' q = some left) :
    IsLinearization object (events.take i) (w ++ [q]) := by
  obtain ⟨hnodup, hcomplete, hrealTime, hlt, -⟩ := take_iff.1 h
  refine take_iff.2 ⟨?_, fun a r hr ha => ?_, ?_, fun x hx => ?_, ?_⟩
  · exact List.nodup_append.2 ⟨hnodup, by simp, by rintro x hx _ hy rfl; simp_all⟩
  · exact List.mem_append_left _ (hcomplete a r hr ha)
  · refine List.pairwise_append.2 ⟨hrealTime, List.pairwise_singleton _ _, ?_⟩
    rintro x hx _ hy ⟨r, hret, hr⟩
    obtain rfl := List.mem_singleton.1 hy
    exact hret.not_outstanding (Nat.lt_trans hr (hlt x hx)) ho
  · rcases List.mem_append.1 hx with hx | hx
    · exact hlt x hx
    · obtain rfl := List.mem_singleton.1 hx
      exact lt_of_outstanding ho
  · rw [replay?_append_singleton hreplay, heffect]
    rfl

/-- When the operation that returns at `i` has not taken effect, the next one to do so in any
linearization is outstanding there: one invoked later would come after it. -/
theorem exists_next (hw : IsLinearization object (events.take i) w)
    (halt : Alternating ((events.map Event.turn).take i))
    (hL : IsLinearization object (events.take j) L) (hpre : w <+: L) (hij : i < j)
    (hret : Returns (events.map Event.turn) q i) (hq : q ∉ w) :
    ∃ x p, w ++ [x] <+: L ∧ x ∉ w ∧ outstanding (events.map Event.turn) p i = some x := by
  obtain ⟨hnodup, hcomplete, hrealTime, -, hlegal⟩ := take_iff.1 hL
  obtain ⟨rest, rfl⟩ := hpre
  have hqrest : q ∈ rest := (List.mem_append.1 (hcomplete q i hij hret)).resolve_left hq
  obtain _ | ⟨x, rest⟩ := rest
  · simp at hqrest
  have hx : x ∉ w := fun hx => (List.nodup_append.1 hnodup).2.2 x hx x (by simp) rfl
  obtain ⟨left, hleft⟩ := Option.isSome_iff_exists.1 hlegal
  obtain ⟨p, hp⟩ := invokes_of_replay? hleft (q := x) (by simp)
  have hlt : x < i := by
    by_contra hge
    have hne : i ≠ x := by
      rintro rfl
      obtain ⟨_, hr, _⟩ := hret
      simp [hp] at hr
    have hqx : q ∈ rest := by
      rcases List.mem_cons.1 hqrest with rfl | hmem
      · exact absurd hret.lt hge
      · exact hmem
    have hpair := (List.pairwise_cons.1 (List.pairwise_append.1 hrealTime).2.1).1 q hqx
    exact hpair ⟨i, hret, by omega⟩
  refine ⟨x, p, ⟨rest, by simp⟩, hx, ?_⟩
  rcases halt.outstanding_or_returns hlt hp with ho | ⟨r, hr, hxr⟩
  · exact ho
  · exact absurd ((take_iff.1 hw).2.1 x r hr hxr) hx

/-- What a linearization goes on with, once all that returned took effect, is outstanding. -/
theorem exists_outstanding (hw : IsLinearization object (events.take j) w)
    (halt : Alternating ((events.map Event.turn).take j))
    (hL : IsLinearization object (events.take j) L) (hpre : w ++ [x] <+: L) :
    x ∉ w ∧ ∃ p, outstanding (events.map Event.turn) p j = some x := by
  have hx : x ∉ w := by
    intro hmem
    exact (List.nodup_append.1 (hL.nodup.sublist hpre.sublist)).2.2 x hmem x (by simp) rfl
  obtain ⟨p, hp⟩ := hL.invokes (hpre.subset (by simp : x ∈ w ++ [x]))
  rw [List.map_take] at hp
  obtain ⟨hlt, hp⟩ := getElem?_take_eq_some_iff.1 hp
  rcases halt.outstanding_or_returns hlt hp with ho | ⟨i, hi, hret⟩
  · exact ⟨hx, p, ho⟩
  · exact absurd ((take_iff.1 hw).2.1 x i hi hret) hx

/-- What takes effect before the first operation that is invoked at `j` or later linearizes the
first `j` events. An operation that returned there cannot come after the later one. -/
theorem takeWhile (h : IsLinearization object events w) :
    IsLinearization object (events.take j) (w.takeWhile (· < j)) := by
  have hpre : w.takeWhile (· < j) <+: w := List.takeWhile_prefix _
  have hsplit := List.takeWhile_append_dropWhile (p := (· < j)) (l := w)
  refine take_iff.2 ⟨h.nodup.sublist hpre.sublist, ?_, h.realTime.sublist hpre.sublist, ?_, ?_⟩
  · intro a r hr hret
    by_contra ha
    have hmem := h.complete a r hret
    rw [← hsplit] at hmem
    have hdrop := (List.mem_append.1 hmem).resolve_left ha
    cases hrest : w.dropWhile (· < j) with
    | nil => simp [hrest] at hdrop
    | cons b rest =>
      have hb : j ≤ b := by
        have := List.head_dropWhile_not (· < j) (l := w) (by simp [hrest])
        simpa [hrest] using this
      rw [hrest] at hdrop
      rcases List.mem_cons.1 hdrop with rfl | hafter
      · exact absurd hret.lt (by omega)
      · have hsub : (b :: rest).Sublist w := hrest ▸ List.dropWhile_sublist _
        have hpair := List.pairwise_cons.1 (h.realTime.sublist hsub)
        exact hpair.1 a hafter ⟨r, hret, by omega⟩
  · intro q hq
    simpa using List.mem_takeWhile_imp hq
  · obtain ⟨left, hleft⟩ := Option.isSome_iff_exists.1 h.legal
    rw [← hsplit, replay?_append, Option.bind_eq_some_iff] at hleft
    obtain ⟨middle, hmiddle, -⟩ := hleft
    rw [hmiddle]
    rfl

theorem iff_forall_lt : IsLinearization object events w ↔
    w.Nodup ∧ (∀ r < events.length, ∀ a < r, Returns (events.map Event.turn) a r → a ∈ w) ∧
      w.Pairwise (fun a b => ¬ Precedes (events.map Event.turn) b a) ∧
      (replay? events object w).isSome := by
  constructor
  · intro h
    exact ⟨h.nodup, fun r _ a _ => h.complete a r, h.realTime, h.legal⟩
  · rintro ⟨hnodup, hcomplete, hrealTime, hlegal⟩
    refine ⟨hnodup, fun a r hret => ?_, hrealTime, hlegal⟩
    exact hcomplete r (by simpa using hret.lt_length) a hret.lt hret

instance : Decidable (IsLinearization object events w) := decidable_of_iff' _ iff_forall_lt

end IsLinearization

namespace Linearizable

theorem take (h : Linearizable object events) (j : Nat) : Linearizable object (events.take j) := by
  obtain ⟨order, horder⟩ := h
  exact ⟨_, horder.takeWhile⟩

theorem take_of_le (h : Linearizable object (events.take i)) (hji : j ≤ i) :
    Linearizable object (events.take j) := by
  have := h.take j
  rwa [List.take_take, Nat.min_eq_left hji] at this

/-- An invocation more leaves a history linearizable: its operation need not take effect. -/
theorem take_succ (h : Linearizable object (events.take i))
    (hi : (events.map Event.turn)[i]? = some ⟨p, true⟩) :
    Linearizable object (events.take (i + 1)) := by
  obtain ⟨order, horder⟩ := h
  refine ⟨order, horder.take_succ ?_⟩
  intro a hret
  obtain ⟨r, hr, -⟩ := hret
  simp [hi] at hr

end Linearizable
end Linearizability
