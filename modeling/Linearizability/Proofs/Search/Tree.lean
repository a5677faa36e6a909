import Linearizability.Proofs.Search.Branch

/-!
# The tree of branches

What took effect on a branch that waits at a return tells all its choices: no other branch waits
after the same operations. And all linearizations of a part of the history are there, for each of
them is what took effect on a branch. So the branches that wait at a return are the linearizations
that leave out the operation which returns there.
-/

namespace Linearizability.Search

open Turn

variable {σ Op Ret : Type} [ReferenceObject σ Op Ret] [DecidableEq Ret]
variable {events : List (Event Op Ret)} {object now now' left : σ} {path path' : List Marker}
variable {i i' j a q x : Nat} {phases phases' : List Phase} {p r : ProcessId}
variable {w L : List Nat} {result : Option Ret}

theorem effects_prefix_cons (marker : Marker) (path : List Marker) :
    effects path <+: effects (marker :: path) := by
  cases marker with
  | invoked => exact List.prefix_refl _
  | linearized r i k p before =>
    cases before with
    | idle | committed => exact List.prefix_refl _
    | pending q => exact List.prefix_append _ _

theorem effects_mono (h : path <:+ path') : effects path <+: effects path' := by
  obtain ⟨choices, rfl⟩ := h
  induction choices with
  | nil => exact List.prefix_refl _
  | cons marker choices ih => exact ih.trans (effects_prefix_cons marker _)

namespace Branch

theorem of_linearized {k : Nat} {before : Phase}
    (h : Branch events object (.linearized r i k p before :: path) j phases now) :
    ∃ phases' now', Branch events object path i phases' now' ∧
      (if p = r then (i + 1, phases'.set p.toNat .idle)
        else (i, phases'.set p.toNat .committed)) = (j, phases) := by
  cases h with
  | commit h he hr hk hne hp hq => exact ⟨_, _, h, if_neg hne⟩
  | pass h he hr hk hc hq => exact ⟨_, _, h, if_pos rfl⟩
  | passCommitted h he hr hk hc => exact ⟨_, _, h, if_pos rfl⟩

/-- The choices determine everything else. -/
theorem unique (h : Branch events object path i phases now)
    (h' : Branch events object path i' phases' now') : i = i' ∧ phases = phases' ∧ now = now' := by
  have hnow := h.consistent.replay.symm.trans h'.consistent.replay
  suffices hplace : i = i' ∧ phases = phases' from ⟨hplace.1, hplace.2, Option.some.inj hnow⟩
  clear hnow
  induction path generalizing i phases now i' phases' now' with
  | nil =>
    cases h
    cases h'
    exact ⟨rfl, rfl⟩
  | cons marker path ih =>
    cases marker with
    | invoked p =>
      cases h with
      | invoke h he hp =>
        cases h' with
        | invoke h' he' hp' =>
          obtain ⟨rfl, rfl⟩ := ih h h'
          exact ⟨rfl, rfl⟩
    | linearized r j k p before =>
      obtain ⟨_, _, hb, hplace⟩ := h.of_linearized
      obtain ⟨_, _, hb', hplace'⟩ := h'.of_linearized
      obtain ⟨-, rfl⟩ := ih hb hb'
      rw [hplace] at hplace'
      simpa using hplace'

/-- Taking back choices leads to a branch. -/
theorem of_suffix (h : Branch events object path' i' phases' now') (hs : path <:+ path') :
    ∃ i phases now, Branch events object path i phases now := by
  induction h with
  | start =>
    obtain rfl := List.suffix_nil.1 hs
    exact ⟨_, _, _, .start⟩
  | invoke h he hp ih =>
    rcases List.suffix_cons_iff.1 hs with rfl | hs
    · exact ⟨_, _, _, h.invoke he hp⟩
    · exact ih hs
  | commit h he hr hk hne hp hq ih =>
    rcases List.suffix_cons_iff.1 hs with rfl | hs
    · exact ⟨_, _, _, h.commit he hr hk hne hp hq⟩
    · exact ih hs
  | pass h he hr hk hc hq ih =>
    rcases List.suffix_cons_iff.1 hs with rfl | hs
    · exact ⟨_, _, _, h.pass he hr hk hc hq⟩
    · exact ih hs
  | passCommitted h he hr hk hc ih =>
    rcases List.suffix_cons_iff.1 hs with rfl | hs
    · exact ⟨_, _, _, h.passCommitted he hr hk hc⟩
    · exact ih hs

end Branch

/-- The choices that there are at an event. -/
inductive Choice (events : List (Event Op Ret)) (i : Nat) (phases : List Phase) : Marker → Prop
  | invoke {p label op expected} (he : events[i]? = some (.invoke p label op expected)) :
      Choice events i phases (.invoked p)
  | take {r result a k q} (he : events[i]? = some (.ret r result))
      (hr : r.lookup? phases = some (.pending a)) (hk : k < phases.length)
      (hp : (candidate phases.length r k).lookup? phases = some (.pending q)) :
      Choice events i phases (.linearized r i k (candidate phases.length r k) (.pending q))
  | pass {r result k} (he : events[i]? = some (.ret r result))
      (hr : r.lookup? phases = some .committed) (hk : k < phases.length)
      (hc : candidate phases.length r k = r) :
      Choice events i phases (.linearized r i k r .committed)

/-- At this position there is a return whose operation has yet to take effect. -/
def Waits (events : List (Event Op Ret)) (i : Nat) (phases : List Phase) : Prop :=
  ∃ r result a, events[i]? = some (.ret r result) ∧ r.lookup? phases = some (.pending a)

section Determined

theorem Consistent.process_unique (h : Consistent events object w i phases now)
    (hp : p.lookup? phases = some (.pending q)) (hr : r.lookup? phases = some (.pending q)) :
    p = r := by
  have hp' := invokes_of_outstanding (h.outstanding_of_pending hp).1
  have hr' := invokes_of_outstanding (h.outstanding_of_pending hr).1
  rw [hp'] at hr'
  simpa using hr'

omit [ReferenceObject σ Op Ret] [DecidableEq Ret] in
theorem eq_of_append_prefix {b : Nat} (ha : w ++ [a] <+: L) (hb : w ++ [b] <+: L) : a = b := by
  have heq : w ++ [a] = w ++ [b] :=
    (List.prefix_of_prefix_length_le ha hb (by simp)).eq_of_length (by simp)
  simpa using heq

namespace Branch

variable {marker marker' : Marker}

theorem exists_choice (h : Branch events object (marker :: path) i' phases' now') :
    ∃ i phases now, Branch events object path i phases now ∧ Choice events i phases marker := by
  cases h with
  | invoke h he hp => exact ⟨_, _, _, h, .invoke he⟩
  | commit h he hr hk hne hp hq => exact ⟨_, _, _, h, .take he hr hk hp⟩
  | @pass _ i phases now r result k q left h he hr hk hc hq =>
    have hchoice := Choice.take he hr hk (hc ▸ hr)
    rw [hc] at hchoice
    exact ⟨_, _, _, h, hchoice⟩
  | passCommitted h he hr hk hc => exact ⟨_, _, _, h, .pass he hr hk hc⟩

/-- A branch that leads further goes on with a choice. -/
theorem eq_or_exists_choice (h : Branch events object path i phases now)
    (h' : Branch events object path' i' phases' now') (hs : path <:+ path') :
    path = path' ∨ ∃ marker, marker :: path <:+ path' ∧ Choice events i phases marker := by
  obtain ⟨choices, rfl⟩ := hs
  rcases List.eq_nil_or_concat choices with rfl | ⟨choices, marker, rfl⟩
  · exact .inl rfl
  · rw [List.concat_eq_append, List.append_assoc, List.singleton_append] at h' ⊢
    have hs : marker :: path <:+ choices ++ marker :: path := List.suffix_append _ _
    obtain ⟨_, _, _, hb⟩ := h'.of_suffix hs
    obtain ⟨_, _, _, hb, hchoice⟩ := hb.exists_choice
    obtain ⟨rfl, rfl, -⟩ := h.unique hb
    exact .inr ⟨marker, hs, hchoice⟩

/-- At a return the next operation tells the choice, and everywhere else there is only one. -/
theorem choice_unique (h : Branch events object path i phases now)
    (hm : Choice events i phases marker) (hm' : Choice events i phases marker')
    (hpre : effects (marker :: path) <+: L) (hpre' : effects (marker' :: path) <+: L) :
    marker = marker' := by
  cases hm with
  | invoke he =>
    cases hm' with
    | invoke he' =>
      rw [he] at he'
      cases he'
      rfl
    | take he' | pass he' => simp [he] at he'
  | take he hr hk hp =>
    cases hm' with
    | invoke he' => simp [he] at he'
    | take he' hr' hk' hp' =>
      rw [he] at he'
      cases he'
      obtain rfl := eq_of_append_prefix hpre hpre'
      obtain rfl := h.candidate_injective he hk hk' (h.consistent.process_unique hp hp')
      rfl
    | pass he' hr' =>
      rw [he] at he'
      cases he'
      simp [hr] at hr'
  | pass he hr hk hc =>
    cases hm' with
    | invoke he' => simp [he] at he'
    | take he' hr' =>
      rw [he] at he'
      cases he'
      simp [hr] at hr'
    | pass he' hr' hk' hc' =>
      rw [he] at he'
      cases he'
      obtain rfl := h.candidate_injective he hk hk' (hc.trans hc'.symm)
      rfl

omit [DecidableEq Ret] in
/-- Where a branch waits, every choice takes an operation. -/
theorem not_waits_of_choice (hm : Choice events i phases marker)
    (hpre : effects (marker :: path) <+: effects path) : ¬ Waits events i phases := by
  rintro ⟨r, result, a, he, hr⟩
  cases hm with
  | invoke he' => simp [he] at he'
  | take =>
    have hle := hpre.length_le
    simp only [effects, List.length_append, List.length_singleton] at hle
    omega
  | pass he' hr' =>
    rw [he] at he'
    cases he'
    simp [hr] at hr'

/-- A branch that waits has made all choices of each branch on which no other operation took effect.
-/
theorem suffix_of_effects (h : Branch events object path i phases now)
    (h' : Branch events object path' i' phases' now') (hw : Waits events i' phases')
    (hpre : effects path <+: effects path') : path <:+ path' := by
  induction path generalizing i phases now with
  | nil => exact List.nil_suffix
  | cons marker path ih =>
    obtain ⟨_, _, _, hb, hm⟩ := h.exists_choice
    have hpath := ih hb ((effects_prefix_cons marker path).trans hpre)
    rcases hb.eq_or_exists_choice h' hpath with rfl | ⟨marker', hs, hm'⟩
    · obtain ⟨rfl, rfl, -⟩ := hb.unique h'
      exact absurd hw (not_waits_of_choice hm hpre)
    · obtain rfl := hb.choice_unique hm hm' hpre (effects_mono hs)
      exact hs

/-- No two branches wait after the same operations. -/
theorem path_unique (h : Branch events object path i phases now) (hw : Waits events i phases)
    (h' : Branch events object path' i' phases' now') (hw' : Waits events i' phases')
    (heq : effects path = effects path') : path = path' := by
  have hle := h.suffix_of_effects h' hw' (heq ▸ List.prefix_refl _)
  have hge := h'.suffix_of_effects h hw (heq ▸ List.prefix_refl _)
  exact hle.eq_of_length (Nat.le_antisymm hle.length_le hge.length_le)

end Branch
end Determined

section Complete

theorem exists_takeEffect? (hL : IsLinearization object (events.take j) L)
    (hpre : w ++ [x] <+: L) (hw : replay? events object w = some now) :
    ∃ left, takeEffect? events now x = some left := by
  obtain ⟨rest, rfl⟩ := hpre
  obtain ⟨-, -, -, -, hlegal⟩ := IsLinearization.take_iff.1 hL
  rw [replay?_append, replay?_append_singleton hw] at hlegal
  cases hx : takeEffect? events now x with
  | none => simp [hx] at hlegal
  | some left => exact ⟨left, rfl⟩

namespace Branch

theorem waits_of_returns (h : Branch events object path i phases now)
    (hret : Returns (events.map Event.turn) a i) (ha : a ∉ effects path) :
    Waits events i phases := by
  obtain ⟨r, hturn, ho⟩ := hret
  obtain ⟨result, he⟩ := turn_returns_iff.1 hturn
  have hr : r.lookup? phases = some (.pending a) := by
    rw [← phaseAt_eq_pending_iff.2 ⟨ho, ha⟩]
    exact h.lookup?_eq_phaseAt he
  exact ⟨r, result, a, he, hr⟩

/-- Any outstanding operation can take effect before a return that a branch waits at. -/
theorem take (h : Branch events object path i phases now)
    (he : events[i]? = some (.ret r result)) (hr : r.lookup? phases = some (.pending a))
    (ho : outstanding (events.map Event.turn) p i = some x) (hx : x ∉ effects path)
    (heffect : takeEffect? events now x = some left) :
    ∃ marker phases', effects (marker :: path) = effects path ++ [x] ∧
      Branch events object (marker :: path) (if p = r then i + 1 else i) phases' left := by
  obtain ⟨k, hk, rfl, hp⟩ := h.exists_candidate he ho hx
  split
  · rename_i hc
    rw [hc] at hp
    exact ⟨_, _, rfl, h.pass he hp hk hc heffect⟩
  · rename_i hc
    exact ⟨_, _, rfl, h.commit he hr hk hc hp heffect⟩

theorem exists_past_of_mem (h : Branch events object path i phases now)
    (hret : Returns (events.map Event.turn) a i) (ha : a ∈ effects path) :
    ∃ path' phases', Branch events object path' (i + 1) phases' now ∧
      effects path' = effects path := by
  obtain ⟨r, hturn, ho⟩ := hret
  obtain ⟨result, he⟩ := turn_returns_iff.1 hturn
  have hr : r.lookup? phases = some .committed := by
    rw [← phaseAt_eq_committed_iff.2 ⟨a, ha, ho⟩]
    exact h.lookup?_eq_phaseAt he
  have hlt := ProcessId.lt_length_of_lookup? hr
  have hlast : phases.length - 1 < phases.length := by omega
  exact ⟨_, _, h.passCommitted he hr hlast ((h.candidate_eq_self_iff he hlast).2 (by omega)), rfl⟩

/-- A branch on which a linearization begins can go on with it past the next return. -/
theorem exists_past (h : Branch events object path i phases now)
    (hL : IsLinearization object (events.take j) L) (hpre : effects path <+: L) (hij : i < j)
    (hret : Returns (events.map Event.turn) a i) :
    ∃ path' phases' now', Branch events object path' (i + 1) phases' now' ∧
      effects path' <+: L := by
  obtain ⟨rest, hrest⟩ := hpre
  -- On the part of the linearization that is still to come.
  induction rest generalizing path phases now with
  | nil =>
    have ha := (IsLinearization.take_iff.1 hL).2.1 a i hij hret
    rw [← hrest, List.append_nil] at ha
    obtain ⟨path', phases', hb, heq⟩ := h.exists_past_of_mem hret ha
    exact ⟨path', phases', now, hb, [], by rw [heq, hrest]⟩
  | cons y rest ih =>
    have hpre : effects path <+: L := ⟨_, hrest⟩
    by_cases ha : a ∈ effects path
    · obtain ⟨path', phases', hb, heq⟩ := h.exists_past_of_mem hret ha
      exact ⟨path', phases', now, hb, heq ▸ hpre⟩
    · have hc := h.consistent
      obtain ⟨x, p, hx, hxw, ho⟩ :=
        hc.linearization.exists_next hc.alternating hL hpre hij hret ha
      obtain rfl : x = y := eq_of_append_prefix hx ⟨rest, by rw [← hrest]; simp⟩
      obtain ⟨left, heffect⟩ := exists_takeEffect? hL hx hc.replay
      obtain ⟨r, result, b, he, hr⟩ := h.waits_of_returns hret ha
      obtain ⟨marker, phases', heffects, hb⟩ := h.take he hr ho hxw heffect
      split at hb
      · exact ⟨_, _, _, hb, heffects ▸ hx⟩
      · exact ih hb (by rw [heffects, ← hrest]; simp)

/-- Each linearization begins with what took effect on a branch that got as far as one likes. -/
theorem exists_beginning (hL : IsLinearization object (events.take j) L)
    (halt : Alternating ((events.map Event.turn).take j)) (hj : j ≤ events.length) (hij : i ≤ j) :
    ∃ path phases now, Branch events object path i phases now ∧ effects path <+: L := by
  induction i with
  | zero => exact ⟨_, _, _, .start, List.nil_prefix⟩
  | succ i ih =>
    obtain ⟨path, phases, now, h, hpre⟩ := ih (by omega)
    obtain ⟨event, he⟩ : ∃ event, events[i]? = some event :=
      ⟨_, List.getElem?_eq_getElem (by omega)⟩
    have hturn := halt i event.turn (by simp [he, show i < j by omega])
    rw [outstanding_take (by omega)] at hturn
    cases event with
    | invoke p label op expected =>
      have hidle : outstanding (events.map Event.turn) p i = none := by
        simpa [Event.turn, Event.isInvoke, Event.process] using hturn
      have hp : p.lookup? phases = some .idle := by
        rw [← phaseAt_eq_idle_iff.2 hidle]
        exact h.lookup?_eq_phaseAt he
      exact ⟨_, _, _, h.invoke he hp, hpre⟩
    | ret r result =>
      obtain ⟨a, ho⟩ : ∃ a, outstanding (events.map Event.turn) r i = some a :=
        Option.isSome_iff_exists.1 (by
          simpa [Event.turn, Event.isInvoke, Event.process] using hturn)
      exact h.exists_past hL hpre (by omega) ⟨r, turn_returns_iff.2 ⟨result, he⟩, ho⟩

/-- All of a linearization that leaves out the operation which returns next took effect on a branch
that waits there. -/
theorem exists_waits (hL : IsLinearization object (events.take j) L)
    (halt : Alternating ((events.map Event.turn).take j))
    (hret : Returns (events.map Event.turn) a j) (ha : a ∉ L) :
    ∃ path phases now, Branch events object path j phases now ∧ effects path = L := by
  have hj : j < events.length := by simpa using hret.lt_length
  obtain ⟨path, phases, now, h, rest, hrest⟩ :=
    exists_beginning hL halt (Nat.le_of_lt hj) (Nat.le_refl j)
  induction rest generalizing path phases now with
  | nil => exact ⟨path, phases, now, h, by rw [← hrest, List.append_nil]⟩
  | cons x rest ih =>
    have hx : x ∈ L := by rw [← hrest]; simp
    have hpre : effects path ++ [x] <+: L := ⟨rest, by rw [← hrest]; simp⟩
    have hc := h.consistent
    obtain ⟨hxw, p, ho⟩ := hc.linearization.exists_outstanding halt hL hpre
    obtain ⟨left, heffect⟩ := exists_takeEffect? hL hpre hc.replay
    have haw : a ∉ effects path := fun hmem => ha (by rw [← hrest]; simp [hmem])
    obtain ⟨r, result, b, he, hr⟩ := h.waits_of_returns hret haw
    obtain ⟨marker, phases', heffects, hb⟩ := h.take he hr ho hxw heffect
    split at hb
    · rename_i hpr
      subst hpr
      obtain ⟨r', hturn, hor⟩ := hret
      obtain rfl : p = r' := by simpa [turn_returns_iff.2 ⟨result, he⟩] using hturn
      rw [ho] at hor
      exact absurd (Option.some.inj hor ▸ hx) ha
    · exact ih _ _ _ hb (by rw [heffects, ← hrest]; simp)

end Branch
end Complete

end Linearizability.Search
