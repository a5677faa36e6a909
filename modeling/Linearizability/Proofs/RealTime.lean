import Linearizability.Event
import Linearizability.Record
import Mathlib.Data.List.Basic
import Mathlib.Data.List.Induction

/-!
# Real time

What comes before what in real time shows in the turns of a history alone: which process takes a
turn, and whether it invokes or returns. The outstanding invocation of a process is the one that it
has not yet returned from. In an alternating history every process returns from one invocation
before it makes the next; there each earlier invocation is outstanding or has returned.
-/

namespace Linearizability

structure Turn where
  process : ProcessId
  invokes : Bool
  deriving DecidableEq

def Event.turn {Op Ret : Type} (event : Event Op Ret) : Turn := ⟨event.process, event.isInvoke⟩

def Record.turn (record : Record) : Turn := ⟨record.process, record.isInvocation⟩

namespace Record

variable {seq : UInt64} {id : CallId} {call : Call} {value : Value}

@[simp] theorem process_invoke : (invoke seq id call).process = id.process := rfl

@[simp] theorem process_ret : (ret seq id value).process = id.process := rfl

@[simp] theorem turn_invoke : (invoke seq id call).turn = ⟨id.process, true⟩ := rfl

@[simp] theorem turn_ret : (ret seq id value).turn = ⟨id.process, false⟩ := rfl

end Record

namespace Turn

/-- The position of the invocation that the process has not returned from after `i` turns. -/
def outstanding (turns : List Turn) (p : ProcessId) : Nat → Option Nat
  | 0 => none
  | i + 1 =>
    match turns[i]? with
    | some turn =>
      if turn.process = p then if turn.invokes then some i else none else outstanding turns p i
    | none => outstanding turns p i

/-- A process invokes exactly when it has no outstanding invocation. -/
def Alternating (turns : List Turn) : Prop :=
  ∀ i turn, turns[i]? = some turn → turn.invokes = (outstanding turns turn.process i).isNone

/-- The turn at `r` is the return from the invocation at `a`. -/
def Returns (turns : List Turn) (a r : Nat) : Prop :=
  ∃ p, turns[r]? = some ⟨p, false⟩ ∧ outstanding turns p r = some a

/-- The invocation at `a` has returned before the one at `b` is made. -/
def Precedes (turns : List Turn) (a b : Nat) : Prop :=
  ∃ r, Returns turns a r ∧ r < b

variable {turns : List Turn} {p : ProcessId} {a b i j n r : Nat}

theorem alternating_iff_getElem : Alternating turns ↔
    ∀ i, (h : i < turns.length) →
      turns[i].invokes = (outstanding turns turns[i].process i).isNone := by
  constructor
  · intro h i hi
    exact h i _ (List.getElem?_eq_getElem hi)
  · intro h i turn ht
    obtain ⟨hi, rfl⟩ := List.getElem?_eq_some_iff.1 ht
    exact h i hi

instance : DecidablePred Alternating := fun _ => decidable_of_iff' _ alternating_iff_getElem

theorem returns_iff : Returns turns a r ↔
    ∃ turn ∈ turns[r]?, turn.invokes = false ∧ outstanding turns turn.process r = some a := by
  constructor
  · rintro ⟨p, hr, ho⟩
    exact ⟨_, hr, rfl, ho⟩
  · rintro ⟨⟨p, _⟩, hr, rfl, ho⟩
    exact ⟨p, hr, ho⟩

instance : Decidable (Returns turns a r) := decidable_of_iff' _ returns_iff

instance : Decidable (Precedes turns a b) :=
  decidable_of_iff (∃ r, r < b ∧ Returns turns a r) <| exists_congr fun _ => and_comm

/-- The process invokes at this position, or it returns there, or it does not take this turn. -/
theorem turn_cases (turns : List Turn) (p : ProcessId) (n : Nat) :
    turns[n]? = some ⟨p, true⟩ ∨ turns[n]? = some ⟨p, false⟩ ∨
      ∀ turn, turns[n]? = some turn → turn.process ≠ p := by
  cases turns[n]? with
  | none => simp
  | some turn =>
    obtain ⟨q, invokes⟩ := turn
    by_cases hq : q = p
    · cases invokes <;> simp [hq]
    · simp [hq]

section Outstanding

theorem outstanding_succ_of_invokes (h : turns[i]? = some ⟨p, true⟩) :
    outstanding turns p (i + 1) = some i := by
  simp [outstanding, h]

theorem outstanding_succ_of_returns (h : turns[i]? = some ⟨p, false⟩) :
    outstanding turns p (i + 1) = none := by
  simp [outstanding, h]

theorem outstanding_succ_of_ne {turn : Turn} (h : turns[i]? = some turn) (hne : turn.process ≠ p) :
    outstanding turns p (i + 1) = outstanding turns p i := by
  simp [outstanding, h, hne]

theorem outstanding_succ_of_forall_ne (h : ∀ turn, turns[i]? = some turn → turn.process ≠ p) :
    outstanding turns p (i + 1) = outstanding turns p i := by
  cases hturn : turns[i]? with
  | none => simp [outstanding, hturn]
  | some turn => exact outstanding_succ_of_ne hturn (h turn hturn)

theorem outstanding_eq_some_iff : outstanding turns p i = some a ↔
    a < i ∧ turns[a]? = some ⟨p, true⟩ ∧
      ∀ j turn, a < j → j < i → turns[j]? = some turn → turn.process ≠ p := by
  induction i with
  | zero => simp [outstanding]
  | succ i ih =>
    cases ht : turns[i]? with
    | none =>
      simp only [outstanding, ht, ih]
      constructor
      · rintro ⟨hlt, hinv, hbetween⟩
        refine ⟨by omega, hinv, fun j turn haj hji hj => ?_⟩
        rcases Nat.lt_succ_iff_lt_or_eq.1 hji with hji | rfl
        · exact hbetween j turn haj hji hj
        · simp [ht] at hj
      · rintro ⟨hlt, hinv, hbetween⟩
        have hne : a ≠ i := by rintro rfl; simp [ht] at hinv
        exact ⟨by omega, hinv, fun j turn haj hji hj => hbetween j turn haj (by omega) hj⟩
    | some turn =>
      by_cases hp : turn.process = p
      · simp only [outstanding, ht, hp, if_true]
        have hturn : turn = ⟨p, turn.invokes⟩ := by cases turn; simp_all
        constructor
        · intro h
          split at h
          · rename_i hinv
            obtain rfl : i = a := by simpa using h
            exact ⟨by omega, by rw [ht, hturn, hinv], by omega⟩
          · simp at h
        · rintro ⟨hlt, hinv, hbetween⟩
          obtain rfl : a = i := by
            by_contra hne
            exact hbetween i turn (by omega) (by omega) ht hp
          obtain rfl : turn = ⟨p, true⟩ := by simpa [ht] using hinv
          simp
      · rw [outstanding_succ_of_ne ht hp, ih]
        constructor
        · rintro ⟨hlt, hinv, hbetween⟩
          refine ⟨by omega, hinv, fun j other haj hji hj => ?_⟩
          rcases Nat.lt_succ_iff_lt_or_eq.1 hji with hji | rfl
          · exact hbetween j other haj hji hj
          · simp_all
        · rintro ⟨hlt, hinv, hbetween⟩
          have hne : a ≠ i := by rintro rfl; simp_all
          exact ⟨by omega, hinv, fun j other haj hji hj => hbetween j other haj (by omega) hj⟩

theorem lt_of_outstanding (h : outstanding turns p i = some a) : a < i :=
  (outstanding_eq_some_iff.1 h).1

theorem invokes_of_outstanding (h : outstanding turns p i = some a) :
    turns[a]? = some ⟨p, true⟩ :=
  (outstanding_eq_some_iff.1 h).2.1

theorem outstanding_take (h : i ≤ n) :
    outstanding (turns.take n) p i = outstanding turns p i := by
  induction i with
  | zero => rfl
  | succ i ih => simp [outstanding, show i < n by omega, ih (by omega)]

theorem outstanding_append (more : List Turn) (h : i ≤ turns.length) :
    outstanding (turns ++ more) p i = outstanding turns p i := by
  rw [← outstanding_take h, List.take_left]

end Outstanding

section Returns

theorem Returns.lt (h : Returns turns a r) : a < r := by
  obtain ⟨_, _, ho⟩ := h
  exact lt_of_outstanding ho

theorem Returns.exists_invokes (h : Returns turns a r) : ∃ p, turns[a]? = some ⟨p, true⟩ := by
  obtain ⟨p, _, ho⟩ := h
  exact ⟨p, invokes_of_outstanding ho⟩

theorem Returns.lt_length (h : Returns turns a r) : r < turns.length := by
  obtain ⟨_, hr, _⟩ := h
  exact (List.getElem?_eq_some_iff.1 hr).1

theorem Returns.unique (h : Returns turns a r) (h' : Returns turns a j) : r = j := by
  obtain ⟨p, hr, ho⟩ := h
  obtain ⟨q, hj, ho'⟩ := h'
  obtain rfl : p = q := by
    have := (invokes_of_outstanding ho).symm.trans (invokes_of_outstanding ho')
    simpa using this
  have hbetween := (outstanding_eq_some_iff.1 ho).2.2
  have hbetween' := (outstanding_eq_some_iff.1 ho').2.2
  have har := lt_of_outstanding ho
  have haj := lt_of_outstanding ho'
  rcases Nat.lt_trichotomy r j with hlt | heq | hlt
  · exact absurd rfl (hbetween' r _ har hlt hr)
  · exact heq
  · exact absurd rfl (hbetween j _ haj hlt hj)

theorem Returns.unique_invocation (h : Returns turns a r) (h' : Returns turns b r) : a = b := by
  obtain ⟨p, hr, ho⟩ := h
  obtain ⟨q, hr', ho'⟩ := h'
  obtain rfl : p = q := by simpa using hr.symm.trans hr'
  exact Option.some.inj (ho.symm.trans ho')

theorem Returns.not_outstanding (h : Returns turns a r) (hlt : r < i) :
    outstanding turns p i ≠ some a := by
  intro ho
  obtain ⟨q, hr, ho'⟩ := h
  obtain rfl : p = q := by
    have := (invokes_of_outstanding ho).symm.trans (invokes_of_outstanding ho')
    simpa using this
  exact (outstanding_eq_some_iff.1 ho).2.2 r _ (lt_of_outstanding ho') hlt hr rfl

theorem returns_take : Returns (turns.take n) a r ↔ r < n ∧ Returns turns a r := by
  by_cases h : r < n
  · simp [Returns, h, outstanding_take (Nat.le_of_lt h)]
  · simp only [Returns, List.getElem?_take, h, if_false, false_and]
    simp

theorem precedes_take (h : b ≤ n) : Precedes (turns.take n) a b ↔ Precedes turns a b := by
  simp only [Precedes, returns_take]
  constructor
  · rintro ⟨r, ⟨_, hr⟩, hb⟩
    exact ⟨r, hr, hb⟩
  · rintro ⟨r, hr, hb⟩
    exact ⟨r, ⟨by omega, hr⟩, hb⟩

end Returns

section Alternating

theorem getElem?_take_eq_some_iff {turn : Turn} :
    (turns.take n)[i]? = some turn ↔ i < n ∧ turns[i]? = some turn := by
  rw [List.getElem?_take]
  split <;> simp [*]

theorem Alternating.take (h : Alternating turns) (n : Nat) : Alternating (turns.take n) := by
  intro i turn hi
  obtain ⟨hn, hi⟩ := getElem?_take_eq_some_iff.1 hi
  rw [outstanding_take (Nat.le_of_lt hn)]
  exact h i turn hi

theorem Alternating.take_succ {turn : Turn} (h : Alternating (turns.take i))
    (hi : turns[i]? = some turn)
    (hturn : turn.invokes = (outstanding turns turn.process i).isNone) :
    Alternating (turns.take (i + 1)) := by
  intro j other hother
  obtain ⟨hj', hj⟩ := getElem?_take_eq_some_iff.1 hother
  rw [outstanding_take (Nat.le_of_lt hj')]
  rcases Nat.lt_succ_iff_lt_or_eq.1 hj' with hlt | rfl
  · have := h j other (by simp [hlt, hj])
    rwa [outstanding_take (Nat.le_of_lt hlt)] at this
  · obtain rfl : turn = other := by simpa using hi.symm.trans hj
    exact hturn

theorem Alternating.exists_returns (h : Alternating turns)
    (hr : turns[r]? = some ⟨p, false⟩) : ∃ a, Returns turns a r := by
  have hsome := h r _ hr
  obtain ⟨a, ho⟩ : ∃ a, outstanding turns p r = some a :=
    Option.isSome_iff_exists.1 (by simpa using hsome)
  exact ⟨a, p, hr, ho⟩

/-- In an alternating history every earlier invocation is outstanding or has returned. -/
theorem Alternating.outstanding_or_returns (h : Alternating (turns.take i)) (hlt : a < i)
    (ha : turns[a]? = some ⟨p, true⟩) :
    outstanding turns p i = some a ∨ ∃ r, r < i ∧ Returns turns a r := by
  induction i with
  | zero => omega
  | succ i ih =>
    have hprev : Alternating (turns.take i) := by
      have := h.take i
      rwa [List.take_take, Nat.min_eq_left (Nat.le_succ i)] at this
    rcases Nat.lt_succ_iff_lt_or_eq.1 hlt with hlt | rfl
    · rcases ih hprev hlt with ho | ⟨r, hr, hret⟩
      · cases hturn : turns[i]? with
        | none => left; simpa [outstanding, hturn] using ho
        | some turn =>
          by_cases hp : turn.process = p
          · -- Its process takes the next turn, which can only be the return.
            have hinv := h i turn (by simp [hturn])
            rw [outstanding_take (Nat.le_succ i), hp, ho] at hinv
            right
            refine ⟨i, Nat.lt_succ_self i, p, ?_, ho⟩
            rw [hturn, ← hp, ← show turn.invokes = false by simpa using hinv]
          · left
            rw [outstanding_succ_of_ne hturn hp, ho]
      · exact Or.inr ⟨r, by omega, hret⟩
    · exact Or.inl (outstanding_succ_of_invokes ha)

/-- The turn at `i` is the first one that breaks the alternation of its process. -/
structure FirstBreak (turns : List Turn) (i : Nat) : Prop where
  before : Alternating (turns.take i)
  breaks : ¬ Alternating (turns.take (i + 1))

theorem FirstBreak.lt_length (h : FirstBreak turns i) : i < turns.length := by
  by_contra hle
  have htake : turns.take (i + 1) = turns.take i := by
    rw [List.take_of_length_le (by omega), List.take_of_length_le (by omega)]
  exact h.breaks (htake ▸ h.before)

theorem FirstBreak.not_alternating (h : FirstBreak turns i) : ¬ Alternating turns := by
  intro halt
  exact h.breaks (halt.take (i + 1))

theorem FirstBreak.le (h : FirstBreak turns i) (hj : Alternating (turns.take j)) : j ≤ i := by
  by_contra hlt
  have := hj.take (i + 1)
  rw [List.take_take, Nat.min_eq_left (by omega)] at this
  exact h.breaks this

theorem FirstBreak.unique (h : FirstBreak turns i) (h' : FirstBreak turns j) : i = j :=
  Nat.le_antisymm (h'.le h.before) (h.le h'.before)

theorem FirstBreak.of_take (h : FirstBreak (turns.take n) i) : FirstBreak turns i := by
  have hlt : i < n := by
    have := h.lt_length
    rw [List.length_take] at this
    omega
  obtain ⟨hbefore, hbreaks⟩ := h
  rw [List.take_take, Nat.min_eq_left (by omega)] at hbefore hbreaks
  exact ⟨hbefore, hbreaks⟩

/-- The turn that breaks the alternation is the first one that an outstanding invocation does not
allow or does not call for. -/
theorem firstBreak_iff {turn : Turn} (hi : turns[i]? = some turn) : FirstBreak turns i ↔
    Alternating (turns.take i) ∧
      turn.invokes ≠ (outstanding turns turn.process i).isNone := by
  constructor
  · rintro ⟨hbefore, hbreaks⟩
    exact ⟨hbefore, fun hturn => hbreaks (hbefore.take_succ hi hturn)⟩
  · rintro ⟨hbefore, hturn⟩
    refine ⟨hbefore, fun halt => hturn ?_⟩
    have := halt i turn (getElem?_take_eq_some_iff.2 ⟨Nat.lt_succ_self i, hi⟩)
    rwa [outstanding_take (Nat.le_succ i)] at this

theorem exists_firstBreak (h : ¬ Alternating turns) : ∃ i, FirstBreak turns i := by
  by_contra hno
  have halt : ∀ i, Alternating (turns.take i) := by
    intro i
    induction i with
    | zero =>
      intro j turn hj
      simp at hj
    | succ i ih =>
      by_contra hbreaks
      exact hno ⟨i, ih, hbreaks⟩
  have := halt turns.length
  rw [List.take_length] at this
  exact h this

end Alternating

section OneMore

variable {turn : Turn}

theorem outstanding_concat_of_invokes :
    outstanding (turns ++ [⟨p, true⟩]) p (turns.length + 1) = some turns.length :=
  outstanding_succ_of_invokes (by simp)

theorem outstanding_concat_of_returns :
    outstanding (turns ++ [⟨p, false⟩]) p (turns.length + 1) = none :=
  outstanding_succ_of_returns (by simp)

theorem outstanding_concat_of_ne (hne : turn.process ≠ p) :
    outstanding (turns ++ [turn]) p (turns.length + 1) = outstanding turns p turns.length := by
  have hturn : (turns ++ [turn])[turns.length]? = some turn := by simp
  rw [outstanding_succ_of_ne hturn hne, outstanding_append [turn] (Nat.le_refl _)]

theorem returns_concat_iff : Returns (turns ++ [turn]) a r ↔ Returns turns a r ∨
    r = turns.length ∧ turn.invokes = false ∧
      outstanding turns turn.process turns.length = some a := by
  have htake : (turns ++ [turn]).take turns.length = turns := List.take_left
  constructor
  · intro h
    have hr : r < turns.length + 1 := by simpa using h.lt_length
    rcases Nat.lt_succ_iff_lt_or_eq.1 hr with hlt | rfl
    · have := returns_take.2 ⟨hlt, h⟩
      rw [htake] at this
      exact .inl this
    · obtain ⟨p, hturn, ho⟩ := h
      obtain rfl : turn = ⟨p, false⟩ := by simpa using hturn
      rw [outstanding_append _ (Nat.le_refl _)] at ho
      exact .inr ⟨rfl, rfl, ho⟩
  · rintro (h | ⟨rfl, hinvokes, ho⟩)
    · rw [← htake] at h
      exact (returns_take.1 h).2
    · refine ⟨turn.process, ?_, ?_⟩
      · obtain ⟨p, invokes⟩ := turn
        obtain rfl : invokes = false := hinvokes
        simp
      · rwa [outstanding_append _ (Nat.le_refl _)]

theorem precedes_concat_iff (h : b ≤ turns.length) :
    Precedes (turns ++ [turn]) a b ↔ Precedes turns a b := by
  rw [← precedes_take h, List.take_left]

theorem Alternating.concat (h : Alternating turns)
    (hturn : turn.invokes = (outstanding turns turn.process turns.length).isNone) :
    Alternating (turns ++ [turn]) := by
  have htake : (turns ++ [turn]).take turns.length = turns := List.take_left
  have hlast : (turns ++ [turn])[turns.length]? = some turn := by simp
  have hall : (turns ++ [turn]).take (turns.length + 1) = turns ++ [turn] :=
    List.take_of_length_le (by simp)
  rw [← hall]
  refine Alternating.take_succ (by rwa [htake]) hlast ?_
  rwa [outstanding_append _ (Nat.le_refl _)]

theorem alternating_concat_iff : Alternating (turns ++ [turn]) ↔
    Alternating turns ∧ turn.invokes = (outstanding turns turn.process turns.length).isNone := by
  constructor
  · intro h
    have hbefore := h.take turns.length
    rw [List.take_left] at hbefore
    have hturn := h turns.length turn (by simp)
    rw [outstanding_append _ (Nat.le_refl _)] at hturn
    exact ⟨hbefore, hturn⟩
  · rintro ⟨hbefore, hturn⟩
    exact hbefore.concat hturn

theorem isSome_outstanding_concat (turns : List Turn) (turn : Turn) (p : ProcessId) :
    (outstanding (turns ++ [turn]) p (turns.length + 1)).isSome =
      if turn.process = p then turn.invokes
      else (outstanding turns p turns.length).isSome := by
  by_cases hp : turn.process = p
  · subst hp
    obtain ⟨p, invokes⟩ := turn
    cases invokes with
    | true => simp [outstanding_concat_of_invokes]
    | false => simp [outstanding_concat_of_returns]
  · simp [outstanding_concat_of_ne hp, hp]

end OneMore

section SomeProcesses

/-- Leaving out other processes does not matter to a process. -/
theorem isSome_outstanding_filter (turns : List Turn) (chosen : ProcessId → Bool)
    (hp : chosen p) :
    (outstanding (turns.filter fun turn => chosen turn.process) p
      (turns.filter fun turn => chosen turn.process).length).isSome =
        (outstanding turns p turns.length).isSome := by
  induction turns using List.reverseRecOn with
  | nil => rfl
  | append_singleton turns turn ih =>
    have hall : (turns ++ [turn]).length = turns.length + 1 := by simp
    rw [hall, isSome_outstanding_concat, List.filter_append, List.filter_singleton]
    by_cases hchosen : chosen turn.process
    · rw [hchosen, cond_true, List.length_append, List.length_singleton, isSome_outstanding_concat,
        ih]
    · have hne : turn.process ≠ p := by
        rintro rfl
        exact hchosen hp
      simpa [hchosen, hne] using ih

theorem Alternating.filter (h : Alternating turns) (chosen : ProcessId → Bool) :
    Alternating (turns.filter fun turn => chosen turn.process) := by
  induction turns using List.reverseRecOn with
  | nil => exact h
  | append_singleton turns turn ih =>
    obtain ⟨hbefore, hturn⟩ := alternating_concat_iff.1 h
    rw [List.filter_append, List.filter_singleton]
    by_cases hchosen : chosen turn.process
    · rw [hchosen, cond_true]
      refine (ih hbefore).concat ?_
      rw [hturn, ← Option.not_isSome, ← Option.not_isSome,
        isSome_outstanding_filter turns chosen hchosen]
    · simpa [hchosen] using ih hbefore

end SomeProcesses

section Events

variable {Op Ret : Type} {events : List (Event Op Ret)}

theorem turn_invokes_iff : (events.map Event.turn)[i]? = some ⟨p, true⟩ ↔
    ∃ label op expected, events[i]? = some (.invoke p label op expected) := by
  rw [List.getElem?_map, Option.map_eq_some_iff]
  constructor
  · rintro ⟨event, he, ht⟩
    cases event with
    | invoke process label op expected =>
      obtain rfl : process = p := by
        simpa [Event.turn, Event.process] using congrArg Turn.process ht
      exact ⟨label, op, expected, he⟩
    | ret process result => simp [Event.turn, Event.isInvoke] at ht
  · rintro ⟨label, op, expected, he⟩
    exact ⟨_, he, rfl⟩

theorem turn_returns_iff : (events.map Event.turn)[i]? = some ⟨p, false⟩ ↔
    ∃ result, events[i]? = some (.ret p result) := by
  rw [List.getElem?_map, Option.map_eq_some_iff]
  constructor
  · rintro ⟨event, he, ht⟩
    cases event with
    | invoke process label op expected => simp [Event.turn, Event.isInvoke] at ht
    | ret process result =>
      obtain rfl : process = p := by
        simpa [Event.turn, Event.process] using congrArg Turn.process ht
      exact ⟨result, he⟩
  · rintro ⟨result, he⟩
    exact ⟨_, he, rfl⟩

end Events

end Turn
end Linearizability
