import Linearizability.Trial.Session
import Mathlib.Algebra.Ring.Nat
import Mathlib.Data.List.Basic

/-!
# What a process plans to do

A process makes the calls of its agenda one after another. It chooses each of them when it comes to
it, and the choice may depend on what the subject has become by then. The agendas of an accepted
workload hold as many calls as the trial makes.
-/

namespace Linearizability

namespace Generator

variable {α : Type} {draw : Generator → Nat × Generator} {bits n : Nat} {items : List α}

theorem belowWithin_succ (bits : Nat) (draw : Generator → Nat × Generator) (n fuel : Nat)
    (g : Generator) : belowWithin bits draw n (fuel + 1) g =
      if (draw g).1 * n % 2 ^ bits ≤ zone bits n then ((draw g).1 * n / 2 ^ bits, (draw g).2)
      else belowWithin bits draw n fuel (draw g).2 :=
  rfl

theorem belowWithin_lt (hdraw : ∀ g, (draw g).1 < 2 ^ bits) (hn : 0 < n) (fuel : Nat)
    (g : Generator) : (belowWithin bits draw n fuel g).1 < n := by
  induction fuel generalizing g with
  | zero => exact hn
  | succ fuel ih =>
    rw [belowWithin_succ]
    split
    · exact Nat.div_lt_of_lt_mul (Nat.mul_lt_mul_of_pos_right (hdraw g) hn)
    · exact ih _

theorem next32_lt (g : Generator) : g.next32.1 < 2 ^ 32 :=
  UInt32.toNat_lt _

theorem next64_lt (g : Generator) : g.next64.1 < 2 ^ 64 := by
  have hlow := g.next32_lt
  have hhigh := g.next32.2.next32_lt
  simp only [next64, UInt32.size]
  omega

theorem below32_lt (hn : 0 < n) (g : Generator) : (g.below32 n).1 < n := by
  rw [below32]
  exact belowWithin_lt next32_lt hn period g

theorem below64_lt (hn : 0 < n) (g : Generator) : (g.below64 n).1 < n := by
  rw [below64]
  exact belowWithin_lt next64_lt hn period g

theorem exists_choose? (h : items ≠ []) (g : Generator) :
    ∃ item left, g.choose? items = some (item, left) := by
  have hlength : 0 < items.length := List.length_pos_iff.2 h
  have hlt : (if items.length < UInt32.size then g.below32 items.length
      else g.below64 items.length).1 < items.length := by
    split
    · exact below32_lt hlength g
    · exact below64_lt hlength g
  rw [choose?, if_neg (by simpa using h)]
  -- What is drawn is never computed: a word may be rejected as often as the stream is long.
  generalize (if items.length < UInt32.size then g.below32 items.length
    else g.below64 items.length) = drawn at hlt
  exact ⟨items[drawn.1], drawn.2, by simp [hlt]⟩

end Generator

/-- A call that a process made, and how it came back. -/
structure Exchange where
  process : ProcessId
  call : Call
  response : Response

/-- What a process does with the subject. -/
inductive Deed where
  /-- It asks for arguments of the operation. There are none if the choice panics. -/
  | chose (process : ProcessId) (operation : Operation) (generator : Generator)
      (arguments : Option (List Value × Generator))
  | called (exchange : Exchange)

namespace Deed

variable {σ : Type}

def process : Deed → ProcessId
  | .chose process .. => process
  | .called exchange => exchange.process

def exchange? : Deed → Option Exchange
  | .chose .. => none
  | .called exchange => some exchange

/-- The subject answers like this, and leaves the object like that. -/
def Happens (subject : Subject σ) (object left : σ) : Deed → Prop
  | .chose p operation g arguments => subject.arguments object operation p g = (arguments, left)
  | .called e => subject.apply object e.call = (e.response, left)

end Deed

/-- The subject answers these deeds one after another. -/
inductive Answers {σ : Type} (subject : Subject σ) (object : σ) : List Deed → σ → Prop
  | nil : Answers subject object [] object
  | concat {deeds : List Deed} {deed : Deed} {now left : σ} (h : Answers subject object deeds now)
      (hdeed : deed.Happens subject now left) : Answers subject object (deeds ++ [deed]) left

theorem Answers.append {σ : Type} {subject : Subject σ} {object now left : σ}
    {deeds more : List Deed} (h : Answers subject object deeds now)
    (hmore : Answers subject now more left) : Answers subject object (deeds ++ more) left := by
  induction hmore with
  | nil => rwa [List.append_nil]
  | concat _ hdeed ih =>
    rw [← List.append_assoc]
    exact ih.concat hdeed

theorem Answers.exists_apply {σ : Type} {subject : Subject σ} {object left : σ}
    {deeds : List Deed} {e : Exchange} (h : Answers subject object deeds left)
    (hmem : .called e ∈ deeds) : ∃ now, (subject.apply now e.call).1 = e.response := by
  induction h with
  | nil => simp at hmem
  | @concat deeds deed now _ _ hdeed ih =>
    rcases List.mem_append.1 hmem with hmem | hmem
    · exact ih hmem
    · obtain rfl := List.mem_singleton.1 hmem
      exact ⟨now, congrArg Prod.fst hdeed⟩

/-- The calls among the deeds. -/
def exchanges (deeds : List Deed) : List Exchange := deeds.filterMap Deed.exchange?

namespace Agenda

variable {σ : Type} {subject : Subject σ} {object left : σ} {p : ProcessId}
variable {agenda rest rest' : Agenda} {call : Call} {choice done : List Deed}

/-- Random calls are drawn from something. -/
def Stocked : Agenda → Prop
  | .scripted _ => True
  | .random _ menu _ => menu ≠ []

/-- With these deeds the process comes to the next call of its agenda, and this is left of it. -/
inductive Draws (p : ProcessId) : Agenda → List Deed → Call → Agenda → Prop
  | scripted (call : Call) (calls : List Call) :
      Draws p (.scripted (call :: calls)) [] call (.scripted calls)
  | random {g g' : Generator} {menu : List Operation} {operation : Operation}
      (h : g.choose? menu = some (operation, g')) (count : Nat) (args : List Value)
      (left : Generator) : Draws p (.random (count + 1) menu g)
        [.chose p operation g' (some (args, left))] ⟨operation, args⟩ (.random count menu left)

/-- The process has made the first calls of its agenda, and this is left of it. -/
inductive Performs (p : ProcessId) (agenda : Agenda) : List Deed → Agenda → Prop
  | nil : Performs p agenda [] agenda
  | call {done choice : List Deed} {rest rest' : Agenda} {call : Call}
      (h : Performs p agenda done rest) (hcall : Draws p rest choice call rest')
      (response : Response) :
      Performs p agenda (done ++ (choice ++ [.called ⟨p, call, response⟩])) rest'

namespace Draws

variable (h : Draws p agenda choice call rest)

include h

theorem exchanges_eq_nil : exchanges choice = [] := by
  cases h with
  | scripted => rfl
  | random => rfl

theorem process_eq {deed : Deed} (hmem : deed ∈ choice) : deed.process = p := by
  cases h with
  | scripted => simp at hmem
  | random => rw [List.mem_singleton.1 hmem]; rfl

theorem count_eq : agenda.count = rest.count + 1 := by
  cases h with
  | scripted => rfl
  | random => rfl

theorem stocked (hstocked : agenda.Stocked) : rest.Stocked := by
  cases h with
  | scripted => trivial
  | random => exact hstocked

end Draws

theorem exchanges_concat (h : Draws p rest choice call rest') (done : List Deed) (e : Exchange) :
    exchanges (done ++ (choice ++ [.called e])) = exchanges done ++ [e] := by
  have hchoice : choice.filterMap Deed.exchange? = [] := h.exchanges_eq_nil
  simp [exchanges, hchoice, Deed.exchange?]

namespace Performs

variable (h : Performs p agenda done rest)

include h

theorem count_eq : agenda.count = (exchanges done).length + rest.count := by
  induction h with
  | nil => simp [exchanges]
  | call _ hcall response ih =>
    rw [exchanges_concat hcall, List.length_append, List.length_singleton, ih, hcall.count_eq]
    omega

theorem stocked (hstocked : agenda.Stocked) : rest.Stocked := by
  induction h with
  | nil => exact hstocked
  | call _ hcall _ ih => exact hcall.stocked ih

/-- The calls of a script are made in its order. -/
theorem of_scripted {calls : List Call} (hscript : agenda = .scripted calls) :
    ∃ later, rest = .scripted later ∧ calls = (exchanges done).map Exchange.call ++ later := by
  induction h with
  | nil => exact ⟨calls, hscript, rfl⟩
  | call _ hcall response ih =>
    obtain ⟨later, rfl, rfl⟩ := ih
    cases hcall with
    | scripted =>
      refine ⟨_, rfl, ?_⟩
      simp [exchanges, Deed.exchange?]

end Performs

section Next

theorem count_of_finished (hstocked : agenda.Stocked)
    (h : agenda.next subject p object = (.finished, left)) : agenda.count = 0 ∧ left = object := by
  match agenda with
  | .scripted [] => exact ⟨rfl, (Prod.mk.inj h).2.symm⟩
  | .scripted (call :: calls) => simp [next] at h
  | .random 0 menu g => exact ⟨rfl, (Prod.mk.inj h).2.symm⟩
  | .random (count + 1) menu g =>
    obtain ⟨operation, g', hchoose⟩ := Generator.exists_choose? hstocked g
    simp only [next, hchoose] at h
    split at h <;> simp at h

theorem draws_of_call (h : agenda.next subject p object = (.call call rest, left)) :
    ∃ choice, Draws p agenda choice call rest ∧ Answers subject object choice left := by
  match agenda with
  | .scripted [] => simp [next] at h
  | .scripted (first :: calls) =>
    obtain ⟨hcall, rfl⟩ := Prod.mk.inj h
    obtain ⟨rfl, rfl⟩ := Next.call.inj hcall
    exact ⟨[], .scripted first calls, .nil⟩
  | .random 0 menu g => simp [next] at h
  | .random (count + 1) menu g =>
    rw [next] at h
    split at h
    · simp at h
    · rename_i operation g' hchoose
      split at h
      · simp at h
      · rename_i args left' now harguments
        obtain ⟨hcall, rfl⟩ := Prod.mk.inj h
        obtain ⟨rfl, rfl⟩ := Next.call.inj hcall
        exact ⟨_, .random hchoose count args left', .concat .nil harguments⟩

/-- The choice of arguments panics only for an operation that was drawn. -/
theorem exists_of_panicked (h : agenda.next subject p object = (.panicked, left)) :
    ∃ count menu g operation g', agenda = .random (count + 1) menu g ∧
      g.choose? menu = some (operation, g') ∧
      Answers subject object [.chose p operation g' none] left := by
  match agenda with
  | .scripted [] => simp [next] at h
  | .scripted (call :: calls) => simp [next] at h
  | .random 0 menu g => simp [next] at h
  | .random (count + 1) menu g =>
    rw [next] at h
    split at h
    · simp at h
    · rename_i operation g' hchoose
      split at h
      · rename_i now harguments
        obtain ⟨-, rfl⟩ := Prod.mk.inj h
        exact ⟨count, menu, g, operation, g', rfl, hchoose, .concat .nil harguments⟩
      · simp at h

end Next

section Shares

variable {processes operations : Nat} {counts : List Nat} {calls : List Call}

theorem sum_share_range (processes operations n : Nat) :
    ((List.range n).map (share processes operations)).sum =
      n * (operations / processes) + min n (operations % processes) := by
  induction n with
  | zero => simp
  | succ n ih =>
    rw [List.range_succ, List.map_append, List.sum_append, ih, List.map_singleton,
      List.sum_singleton, share, Nat.succ_mul]
    split <;> omega

/-- Each operation is in the share of a process. -/
theorem sum_shares (operations : Nat) (h : processes ≠ 0) :
    (shares processes operations).sum = operations := by
  have hlt := Nat.mod_lt operations (Nat.pos_of_ne_zero h)
  rw [shares, sum_share_range, Nat.min_eq_right (Nat.le_of_lt hlt), Nat.div_add_mod]

theorem map_length_deal (h : counts.sum ≤ calls.length) :
    (deal counts calls).map List.length = counts := by
  induction counts generalizing calls with
  | nil => rfl
  | cons count counts ih =>
    rw [List.sum_cons] at h
    have hrest : counts.sum ≤ (calls.drop count).length := by
      rw [List.length_drop]
      omega
    rw [deal, List.map_cons, ih hrest, List.length_take, Nat.min_eq_left (by omega)]

/-- The processes have their shares of an accepted workload. -/
theorem ofWorkload_ok {entropy : Nat → ChaCha.Key} {menu : List Operation} {workload : Workload}
    {agendas : List Agenda} (hprocesses : processes ≠ 0)
    (h : ofWorkload entropy processes operations menu workload = .ok agendas) :
    agendas.map count = shares processes operations ∧ ∀ agenda ∈ agendas, agenda.Stocked := by
  have hdrawn : ∀ generator, ofWorkload.drawn processes operations menu generator = .ok agendas →
      agendas.map count = shares processes operations ∧ ∀ agenda ∈ agendas, agenda.Stocked := by
    intro generator hok
    rw [ofWorkload.drawn] at hok
    split at hok
    · simp at hok
    · rename_i hmenu
      obtain rfl := Except.ok.inj hok
      refine ⟨by simp [shares, count, Function.comp_def], fun agenda hmem => ?_⟩
      obtain ⟨p, -, rfl⟩ := List.mem_map.1 hmem
      simpa [Stocked] using hmenu
  cases workload with
  | random => exact hdrawn _ h
  | seeded seed => exact hdrawn _ h
  | scripted calls =>
    rw [ofWorkload] at h
    split at h
    · simp at h
    · rename_i hcalls
      obtain rfl := Except.ok.inj h
      constructor
      · rw [List.map_map]
        refine map_length_deal ?_
        rw [sum_shares operations hprocesses]
        exact Nat.not_lt.1 hcalls
      · intro agenda hmem
        obtain ⟨block, -, rfl⟩ := List.mem_map.1 hmem
        trivial

end Shares

end Agenda
end Linearizability
