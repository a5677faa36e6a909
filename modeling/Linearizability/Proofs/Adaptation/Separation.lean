import Linearizability.Proofs.Adaptation.Tracking
import Linearizability.Proofs.RecordOrder
import Mathlib.Algebra.BigOperators.Group.Finset.Basic

/-!
# One process at a time

The adaptation works on the records of all processes at once, and yet what it makes of the records
of a process depends on these alone. The main statement is that the records of one process, adapted
by themselves, give the events and the malformed records of this process in the adaptation of all.
-/

namespace Linearizability

variable {Op Ret : Type}

section Lists

variable {α : Type} {f : α → Bool} {g : α → α} {x : α}

theorem filter_modify_of_neg (hg : ∀ x, f (g x) = f x) (l : List α) {i : Nat}
    (hi : l[i]? = some x) (hx : f x = false) : (l.modify i g).filter f = l.filter f := by
  induction l generalizing i with
  | nil => simp
  | cons y l ih =>
    cases i with
    | zero =>
      obtain rfl : y = x := by simpa using hi
      simp [hg, hx]
    | succ i =>
      rw [List.modify_succ_cons, List.filter_cons, List.filter_cons, ih (by simpa using hi)]

theorem filter_modify_of_pos (hg : ∀ x, f (g x) = f x) (l : List α) {i : Nat}
    (hi : l[i]? = some x) (hx : f x = true) :
    (l.modify i g).filter f = (l.filter f).modify ((l.take i).countP f) g := by
  induction l generalizing i with
  | nil => simp
  | cons y l ih =>
    cases i with
    | zero =>
      obtain rfl : y = x := by simpa using hi
      simp [hg, hx]
    | succ i =>
      rw [List.modify_succ_cons, List.filter_cons, List.filter_cons, ih (by simpa using hi),
        List.take_succ_cons, List.countP_cons]
      split <;> simp [List.modify_succ_cons, *]

theorem eraseP_filter (f : α → Bool) (l : List α) :
    (l.filter f).eraseP f = (l.eraseP f).filter f := by
  rw [Adaptation.filter_eraseP_self]
  cases hl : l.filter f with
  | nil => rfl
  | cons x rest =>
    have hx : f x = true := (List.mem_filter.1 (hl ▸ List.mem_cons_self)).2
    simp [hx]

end Lists

namespace Adaptation

namespace Progress

/-- Whose turn each event is. -/
def owners (a : Progress Op Ret) : List ProcessId := a.events.toList.map Event.process

/-- Every invocation that waits stands at its position. -/
def Placed (a : Progress Op Ret) : Prop :=
  ∀ w ∈ a.waiting, a.owners[w.position]? = some w.process

/-- The same invocation, with its position among the events of its own process. -/
def renumber (a : Progress Op Ret) (w : Waiting Op) : Waiting Op :=
  { w with position := (a.owners.take w.position).count w.process }

variable {vocabulary : Vocabulary Op Ret} {a a' : Progress Op Ret} {p : ProcessId}
variable {seq : UInt64} {call : Call} {value : Value} {w : Waiting Op} {more : List ProcessId}

theorem process_withExpected (result : Option Ret) (event : Event Op Ret) :
    (event.withExpected result).process = event.process := by
  cases event <;> rfl

theorem owners_of_push {event : Event Op Ret} (h : a'.events = a.events.push event)
    (hp : event.process = p) : a'.owners = a.owners ++ [p] := by
  simp [owners, h, hp]

theorem count_owners_take (a : Progress Op Ret) (p : ProcessId) (i : Nat) :
    (a.owners.take i).count p = (a.events.toList.take i).countP (·.process = p) := by
  rw [owners, ← List.map_take, List.count_eq_countP, List.countP_map]
  rfl

/-- An answer changes an event, and not whose it is. -/
theorem map_process_modify (events : List (Event Op Ret)) (i : Nat) (result : Option Ret) :
    (events.modify i (·.withExpected result)).map Event.process = events.map Event.process := by
  refine List.ext_getElem? fun j => ?_
  simp only [List.getElem?_map, List.getElem?_modify]
  cases events[j]? with
  | none => rfl
  | some event => split <;> simp [process_withExpected]

theorem owners_of_answer {event : Event Op Ret} {i : Nat} {result : Option Ret}
    (h : a'.events = (a.events.modify i (·.withExpected result)).push event)
    (hp : event.process = p) : a'.owners = a.owners ++ [p] := by
  simp [owners, h, hp, map_process_modify]

theorem exists_owners_invoke (a : Progress Op Ret) (vocabulary : Vocabulary Op Ret)
    (p : ProcessId) (call : Call) :
    ∃ more, (a.invoke vocabulary p call).owners = a.owners ++ more := by
  unfold invoke
  cases vocabulary.translate call with
  | none => exact ⟨[], by simp [owners]⟩
  | some op => exact ⟨_, owners_of_push rfl rfl⟩

theorem exists_owners_ret (a : Progress Op Ret) (vocabulary : Vocabulary Op Ret) (seq : UInt64)
    (p : ProcessId) (value : Value) :
    ∃ more, (a.ret vocabulary seq p value).owners = a.owners ++ more := by
  unfold ret
  split
  · exact ⟨[], by simp [owners]⟩
  · split
    · exact ⟨_, owners_of_answer rfl rfl⟩
    · exact ⟨[], by simp [owners]⟩

namespace Placed

theorem lt (h : a.Placed) (hw : w ∈ a.waiting) : w.position < a.owners.length :=
  (List.getElem?_eq_some_iff.1 (h w hw)).1

theorem exists_event (h : a.Placed) (hw : w ∈ a.waiting) :
    ∃ event, a.events.toList[w.position]? = some event ∧ event.process = w.process := by
  have hat := h w hw
  rwa [owners, List.getElem?_map, Option.map_eq_some_iff] at hat

/-- Events that are added leave the earlier ones where they are. -/
theorem getElem?_owners (h : a.Placed) (howners : a'.owners = a.owners ++ more)
    (hw : w ∈ a.waiting) : a'.owners[w.position]? = some w.process := by
  rw [howners, List.getElem?_append_left (h.lt hw)]
  exact h w hw

theorem map_renumber (h : a.Placed) (howners : a'.owners = a.owners ++ more)
    {waiting : List (Waiting Op)} (hwaiting : waiting ⊆ a.waiting) :
    waiting.map a'.renumber = waiting.map a.renumber := by
  refine List.map_congr_left fun w hw => ?_
  have hle : w.position ≤ a.owners.length := Nat.le_of_lt (h.lt (hwaiting hw))
  rw [renumber, renumber, howners, List.take_append_of_le_length hle]

theorem invoke (h : a.Placed) : (a.invoke vocabulary p call).Placed := by
  unfold Progress.invoke
  cases vocabulary.translate call with
  | none => exact h
  | some op =>
    intro w hw
    rcases List.mem_append.1 hw with hw | hw
    · exact h.getElem?_owners (owners_of_push rfl rfl) hw
    · obtain rfl := List.mem_singleton.1 hw
      simp [owners, Event.process]

theorem ret (h : a.Placed) : (a.ret vocabulary seq p value).Placed := by
  unfold Progress.ret
  split
  · exact h
  · split
    · intro w hw
      exact h.getElem?_owners (owners_of_answer rfl rfl) (List.mem_of_mem_eraseP hw)
    · exact h

end Placed
end Progress

/-- What the records of one process make by themselves, beside what the records of all make. -/
structure Separates (p : ProcessId) (a own : Progress Op Ret) : Prop where
  placed : a.Placed
  events : own.events.toList = a.events.toList.filter (·.process = p)
  waiting : own.waiting = (a.waiting.filter (·.process = p)).map a.renumber
  swallowing : own.swallowing.count p = a.swallowing.count p
  malformed : own.malformed.toList = a.malformed.toList.filter (·.process = p)

namespace Separates

variable {vocabulary : Vocabulary Op Ret} {a a' own : Progress Op Ret} {p q : ProcessId}
variable {seq : UInt64} {call : Call} {value : Value}

theorem start (p : ProcessId) : Separates p ({} : Progress Op Ret) {} where
  placed := by simp [Progress.Placed]
  events := rfl
  waiting := rfl
  swallowing := rfl
  malformed := rfl

section Others

variable (h : Separates p a own) (hq : q ≠ p)

include h

/-- What is left alone of a process stays separated. -/
theorem of_unchanged (hplaced : a'.Placed) (howners : ∃ more, a'.owners = a.owners ++ more)
    (hevents : a'.events.toList.filter (·.process = p) = a.events.toList.filter (·.process = p))
    (hwaiting : a'.waiting.filter (·.process = p) = a.waiting.filter (·.process = p))
    (hswallowing : a'.swallowing.count p = a.swallowing.count p)
    (hmalformed : a'.malformed.toList.filter (·.process = p) =
      a.malformed.toList.filter (·.process = p)) : Separates p a' own where
  placed := hplaced
  events := by rw [hevents, h.events]
  waiting := by
    obtain ⟨more, howners⟩ := howners
    rw [hwaiting, h.waiting, h.placed.map_renumber howners (List.filter_subset_self _)]
  swallowing := by rw [hswallowing, h.swallowing]
  malformed := by rw [hmalformed, h.malformed]

include hq

theorem invoke_of_ne : Separates p (a.invoke vocabulary q call) own := by
  refine h.of_unchanged h.placed.invoke (a.exists_owners_invoke vocabulary q call) ?_ ?_ ?_ ?_ <;>
    unfold Progress.invoke <;> cases vocabulary.translate call <;> simp [Event.process, hq]

theorem ret_of_ne : Separates p (a.ret vocabulary seq q value) own := by
  have hplaced : (a.ret vocabulary seq q value).Placed := h.placed.ret
  have howners := a.exists_owners_ret vocabulary seq q value
  unfold Progress.ret at hplaced howners ⊢
  by_cases hswallow : q ∈ a.swallowing
  · rw [if_pos hswallow] at hplaced howners ⊢
    exact h.of_unchanged hplaced howners rfl rfl (List.count_erase_of_ne (Ne.symm hq)) rfl
  rw [if_neg hswallow] at hplaced howners ⊢
  cases hfind : a.waiting.find? (·.process = q) with
  | none =>
    rw [hfind] at hplaced howners
    exact h.of_unchanged hplaced howners rfl rfl rfl (by simp [hq])
  | some w =>
    rw [hfind] at hplaced howners
    have hw : w.process = q := by simpa using List.find?_some hfind
    obtain ⟨event, hat, hevent⟩ := h.placed.exists_event (List.mem_of_find?_eq_some hfind)
    have hne : event.process ≠ p := by rwa [hevent, hw]
    refine h.of_unchanged hplaced howners ?_ ?_ rfl rfl
    · simp only [Array.toList_push, Array.toList_modify, List.filter_append, List.filter_singleton]
      rw [filter_modify_of_neg (fun e => by rw [Progress.process_withExpected]) _ hat
        (by simpa using hne)]
      simp [Event.process, hq]
    · exact filter_eraseP_of_disjoint (fun x hx => by simp_all) a.waiting

end Others

section Own

variable (h : Separates p a own)

include h

theorem size_own : own.events.size = a.owners.count p := by
  rw [← Array.length_toList, h.events, Progress.owners, List.count_eq_countP, List.countP_map,
    List.countP_eq_length_filter]
  rfl

theorem find?_own : own.waiting.find? (·.process = p) =
    (a.waiting.find? (·.process = p)).map a.renumber := by
  rw [h.waiting, List.find?_map, List.find?_filter]
  congr 2
  funext w
  by_cases hw : w.process = p <;> simp [Progress.renumber, hw]

theorem mem_swallowing_iff : p ∈ own.swallowing ↔ p ∈ a.swallowing := by
  rw [← List.count_pos_iff, ← List.count_pos_iff, h.swallowing]

theorem invoke : Separates p (a.invoke vocabulary p call) (own.invoke vocabulary p call) := by
  have hplaced : (a.invoke vocabulary p call).Placed := h.placed.invoke
  unfold Progress.invoke at hplaced ⊢
  cases htranslate : vocabulary.translate call with
  | none => exact { h with swallowing := by simp [h.swallowing] }
  | some op =>
    rw [htranslate] at hplaced
    dsimp only at hplaced ⊢
    let next : Progress Op Ret := { a with
      events := a.events.push (.invoke p (toString call) op none)
      waiting := a.waiting ++ [⟨p, op, a.events.size⟩] }
    have howners : next.owners = a.owners ++ [p] := Progress.owners_of_push rfl rfl
    have hall : (a.owners ++ [p]).take a.events.size = a.owners := by simp [Progress.owners]
    have hlast : next.renumber ⟨p, op, a.events.size⟩ = ⟨p, op, own.events.size⟩ := by
      rw [Progress.renumber, howners, hall, h.size_own]
    exact {
      placed := hplaced
      events := by simp [h.events, Event.process]
      waiting := by
        have hwaiting : next.waiting = a.waiting ++ [⟨p, op, a.events.size⟩] := rfl
        change _ = (next.waiting.filter (·.process = p)).map next.renumber
        rw [hwaiting, List.filter_append, List.map_append,
          h.placed.map_renumber howners (List.filter_subset_self _), ← h.waiting]
        simp [hlast]
      swallowing := h.swallowing
      malformed := h.malformed }

theorem ret : Separates p (a.ret vocabulary seq p value) (own.ret vocabulary seq p value) := by
  have hplaced : (a.ret vocabulary seq p value).Placed := h.placed.ret
  unfold Progress.ret at hplaced ⊢
  by_cases hswallow : p ∈ a.swallowing
  · rw [if_pos hswallow, if_pos (h.mem_swallowing_iff.2 hswallow)]
    exact { h with swallowing := by simp [h.swallowing] }
  rw [if_neg hswallow] at hplaced ⊢
  rw [if_neg (mt h.mem_swallowing_iff.1 hswallow), h.find?_own]
  cases hfind : a.waiting.find? (·.process = p) with
  | none => exact { h with malformed := by simp [h.malformed] }
  | some w =>
    rw [hfind] at hplaced
    dsimp only [Option.map_some] at hplaced ⊢
    have hw : w.process = p := by simpa using List.find?_some hfind
    obtain ⟨event, hat, hevent⟩ := h.placed.exists_event (List.mem_of_find?_eq_some hfind)
    have hposition : (a.renumber w).position =
        (a.events.toList.take w.position).countP (·.process = p) := by
      rw [Progress.renumber, a.count_owners_take, hw]
    let next : Progress Op Ret := { a with
      events := (a.events.modify w.position (·.withExpected (vocabulary.observe w.op value))).push
        (.ret p (vocabulary.observe w.op value))
      waiting := a.waiting.eraseP (·.process = p) }
    have howners : next.owners = a.owners ++ [p] := Progress.owners_of_answer rfl rfl
    exact {
      placed := hplaced
      events := by
        rw [Array.toList_push, Array.toList_modify, Array.toList_push, Array.toList_modify,
          List.filter_append, filter_modify_of_pos
            (fun e => by rw [Progress.process_withExpected]) _ hat (by simpa [hw] using hevent),
          h.events, hposition]
        simp [Event.process, Progress.renumber]
      waiting := by
        have hkept : (a.waiting.eraseP (·.process = p)).filter (·.process = p) ⊆ a.waiting :=
          fun x hx => List.mem_of_mem_eraseP (List.mem_of_mem_filter hx)
        rw [h.placed.map_renumber howners hkept, h.waiting, List.eraseP_map, ← eraseP_filter]
        rfl
      swallowing := h.swallowing
      malformed := h.malformed }

end Own

variable (vocabulary)

theorem add (h : Separates p a own) (record : Record) :
    Separates p (Progress.add vocabulary a record)
      (if record.process = p then Progress.add vocabulary own record else own) := by
  unfold Progress.add
  split_ifs with hp
  · subst hp
    cases record.kind with
    | invoke call => exact h.invoke
    | ret value => exact h.ret
  · cases record.kind with
    | invoke call => exact h.invoke_of_ne hp
    | ret value => exact h.ret_of_ne hp

theorem foldl (h : Separates p a own) (records : List Record) :
    Separates p (records.foldl (Progress.add vocabulary) a)
      ((records.filter (·.process = p)).foldl (Progress.add vocabulary) own) := by
  induction records generalizing a own with
  | nil => exact h
  | cons record records ih =>
    have hadd := h.add vocabulary record
    rw [List.filter_cons]
    by_cases hp : record.process = p
    · rw [if_pos hp] at hadd
      simpa [hp] using ih hadd
    · rw [if_neg hp] at hadd
      simpa [hp] using ih hadd

end Separates

section Ignored

variable (vocabulary : Vocabulary Op Ret)

/-- The record is left out together with the next return of its process. -/
def outside (record : Record) : Bool :=
  record.isInvocation && (record.operation? vocabulary).isNone

theorem ignored_add (a : Progress Op Ret) (record : Record) :
    (Progress.add vocabulary a record).ignored =
      a.ignored + if outside vocabulary record then 1 else 0 := by
  unfold Progress.add
  cases hkind : record.kind with
  | invoke call =>
    cases htranslate : vocabulary.translate call <;>
      simp [Progress.invoke, outside, Record.isInvocation, Record.operation?, hkind, htranslate]
  | ret value =>
    have hno : outside vocabulary record = false := by
      simp [outside, Record.isInvocation, hkind]
    rw [if_neg (by simp [hno])]
    simp only [Progress.ret]
    split
    · rfl
    · split <;> rfl

theorem ignored_foldl (a : Progress Op Ret) (records : List Record) :
    (records.foldl (Progress.add vocabulary) a).ignored =
      a.ignored + records.countP (outside vocabulary) := by
  induction records generalizing a with
  | nil => rfl
  | cons record records ih =>
    rw [List.foldl_cons, ih, ignored_add, List.countP_cons]
    omega

theorem ignored_ofRecords (records : List Record) :
    (ofRecords vocabulary records).ignored = records.countP (outside vocabulary) := by
  rw [ofRecords, ignored_foldl, (Record.sorted_perm records).countP_eq]
  exact Nat.zero_add _

/-- Each record is of one process. -/
theorem sum_countP_process (f : Record → Bool) (records : List Record) :
    ∑ p ∈ (records.map Record.process).toFinset, (records.filter (·.process = p)).countP f =
      records.countP f := by
  let owners : Multiset ProcessId := ((records.filter f).map Record.process : List ProcessId)
  have hmem : ∀ p ∈ owners, p ∈ (records.map Record.process).toFinset := by
    simp only [owners, Multiset.mem_coe, List.mem_toFinset]
    exact fun p hp => List.map_subset _ (List.filter_subset_self _) hp
  have hcount : ∀ p, (records.filter (·.process = p)).countP f = owners.count p := fun p => by
    rw [Multiset.coe_count, List.count_eq_countP, List.countP_map, List.countP_filter,
      List.countP_filter]
    exact List.countP_congr fun record _ => by simp [and_comm]
  calc ∑ p ∈ (records.map Record.process).toFinset, (records.filter (·.process = p)).countP f
      = ∑ p ∈ (records.map Record.process).toFinset, owners.count p :=
        Finset.sum_congr rfl fun p _ => hcount p
    _ = owners.card := Multiset.sum_count_eq_card hmem
    _ = records.countP f := by simp [owners, List.countP_eq_length_filter]

end Ignored

/-- The records of a process, adapted by themselves, give what they give among the records of all,
and each ignored call is one of some process. -/
theorem ofRecords_separates (vocabulary : Vocabulary Op Ret) (records : List Record) :
    let whole := ofRecords vocabulary records
    let own p := ofRecords vocabulary (records.filter (·.process = p))
    (∀ p, (own p).events = whole.events.filter (·.process = p) ∧
      (own p).malformed = whole.malformed.filter (·.process = p)) ∧
    whole.ignored = ∑ p ∈ (records.map Record.process).toFinset, (own p).ignored := by
  refine ⟨fun p => ?_, ?_⟩
  · have hstart : Separates p ({} : Progress Op Ret) {} := .start p
    have h := hstart.foldl vocabulary (Record.sorted records)
    rw [← Record.sorted_filter] at h
    exact ⟨h.events, h.malformed⟩
  · simp only [ignored_ofRecords]
    exact (sum_countP_process (outside vocabulary) records).symm

end Adaptation

end Linearizability
