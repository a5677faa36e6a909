import Linearizability.Proofs.Search.Exploration

/-!
# What a search notes

A search notes for each process the positions at which it is considered, and the results that are
rejected there. The main statement is what becomes of the notes: the furthest position of a process
is the greatest one noted for it, and its rejected results are those noted there, each once and in
the order of their first rejections.
-/

namespace Linearizability

variable {Ret : Type}

structure Note (Ret : Type) where
  process : ProcessId
  position : Nat
  /-- The result that is rejected at the position, if the note is about one. -/
  rejected : Option Ret := none

/-- The results rejected at the position, the earliest first. -/
def Note.rejectedAt (notes : List (Note Ret)) (i : Nat) : List Ret :=
  notes.filterMap fun n => if n.position = i then n.rejected else none

theorem Note.rejectedAt_concat (notes : List (Note Ret)) (n : Note Ret) (i : Nat) :
    Note.rejectedAt (notes ++ [n]) i =
      Note.rejectedAt notes i ++ if n.position = i then n.rejected.toList else [] := by
  unfold Note.rejectedAt
  rw [List.filterMap_append]
  split
  · cases hn : n.rejected <;> simp [*]
  · simp [*]

variable [DecidableEq Ret]

section FirstOccurrences

variable {l : List Ret} {a : Ret}

theorem eraseDups_concat : (l ++ [a]).eraseDups =
    if a ∈ l then l.eraseDups else l.eraseDups ++ [a] := by
  rw [List.eraseDups_append]
  split <;> simp_all [List.removeAll, List.eraseDups_cons]

theorem nodup_eraseDups (l : List Ret) : l.eraseDups.Nodup := by
  induction l using List.reverseRecOn with
  | nil => exact List.nodup_nil
  | append_singleton l a ih =>
    rw [eraseDups_concat]
    split
    · exact ih
    · rename_i ha
      refine List.nodup_append.2 ⟨ih, by simp, ?_⟩
      rintro b hb _ hba rfl
      rw [List.mem_singleton.1 hba, List.mem_eraseDups] at hb
      exact ha hb

end FirstOccurrences

namespace ProcessReach

variable {r : ProcessReach Ret} {notes : List (Note Ret)}

def note (r : ProcessReach Ret) (n : Note Ret) : ProcessReach Ret :=
  match n.rejected with
  | none => r.reach n.position
  | some ret => (r.reach n.position).reject n.position ret

/-- The furthest position is the greatest one in the notes, and the results are those that they
reject there. -/
structure Sums (r : ProcessReach Ret) (notes : List (Note Ret)) : Prop where
  furthest : r.furthest = (notes.map (·.position)).max?
  rejected : r.rejected = r.furthest.elim [] fun i => (Note.rejectedAt notes i).eraseDups

omit [DecidableEq Ret] in
theorem max?_positions_concat {n : Note Ret} {i : Nat}
    (h : (notes.map (·.position)).max? = some i) :
    ((notes ++ [n]).map (·.position)).max? = some (max i n.position) := by
  obtain ⟨hmem, hle⟩ := List.max?_eq_some_iff.1 h
  rw [List.map_append, List.max?_eq_some_iff]
  constructor
  · rcases Nat.le_total i n.position with hmax | hmax <;> simp_all
  · intro j hj
    rcases List.mem_append.1 hj with hj | hj
    · exact (hle j hj).trans (Nat.le_max_left _ _)
    · obtain rfl : j = n.position := by simpa using hj
      exact Nat.le_max_right _ _

/-- A note at a further position makes a new start. -/
theorem Sums.note_further (h : r.Sums notes) {n : Note Ret}
    (hall : r.furthest.all (· < n.position) = true) : (r.note n).Sums (notes ++ [n]) := by
  have hlt : ∀ m ∈ notes, m.position < n.position := by
    intro m hm
    cases hr : r.furthest with
    | none =>
      have hnil := List.max?_eq_none_iff.1 (h.furthest.symm.trans hr)
      simp_all
    | some i =>
      have hle := (List.max?_eq_some_iff.1 (h.furthest.symm.trans hr)).2 m.position
        (List.mem_map_of_mem hm)
      simp only [hr, Option.all_some, decide_eq_true_eq] at hall
      omega
  have hnone : Note.rejectedAt notes n.position = [] := by
    refine List.filterMap_eq_nil_iff.2 ?_
    intro m hm
    rw [if_neg (Nat.ne_of_lt (hlt m hm))]
  have hentry : r.note n = ⟨some n.position, n.rejected.toList⟩ := by
    unfold ProcessReach.note reach reject
    rw [if_pos hall]
    cases n.rejected <;> simp
  rw [hentry]
  constructor
  · refine (List.max?_eq_some_iff.2 ⟨by simp, ?_⟩).symm
    intro j hj
    simp only [List.map_append, List.mem_append, List.mem_map] at hj
    rcases hj with ⟨m, hm, rfl⟩ | ⟨m, hm, rfl⟩
    · exact Nat.le_of_lt (hlt m hm)
    · simp_all
  · rw [Option.elim_some, Note.rejectedAt_concat, hnone, if_pos rfl]
    cases n.rejected <;> simp [List.eraseDups_cons]

theorem furthest_reject (r : ProcessReach Ret) (i : Nat) (ret : Ret) :
    (r.reject i ret).furthest = r.furthest := by
  unfold reject
  split <;> rfl

/-- At the furthest position a rejected result is added if it is a new one, and what is noted at an
earlier position changes nothing. -/
theorem Sums.note_kept (h : r.Sums notes) {n : Note Ret} {i : Nat} (hr : r.furthest = some i)
    (hle : n.position ≤ i) : (r.note n).Sums (notes ++ [n]) := by
  have hreach : r.reach n.position = r := by
    unfold reach
    rw [hr, Option.all_some, if_neg (by simpa using hle)]
  have hrejected : r.rejected = (Note.rejectedAt notes i).eraseDups := by
    rw [h.rejected, hr, Option.elim_some]
  have hfurthest : (r.note n).furthest = some i := by
    unfold ProcessReach.note
    rw [hreach]
    cases n.rejected with
    | none => exact hr
    | some ret => exact (furthest_reject r _ _).trans hr
  constructor
  · rw [hfurthest, max?_positions_concat (h.furthest.symm.trans hr), Nat.max_eq_left hle]
  · rw [hfurthest, Option.elim_some, Note.rejectedAt_concat]
    unfold ProcessReach.note
    rw [hreach]
    cases n.rejected with
    | none => simpa using hrejected
    | some ret =>
      dsimp only
      unfold reject
      simp only [hr, hrejected, List.mem_eraseDups]
      by_cases hi : n.position = i
      · rw [if_pos hi, Option.toList_some, eraseDups_concat]
        by_cases hmem : ret ∈ Note.rejectedAt notes i <;> simp [hi, hmem, hrejected]
      · simp [hi, Ne.symm hi, hrejected]

theorem Sums.note (h : r.Sums notes) (n : Note Ret) : (r.note n).Sums (notes ++ [n]) := by
  cases hr : r.furthest with
  | none => exact h.note_further (by simp [hr])
  | some i =>
    by_cases hlt : i < n.position
    · exact h.note_further (by simp [hr, hlt])
    · exact h.note_kept hr (Nat.le_of_not_lt hlt)

theorem sums_foldl (notes : List (Note Ret)) :
    (notes.foldl note ({} : ProcessReach Ret)).Sums notes := by
  induction notes using List.reverseRecOn with
  | nil => exact ⟨rfl, rfl⟩
  | append_singleton notes n ih =>
    rw [List.foldl_append]
    exact ih.note n

section Reading

variable (h : r.Sums notes)

include h

theorem Sums.furthest_eq_some_iff {i : Nat} : r.furthest = some i ↔
    (∃ n ∈ notes, n.position = i) ∧ ∀ n ∈ notes, n.position ≤ i := by
  rw [h.furthest, List.max?_eq_some_iff]
  simp

theorem Sums.furthest_eq_none_iff : r.furthest = none ↔ notes = [] := by
  rw [h.furthest, List.max?_eq_none_iff, List.map_eq_nil_iff]

theorem Sums.nodup_rejected : r.rejected.Nodup := by
  rw [h.rejected]
  cases r.furthest with
  | none => exact List.nodup_nil
  | some i => exact nodup_eraseDups _

theorem Sums.mem_rejected_iff {ret : Ret} : ret ∈ r.rejected ↔
    ∃ i, r.furthest = some i ∧ ∃ n ∈ notes, n.position = i ∧ n.rejected = some ret := by
  rw [h.rejected]
  cases r.furthest with
  | none => simp
  | some i =>
    have hsome : (∃ j, some i = some j ∧ ∃ n ∈ notes, n.position = j ∧ n.rejected = some ret) ↔
        ∃ n ∈ notes, n.position = i ∧ n.rejected = some ret := by
      simp only [Option.some.injEq, exists_eq_left']
    rw [hsome]
    simp [Note.rejectedAt]

end Reading

end ProcessReach

namespace Reach

variable {p : ProcessId}

def note (r : Reach Ret) (n : Note Ret) : Reach Ret :=
  match n.rejected with
  | none => r.reached n.process n.position
  | some ret => r.rejected n.process n.position ret

omit [DecidableEq Ret] in
theorem process?_modify {f : ProcessReach Ret → ProcessReach Ret} (r : Reach Ret) (q : ProcessId)
    (i : Nat) : (⟨i, r.processes.modify q.toNat f⟩ : Reach Ret).process? p =
      (r.process? p).map fun entry => if q = p then f entry else entry := by
  unfold process? ProcessId.lookup?
  rw [List.getElem?_modify, Option.map_eq_map]
  simp only [ProcessId.toNat_inj]

theorem process?_note (r : Reach Ret) (n : Note Ret) : (r.note n).process? p =
    (r.process? p).map fun entry => if n.process = p then entry.note n else entry := by
  unfold note ProcessReach.note
  cases n.rejected with
  | none => exact process?_modify r n.process _
  | some ret =>
    refine (process?_modify (r.reached n.process n.position) n.process _).trans ?_
    rw [reached, process?_modify, Option.map_map]
    refine congrArg (fun f => Option.map f _) (funext fun entry => ?_)
    by_cases hp : n.process = p <;> simp [hp]

/-- The entry of a process tells of the notes about this process. -/
theorem process?_foldl (r : Reach Ret) (notes : List (Note Ret)) :
    (notes.foldl note r).process? p = (r.process? p).map
      fun entry => (notes.filter (·.process = p)).foldl ProcessReach.note entry := by
  induction notes generalizing r with
  | nil => simp
  | cons n notes ih =>
    rw [List.foldl_cons, ih, process?_note, Option.map_map]
    refine congrArg (fun f => Option.map f _) (funext fun entry => ?_)
    by_cases hp : n.process = p <;> simp [hp]

omit [DecidableEq Ret] in
theorem process?_blank {count : Nat} (hp : p.toNat < count) :
    (blank count : Reach Ret).process? p = some {} := by
  simp [process?, blank, ProcessId.lookup?, hp]

theorem length_processes_note (r : Reach Ret) (n : Note Ret) :
    (r.note n).processes.length = r.processes.length := by
  unfold note
  split <;> simp [reached, rejected]

theorem length_processes_foldl (r : Reach Ret) (notes : List (Note Ret)) :
    (notes.foldl note r).processes.length = r.processes.length := by
  induction notes generalizing r with
  | nil => rfl
  | cons n notes ih => rw [List.foldl_cons, ih, length_processes_note]

end Reach

namespace Search

variable {σ Op : Type} [ReferenceObject σ Op Ret] {events : List (Event Op Ret)}
variable {s s' last : Search σ Ret} {visited : List (Search σ Ret)} {p : ProcessId} {j q : Nat}

/-- What the operation at this position returns instead of the observed result. -/
def rejected? (events : List (Event Op Ret)) (object : σ) (q : Nat) : Option Ret :=
  match events[q]? with
  | some (.invoke _ _ op expected) =>
    if expected = some (ReferenceObject.apply object op).1 then none
    else some (ReferenceObject.apply object op).1
  | _ => none

/-- What the next step of the search notes. -/
def note? (events : List (Event Op Ret)) (s : Search σ Ret) : Option (Note Ret) :=
  match s.task with
  | some (.advance i) => events[i]?.map fun event => ⟨event.process, i, none⟩
  | _ => s.tried?.bind fun (j, p, q) =>
    (rejected? events s.object q).map fun ret => ⟨p, j, some ret⟩

theorem rejected?_eq_some_iff {object : σ} {ret : Ret} : rejected? events object q = some ret ↔
    ∃ p label op expected, events[q]? = some (.invoke p label op expected) ∧
      (ReferenceObject.apply object op).1 = ret ∧ expected ≠ some ret := by
  unfold rejected?
  split
  · rename_i p label op expected he
    rw [Option.ite_none_left_eq_some]
    constructor
    · rintro ⟨hne, hret⟩
      cases hret
      exact ⟨p, label, op, expected, he, rfl, hne⟩
    · rintro ⟨_, _, _, _, he', rfl, hne⟩
      rw [he] at he'
      cases he'
      exact ⟨hne, rfl⟩
  · rename_i hno
    simp only [reduceCtorEq, false_iff]
    rintro ⟨p, label, op, expected, he, -⟩
    exact hno p label op expected he

theorem rejected?_eq_none {object left : σ} (h : takeEffect? events object q = some left) :
    rejected? events object q = none := by
  obtain ⟨p, label, op, he, -⟩ := takeEffect?_eq_some_iff.1 h
  simp [rejected?, he]

theorem note?_eq_tried (ht : ∀ i, s.task ≠ some (.advance i)) : s.note? events = s.tried?.bind
    fun (j, p, q) => (rejected? events s.object q).map fun ret => ⟨p, j, some ret⟩ := by
  unfold note?
  split
  · exact absurd ‹_› (ht _)
  · rfl

theorem note?_of_tries {w : List Nat} (h : Tries s j w p q) : s.note? events =
    (rejected? events s.object q).map fun ret => ⟨p, j, some ret⟩ := by
  obtain rfl := h.effects_eq
  have htried := tried?_eq_some_iff.2 h
  obtain ⟨r, k, htask, -⟩ := h
  rw [note?_eq_tried (by simp [htask]), htried, Option.bind_some]

theorem note?_eq_none (ht : ∀ i, s.task ≠ some (.advance i)) (h : s.tried? = none) :
    s.note? events = none := by
  rw [note?_eq_tried ht, h, Option.bind_none]

/-- A note is about an event that is passed, or about an operation whose result is rejected. -/
theorem note?_cases {n : Note Ret} (h : s.note? events = some n) :
    (∃ i event, s.task = some (.advance i) ∧ events[i]? = some event ∧
        n = ⟨event.process, i, none⟩) ∨
      ∃ j p q ret, Tries s j (effects s.path) p q ∧ rejected? events s.object q = some ret ∧
        n = ⟨p, j, some ret⟩ := by
  by_cases ht : ∃ i, s.task = some (.advance i)
  · obtain ⟨i, ht⟩ := ht
    unfold note? at h
    rw [ht] at h
    obtain ⟨event, he, heq⟩ := Option.map_eq_some_iff.1 h
    exact .inl ⟨i, event, ht, he, heq.symm⟩
  · rw [note?_eq_tried (not_exists.1 ht)] at h
    obtain ⟨⟨j, p, q⟩, htried, hrejected⟩ := Option.bind_eq_some_iff.1 h
    obtain ⟨ret, hret, heq⟩ := Option.map_eq_some_iff.1 hrejected
    exact .inr ⟨j, p, q, ret, tried?_eq_some_iff.1 htried, hret, heq.symm⟩

/-- A move notes what its search is about to note, and nothing else. -/
theorem Move.reach_eq (hm : Move events s s') :
    s'.reach = (s.note? events).elim s.reach s.reach.note := by
  cases hm with
  | invoke ht he hp => simp [note?, ht, he, Reach.note, Event.process]
  | arrive ht he | arriveCommitted ht he => simp [note?, ht, he, Reach.note, Event.process]
  | exhaust ht hk => rw [note?_eq_none (by simp [ht]) (tried?_eq_none_of_le ht hk)]; rfl
  | skip ht hk hp hphase =>
    rw [note?_eq_none (by simp [ht]) (tried?_eq_none_of_phase ht hp hphase)]
    rfl
  | passCommitted ht hk hc hr =>
    rw [note?_eq_none (by simp [ht]) (tried?_eq_none_of_phase ht (hc ▸ hr) rfl)]
    rfl
  | commit ht hk hp hne hq =>
    rw [note?_of_tries ⟨_, _, ht, hk, rfl, hp, rfl⟩, rejected?_eq_none hq]
    rfl
  | pass ht hk hc hr hq =>
    rw [note?_of_tries ⟨_, _, ht, hk, hc, hr, rfl⟩, rejected?_eq_none hq]
    rfl
  | reject ht hk hp he hne hu =>
    rw [note?_of_tries ⟨_, _, ht, hk, rfl, hp, rfl⟩,
      rejected?_eq_some_iff.2 ⟨_, _, _, _, he, rfl, hne⟩]
    rfl
  | uninvoke ht | takeBack ht | reopen ht =>
    rw [note?_eq_none (by simp [ht]) (tried?_eq_none_of_task (by simp [ht]))]
    rfl

/-- What a search has found out is what it has noted at the searches that it visited. -/
theorem Visits.reach_eq (h : Visits events s visited last) :
    last.reach = (visited.reverse.filterMap (note? events)).foldl Reach.note s.reach := by
  induction h with
  | start => rfl
  | @step visited t t' h hstep ih =>
    rw [(move_of_step hstep).reach_eq, ih, List.reverse_cons, List.filterMap_append]
    cases hn : t.note? events <;> simp [hn]

end Search
end Linearizability
