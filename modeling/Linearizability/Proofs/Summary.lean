import Linearizability.Proofs.Search.Notes

/-!
# Notes summed up

A reach is made by notes about the processes, one after another, at rising, falling and repeated
positions. The main statement is that it sums them up: its furthest position is the greatest one in
the notes, and the entry of each process tells of the notes about this process. Only the order of
the rejected results depends on the order of the notes.
-/

namespace Linearizability

variable {Ret : Type} [DecidableEq Ret]

theorem ProcessReach.furthest_note {r : ProcessReach Ret} {n : Note Ret} {i : Nat}
    (h : (r.note n).furthest = some i) : i = n.position ∨ r.furthest = some i := by
  have hreach : (r.note n).furthest = (r.reach n.position).furthest := by
    unfold note
    cases n.rejected with
    | none => rfl
    | some ret => exact furthest_reject _ _ _
  rw [hreach] at h
  unfold reach at h
  split at h
  · exact .inl (Option.some.inj h).symm
  · exact .inr h

/-- The notes in another order tell the same, except for the order of the rejected results. -/
theorem ProcessReach.Sums.perm {r r' : ProcessReach Ret} {notes notes' : List (Note Ret)}
    (h : r.Sums notes) (h' : r'.Sums notes') (hperm : notes.Perm notes') :
    r.furthest = r'.furthest ∧ r.rejected.Perm r'.rejected := by
  have hfurthest : r.furthest = r'.furthest := by
    refine Option.ext fun i => ?_
    simp only [h.furthest_eq_some_iff, h'.furthest_eq_some_iff, hperm.mem_iff]
  refine ⟨hfurthest, (List.perm_ext_iff_of_nodup h.nodup_rejected h'.nodup_rejected).2 ?_⟩
  intro ret
  simp only [h.mem_rejected_iff, h'.mem_rejected_iff, hfurthest, hperm.mem_iff]

namespace Reach

variable {r : Reach Ret} {notes : List (Note Ret)} {count : Nat}

/-- What a reach for this many processes tells of the notes that made it. -/
structure Sums (r : Reach Ret) (count : Nat) (notes : List (Note Ret)) : Prop where
  furthest : r.furthest = (notes.map (·.position)).max?.getD 0
  /-- Some process was considered at the furthest position, and none at a further one. -/
  furthest_processes : notes ≠ [] → (r.processes.filterMap (·.furthest)).max? = some r.furthest
  length : r.processes.length = count
  entry : ∀ p : ProcessId, p.toNat < count →
    ∃ e, r.process? p = some e ∧ e.Sums (notes.filter (·.process = p))

/-- The reach for this many processes that the notes make, the earliest first. -/
def ofNotes (count : Nat) (notes : List (Note Ret)) : Reach Ret := notes.foldl note (blank count)

/-- No process was considered at a position beyond the furthest one. -/
def Bounds (r : Reach Ret) : Prop :=
  ∀ e ∈ r.processes, ∀ i, e.furthest = some i → i ≤ r.furthest

theorem furthest_note (r : Reach Ret) (n : Note Ret) :
    (r.note n).furthest = max r.furthest n.position := by
  unfold note
  cases n.rejected with
  | none => rfl
  | some ret => rfl

theorem processes_note (r : Reach Ret) (n : Note Ret) :
    (r.note n).processes = r.processes.modify n.process.toNat (·.note n) := by
  unfold note ProcessReach.note
  cases n.rejected with
  | none => rfl
  | some ret => exact List.modify_modify_eq _ _ _ _

theorem Bounds.note (h : r.Bounds) (n : Note Ret) : (r.note n).Bounds := by
  intro e he i hi
  rw [furthest_note]
  rw [processes_note] at he
  obtain ⟨j, hj⟩ := List.mem_iff_getElem?.1 he
  rw [List.getElem?_modify] at hj
  obtain ⟨e', he', rfl⟩ := Option.map_eq_some_iff.1 hj
  have hle := h e' (List.mem_of_getElem? he')
  split at hi
  · rcases ProcessReach.furthest_note hi with rfl | hi
    · exact Nat.le_max_right _ _
    · exact (hle i hi).trans (Nat.le_max_left _ _)
  · exact (hle i hi).trans (Nat.le_max_left _ _)

theorem ofNotes_concat (count : Nat) (notes : List (Note Ret)) (n : Note Ret) :
    ofNotes count (notes ++ [n]) = (ofNotes count notes).note n :=
  List.foldl_append

theorem bounds_ofNotes (count : Nat) (notes : List (Note Ret)) :
    (ofNotes count notes).Bounds := by
  induction notes using List.reverseRecOn with
  | nil =>
    intro e he i hi
    rw [List.eq_of_mem_replicate he] at hi
    cases hi
  | append_singleton notes n ih =>
    rw [ofNotes_concat]
    exact ih.note n

theorem furthest_ofNotes (count : Nat) (notes : List (Note Ret)) :
    (ofNotes count notes).furthest = (notes.map (·.position)).max?.getD 0 := by
  induction notes using List.reverseRecOn with
  | nil => rfl
  | append_singleton notes n ih =>
    rw [ofNotes_concat, furthest_note, ih]
    cases hmax : (notes.map (·.position)).max? with
    | none =>
      obtain rfl : notes = [] := List.map_eq_nil_iff.1 (List.max?_eq_none_iff.1 hmax)
      simp
    | some i => rw [ProcessReach.max?_positions_concat hmax]; rfl

theorem length_ofNotes (count : Nat) (notes : List (Note Ret)) :
    (ofNotes count notes).processes.length = count := by
  rw [ofNotes, length_processes_foldl, blank, List.length_replicate]

theorem sums_entry {p : ProcessId} (hp : p.toNat < count) (notes : List (Note Ret)) :
    ∃ e, (ofNotes count notes).process? p = some e ∧
      e.Sums (notes.filter (·.process = p)) := by
  rw [ofNotes, process?_foldl, process?_blank hp]
  exact ⟨_, rfl, ProcessReach.sums_foldl _⟩

theorem sums_ofNotes (h : ∀ n ∈ notes, n.process.toNat < count) :
    (ofNotes count notes).Sums count notes where
  furthest := furthest_ofNotes count notes
  furthest_processes := by
    intro hne
    rw [List.max?_eq_some_iff]
    constructor
    · -- The process of a note at the furthest position was considered there, and not beyond it.
      obtain ⟨i, hi⟩ : ∃ i, (notes.map (·.position)).max? = some i :=
        Option.ne_none_iff_exists'.1 fun hnone =>
          hne (List.map_eq_nil_iff.1 (List.max?_eq_none_iff.1 hnone))
      obtain ⟨hmem, hle⟩ := List.max?_eq_some_iff.1 hi
      obtain ⟨n, hn, rfl⟩ := List.mem_map.1 hmem
      obtain ⟨e, he, hsums⟩ := sums_entry (h n hn) notes
      rw [furthest_ofNotes, hi, Option.getD_some]
      refine List.mem_filterMap.2 ⟨e, List.mem_of_getElem? he, hsums.furthest_eq_some_iff.2 ?_⟩
      refine ⟨⟨n, by simp [hn], rfl⟩, fun m hm => ?_⟩
      exact hle m.position (List.mem_map_of_mem (List.mem_filter.1 hm).1)
    · intro i hi
      obtain ⟨e, he, hfurthest⟩ := List.mem_filterMap.1 hi
      exact bounds_ofNotes count notes e he i hfurthest
  length := length_ofNotes count notes
  entry p hp := sums_entry hp notes

/-- Notes about processes that exist are summed up. In another order they give the same furthest
positions, and the same results are rejected. -/
theorem notes_sum_up (count : Nat) (notes : List (Note Ret))
    (h : ∀ n ∈ notes, n.process.toNat < count) :
    (ofNotes count notes).Sums count notes ∧
    ∀ notes' : List (Note Ret), notes'.Perm notes →
      (ofNotes count notes').furthest = (ofNotes count notes).furthest ∧
      ∀ p e e', (ofNotes count notes).process? p = some e →
        (ofNotes count notes').process? p = some e' →
        e'.furthest = e.furthest ∧ e'.rejected.Perm e.rejected := by
  refine ⟨sums_ofNotes h, ?_⟩
  intro notes' hperm
  have hmax : (notes'.map (·.position)).max? = (notes.map (·.position)).max? := by
    refine Option.ext fun i => ?_
    simp only [List.max?_eq_some_iff, (hperm.map _).mem_iff]
  refine ⟨by rw [furthest_ofNotes, furthest_ofNotes, hmax], ?_⟩
  intro p e e' he he'
  have hp : p.toNat < count := by
    have hlt := ProcessId.lt_length_of_lookup? he
    rwa [length_ofNotes] at hlt
  obtain ⟨_, hs, hsums⟩ := sums_entry hp notes
  obtain ⟨_, hs', hsums'⟩ := sums_entry hp notes'
  obtain rfl := Option.some.inj (hs.symm.trans he)
  obtain rfl := Option.some.inj (hs'.symm.trans he')
  exact hsums'.perm hsums (hperm.filter _)

/-- The second process rejects two results at its furthest position, one of them twice, and a third
one at an earlier position. Read from the end, the notes reject the same results. -/
theorem notes_sum_up_reversed :
    let notes : List (Note Nat) :=
      [⟨⟨1⟩, 2, some 12⟩, ⟨⟨1⟩, 3, some 10⟩, ⟨⟨0⟩, 2, none⟩, ⟨⟨1⟩, 3, some 11⟩, ⟨⟨1⟩, 3, some 10⟩]
    (∀ n ∈ notes, n.process.toNat < 2) ∧ (ofNotes 2 notes).Sums 2 notes ∧
      (ofNotes 2 notes).process? ⟨1⟩ = some ⟨some 3, [10, 11]⟩ ∧
      ∃ e, (ofNotes 2 notes.reverse).process? ⟨1⟩ = some e ∧ e.rejected.Perm [10, 11] := by
  intro notes
  have hprocesses : ∀ n ∈ notes, n.process.toNat < 2 := by decide
  obtain ⟨hsums, hreversed⟩ := notes_sum_up 2 notes hprocesses
  have hentry : (ofNotes 2 notes).process? ⟨1⟩ = some ⟨some 3, [10, 11]⟩ := by decide
  have hsecond : (⟨1⟩ : ProcessId).toNat < 2 := by decide
  obtain ⟨e, he, -⟩ := sums_entry hsecond notes.reverse
  exact ⟨hprocesses, hsums, hentry, e, he,
    ((hreversed _ notes.reverse_perm).2 ⟨1⟩ _ _ hentry he).2⟩

end Reach
end Linearizability
