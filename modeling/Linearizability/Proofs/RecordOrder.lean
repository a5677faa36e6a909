import Linearizability.Record
import Mathlib.Data.List.Nodup

/-!
# Records in order

Sorting keeps the records and puts them into the order of their sequence numbers, and records with
the same number stay in the order in which they are listed. When the numbers are distinct there is
only one order of them.
-/

namespace Linearizability.Record

variable {records records' : List Record}

theorem pairwise_sorted (records : List Record) :
    (sorted records).Pairwise fun a b => a.seq ≤ b.seq := by
  have hle : (sorted records).Pairwise fun a b => decide (a.seq ≤ b.seq) = true :=
    List.pairwise_mergeSort (fun a b c => by simpa using UInt64.le_trans)
      (fun a b => by simpa using UInt64.le_total a.seq b.seq) records
  simpa using hle

theorem sorted_perm (records : List Record) : (sorted records).Perm records :=
  List.mergeSort_perm _ _

theorem eq_of_seq_eq (h : (records.map Record.seq).Nodup) {a b : Record} (ha : a ∈ records)
    (hb : b ∈ records) (hseq : a.seq = b.seq) : a = b :=
  List.inj_on_of_nodup_map h ha hb hseq

/-- Records with distinct sequence numbers are sorted into the same list however they are listed. -/
theorem sorted_eq_of_perm (h : (records.map Record.seq).Nodup) (hperm : records'.Perm records) :
    sorted records' = sorted records := by
  have hsorted : (sorted records').Perm (sorted records) :=
    (sorted_perm records').trans (hperm.trans (sorted_perm records).symm)
  refine hsorted.eq_of_pairwise (fun a b ha hb hab hba => ?_) (pairwise_sorted records')
    (pairwise_sorted records)
  have ha : a ∈ records := hperm.subset ((sorted_perm records').subset ha)
  exact eq_of_seq_eq h ha ((sorted_perm records).subset hb) (UInt64.le_antisymm hab hba)

theorem sorted_of_pairwise (h : records.Pairwise fun a b => a.seq ≤ b.seq) :
    sorted records = records :=
  List.mergeSort_of_pairwise (by simpa using h)

/-- A record is sorted in behind the smaller numbers, and ahead of those listed after it. -/
theorem exists_sorted_cons (record : Record) (records : List Record) : ∃ before after,
    sorted (record :: records) = before ++ record :: after ∧ sorted records = before ++ after ∧
      (∀ b ∈ before, b.seq < record.seq) ∧ ∀ b ∈ after, record.seq ≤ b.seq := by
  obtain ⟨before, after, hcons, hrest, hbefore⟩ :=
    @List.mergeSort_cons Record (fun a b => decide (a.seq ≤ b.seq))
      (fun a b c => by simpa using UInt64.le_trans)
      (fun a b => by simpa using UInt64.le_total a.seq b.seq) record records
  have hascending := pairwise_sorted (record :: records)
  rw [sorted, hcons] at hascending
  exact ⟨before, after, hcons, hrest, by simpa using hbefore,
    (List.pairwise_cons.1 (List.pairwise_append.1 hascending).2.1).1⟩

/-- Only one beginning of a list holds what is smaller, if the rest holds what is not. -/
theorem eq_of_append_eq_append {seq : UInt64} {before after before' after' : List Record}
    (h : before ++ after = before' ++ after') (hb : ∀ b ∈ before, b.seq < seq)
    (ha : ∀ b ∈ after, seq ≤ b.seq) (hb' : ∀ b ∈ before', b.seq < seq)
    (ha' : ∀ b ∈ after', seq ≤ b.seq) : before = before' := by
  have hsmaller {l m : List Record} (hl : ∀ b ∈ l, b.seq < seq) (hm : ∀ b ∈ m, seq ≤ b.seq) :
      (l ++ m).filter (·.seq < seq) = l := by
    have hall : l.filter (·.seq < seq) = l := List.filter_eq_self.2 (by simpa using hl)
    have hnone : m.filter (·.seq < seq) = [] := List.filter_eq_nil_iff.2 (by simpa using hm)
    rw [List.filter_append, hall, hnone, List.append_nil]
  rw [← hsmaller hb ha, h, hsmaller hb' ha']

/-- Records may be left out before or after sorting. -/
theorem sorted_filter (f : Record → Bool) (records : List Record) :
    sorted (records.filter f) = (sorted records).filter f := by
  induction records with
  | nil => simp [sorted]
  | cons record records ih =>
    obtain ⟨before, after, hcons, hrest, hb, ha⟩ := exists_sorted_cons record records
    rw [hrest, List.filter_append] at ih
    rw [hcons, List.filter_append, List.filter_cons, List.filter_cons]
    split
    · obtain ⟨before', after', hcons', hrest', hb', ha'⟩ :=
        exists_sorted_cons record (records.filter f)
      have hsplit : before' ++ after' = before.filter f ++ after.filter f := hrest'.symm.trans ih
      obtain rfl : before' = before.filter f := eq_of_append_eq_append hsplit hb' ha'
        (fun b hmem => hb b (List.mem_filter.1 hmem).1)
        (fun b hmem => ha b (List.mem_filter.1 hmem).1)
      rw [hcons', List.append_cancel_left hsplit]
    · exact ih

theorem exists_getElem?_sorted {record : Record} (h : record ∈ records) :
    ∃ i : Nat, (sorted records)[i]? = some record :=
  List.mem_iff_getElem?.1 ((sorted_perm records).mem_iff.2 h)

theorem mem_of_getElem?_sorted {record : Record} {i : Nat}
    (h : (sorted records)[i]? = some record) : record ∈ records :=
  (sorted_perm records).subset (List.mem_of_getElem? h)

/-- The records in the order of their sequence numbers, those with the same number as they are
listed. -/
structure StablySorted (records ordered : List Record) : Prop where
  perm : ordered.Perm records
  ascending : ordered.Pairwise fun a b => a.seq ≤ b.seq
  stable : ∀ seq, ordered.filter (·.seq = seq) = records.filter (·.seq = seq)

theorem filter_seq_sorted (records : List Record) (seq : UInt64) :
    (sorted records).filter (·.seq = seq) = records.filter (·.seq = seq) := by
  have hseq : ∀ record ∈ records.filter (·.seq = seq), record.seq = seq := fun record h => by
    simpa using (List.mem_filter.1 h).2
  have hequal : (records.filter (·.seq = seq)).Pairwise
      fun a b => decide (a.seq ≤ b.seq) = true := by
    refine List.pairwise_of_forall_mem_list fun a ha b hb => ?_
    simp [hseq a ha, hseq b hb]
  have hsub : (records.filter (·.seq = seq)).Sublist (sorted records) :=
    List.sublist_mergeSort (fun a b c => by simpa using UInt64.le_trans)
      (fun a b => by simpa using UInt64.le_total a.seq b.seq) hequal List.filter_sublist
  have hfilter := hsub.filter (·.seq = seq)
  rw [List.filter_filter] at hfilter
  simp only [Bool.and_self] at hfilter
  exact (hfilter.eq_of_length ((sorted_perm records).filter _).length_eq.symm).symm

theorem stablySorted_sorted (records : List Record) : StablySorted records (sorted records) where
  perm := sorted_perm records
  ascending := pairwise_sorted records
  stable := filter_seq_sorted records

end Linearizability.Record
