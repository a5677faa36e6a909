import Linearizability.Search.Step

/-!
# The search ends

The cost of a search bounds the steps that it still takes, whatever the reference object answers. It
adds to the cost of the task at hand what is left to try once each choice on the path is taken back.
The main statement is that every step lowers the cost.
-/

namespace Linearizability.Search

variable {σ Op Ret : Type}

/-- The steps to try `left` more candidates for a return while `pending` processes wait, with
`after` for the steps to pass the rest of the history. -/
def linearizeCost (count : Nat) (after : Nat → Nat) : Nat → Nat → Nat
  | _, 0 => 1
  | 0, left + 1 => linearizeCost count after 0 left + after 0 + 2
  | pending + 1, left + 1 =>
    linearizeCost count after (pending + 1) left + after (pending + 1) + after pending +
      linearizeCost count after pending count + 2
termination_by pending left => (pending, left)

/-- The steps to pass the last `left` events while `pending` processes wait. -/
def advanceCost (count : Nat) : Nat → Nat → Nat
  | 0, _ => 1
  | left + 1, pending =>
    advanceCost count left (pending + 1) +
      linearizeCost count (fun pending => advanceCost count left pending) pending count + 2

def pendingCount (phases : List Phase) : Nat := phases.countP Phase.isPending

def taskCost (size : Nat) (phases : List Phase) : Option Task → Nat
  | none => 0
  | some (.advance i) => advanceCost phases.length (size - i) (pendingCount phases)
  | some (.linearize _ i k) =>
    linearizeCost phases.length (advanceCost phases.length (size - (i + 1))) (pendingCount phases)
      (phases.length - k)

def pathCost (size : Nat) : List Marker → List Phase → Nat
  | [], _ => 0
  | .invoked process :: path, phases => pathCost size path (phases.set process.toNat .idle) + 1
  | .linearized returning i k process before :: path, phases =>
    taskCost size (phases.set process.toNat before) (some (.linearize returning i (k + 1))) +
      pathCost size path (phases.set process.toNat before) + 1

def cost (events : Array (Event Op Ret)) (s : Search σ Ret) : Nat :=
  taskCost events.size s.phases s.task + pathCost events.size s.path s.phases

theorem linearizeCost_pos (count : Nat) (after : Nat → Nat) (pending left : Nat) :
    0 < linearizeCost count after pending left := by
  cases left <;> cases pending <;> simp [linearizeCost]

theorem linearizeCost_succ_of_pos (count : Nat) (after : Nat → Nat) {pending : Nat} (left : Nat)
    (h : 0 < pending) :
    linearizeCost count after pending (left + 1) =
      linearizeCost count after pending left + after pending + after (pending - 1) +
        linearizeCost count after (pending - 1) count + 2 := by
  obtain ⟨n, rfl⟩ := Nat.exists_eq_succ_of_ne_zero (Nat.ne_of_gt h)
  simp [linearizeCost]

theorem le_linearizeCost_succ (count : Nat) (after : Nat → Nat) (pending left : Nat) :
    linearizeCost count after pending left + after pending + 2 ≤
      linearizeCost count after pending (left + 1) := by
  cases pending <;> simp only [linearizeCost] <;> omega

theorem linearizeCost_le (count : Nat) (after : Nat → Nat) (pending : Nat) {m n : Nat} (h : m ≤ n) :
    linearizeCost count after pending m ≤ linearizeCost count after pending n := by
  induction h with
  | refl => exact Nat.le_refl _
  | step _ ih => have := le_linearizeCost_succ count after pending; grind

theorem advanceCost_of_lt (count : Nat) {size i : Nat} (pending : Nat) (h : i < size) :
    advanceCost count (size - i) pending =
      advanceCost count (size - (i + 1)) (pending + 1) +
        linearizeCost count (advanceCost count (size - (i + 1))) pending count + 2 := by
  rw [show size - i = size - (i + 1) + 1 by omega, advanceCost]

section Phases

variable {phases : List Phase} {i : Nat} {x : Phase}

theorem pendingCount_set (h : phases[i]? = some x) (y : Phase) :
    pendingCount (phases.set i y) + (if x.isPending then 1 else 0) =
      pendingCount phases + (if y.isPending then 1 else 0) := by
  obtain ⟨hi, rfl⟩ := List.getElem?_eq_some_iff.1 h
  have : phases[i].isPending → 0 < phases.countP Phase.isPending := fun hp =>
    List.countP_pos_iff.2 ⟨_, List.getElem_mem hi, hp⟩
  simp only [pendingCount, List.countP_set hi]
  split <;> split <;> simp_all

end Phases

variable [ReferenceObject σ Op Ret]
variable {events : Array (Event Op Ret)} {s s' : Search σ Ret}

theorem cost_advance {i : Nat} (ht : s.task = some (.advance i))
    (h : s.advance events i = .next s') : s'.cost events < s.cost events := by
  unfold advance at h
  split at h
  · split at h <;> simp at h
  · rename_i process _ _ _ he
    have hi : i < events.size := (Array.getElem?_eq_some_iff.1 he).1
    split at h <;> simp at h
    rename_i hp
    subst h
    have hc := pendingCount_set hp (.pending i)
    simp only [Phase.isPending, Bool.false_eq_true, if_false, if_true] at hc
    simp only [cost, ht, taskCost, pathCost, List.length_set, ProcessId.set_set_of_lookup? hp,
      advanceCost_of_lt _ _ hi]
    rw [show pendingCount (s.phases.set process.toNat (.pending i)) = pendingCount s.phases + 1 by
      omega]
    omega
  · rename_i process _ he
    have hi : i < events.size := (Array.getElem?_eq_some_iff.1 he).1
    split at h <;> simp at h <;> subst h <;>
      simp only [cost, ht, taskCost, advanceCost_of_lt _ _ hi]
    · have := linearizeCost_le s.phases.length (advanceCost s.phases.length (events.size - (i + 1)))
        (pendingCount s.phases) (Nat.sub_le s.phases.length (s.phases.length - 1))
      omega
    · simp only [Nat.sub_zero]
      omega

theorem cost_backtrack {marker : Marker} {path : List Marker} (ht : s.task = none)
    (hpath : s.path = marker :: path) (h : s.backtrack path marker = .next s') :
    s'.cost events < s.cost events := by
  have replaced {process : ProcessId} {x : Phase} {phases : List Phase}
      (h : process.replace? x s.phases = some phases) : phases = s.phases.set process.toNat x := by
    simp only [ProcessId.replace?] at h
    split at h <;> simp_all
  unfold backtrack at h
  split at h
  · split at h <;> simp at h
    rename_i hr
    subst h
    simp [cost, ht, hpath, taskCost, pathCost, replaced hr]
  · split at h
    · simp at h
    · rename_i hr
      simp only at h
      split at h
      · split at h <;> simp at h
        subst h
        simp [cost, ht, hpath, taskCost, pathCost, replaced hr]
      · simp at h
        subst h
        simp [cost, ht, hpath, taskCost, pathCost, replaced hr]

variable [DecidableEq Ret]

theorem cost_linearize {returning : ProcessId} {i k : Nat}
    (ht : s.task = some (.linearize returning i k))
    (h : s.linearize events returning i k = .next s') : s'.cost events < s.cost events := by
  unfold linearize at h
  split at h
  · simp only [Step.next.injEq] at h
    subst h
    simp only [cost, ht, taskCost]
    have := linearizeCost_pos s.phases.length (advanceCost s.phases.length (events.size - (i + 1)))
      (pendingCount s.phases) (s.phases.length - k)
    omega
  · rename_i hk
    have hleft : s.phases.length - k = s.phases.length - (k + 1) + 1 := by omega
    have hle := le_linearizeCost_succ s.phases.length
      (advanceCost s.phases.length (events.size - (i + 1))) (pendingCount s.phases)
      (s.phases.length - (k + 1))
    simp only at h
    split at h
    · simp at h
    · split at h <;> simp at h
      subst h
      simp only [cost, ht, taskCost, hleft]
      omega
    · rename_i hp
      split at h <;> simp at h <;> subst h
      · rename_i hr
        rw [hr] at hp
        have hc := pendingCount_set hp .idle
        simp only [Phase.isPending, Bool.false_eq_true, if_false] at hc
        simp only [cost, ht, taskCost, passReturn, pathCost, List.length_set,
            ProcessId.set_set_of_lookup? hp, hleft]
        rw [show pendingCount (s.phases.set returning.toNat .idle) = pendingCount s.phases by omega]
        omega
      · simp only [cost, ht, taskCost, hleft]
        omega
    · rename_i invocation hp
      have hpos : 0 < pendingCount s.phases := by
        have := pendingCount_set hp .idle
        simp only [Phase.isPending, Bool.false_eq_true, if_false, if_true] at this
        omega
      have hsucc := linearizeCost_succ_of_pos s.phases.length
        (advanceCost s.phases.length (events.size - (i + 1))) (s.phases.length - (k + 1)) hpos
      split at h
      · split at h <;> simp at h <;> subst h
        · rename_i hr
          rw [hr] at hp
          have hc := pendingCount_set hp .idle
          simp only [Phase.isPending, Bool.false_eq_true, if_false, if_true] at hc
          simp only [cost, ht, taskCost, passReturn, pathCost, List.length_set,
            ProcessId.set_set_of_lookup? hp, hleft]
          rw [show pendingCount (s.phases.set returning.toNat .idle) = pendingCount s.phases - 1 by
            omega]
          omega
        · have hc := pendingCount_set hp .committed
          simp only [Phase.isPending, Bool.false_eq_true, if_false, if_true] at hc
          simp only [cost, ht, taskCost, commit, pathCost, List.length_set,
            ProcessId.set_set_of_lookup? hp, hleft, Nat.sub_zero]
          rw [show pendingCount (s.phases.set
            (candidate s.phases.length returning k).toNat .committed) =
              pendingCount s.phases - 1 by omega]
          omega
      · simp at h
        subst h
        split <;> simp only [cost, ht, taskCost, rejectThen, hleft] <;> omega
      · simp at h
      · simp at h

theorem cost_step (h : s.step events = .next s') : s'.cost events < s.cost events := by
  unfold step at h
  split at h
  · exact cost_advance ‹_› h
  · exact cost_linearize ‹_› h
  · split at h
    · simp at h
    · exact cost_backtrack ‹_› ‹_› h

end Linearizability.Search
