import Linearizability.Event.Codec
import Linearizability.Reference.Codec
import Linearizability.Trial.Codec
import Linearizability.Verdict.Codec
import Mathlib.Data.Set.Function

/-!
# Reading back what was written

Every value that has a JSON form is read back from it. An absent value is written as `null`, so it
matters that no value that may be absent is written as `null` itself: this is kept as a second law
beside the round trip, and both are handed from the parts of a document to the whole. Positions in
how far a search got are machine words, and only those are read.
-/

namespace Linearizability

open JsonCodec

variable {α : Type} [JsonCodec α]

/-- The value is read back from its document, which is not that of an absent value. -/
structure ReadsBack (a : α) : Prop where
  decode_encode : decode (encode a) = some a
  encode_ne_null : encode a ≠ .null

/-- Every value of the type is read back. -/
class LawfulCodec (α : Type) [JsonCodec α] : Prop where
  readsBack (a : α) : ReadsBack a

/-- Reading inverts writing for values of this kind, so no two of them have the same document. -/
structure FaithfulOn (kind : Set α) : Prop where
  decode_encode : ∀ a ∈ kind, decode (encode a) = some a
  injOn : Set.InjOn (encode : α → Json) kind

def Faithful (α : Type) [JsonCodec α] : Prop := FaithfulOn (Set.univ : Set α)

section Laws

variable {a b : α} {items : List α} {item : Option α}

theorem ReadsBack.eq_of_encode_eq (ha : ReadsBack a) (hb : ReadsBack b)
    (h : encode a = encode b) : a = b := by
  have hread := ha.decode_encode
  rw [h, hb.decode_encode] at hread
  exact (Option.some.inj hread).symm

/-- The content of an alternative is read back in its place. -/
theorem ReadsBack.map_decode {β : Type} (h : ReadsBack a) (f : α → β) :
    (decode (encode a)).map f = some (f a) := by
  rw [h.decode_encode, Option.map_some]

theorem FaithfulOn.of_readsBack {kind : Set α} (h : ∀ a ∈ kind, ReadsBack a) : FaithfulOn kind where
  decode_encode a ha := (h a ha).decode_encode
  injOn a ha b hb heq := (h a ha).eq_of_encode_eq (h b hb) heq

theorem LawfulCodec.faithful (α : Type) [JsonCodec α] [LawfulCodec α] : Faithful α :=
  .of_readsBack fun a _ => readsBack a

theorem ReadsBack.required_encode (h : ReadsBack a) : required (some (encode a)) = some a :=
  h.decode_encode

theorem decode_encode_option (h : ∀ a ∈ item, ReadsBack a) :
    decode (encode item) = some item := by
  cases item with
  | none => rfl
  | some a =>
    have ha := h a rfl
    have hread : decode (encode (some a)) = (decode (encode a)).map (some : α → Option α) := by
      change decode (encode a) = _
      cases hjson : encode a with
      | null => exact absurd hjson ha.encode_ne_null
      | bool | int | real | str | arr | obj => rfl
    rw [hread, ha.decode_encode, Option.map_some]

theorem nullable_encode (h : ∀ a ∈ item, ReadsBack a) :
    nullable (some (encode item)) = some item :=
  decode_encode_option h

theorem decode_encode_list (h : ∀ a ∈ items, ReadsBack a) :
    decode (encode items) = some items := by
  change (items.map encode).mapM decode = some items
  induction items with
  | nil => rfl
  | cons a items ih =>
    have ha := (h a List.mem_cons_self).decode_encode
    have hitems := ih fun b hb => h b (List.mem_cons_of_mem a hb)
    simp [ha, hitems]

theorem readsBack_list (h : ∀ a ∈ items, ReadsBack a) : ReadsBack items :=
  ⟨decode_encode_list h, by simp [encode]⟩

end Laws

section Words

theorem decodeBelow_of_lt {bound n : Nat} (h : n < bound) :
    decodeBelow bound (.int n) = some n := by
  have hbounds : 0 ≤ (n : Int) ∧ (n : Int) < bound := by omega
  rw [decodeBelow, if_pos hbounds, Int.toNat_natCast]

theorem readsBack_nat {n : Nat} (h : n < UInt64.size) : ReadsBack n :=
  ⟨decodeBelow_of_lt h, by simp [encode]⟩

instance : LawfulCodec Bool := ⟨fun _ => ⟨rfl, by simp [encode]⟩⟩

instance : LawfulCodec String := ⟨fun _ => ⟨rfl, by simp [encode]⟩⟩

instance : LawfulCodec UInt64 where
  readsBack n := by
    refine ⟨?_, by simp [encode]⟩
    change (decodeBelow UInt64.size (.int n.toNat)).map UInt64.ofNat = some n
    rw [decodeBelow_of_lt n.toNat_lt, Option.map_some, UInt64.ofNat_toNat]

instance : LawfulCodec UInt32 where
  readsBack n := by
    refine ⟨?_, by simp [encode]⟩
    change (decodeBelow UInt32.size (.int n.toNat)).map UInt32.ofNat = some n
    rw [decodeBelow_of_lt n.toNat_lt, Option.map_some, UInt32.ofNat_toNat]

instance : LawfulCodec Int64 where
  readsBack n := by
    refine ⟨?_, by simp [encode]⟩
    have hbounds : Int64.minValue.toInt ≤ n.toInt ∧ n.toInt ≤ Int64.maxValue.toInt :=
      ⟨n.minValue_le_toInt, n.toInt_le⟩
    change (if Int64.minValue.toInt ≤ n.toInt ∧ n.toInt ≤ Int64.maxValue.toInt
      then some (Int64.ofInt n.toInt) else none) = some n
    rw [if_pos hbounds, Int64.ofInt_toInt]

instance [LawfulCodec α] : LawfulCodec (List α) :=
  ⟨fun _ => readsBack_list fun a _ => LawfulCodec.readsBack a⟩

end Words

namespace Value

mutual

theorem ofJson?_toJson : ∀ value : Value, ofJson? value.toJson = some value
  | .null => rfl
  | .bool b => by simp [toJson, ofJson?, Json.tagged, (LawfulCodec.readsBack b).decode_encode]
  | .int n => by simp [toJson, ofJson?, Json.tagged, (LawfulCodec.readsBack n).decode_encode]
  | .str s => by simp [toJson, ofJson?, Json.tagged, (LawfulCodec.readsBack s).decode_encode]
  | .list items => by simp [toJson, ofJson?, Json.tagged, ofJsonAll?_toJsonAll items]
  | .failed reason => by
    simp [toJson, ofJson?, Json.tagged, (LawfulCodec.readsBack reason).decode_encode]

theorem ofJsonAll?_toJsonAll : ∀ items : List Value, ofJsonAll? (toJsonAll items) = some items
  | [] => rfl
  | item :: items => by
    simp [toJsonAll, ofJsonAll?, ofJson?_toJson item, ofJsonAll?_toJsonAll items]

end

instance : LawfulCodec Value where
  readsBack value := by
    refine ⟨ofJson?_toJson value, ?_⟩
    change value.toJson ≠ .null
    cases value <;> simp [toJson, Json.tagged]

end Value

section Records

variable {a b c d : Json}

theorem required_encode [LawfulCodec α] (x : α) : required (some (encode x)) = some x :=
  (LawfulCodec.readsBack x).required_encode

instance : LawfulCodec ProcessId where
  readsBack p := by
    have hindex : ReadsBack p.index := LawfulCodec.readsBack p.index
    exact ⟨hindex.map_decode ProcessId.mk, hindex.encode_ne_null⟩

theorem decode_callId {process : ProcessId} {index : UInt32}
    (ha : required (some a) = some process) (hb : required (some b) = some index) :
    decode (.obj [("process", a), ("index", b)]) = some (⟨process, index⟩ : CallId) := by
  simp [decode, Json.record?, List.lookup_cons, ha, hb]

instance : LawfulCodec CallId :=
  ⟨fun _ => ⟨decode_callId (required_encode _) (required_encode _), by simp [encode]⟩⟩

theorem decode_operation {name : String} {arity : UInt64}
    (ha : required (some a) = some name) (hb : required (some b) = some arity) :
    decode (.obj [("name", a), ("arity", b)]) = some (⟨name, arity⟩ : Operation) := by
  simp [decode, Json.record?, List.lookup_cons, ha, hb]

instance : LawfulCodec Operation :=
  ⟨fun _ => ⟨decode_operation (required_encode _) (required_encode _), by simp [encode]⟩⟩

theorem decode_call {operation : Operation} {args : List Value}
    (ha : required (some a) = some operation) (hb : required (some b) = some args) :
    decode (.obj [("operation", a), ("args", b)]) = some (⟨operation, args⟩ : Call) := by
  simp [decode, Json.record?, List.lookup_cons, ha, hb]

instance : LawfulCodec Call :=
  ⟨fun _ => ⟨decode_call (required_encode _) (required_encode _), by simp [encode]⟩⟩

instance : LawfulCodec Record.Kind where
  readsBack kind := by
    cases kind with
    | invoke call =>
      exact ⟨(LawfulCodec.readsBack call).map_decode Record.Kind.invoke,
        by simp [encode, Json.tagged]⟩
    | ret value =>
      exact ⟨(LawfulCodec.readsBack value).map_decode Record.Kind.ret,
        by simp [encode, Json.tagged]⟩

theorem decode_record {seq : UInt64} {process : ProcessId} {call : CallId} {kind : Record.Kind}
    (ha : required (some a) = some seq) (hb : required (some b) = some process)
    (hc : required (some c) = some call) (hd : required (some d) = some kind) :
    decode (.obj [("seq", a), ("process", b), ("call", c), ("kind", d)]) =
      some (⟨seq, process, call, kind⟩ : Record) := by
  simp [decode, Json.record?, List.lookup_cons, ha, hb, hc, hd]

instance : LawfulCodec Record :=
  ⟨fun _ => ⟨decode_record (required_encode _) (required_encode _) (required_encode _)
    (required_encode _), by simp [encode]⟩⟩

end Records

section Alternatives

variable {Op Ret : Type} [JsonCodec Op] [JsonCodec Ret]

instance [LawfulCodec α] : LawfulCodec (Queue.Op α) where
  readsBack op := by
    cases op with
    | enqueue item =>
      exact ⟨(LawfulCodec.readsBack item).map_decode Queue.Op.enqueue,
        by simp [encode, Json.tagged]⟩
    | dequeue => exact ⟨rfl, by simp [encode]⟩

instance [LawfulCodec α] : LawfulCodec (Queue.Ret α) where
  readsBack ret := by
    cases ret with
    | enqueued => exact ⟨rfl, by simp [encode]⟩
    | dequeued item =>
      refine ⟨?_, by simp [encode, Json.tagged]⟩
      change (decode (encode item)).map Queue.Ret.dequeued = _
      rw [decode_encode_option fun a _ => LawfulCodec.readsBack a, Option.map_some]

instance [LawfulCodec α] : LawfulCodec (Stack.Op α) where
  readsBack op := by
    cases op with
    | push item =>
      exact ⟨(LawfulCodec.readsBack item).map_decode Stack.Op.push, by simp [encode, Json.tagged]⟩
    | pop | size => exact ⟨rfl, by simp [encode]⟩

instance [LawfulCodec α] : LawfulCodec (Stack.Ret α) where
  readsBack ret := by
    cases ret with
    | pushed => exact ⟨rfl, by simp [encode]⟩
    | popped item =>
      refine ⟨?_, by simp [encode, Json.tagged]⟩
      change (decode (encode item)).map Stack.Ret.popped = _
      rw [decode_encode_option fun a _ => LawfulCodec.readsBack a, Option.map_some]
    | size n =>
      exact ⟨(LawfulCodec.readsBack n).map_decode Stack.Ret.size, by simp [encode, Json.tagged]⟩

instance [LawfulCodec α] : LawfulCodec (Register.Op α) where
  readsBack op := by
    cases op with
    | write value =>
      exact ⟨(LawfulCodec.readsBack value).map_decode Register.Op.write,
        by simp [encode, Json.tagged]⟩
    | read => exact ⟨rfl, by simp [encode]⟩

instance [LawfulCodec α] : LawfulCodec (Register.Ret α) where
  readsBack ret := by
    cases ret with
    | written => exact ⟨rfl, by simp [encode]⟩
    | read value =>
      exact ⟨(LawfulCodec.readsBack value).map_decode Register.Ret.read,
        by simp [encode, Json.tagged]⟩

variable {a b c d : Json}

theorem decode_event_invoke {process : ProcessId} {label : String} {op : Op}
    {expected : Option Ret} (ha : required (some a) = some process)
    (hb : required (some b) = some label) (hc : required (some c) = some op)
    (hd : nullable (some d) = some expected) :
    decode (.tagged "Invoke"
      (.obj [("process", a), ("label", b), ("op", c), ("expected", d)])) =
      some (Event.invoke process label op expected) := by
  simp [decode, Json.alternative?, Json.tagged, Json.branch?, List.lookup_cons, ha, hb, hc, hd]

theorem decode_event_ret {process : ProcessId} {result : Option Ret}
    (ha : required (some a) = some process) (hb : nullable (some b) = some result) :
    decode (.tagged "Return" (.obj [("process", a), ("result", b)])) =
      some (Event.ret process result : Event Op Ret) := by
  simp [decode, Json.alternative?, Json.tagged, Json.branch?, List.lookup_cons, ha, hb]

instance [LawfulCodec Op] [LawfulCodec Ret] : LawfulCodec (Event Op Ret) where
  readsBack event := by
    cases event with
    | invoke process label op expected =>
      refine ⟨decode_event_invoke (required_encode _) (required_encode _) (required_encode _) ?_,
        by simp [encode, Json.tagged]⟩
      exact nullable_encode fun ret _ => LawfulCodec.readsBack ret
    | ret process result =>
      refine ⟨decode_event_ret (required_encode _) ?_, by simp [encode, Json.tagged]⟩
      exact nullable_encode fun ret _ => LawfulCodec.readsBack ret

end Alternatives

section Trials

variable {a b c d e f g : Json}

instance : LawfulCodec RecorderKind where
  readsBack kind := by cases kind <;> exact ⟨rfl, by simp [encode]⟩

theorem decode_duration {secs : UInt64} {nanos : UInt32}
    (ha : required (some a) = some secs) (hb : required (some b) = some nanos) :
    decode (.obj [("secs", a), ("nanos", b)]) = Duration.ofNanos? secs nanos := by
  simp [decode, Json.record?, List.lookup_cons, ha, hb]

theorem Duration.toNat_nanos (d : Duration) : (UInt32.ofNat d.nanos.val).toNat = d.nanos.val :=
  UInt32.toNat_ofNat_of_lt' (Nat.lt_trans d.nanos.isLt (by decide))

/-- Fewer nanoseconds than make up a second are not carried. -/
theorem Duration.ofNanos?_nanos (d : Duration) :
    ofNanos? d.secs (.ofNat d.nanos.val) = some d := by
  have hnone : d.nanos.val / 1000000000 = 0 := Nat.div_eq_of_lt d.nanos.isLt
  have hsecs : d.secs.toNat < UInt64.size := d.secs.toNat_lt
  unfold ofNanos?
  simp only [d.toNat_nanos, hnone, Nat.add_zero, hsecs, if_true, UInt64.ofNat_toNat,
    Fin.ofNat_val_eq_self]

instance : LawfulCodec Duration where
  readsBack d := by
    refine ⟨?_, by simp [encode]⟩
    have hencode : encode (UInt32.ofNat d.nanos.val) = .int d.nanos.val :=
      congrArg (fun n : Nat => Json.int n) d.toNat_nanos
    have hnanos : required (some (.int d.nanos.val)) = some (UInt32.ofNat d.nanos.val) := by
      rw [← hencode]
      exact required_encode _
    exact (decode_duration (required_encode d.secs) hnanos).trans d.ofNanos?_nanos

theorem decode_settings {processes operations : UInt64} {joinTimeout : Duration}
    {recorder : RecorderKind} (ha : required (some a) = some processes)
    (hb : required (some b) = some operations) (hc : required (some c) = some joinTimeout)
    (hd : required (some d) = some recorder) :
    decode (.obj [("processes", a), ("operations", b), ("join_timeout", c), ("recorder", d)]) =
      some (⟨processes, operations, joinTimeout, recorder⟩ : Settings) := by
  simp [decode, Json.record?, List.lookup_cons, ha, hb, hc, hd]

instance : LawfulCodec Settings :=
  ⟨fun _ => ⟨decode_settings (required_encode _) (required_encode _) (required_encode _)
    (required_encode _), by simp [encode]⟩⟩

theorem decode_counts {counts : Counts} (ha : required (some a) = some counts.operations)
    (hb : required (some b) = some counts.events) (hc : required (some c) = some counts.ignored)
    (hd : required (some d) = some counts.malformed)
    (he : required (some e) = some counts.stragglers)
    (hf : required (some f) = some counts.panicked) (hg : required (some g) = some counts.steps) :
    decode (.obj [("operations", a), ("events", b), ("ignored", c), ("malformed", d),
      ("stragglers", e), ("panicked", f), ("steps", g)]) = some counts := by
  simp [decode, Json.record?, List.lookup_cons, ha, hb, hc, hd, he, hf, hg]

instance : LawfulCodec Counts :=
  ⟨fun _ => ⟨decode_counts (required_encode _) (required_encode _) (required_encode _)
    (required_encode _) (required_encode _) (required_encode _) (required_encode _),
    by simp [encode]⟩⟩

end Trials

section Verdicts

variable {Ret : Type}

/-- The position is a machine word. -/
def ProcessReach.FitsWords (r : ProcessReach Ret) : Prop := ∀ i ∈ r.furthest, i < UInt64.size

structure Reach.FitsWords (reach : Reach Ret) : Prop where
  furthest : reach.furthest < UInt64.size
  processes : ∀ r ∈ reach.processes, r.FitsWords

def Verdict.FitsWords (verdict : Verdict Ret) : Prop := ∀ reach ∈ verdict.reach?, reach.FitsWords

variable [JsonCodec Ret] {a b : Json}

theorem decode_processReach {r : ProcessReach Ret} (ha : nullable (some a) = some r.furthest)
    (hb : required (some b) = some r.rejected) :
    decode (.obj [("furthest", a), ("rejected", b)]) = some r := by
  simp [decode, Json.record?, List.lookup_cons, ha, hb]

theorem decode_reach {reach : Reach Ret} (ha : required (some a) = some reach.furthest)
    (hb : required (some b) = some reach.processes) :
    decode (.obj [("furthest", a), ("processes", b)]) = some reach := by
  simp [decode, Json.record?, List.lookup_cons, ha, hb]

variable [LawfulCodec Ret]

theorem ProcessReach.FitsWords.readsBack {r : ProcessReach Ret} (h : r.FitsWords) :
    ReadsBack r where
  decode_encode := by
    refine decode_processReach ?_ (required_encode _)
    exact nullable_encode fun i hi => readsBack_nat (h i hi)
  encode_ne_null := by simp [encode]

theorem Reach.FitsWords.readsBack {reach : Reach Ret} (h : reach.FitsWords) :
    ReadsBack reach where
  decode_encode := by
    refine decode_reach (readsBack_nat h.furthest).required_encode ?_
    exact (readsBack_list fun r hr => (h.processes r hr).readsBack).required_encode
  encode_ne_null := by simp [encode]

theorem Verdict.FitsWords.readsBack {verdict : Verdict Ret} (h : verdict.FitsWords) :
    ReadsBack verdict := by
  cases verdict with
  | notLinearizable reach =>
    have hreach : ReadsBack reach := (h reach rfl).readsBack
    exact ⟨hreach.map_decode Verdict.notLinearizable, by simp [encode, Json.tagged]⟩
  | linearizable | interrupted | exhausted => exact ⟨rfl, by simp [encode]⟩

end Verdicts

/-- Every document is read back as the value that it was written for, a verdict if its positions are
machine words. So no two values are written alike: neither an absent item and one that is null, nor
an expected or observed result, or a furthest position, that is absent and one that is not. -/
theorem documents_read_back :
    (Faithful Value ∧ Faithful Operation ∧ Faithful Call ∧ Faithful ProcessId ∧ Faithful CallId ∧
        Faithful Record) ∧
      (Faithful RecorderKind ∧ Faithful Settings ∧ Faithful Counts) ∧
      (Faithful (Event (Queue.Op Value) (Queue.Ret Value)) ∧
        Faithful (Event (Stack.Op Value) (Stack.Ret Value)) ∧
        Faithful (Event (Register.Op Value) (Register.Ret Value))) ∧
      (∀ (α : Type) [JsonCodec α] [LawfulCodec α],
        FaithfulOn {verdict : Verdict (Queue.Ret α) | verdict.FitsWords}) ∧
      encode (Queue.Ret.dequeued none : Queue.Ret Value) ≠
        encode (Queue.Ret.dequeued (some .null) : Queue.Ret Value) ∧
      (∀ (Op Ret : Type) [JsonCodec Op] [JsonCodec Ret] [LawfulCodec Op] [LawfulCodec Ret],
        (∀ process label (op : Op) (ret : Ret),
          encode (Event.invoke process label op (none : Option Ret)) ≠
            encode (Event.invoke process label op (some ret))) ∧
        (∀ process (ret : Ret), encode (Event.ret process none : Event Op Ret) ≠
          encode (Event.ret process (some ret) : Event Op Ret)) ∧
        ∀ (rejected : List Ret) (i : Nat), encode (⟨none, rejected⟩ : ProcessReach Ret) ≠
          encode (⟨some i, rejected⟩ : ProcessReach Ret)) := by
  refine ⟨⟨LawfulCodec.faithful _, LawfulCodec.faithful _, LawfulCodec.faithful _,
    LawfulCodec.faithful _, LawfulCodec.faithful _, LawfulCodec.faithful _⟩,
    ⟨LawfulCodec.faithful _, LawfulCodec.faithful _, LawfulCodec.faithful _⟩,
    ⟨LawfulCodec.faithful _, LawfulCodec.faithful _, LawfulCodec.faithful _⟩, ?_, ?_, ?_⟩
  · intro α _ _
    exact .of_readsBack fun verdict h => Verdict.FitsWords.readsBack h
  · intro heq
    have := (LawfulCodec.faithful (Queue.Ret Value)).injOn trivial trivial heq
    simp at this
  · intro Op Ret _ _ _ _
    refine ⟨?_, ?_, ?_⟩
    · intro process label op ret heq
      have := (LawfulCodec.faithful (Event Op Ret)).injOn trivial trivial heq
      simp at this
    · intro process ret heq
      have := (LawfulCodec.faithful (Event Op Ret)).injOn trivial trivial heq
      simp at this
    · intro rejected i heq
      simp [encode] at heq

/-- A verdict in which one process rejected that nothing was dequeued, and another one was never
considered. -/
theorem failure_reads_back :
    let reach : Reach (Queue.Ret Value) :=
      ⟨3, [⟨some 3, [.dequeued none, .dequeued (some .null)]⟩, ⟨none, []⟩]⟩
    reach.FitsWords ∧
      decode (encode (Verdict.notLinearizable reach)) = some (Verdict.notLinearizable reach) := by
  intro reach
  have hfits : reach.FitsWords := by
    refine ⟨by decide, ?_⟩
    intro r hr i hi
    simp only [reach, List.mem_cons, List.not_mem_nil, or_false] at hr
    rcases hr with rfl | rfl
    · obtain rfl : 3 = i := by simpa using hi
      decide
    · simp at hi
  have hverdict : (Verdict.notLinearizable reach).FitsWords := by
    intro reach' hreach
    obtain rfl : reach = reach' := by simpa [Verdict.reach?] using hreach
    exact hfits
  obtain ⟨-, -, -, hread, -⟩ := documents_read_back
  exact ⟨hfits, (hread Value).decode_encode (.notLinearizable reach) hverdict⟩

end Linearizability
