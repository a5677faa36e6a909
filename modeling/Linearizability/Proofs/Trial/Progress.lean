import Linearizability.Proofs.Recorder.Agreement
import Linearizability.Proofs.Trial.Plan

/-!
# How far the processes have got

Whatever the interleaving, what is recorded of a process is what it has done by itself: it made the
first calls of its agenda, each was recorded and then what came back, and nothing else was. Each
turn keeps this up for the process that takes it and leaves the others alone.
-/

namespace Linearizability

open Turn

variable {σ : Type}

/-- All of these calls came back, well or badly. -/
def CameBack (deeds : List Deed) : Prop := ∀ e ∈ exchanges deeds, e.response ≠ .stalled

def doneBy (p : ProcessId) (deeds : List Deed) : List Deed :=
  deeds.filter (·.process = p)

/-- What the records say of a process, in their order. -/
def recordsOf (p : ProcessId) (records : List Record) : List (CallId × Record.Kind) :=
  (records.filter (·.process = p)).map fun record => (record.call, record.kind)

/-- An invocation, and right after it a return with the same name and what came back; there is none
if the call never does. A failure is returned as such, with its reason or the text of the panic. -/
def Exchange.entries (e : Exchange) (id : CallId) : List (CallId × Record.Kind) :=
  match e.response with
  | .returned value => [(id, .invoke e.call), (id, .ret value)]
  | .failed failure => [(id, .invoke e.call), (id, .ret (.failed failure.reason))]
  | .panicked (some text) => [(id, .invoke e.call), (id, .ret (.failed text))]
  | .panicked none => [(id, .invoke e.call), (id, .ret (.failed "panic"))]
  | .stalled => [(id, .invoke e.call)]

/-- What the records say of a process that did this. -/
def transcript (p : ProcessId) (deeds : List Deed) : List (CallId × Record.Kind) :=
  (exchanges deeds).zipIdx.flatMap fun (e, i) => e.entries ⟨p, .ofNat i⟩

/-- How a process ends: it makes all of its calls, or a choice of arguments panics before, or the
last call that it makes does not come back. -/
inductive Ends (p : ProcessId) (agenda : Agenda) : List Deed → Worker → Prop
  | finished {done : List Deed} {rest : Agenda} (h : agenda.Performs p done rest)
      (hback : CameBack done) (hrest : rest.count = 0) : Ends p agenda done .finished
  | panicked {done : List Deed} {count : Nat} {menu : List Operation} {g g' : Generator}
      {operation : Operation} (h : agenda.Performs p done (.random (count + 1) menu g))
      (hback : CameBack done) (hchoose : g.choose? menu = some (operation, g')) :
      Ends p agenda (done ++ [.chose p operation g' none]) .panicked
  | stalled {done choice : List Deed} {rest rest' : Agenda} {call : Call}
      (h : agenda.Performs p done rest) (hback : CameBack done)
      (hcall : rest.Draws p choice call rest') :
      Ends p agenda (done ++ (choice ++ [.called ⟨p, call, .stalled⟩])) .stalled

variable {subject : Subject σ} {object left : σ} {p q : ProcessId} {agenda rest rest' : Agenda}
variable {deeds done choice more : List Deed} {e : Exchange} {log : List Record} {record : Record}
variable {call : Call} {value : Value} {response : Response}

section Deeds

theorem Response.value?_eq_none_iff : response.value? = none ↔ response = .stalled := by
  cases response <;> simp [Response.value?]

/-- What came back is recorded as the value of the response. -/
theorem Exchange.entries_eq (e : Exchange) (id : CallId) : e.entries id =
    (id, .invoke e.call) :: (e.response.value?.map fun value => (id, .ret value)).toList := by
  obtain ⟨process, call, response⟩ := e
  cases response with
  | panicked text => cases text <;> rfl
  | _ => rfl

theorem doneBy_append_self (deeds : List Deed) (hmore : ∀ deed ∈ more, deed.process = p) :
    doneBy p (deeds ++ more) = doneBy p deeds ++ more := by
  have hall : doneBy p more = more :=
    List.filter_eq_self.2 fun deed hmem => by simpa using hmore deed hmem
  rw [doneBy, List.filter_append, ← doneBy, ← doneBy, hall]

theorem doneBy_append_ne (deeds : List Deed) (hmore : ∀ deed ∈ more, deed.process = p)
    (h : p ≠ q) : doneBy q (deeds ++ more) = doneBy q deeds := by
  have hnone : doneBy q more = [] :=
    List.filter_eq_nil_iff.2 fun deed hmem => by simpa [hmore deed hmem] using h
  rw [doneBy, List.filter_append, ← doneBy, ← doneBy, hnone, List.append_nil]

theorem CameBack.concat (h : CameBack done) (hcall : rest.Draws p choice call rest')
    (hresponse : response ≠ .stalled) :
    CameBack (done ++ (choice ++ [.called ⟨p, call, response⟩])) := by
  intro e hmem
  rw [Agenda.exchanges_concat hcall] at hmem
  rcases List.mem_append.1 hmem with hmem | hmem
  · exact h e hmem
  · rwa [List.mem_singleton.1 hmem]

theorem transcript_concat (done : List Deed) (hcall : rest.Draws p choice call rest')
    (e : Exchange) : transcript p (done ++ (choice ++ [.called e])) =
      transcript p done ++ e.entries ⟨p, .ofNat (exchanges done).length⟩ := by
  simp [transcript, Agenda.exchanges_concat hcall, List.zipIdx_append]

/-- A choice of arguments is not recorded. -/
theorem transcript_append (done : List Deed) (h : exchanges more = []) :
    transcript p (done ++ more) = transcript p done := by
  have hmore : more.filterMap Deed.exchange? = [] := h
  simp [transcript, exchanges, hmore]

end Deeds

section Records

/-- Whether the entry is an invocation. -/
def isCall : CallId × Record.Kind → Bool
  | (_, .invoke _) => true
  | (_, .ret _) => false

/-- The call that the last of these entries leaves open. -/
def lastOpen? (entries : List (CallId × Record.Kind)) : Option CallId :=
  entries.getLast?.bind fun entry => if isCall entry then some entry.1 else none

theorem recordsOf_append (p : ProcessId) (log log' : List Record) :
    recordsOf p (log ++ log') = recordsOf p log ++ recordsOf p log' := by
  simp [recordsOf]

theorem recordsOf_concat (p : ProcessId) (log : List Record) (record : Record) :
    recordsOf p (log ++ [record]) =
      recordsOf p log ++ if record.process = p then [(record.call, record.kind)] else [] := by
  by_cases hp : record.process = p <;> simp [recordsOf, hp]

theorem isCall_eq (record : Record) :
    isCall (record.call, record.kind) = record.isInvocation := by
  obtain ⟨seq, process, id, kind⟩ := record
  cases kind <;> rfl

theorem count_turn (log : List Record) (p : ProcessId) :
    (log.map Record.turn).count ⟨p, true⟩ = (recordsOf p log).countP isCall := by
  induction log using List.reverseRecOn with
  | nil => rfl
  | append_singleton log record ih =>
    rw [List.map_append, List.count_append, ih, recordsOf_concat, List.countP_append]
    by_cases hp : record.process = p
    · cases hinvocation : record.isInvocation <;>
        simp [hp, Record.turn, hinvocation, isCall_eq]
    · simp [hp, Record.turn]

theorem openCall?_eq (log : List Record) (p : ProcessId) :
    Recorder.openCall? log p = lastOpen? (recordsOf p log) := by
  induction log using List.reverseRecOn with
  | nil => rfl
  | append_singleton log record ih =>
    have hlength : (log.map Record.turn).length + 1 = (log ++ [record]).length := by simp
    rw [Recorder.openCall?, List.map_append, List.map_singleton, ← hlength, recordsOf_concat]
    by_cases hp : record.process = p
    · subst hp
      cases hinvocation : record.isInvocation with
      | true =>
        rw [show record.turn = ⟨record.process, true⟩ by simp [Record.turn, hinvocation],
          outstanding_concat_of_invokes]
        simp [lastOpen?, isCall_eq, hinvocation]
      | false =>
        rw [show record.turn = ⟨record.process, false⟩ by simp [Record.turn, hinvocation],
          outstanding_concat_of_returns]
        simp [lastOpen?, isCall_eq, hinvocation]
    · rw [outstanding_concat_of_ne hp, List.length_map, if_neg hp, List.append_nil, ← ih,
        Recorder.openCall?]
      refine Option.bind_congr fun a ha => ?_
      rw [List.getElem?_append_left (lt_of_outstanding ha)]

theorem countP_isCall_transcript (p : ProcessId) (deeds : List Deed) :
    (transcript p deeds).countP isCall = (exchanges deeds).length := by
  rw [transcript]
  induction exchanges deeds using List.reverseRecOn with
  | nil => rfl
  | append_singleton made e ih =>
    rw [List.zipIdx_append, List.flatMap_append, List.countP_append, ih, List.length_append]
    cases hvalue : e.response.value? <;>
      simp [Exchange.entries_eq, hvalue, isCall, List.countP_cons]

theorem length_transcript (h : CameBack deeds) (p : ProcessId) :
    (transcript p deeds).length = 2 * (exchanges deeds).length := by
  unfold CameBack at h
  rw [transcript]
  generalize exchanges deeds = made at h ⊢
  induction made using List.reverseRecOn with
  | nil => rfl
  | append_singleton made e ih =>
    have hback : e.response.value?.isSome := by
      rw [← Option.ne_none_iff_isSome, Ne, Response.value?_eq_none_iff]
      exact h e (by simp)
    obtain ⟨value, hvalue⟩ := Option.isSome_iff_exists.1 hback
    have ih := ih fun other hmem => h other (List.mem_append_left _ hmem)
    rw [List.zipIdx_append, List.flatMap_append, List.length_append, ih, List.length_append]
    simp [Exchange.entries_eq, hvalue]
    omega

end Records

namespace Session

/-- How far a process has got with its agenda: what it did, what is recorded of it, and what its
worker is at. -/
inductive Stage (p : ProcessId) (agenda : Agenda) :
    List Deed → List (CallId × Record.Kind) → Worker → Prop
  | ready {done : List Deed} {rest : Agenda} (h : agenda.Performs p done rest)
      (hback : CameBack done) : Stage p agenda done (transcript p done) (.ready rest)
  | chosen {done choice : List Deed} {rest rest' : Agenda} {call : Call}
      (h : agenda.Performs p done rest) (hback : CameBack done)
      (hcall : rest.Draws p choice call rest') :
      Stage p agenda (done ++ choice) (transcript p done) (.chosen call rest')
  | invoked {done choice : List Deed} {rest rest' : Agenda} {call : Call}
      (h : agenda.Performs p done rest) (hback : CameBack done)
      (hcall : rest.Draws p choice call rest') : Stage p agenda (done ++ choice)
        (transcript p done ++ [(⟨p, .ofNat (exchanges done).length⟩, .invoke call)])
        (.invoked call rest')
  | answered {done choice : List Deed} {rest rest' : Agenda} {call : Call} {response : Response}
      {value : Value} (h : agenda.Performs p done rest) (hback : CameBack done)
      (hcall : rest.Draws p choice call rest') (hvalue : response.value? = some value) :
      Stage p agenda (done ++ (choice ++ [.called ⟨p, call, response⟩]))
        (transcript p done ++ [(⟨p, .ofNat (exchanges done).length⟩, .invoke call)])
        (.answered value rest')
  | ended {done : List Deed} {worker : Worker} (h : Ends p agenda done worker) :
      Stage p agenda done (transcript p done) worker

variable {agendas : List Agenda} {s : Session σ} {entries : List (CallId × Record.Kind)}
variable {worker : Worker}

/-- The processes have got so far: this is what they did, and the recorder holds this log. -/
structure Progress (subject : Subject σ) (object : σ) (agendas : List Agenda) (s : Session σ)
    (log : List Record) (deeds : List Deed) : Prop where
  keeps : Recorder.Keeps agendas.length s.recorder log
  answers : Answers subject object deeds s.object
  length : s.workers.length = agendas.length
  recorded : ∀ record ∈ log, record.process.toNat < agendas.length
  doing : ∀ deed ∈ deeds, deed.process.toNat < agendas.length
  stage : ∀ p agenda worker, p.lookup? agendas = some agenda → p.lookup? s.workers = some worker →
    Stage p agenda (doneBy p deeds) (recordsOf p log) worker

section Advance

variable {r r' : Recorder} {id : CallId}

theorem advance_finishes (h : rest.next subject p object = (.finished, left)) :
    advance subject p object r (.ready rest) = (.finished, left, r) := by
  simp only [advance, h]

theorem advance_panics (h : rest.next subject p object = (.panicked, left)) :
    advance subject p object r (.ready rest) = (.panicked, left, r) := by
  simp only [advance, h]

theorem advance_chooses (h : rest.next subject p object = (.call call rest', left)) :
    advance subject p object r (.ready rest) = (.chosen call rest', left, r) := by
  simp only [advance, h]

theorem advance_invokes (h : r.invoke? p call = some (id, r')) :
    advance subject p object r (.chosen call rest) = (.invoked call rest, object, r') := by
  simp only [advance, h]

theorem advance_comesBack (h : (subject.apply object call).1.value? = some value) :
    advance subject p object r (.invoked call rest) =
      (.answered value rest, (subject.apply object call).2, r) := by
  simp only [advance, h]

theorem advance_stalls (h : (subject.apply object call).1 = .stalled) :
    advance subject p object r (.invoked call rest) =
      (.stalled, (subject.apply object call).2, r) := by
  simp only [advance, h, Response.value?]

theorem advance_returns (hr : r.ret? p value = some r') :
    advance subject p object r (.answered value rest) = (.ready rest, object, r') := by
  simp only [advance, hr]

end Advance

theorem turn_eq {worker' : Worker} {object' : σ} {recorder : Recorder}
    (hworker : p.lookup? s.workers = some worker)
    (h : advance subject p s.object s.recorder worker = (worker', object', recorder)) :
    s.turn subject p = ⟨object', recorder, s.workers.set p.toNat worker'⟩ := by
  simp [turn, hworker, h]

namespace Progress

variable (h : Progress subject object agendas s log deeds)

include h

/-- A turn has to be checked for the process that takes it. -/
theorem update (more : List Deed) (recorded : List Record) {recorder : Recorder}
    (hp : p.lookup? agendas = some agenda) (hmore : ∀ deed ∈ more, deed.process = p)
    (hrecorded : ∀ record ∈ recorded, record.process = p)
    (hkeeps : Recorder.Keeps agendas.length recorder (log ++ recorded))
    (hanswers : Answers subject s.object more left)
    (hstage : Stage p agenda (doneBy p deeds ++ more) (recordsOf p log ++ recordsOf p recorded)
      worker) :
    Progress subject object agendas ⟨left, recorder, s.workers.set p.toNat worker⟩
      (log ++ recorded) (deeds ++ more) where
  keeps := hkeeps
  answers := h.answers.append hanswers
  length := by simpa using h.length
  recorded record hmem := by
    rcases List.mem_append.1 hmem with hmem | hmem
    · exact h.recorded record hmem
    · rw [hrecorded record hmem]
      exact ProcessId.lt_length_of_lookup? hp
  doing deed hmem := by
    rcases List.mem_append.1 hmem with hmem | hmem
    · exact h.doing deed hmem
    · rw [hmore deed hmem]
      exact ProcessId.lt_length_of_lookup? hp
  stage q agenda' worker' hq hworker := by
    rw [recordsOf_append]
    rcases ProcessId.eq_or_lookup?_of_set hworker with ⟨rfl, rfl⟩ | ⟨hne, hworker⟩
    · obtain rfl := Option.some.inj (hp.symm.trans hq)
      rwa [doneBy_append_self deeds hmore]
    · have hnone : recordsOf q recorded = [] := by
        refine List.map_eq_nil_iff.2 (List.filter_eq_nil_iff.2 fun record hmem => ?_)
        simpa [hrecorded record hmem] using hne
      rw [doneBy_append_ne deeds hmore hne, hnone, List.append_nil]
      exact h.stage q agenda' worker' hq hworker

/-- A turn at which nothing is recorded. -/
theorem of_deeds (more : List Deed) (hp : p.lookup? agendas = some agenda)
    (hmore : ∀ deed ∈ more, deed.process = p)
    (hanswers : Answers subject s.object more left)
    (hstage : Stage p agenda (doneBy p deeds ++ more) (recordsOf p log) worker) :
    Progress subject object agendas ⟨left, s.recorder, s.workers.set p.toNat worker⟩ log
      (deeds ++ more) := by
  have hkeeps : Recorder.Keeps agendas.length s.recorder (log ++ []) := by
    simpa using h.keeps
  have hprogress := h.update more [] hp hmore (by simp) hkeeps hanswers
    (by simpa [recordsOf] using hstage)
  rwa [List.append_nil] at hprogress

/-- A turn at which this is recorded. -/
theorem of_record {recorder : Recorder} (hp : p.lookup? agendas = some agenda)
    (hrecord : record.process = p)
    (hkeeps : Recorder.Keeps agendas.length recorder (log ++ [record]))
    (hstage : Stage p agenda (doneBy p deeds)
      (recordsOf p log ++ [(record.call, record.kind)]) worker) :
    Progress subject object agendas ⟨s.object, recorder, s.workers.set p.toNat worker⟩
      (log ++ [record]) deeds := by
  have hprogress := h.update [] [record] hp (by simp) (by simpa using hrecord) hkeeps .nil
    (by simpa [recordsOf, hrecord] using hstage)
  rwa [List.append_nil] at hprogress

/-- A process at liberty chooses the next call of its agenda, or it has come to its end. -/
theorem turn_ready (hstocked : agenda.Stocked) (hp : p.lookup? agendas = some agenda)
    {rest : Agenda} (hworker : p.lookup? s.workers = some (.ready rest)) :
    ∃ log' deeds', Progress subject object agendas (s.turn subject p) log' deeds' := by
  have hstage := h.stage p agenda _ hp hworker
  generalize hdone : doneBy p deeds = done at hstage
  generalize hentries : recordsOf p log = entries at hstage
  cases hstage with
  | ended hends => cases hends
  | ready hperforms hback =>
    rcases hnext : rest.next subject p s.object with ⟨next, left⟩
    cases next with
    | finished =>
      obtain ⟨hcount, rfl⟩ := Agenda.count_of_finished (hperforms.stocked hstocked) hnext
      rw [turn_eq hworker (advance_finishes hnext)]
      refine ⟨log, _, h.of_deeds [] hp (by simp) .nil ?_⟩
      rw [hdone, hentries, List.append_nil]
      exact .ended (.finished hperforms hback hcount)
    | panicked =>
      obtain ⟨count, menu, g, operation, g', rfl, hchoose, hanswers⟩ :=
        Agenda.exists_of_panicked hnext
      rw [turn_eq hworker (advance_panics hnext)]
      refine ⟨log, _, h.of_deeds _ hp (by simp [Deed.process]) hanswers ?_⟩
      have hsame : transcript p (done ++ [.chose p operation g' none]) = transcript p done :=
        transcript_append done rfl
      rw [hdone, hentries, ← hsame]
      exact .ended (.panicked hperforms hback hchoose)
    | call call rest' =>
      obtain ⟨choice, hcall, hanswers⟩ := Agenda.draws_of_call hnext
      rw [turn_eq hworker (advance_chooses hnext)]
      refine ⟨log, _, h.of_deeds _ hp (fun _ => hcall.process_eq) hanswers ?_⟩
      rw [hdone, hentries]
      exact .chosen hperforms hback hcall

/-- The call that is chosen is recorded under the next name. -/
theorem turn_chosen (hp : p.lookup? agendas = some agenda) {call : Call} {rest : Agenda}
    (hworker : p.lookup? s.workers = some (.chosen call rest)) :
    ∃ log' deeds', Progress subject object agendas (s.turn subject p) log' deeds' := by
  have hstage := h.stage p agenda _ hp hworker
  generalize hdone : doneBy p deeds = done at hstage
  generalize hentries : recordsOf p log = entries at hstage
  cases hstage with
  | ended hends => cases hends
  | @chosen before choice _ _ _ hperforms hback hcall =>
    obtain ⟨recorder, hinvoke, hkeeps⟩ := h.keeps.invoke (ProcessId.lt_length_of_lookup? hp) call
    rw [count_turn, hentries, countP_isCall_transcript] at hinvoke hkeeps
    rw [turn_eq hworker (advance_invokes hinvoke)]
    refine ⟨_, deeds, h.of_record hp rfl hkeeps ?_⟩
    rw [hdone, hentries]
    exact .invoked hperforms hback hcall

/-- A call that is recorded is made, and it comes back or never does. -/
theorem turn_invoked (hp : p.lookup? agendas = some agenda) {call : Call} {rest : Agenda}
    (hworker : p.lookup? s.workers = some (.invoked call rest)) :
    ∃ log' deeds', Progress subject object agendas (s.turn subject p) log' deeds' := by
  have hstage := h.stage p agenda _ hp hworker
  generalize hdone : doneBy p deeds = done at hstage
  generalize hentries : recordsOf p log = entries at hstage
  rcases happly : subject.apply s.object call with ⟨response, left⟩
  have hanswers : Answers subject s.object [.called ⟨p, call, response⟩] left :=
    .concat .nil happly
  cases hstage with
  | ended hends => cases hends
  | @invoked before choice _ _ _ hperforms hback hcall =>
    cases hvalue : response.value? with
    | none =>
      obtain rfl := Response.value?_eq_none_iff.1 hvalue
      rw [turn_eq hworker (advance_stalls (by rw [happly])), happly]
      refine ⟨log, _, h.of_deeds _ hp (by simp [Deed.process]) hanswers ?_⟩
      have hall := transcript_concat before hcall ⟨p, call, .stalled⟩
      rw [Exchange.entries] at hall
      rw [hdone, hentries, List.append_assoc, ← hall]
      exact .ended (.stalled hperforms hback hcall)
    | some value =>
      rw [turn_eq hworker (advance_comesBack (by rw [happly]; exact hvalue)), happly]
      refine ⟨log, _, h.of_deeds _ hp (by simp [Deed.process]) hanswers ?_⟩
      rw [hdone, hentries, List.append_assoc]
      exact .answered hperforms hback hcall hvalue

/-- A value that came back is recorded as the return from its call. -/
theorem turn_answered (hp : p.lookup? agendas = some agenda) {value : Value} {rest : Agenda}
    (hworker : p.lookup? s.workers = some (.answered value rest)) :
    ∃ log' deeds', Progress subject object agendas (s.turn subject p) log' deeds' := by
  have hstage := h.stage p agenda _ hp hworker
  generalize hdone : doneBy p deeds = done at hstage
  generalize hentries : recordsOf p log = entries at hstage
  cases hstage with
  | ended hends => cases hends
  | @answered before choice _ _ call response _ hperforms hback hcall hvalue =>
    have hopen : Recorder.openCall? log p = some ⟨p, .ofNat (exchanges before).length⟩ := by
      rw [openCall?_eq, hentries]
      simp [lastOpen?, isCall]
    obtain ⟨recorder, hret, hkeeps⟩ :=
      h.keeps.ret_of_some (ProcessId.lt_length_of_lookup? hp) hopen value
    rw [turn_eq hworker (advance_returns hret)]
    refine ⟨_, deeds, h.of_record hp rfl hkeeps ?_⟩
    have hall := transcript_concat before hcall ⟨p, call, response⟩
    simp only [Exchange.entries_eq, hvalue, Option.map_some, Option.toList_some] at hall
    rw [hdone, hentries, List.append_assoc, Record.ret, List.singleton_append, ← hall]
    have hresponse : response ≠ .stalled := by
      rintro rfl
      simp [Response.value?] at hvalue
    exact .ready (hperforms.call hcall response) (hback.concat hcall hresponse)

theorem turn (hstocked : ∀ agenda ∈ agendas, agenda.Stocked) (p : ProcessId) :
    ∃ log' deeds', Progress subject object agendas (s.turn subject p) log' deeds' := by
  cases hworker : p.lookup? s.workers with
  | none => exact ⟨log, deeds, by simpa [Session.turn, hworker] using h⟩
  | some worker =>
    have hlt := ProcessId.lt_length_of_lookup? hworker
    rw [h.length] at hlt
    obtain ⟨agenda, hp⟩ : ∃ agenda, p.lookup? agendas = some agenda :=
      ⟨_, List.getElem?_eq_getElem hlt⟩
    have hsame := h.of_deeds [] hp (by simp) .nil
      (by simpa using h.stage p agenda worker hp hworker)
    rw [List.append_nil] at hsame
    cases worker with
    | ready rest => exact h.turn_ready (hstocked agenda (List.mem_of_getElem? hp)) hp hworker
    | chosen call rest => exact h.turn_chosen hp hworker
    | invoked call rest => exact h.turn_invoked hp hworker
    | answered value rest => exact h.turn_answered hp hworker
    | finished => exact ⟨log, deeds, by rwa [turn_eq hworker rfl]⟩
    | panicked => exact ⟨log, deeds, by rwa [turn_eq hworker rfl]⟩
    | stalled => exact ⟨log, deeds, by rwa [turn_eq hworker rfl]⟩

end Progress

end Session
end Linearizability
