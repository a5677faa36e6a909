import Linearizability.Duration
import Linearizability.Trial.Session

/-!
# Trials

A trial calls a subject from several processes and captures what each of them observed. Whether
calls overlap is up to the schedule, which stands for everything that happens before the join times
out.
-/

namespace Linearizability

structure Settings where
  processes : UInt64 := 4
  /-- The calls of all processes together. -/
  operations : UInt64 := 100
  joinTimeout : Duration := .ofSecs 10
  recorder : RecorderKind := .shared
  deriving DecidableEq

structure Capture where
  /-- In the order of their sequence numbers. -/
  records : List Record := []
  /-- The processes that were still at work when the join timed out. -/
  stragglers : Nat := 0
  /-- The processes that died outside of a call. -/
  panicked : Nat := 0
  elapsed : Duration := .zero
  deriving DecidableEq

namespace Capture

def isComplete (capture : Capture) : Bool :=
  capture.stragglers = 0 ∧ capture.panicked = 0

end Capture

namespace Session

variable {σ : Type}

def capture (s : Session σ) : Capture where
  records := s.recorder.records
  stragglers := s.workers.countP Worker.isStraggler
  panicked := s.workers.countP Worker.isPanicked

end Session

structure Trial (σ : Type) where
  settings : Settings := {}
  subject : Subject σ
  object : σ

namespace Trial

variable {σ : Type}

def start (t : Trial σ) (agendas : List Agenda) : Session σ where
  object := t.object
  recorder := .new t.settings.recorder agendas.length
  workers := agendas.map .ready

def agendas (t : Trial σ) (entropy : Nat → ChaCha.Key) (workload : Workload) :
    Except WorkloadError (List Agenda) :=
  Agenda.ofWorkload entropy t.settings.processes.toNat t.settings.operations.toNat
    t.subject.operations workload

/-- The runtime has at most this many threads for processes. -/
def threads : Nat := 512

/-- The schedule of a runtime with so many threads that runs the processes one after another. -/
def inPool (t : Trial σ) (threads : Nat) (agendas : List Agenda) : List ProcessId :=
  Session.inPool t.subject threads (t.start agendas) agendas.zipIdx

/-- Without processes or operations the capture is empty, whatever the workload. The schedule is
chosen for the agendas, and a rejected workload leaves the object alone. -/
def run (t : Trial σ) (entropy : Nat → ChaCha.Key) (schedule : List Agenda → List ProcessId)
    (workload : Workload) : Except WorkloadError Capture × Trial σ :=
  if t.settings.processes = 0 ∨ t.settings.operations = 0 then (.ok {}, t)
  else
    match t.agendas entropy workload with
    | .error e => (.error e, t)
    | .ok agendas =>
      let s := (t.start agendas).follow t.subject (schedule agendas)
      (.ok s.capture, { t with object := s.object })

end Trial
end Linearizability
