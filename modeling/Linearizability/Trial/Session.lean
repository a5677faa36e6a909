import Linearizability.Recorder
import Linearizability.Workload

/-!
# Processes at work

Each process carries out its agenda by itself: it chooses a call, records the invocation, calls the
subject, and records what came back. A session runs the processes in any interleaving of these
steps. A call that fails or panics is recorded as failed and the process goes on; it ends early only
in a call that never comes back or when the choice of arguments panics.
-/

namespace Linearizability

namespace Agenda

inductive Next where
  | finished
  | call (call : Call) (rest : Agenda)
  | panicked

/-- The operation is drawn before its arguments. -/
def next {σ : Type} (subject : Subject σ) (process : ProcessId) (object : σ) : Agenda → Next × σ
  | .scripted [] => (.finished, object)
  | .scripted (call :: calls) => (.call call (.scripted calls), object)
  | .random 0 _ _ => (.finished, object)
  | .random (count + 1) menu g =>
    match g.choose? menu with
    | none => (.finished, object)
    | some (operation, g) =>
      match subject.arguments object operation process g with
      | (none, object) => (.panicked, object)
      | (some (args, g), object) => (.call ⟨operation, args⟩ (.random count menu g), object)

end Agenda

/-- What a process does next, or how it ended. -/
inductive Worker where
  | ready (agenda : Agenda)
  /-- The invocation is to be recorded. -/
  | chosen (call : Call) (agenda : Agenda)
  /-- The invocation is recorded, and the subject is to be called. -/
  | invoked (call : Call) (agenda : Agenda)
  /-- The call came back with this value, which is to be recorded. -/
  | answered (value : Value) (agenda : Agenda)
  | finished
  | panicked
  | stalled
  deriving Inhabited

namespace Worker

def isPanicked : Worker → Bool
  | .panicked => true
  | _ => false

/-- The process did not come to an end, neither well nor badly. -/
def isStraggler : Worker → Bool
  | .finished | .panicked => false
  | _ => true

/-- The process is in a call that never comes back. -/
def isStalled : Worker → Bool
  | .stalled => true
  | _ => false

/-- The process can take no further step. -/
def isAtRest : Worker → Bool
  | .finished | .panicked | .stalled => true
  | _ => false

end Worker

structure Session (σ : Type) where
  object : σ
  recorder : Recorder
  /-- One entry per process. -/
  workers : List Worker

namespace Session

variable {σ : Type}

/-- One step of a worker, with the object and the recorder after it. -/
def advance (subject : Subject σ) (process : ProcessId) (object : σ) (recorder : Recorder) :
    Worker → Worker × σ × Recorder
  | .ready agenda =>
    match agenda.next subject process object with
    | (.finished, object) => (.finished, object, recorder)
    | (.panicked, object) => (.panicked, object, recorder)
    | (.call call rest, object) => (.chosen call rest, object, recorder)
  | .chosen call agenda =>
    match recorder.invoke? process call with
    | some (_, recorder) => (.invoked call agenda, object, recorder)
    | none => (.panicked, object, recorder)
  | .invoked call agenda =>
    let (response, object) := subject.apply object call
    match response.value? with
    | some value => (.answered value agenda, object, recorder)
    | none => (.stalled, object, recorder)
  | .answered value agenda =>
    match recorder.ret? process value with
    | some recorder => (.ready agenda, object, recorder)
    | none => (.panicked, object, recorder)
  | worker => (worker, object, recorder)

/-- A step of the process, if there is such a process. -/
def turn (subject : Subject σ) (s : Session σ) (process : ProcessId) : Session σ :=
  match process.lookup? s.workers with
  | none => s
  | some worker =>
    let (worker, object, recorder) := advance subject process s.object s.recorder worker
    ⟨object, recorder, s.workers.set process.toNat worker⟩

/-- The processes take their steps in the order of the schedule. -/
def follow (subject : Subject σ) (s : Session σ) (schedule : List ProcessId) : Session σ :=
  schedule.foldl (turn subject) s

/-- The processes run one after another as long as there is a thread for the next one: a process
that stalls keeps its thread, and the others give theirs back. A call takes four steps, and noticing
the end takes one more. -/
def inPool (subject : Subject σ) (threads : Nat) : Session σ → List (Agenda × Nat) → List ProcessId
  | _, [] => []
  | s, (agenda, p) :: later =>
    if s.workers.countP Worker.isStalled < threads then
      let turns := List.replicate (4 * agenda.count + 1) (ProcessId.ofNat p)
      turns ++ inPool subject threads (s.follow subject turns) later
    else []

end Session
end Linearizability
