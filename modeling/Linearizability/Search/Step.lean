import Linearizability.Search.Basic

/-!
# Steps of the search

A step passes one event, tries one candidate, or takes back one choice. A candidate takes effect if
the reference object returns what its process observed; otherwise its operation is undone at once.
-/

namespace Linearizability.Search

variable {σ Op Ret : Type} [ReferenceObject σ Op Ret] [DecidableEq Ret]

inductive Step (σ Ret : Type) where
  | next (s : Search σ Ret)
  | halt (outcome : Except Fault (Verdict Ret)) (object : σ)

/-- What became of a candidate's operation. -/
inductive Attempt (σ Ret : Type) where
  | matched (object : σ)
  /-- The operation returned this result instead of the observed one, and is undone. -/
  | mismatched (ret : Ret) (object : σ)
  | undoFailed (cause : NothingToUndo) (object : σ)
  /-- No invocation stands at the position. -/
  | absent

def attempt (events : Array (Event Op Ret)) (invocation : Nat) (object : σ) : Attempt σ Ret :=
  match events[invocation]? with
  | some (.invoke _ _ op expected) =>
    let (ret, applied) := ReferenceObject.apply object op
    if expected = some ret then .matched applied
    else
      match ReferenceObject.undo applied with
      | (.ok (), restored) => .mismatched ret restored
      | (.error cause, left) => .undoFailed cause left
  | _ => .absent

/-- Undoes every operation that took effect on the path. -/
def restore : List Marker → σ → Except Fault Unit × σ
  | [], object => (.ok (), object)
  | .linearized _ i _ _ (.pending _) :: path, object =>
    match ReferenceObject.undo object with
    | (.ok (), object) => restore path object
    | (.error cause, object) => (.error (.undoFailed i cause), object)
  | _ :: path, object => restore path object

/-- A verdict is given only after the object is restored. -/
def conclude (s : Search σ Ret) (verdict : Verdict Ret) :
    Except Fault (Verdict Ret) × σ :=
  match restore s.path s.object with
  | (.ok (), object) => (.ok verdict, object)
  | (.error e, object) => (.error e, object)

/-- The history is linearizable once all its events are passed. -/
def advance (events : Array (Event Op Ret)) (s : Search σ Ret) (i : Nat) : Step σ Ret :=
  match events[i]? with
  | none =>
    if i = events.size then
      let (outcome, object) := s.conclude .linearizable
      .halt outcome object
    else .halt (.error .outOfRange) s.object
  | some (.invoke process _ _ _) =>
    match process.lookup? s.phases with
    | none => .halt (.error .outOfRange) s.object
    | some .idle => .next { s with
        phases := s.phases.set process.toNat (.pending i)
        path := .invoked process :: s.path
        reach := s.reach.reached process i
        task := some (.advance (i + 1)) }
    | some _ => .halt (.error (.overlappingInvocation i process)) s.object
  | some (.ret process _) =>
    let linearizeFrom (k : Nat) : Step σ Ret := .next { s with
      reach := s.reach.reached process i
      task := some (.linearize process i k) }
    match process.lookup? s.phases with
    | none => .halt (.error .outOfRange) s.object
    | some .idle => .halt (.error (.unmatchedReturn i process)) s.object
    | some .committed => linearizeFrom (s.phases.length - 1)
    | some (.pending _) => linearizeFrom 0

/-- The returning process has taken effect, so its return is passed. -/
def passReturn (s : Search σ Ret) (returning : ProcessId) (i k : Nat) (before : Phase)
    (object : σ) : Search σ Ret :=
  { s with
    object
    phases := s.phases.set returning.toNat .idle
    path := .linearized returning i k returning before :: s.path
    task := some (.advance (i + 1)) }

/-- Another process takes effect ahead of its own return, and all candidates are tried anew. -/
def commit (s : Search σ Ret) (returning : ProcessId) (i k : Nat) (process : ProcessId)
    (before : Phase) (object : σ) : Search σ Ret :=
  { s with
    object
    phases := s.phases.set process.toNat .committed
    path := .linearized returning i k process before :: s.path
    task := some (.linearize returning i 0) }

/-- The branch goes on with another task after a result was rejected. -/
def rejectThen (s : Search σ Ret) (process : ProcessId) (i : Nat) (ret : Ret) (object : σ)
    (task : Option Task) : Search σ Ret :=
  { s with object, reach := s.reach.rejected process i ret, task }

def linearize (events : Array (Event Op Ret)) (s : Search σ Ret) (returning : ProcessId)
    (i k : Nat) : Step σ Ret :=
  if s.phases.length ≤ k then .next { s with task := none }
  else
    let process := candidate s.phases.length returning k
    let following := Task.linearize returning i (k + 1)
    match process.lookup? s.phases with
    | none => .halt (.error .outOfRange) s.object
    | some .idle =>
      if process = returning then .halt (.error (.unmatchedReturn i returning)) s.object
      else .next { s with task := some following }
    | some .committed =>
      if process = returning then .next (s.passReturn returning i k .committed s.object)
      else .next { s with task := some following }
    | some (.pending invocation) =>
      match attempt events invocation s.object with
      | .matched object =>
        if process = returning then .next (s.passReturn returning i k (.pending invocation) object)
        else .next (s.commit returning i k process (.pending invocation) object)
      | .mismatched ret object =>
        .next (s.rejectThen process i ret object
          (if process = returning then none else some following))
      | .undoFailed cause object => .halt (.error (.undoFailed i cause)) object
      | .absent => .halt (.error .outOfRange) s.object

/-- Takes back the latest choice, the rest of the path being `path`. -/
def backtrack (s : Search σ Ret) (path : List Marker) : Marker → Step σ Ret
  | .invoked process =>
    match process.replace? .idle s.phases with
    | none => .halt (.error .outOfRange) s.object
    | some phases => .next { s with phases, path, task := none }
  | .linearized returning i k process before =>
    match process.replace? before s.phases with
    | none => .halt (.error .outOfRange) s.object
    | some phases =>
      let restored (object : σ) : Step σ Ret :=
        .next { s with object, phases, path, task := some (.linearize returning i (k + 1)) }
      match before with
      | .pending _ =>
        match ReferenceObject.undo s.object with
        | (.ok (), object) => restored object
        | (.error cause, object) => .halt (.error (.undoFailed i cause)) object
      | _ => restored s.object

/-- With no task and nothing to take back, every branch has failed. -/
def step (events : Array (Event Op Ret)) (s : Search σ Ret) : Step σ Ret :=
  match s.task with
  | some (.advance i) => s.advance events i
  | some (.linearize returning i k) => s.linearize events returning i k
  | none =>
    match s.path with
    | [] => .halt (.ok (.notLinearizable s.reach)) s.object
    | marker :: path => s.backtrack path marker

end Linearizability.Search
