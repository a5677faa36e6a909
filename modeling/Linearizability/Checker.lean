import Linearizability.Trial
import Linearizability.Report
import Linearizability.Tester

/-!
# Checkers

Records are adapted to a vocabulary and judged by a tester. A checker judges captures, each with a
fresh reference object, and can carry out the trial that makes the capture.
-/

namespace Linearizability

namespace Tester

variable {σ Op Ret : Type} [ReferenceObject σ Op Ret] [DecidableEq Ret]

/-- What is reported of these records when the search of their events came to a verdict. -/
def report (t : Tester σ) (adaptation : Adaptation Op Ret) (records : List Record)
    (verdict : Verdict Ret) : Report Op Ret where
  verdict
  events := adaptation.events
  malformed := adaptation.malformed
  counts := {
    operations := .ofNat (records.countP Record.isInvocation)
    events := .ofNat adaptation.events.length
    ignored := .ofNat adaptation.ignored
    malformed := .ofNat adaptation.malformed.length
    steps := .ofNat t.steps }

def checkRecords (t : Tester σ) (vocabulary : Vocabulary Op Ret) (records : List Record) :
    Except Search.Fault (Report Op Ret) × Tester σ :=
  let adaptation := Adaptation.ofRecords vocabulary records
  let (outcome, t) := t.judge adaptation.events
  (outcome.map (t.report adaptation records), t)

/-- Nothing is reported if the search does not begin. -/
def checkRecords? (t : Tester σ) (machine : Machine) (vocabulary : Vocabulary Op Ret)
    (records : List Record) : Option (Except Search.Fault (Report Op Ret) × Tester σ) :=
  let adaptation := Adaptation.ofRecords vocabulary records
  (t.judge? machine adaptation.events).map fun (outcome, t) =>
    (outcome.map (t.report adaptation records), t)

end Tester

inductive CheckFailure where
  | trial (cause : WorkloadError)
  | search (cause : Search.Fault)
  deriving DecidableEq

namespace CheckFailure

instance : ToString CheckFailure where
  toString
    | .trial _ => "capture failed"
    | .search _ => "search failed"

def cause : CheckFailure → String
  | .trial e => toString e
  | .search e => toString e

end CheckFailure

/-- How captures are checked: the reference object is fresh for every check. -/
structure Checker (σ Op Ret : Type) where
  vocabulary : Vocabulary Op Ret
  fresh : σ
  limits : Search.Limits σ := {}

namespace Checker

variable {σ Op Ret : Type} [ReferenceObject σ Op Ret] [DecidableEq Ret]

/-- Nothing is reported if the search does not begin. -/
def check? (c : Checker σ Op Ret) (machine : Machine) (capture : Capture) :
    Option (Except CheckFailure (Report Op Ret)) :=
  let t : Tester σ := { object := c.fresh, limits := c.limits }
  (t.checkRecords? machine c.vocabulary capture.records).map fun (outcome, _) =>
    match outcome with
    | .error e => .error (.search e)
    | .ok report => .ok { report with
        captureElapsed := capture.elapsed
        counts := { report.counts with
          stragglers := .ofNat capture.stragglers
          panicked := .ofNat capture.panicked } }

def run? {τ : Type} (c : Checker σ Op Ret) (machine : Machine) (trial : Trial τ)
    (entropy : Nat → ChaCha.Key) (schedule : List Agenda → List ProcessId) (workload : Workload) :
    Option (Except CheckFailure (Report Op Ret)) × Trial τ :=
  match trial.run entropy schedule workload with
  | (.error e, trial) => (some (.error (.trial e)), trial)
  | (.ok capture, trial) => (c.check? machine capture, trial)

end Checker
end Linearizability
