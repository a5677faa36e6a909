import Linearizability.Record

/-!
# Recorders

A recorder notes invocations and returns as they happen and numbers them from one counter. A process
has at most one outstanding call; a return without one is dropped. One kind of recorder keeps a log
for all processes, the other keeps a log for each and merges the logs in the end. Nothing can be
recorded for a process beyond the number that the recorder was built for.
-/

namespace Linearizability

inductive RecorderKind where
  | shared
  | perProcess
  deriving DecidableEq, Inhabited

namespace Recorder

/-- What a recorder keeps of a process. -/
structure Account where
  nextIndex : UInt32 := 0
  outstanding : Option CallId := none

namespace Account

def invoke (a : Account) (process : ProcessId) : CallId × Account :=
  let id := ⟨process, a.nextIndex⟩
  (id, ⟨a.nextIndex + 1, some id⟩)

/-- The account after a return. -/
def answered (a : Account) : Account := { a with outstanding := none }

end Account

structure Shared where
  nextSeq : UInt64 := 0
  accounts : List Account
  log : Array Record := #[]

namespace Shared

def invoke? (r : Shared) (process : ProcessId) (call : Call) : Option (CallId × Shared) := do
  let (id, account) := (← process.lookup? r.accounts).invoke process
  return (id, {
    nextSeq := r.nextSeq + 1
    accounts := r.accounts.set process.toNat account
    log := r.log.push (.invoke r.nextSeq id call) })

def ret? (r : Shared) (process : ProcessId) (value : Value) : Option Shared := do
  let account ← process.lookup? r.accounts
  match account.outstanding with
  | none => return r
  | some id => return {
      nextSeq := r.nextSeq + 1
      accounts := r.accounts.set process.toNat account.answered
      log := r.log.push (.ret r.nextSeq id value) }

def records (r : Shared) : List Record := Record.sorted r.log.toList

end Shared

structure OwnLog where
  account : Account := {}
  records : Array Record := #[]

structure PerProcess where
  nextSeq : UInt64 := 0
  logs : List OwnLog

namespace PerProcess

def invoke? (r : PerProcess) (process : ProcessId) (call : Call) :
    Option (CallId × PerProcess) := do
  let log ← process.lookup? r.logs
  let (id, account) := log.account.invoke process
  return (id, {
    nextSeq := r.nextSeq + 1
    logs := r.logs.set process.toNat ⟨account, log.records.push (.invoke r.nextSeq id call)⟩ })

def ret? (r : PerProcess) (process : ProcessId) (value : Value) : Option PerProcess := do
  let log ← process.lookup? r.logs
  match log.account.outstanding with
  | none => return r
  | some id => return {
      nextSeq := r.nextSeq + 1
      logs := r.logs.set process.toNat
        ⟨log.account.answered, log.records.push (.ret r.nextSeq id value)⟩ }

def records (r : PerProcess) : List Record :=
  Record.sorted (r.logs.flatMap (·.records.toList))

end PerProcess
end Recorder

inductive Recorder where
  | shared (r : Recorder.Shared)
  | perProcess (r : Recorder.PerProcess)

namespace Recorder

def new (kind : RecorderKind) (processes : Nat) : Recorder :=
  match kind with
  | .shared => .shared { accounts := List.replicate processes {} }
  | .perProcess => .perProcess { logs := List.replicate processes {} }

/-- Records that the process is about to make the call, and names the call. -/
def invoke? (process : ProcessId) (call : Call) : Recorder → Option (CallId × Recorder)
  | .shared r => (r.invoke? process call).map fun (id, r) => (id, .shared r)
  | .perProcess r => (r.invoke? process call).map fun (id, r) => (id, .perProcess r)

/-- Records that the outstanding call of the process returned the value. -/
def ret? (process : ProcessId) (value : Value) : Recorder → Option Recorder
  | .shared r => (r.ret? process value).map .shared
  | .perProcess r => (r.ret? process value).map .perProcess

/-- Everything recorded so far, in the order of sequence numbers. -/
def records : Recorder → List Record
  | .shared r => r.records
  | .perProcess r => r.records

end Recorder
end Linearizability
