import Slipstream.Machine.Basic

/-!
This module contains the stops of `ffi_handle.rs` next to the passes they wait for: a host that
settles the passes and drains the wallet writers, passes that hand commits to detached tasks, and
aborts that reach a pass only at its next await.
-/

namespace Slipstream
namespace Handle

structure Pass where
  aborted : Bool
  finished : Bool
  /-- Inside `spawn_next`: it holds the writer gate of a commit that is not spawned yet. -/
  gated : Bool
  deriving DecidableEq, Repr

structure Commit where
  pass : Nat
  finished : Bool
  deriving DecidableEq, Repr

structure Engine where
  passes : List Pass
  commits : List Commit
  walletWriters : Nat
  deriving Repr

inductive EngineEvent where
  /-- `WalletWriterGate::hold` in `spawn_next` -/
  | hold (pass : Nat)
  | spawnCommit (pass : Nat)
  | await (pass : Nat)
  | returns (pass : Nat)
  | panics (pass : Nat)
  /-- The commit is done, or panics; either way its gate drops. -/
  | commitEnds (commit : Nat) (panicked : Bool)
  deriving Repr

namespace Engine

def setPass (s : Engine) (i : Nat) (pass : Pass) : Engine :=
  { s with passes := s.passes.set i pass }

def step (s : Engine) : EngineEvent → Option Engine
  | .hold i =>
    match s.passes[i]? with
    | some pass =>
      if pass.finished || pass.gated then none
      else some { s.setPass i { pass with gated := true } with walletWriters := s.walletWriters + 1 }
    | none => none
  | .spawnCommit i =>
    match s.passes[i]? with
    | some pass =>
      if pass.finished || !pass.gated then none
      else some {
        s.setPass i { pass with gated := false } with
        commits := s.commits ++ [{ pass := i, finished := false }] }
    | none => none
  | .await i =>
    match s.passes[i]? with
    | some pass =>
      -- There is no await between the gate and the spawn.
      if pass.finished || pass.gated then none
      else if pass.aborted then some (s.setPass i { pass with finished := true })
      else some s
    | none => none
  | .returns i =>
    match s.passes[i]? with
    | some pass =>
      if pass.finished || pass.gated then none
      else some (s.setPass i { pass with finished := true })
    | none => none
  | .panics i =>
    match s.passes[i]? with
    | some pass =>
      if pass.finished then none
      else some {
        s.setPass i { pass with finished := true, gated := false } with
        walletWriters := if pass.gated then s.walletWriters - 1 else s.walletWriters }
    | none => none
  | .commitEnds i _ =>
    match s.commits[i]? with
    | some commit =>
      if commit.finished then none
      else some {
        s with
        commits := s.commits.set i { commit with finished := true }
        walletWriters := s.walletWriters - 1 }
    | none => none

def abort (s : Engine) (i : Nat) : Engine :=
  match s.passes[i]? with
  | some pass => s.setPass i { pass with aborted := true }
  | none => s

/-- `AbortHandle::is_finished` -/
def isFinished (s : Engine) (i : Nat) : Bool :=
  match s.passes[i]? with
  | some pass => pass.finished
  | none => true

def spawn (s : Engine) : Engine :=
  { s with passes := s.passes ++ [{ aborted := false, finished := false, gated := false }] }

end Engine

structure StopReport where
  settled : Bool
  drained : Bool
  deriving DecidableEq, Repr

def StopReport.quiescent (report : StopReport) : Bool := report.settled && report.drained

inductive HostCall where
  | stop
  | stopForWalletChange
  /-- `quiesce_before_start`, after which the host spawns a pass. -/
  | start
  deriving DecidableEq, Repr

inductive HostState where
  | free
  /-- In `settle_passes`: the record is looked through up to `index`. -/
  | settling (call : HostCall) (index : Nat)
  /-- In `drain_wallet_writers`. -/
  | draining (call : HostCall) (settled : Bool)
  /-- `quiesce_before_start` has returned. -/
  | starting
  deriving DecidableEq, Repr

structure HandleState where
  engine : Engine
  task : Option Nat
  unfinishedPasses : List Nat
  stopRequests : Nat
  host : HostState
  reports : List StopReport

inductive HandleEvent where
  | engine (e : EngineEvent)
  | call (c : HostCall)
  | look
  | settlePoll
  | settleExpires
  | drainPoll
  | drainExpires
  | spawn

namespace HandleState

def new : HandleState where
  engine := { passes := [], commits := [], walletWriters := 0 }
  task := none
  unfinishedPasses := []
  stopRequests := 0
  host := .free
  reports := []

/-- The first lines of `settle_passes`. -/
def takeTask (s : HandleState) : HandleState :=
  match s.task with
  | some pass =>
    { s with
      engine := s.engine.abort pass
      task := none
      unfinishedPasses := s.unfinishedPasses ++ [pass] }
  | none => s

def makeCall (s : HandleState) (c : HostCall) : HandleState :=
  let s := if c = .stopForWalletChange then { s with stopRequests := s.stopRequests + 1 } else s
  { s.takeTask with host := .settling c 0 }

def report (s : HandleState) (c : HostCall) (settled drained : Bool) : HandleState :=
  { s with
    host := if c = .start then .starting else .free
    reports := s.reports ++ [{ settled, drained }] }

def step (s : HandleState) : HandleEvent → Option HandleState
  | .engine e => (s.engine.step e).map fun engine => { s with engine }
  | .call c =>
    match s.host with
    | .free => some (s.makeCall c)
    | _ => none
  | .look =>
    match s.host with
    | .settling c i =>
      match s.unfinishedPasses[i]? with
      | some pass =>
        if s.engine.isFinished pass then
          some { s with unfinishedPasses := s.unfinishedPasses.eraseIdx i }
        else
          some { s with host := .settling c (i + 1) }
      | none => none
    | _ => none
  | .settlePoll =>
    match s.host with
    | .settling c i =>
      if i < s.unfinishedPasses.length then none
      else if s.unfinishedPasses.isEmpty then some { s with host := .draining c true }
      else some { s with host := .settling c 0 }
    | _ => none
  | .settleExpires =>
    match s.host with
    | .settling c i =>
      if i < s.unfinishedPasses.length || s.unfinishedPasses.isEmpty then none
      else some { s with host := .draining c false }
    | _ => none
  | .drainPoll =>
    match s.host with
    | .draining c settled =>
      if s.engine.walletWriters > 0 then some s else some (s.report c settled true)
    | _ => none
  | .drainExpires =>
    match s.host with
    | .draining c settled =>
      if s.engine.walletWriters > 0 then some (s.report c settled false) else none
    | _ => none
  | .spawn =>
    match s.host with
    | .starting =>
      some {
        s with
        engine := s.engine.spawn
        task := some s.engine.passes.length
        host := .free }
    | _ => none

end HandleState

def machine : Machine HandleState HandleEvent where
  start s := s = .new
  step := HandleState.step

end Handle
end Slipstream
