import Slipstream.Chain.Error
import Slipstream.Handle.Ring

/-!
This module contains the session of `session.rs`: the retries of a pass, the initial pass that is
retried and revived, and the loop that follows the tip. A session runs from await to await; a step
is what it does between two of them.
-/

namespace Slipstream

def SlipstreamError.isStopForWalletChange : SlipstreamError → Bool
  | .stoppedForWalletChange => true
  | _ => false

namespace Session

inductive SyncState where
  | idle
  | syncing
  | error (code : UInt8)
  | done
  deriving DecidableEq, Repr

structure SyncOutcome where
  chainTip : Nat
  /-- `enhance.txs_stored` -/
  txsStored : UInt64
  deriving DecidableEq, Repr

abbrev PassResult := Except SlipstreamError SyncOutcome

def fromSecs (secs : Nat) : Nat := secs * 1000000000

def FOLLOW_POLL_MIN_SECS : Nat := 10

def FOLLOW_POLL_MAX_SECS : Nat := 30

def MEMPOOL_FAILURE_CAP : Nat := 5

def MEMPOOL_RETRY_FIRST : Nat := fromSecs 60

def MEMPOOL_RETRY_MAX : Nat := fromSecs 600

def PASS_RETRY_MAX : Nat := 2

structure MempoolGate where
  failures : Nat
  retry : Option (Nat × Nat)
  deriving DecidableEq, Repr

namespace MempoolGate

def default : MempoolGate where
  failures := 0
  retry := none

def shouldTry (gate : MempoolGate) (now : Nat) : Bool :=
  match gate.retry with
  | none => true
  | some (at_, _) => at_ ≤ now

def onOk (_ : MempoolGate) : MempoolGate := default

def onErr (gate : MempoolGate) (now : Nat) : MempoolGate :=
  let failures := min (gate.failures + 1) (2 ^ 32 - 1)
  match gate.retry with
  | some (_, wait) =>
    let retryIn := min (wait * 2) MEMPOOL_RETRY_MAX
    { failures, retry := some (now + retryIn, retryIn) }
  | none =>
    if failures ≥ MEMPOOL_FAILURE_CAP then
      { failures, retry := some (now + MEMPOOL_RETRY_FIRST, MEMPOOL_RETRY_FIRST) }
    else
      { failures, retry := none }

end MempoolGate

def syncRetryBackoff (attempt : Nat) : Nat :=
  let shift := min (attempt - 1) 4
  fromSecs (min (3 <<< shift) 30)

def followPollJitter (offset : Nat) : Nat :=
  fromSecs (FOLLOW_POLL_MIN_SECS + min offset (FOLLOW_POLL_MAX_SECS - FOLLOW_POLL_MIN_SECS))

def passRetrySleep : Nat → Nat
  | 1 => fromSecs 5
  | _ => fromSecs 15

def wedgeRevivalBackoff : Nat → Nat
  | 1 => fromSecs 15
  | 2 => fromSecs 30
  | 3 => fromSecs 60
  | 4 => fromSecs 120
  | _ => fromSecs 300

def shouldRetry (err : SlipstreamError) (attempt : Nat) : Option Nat :=
  if err.isTransient && attempt ≤ PASS_RETRY_MAX then some (passRetrySleep attempt) else none

inductive FailedPassAction where
  | returnStop
  | retryAfter (sleep : Nat)
  | giveUp
  deriving DecidableEq, Repr

def FailedPassAction.countsAsFailedAttempt : FailedPassAction → Bool
  | .returnStop => false
  | _ => true

def failedPassAction (err : SlipstreamError) (attempt : Nat) : FailedPassAction :=
  if err.isStopForWalletChange then .returnStop
  else
    match shouldRetry err attempt with
    | some sleep => .retryAfter sleep
    | none => .giveUp

inductive InitialPassFailure where
  | endQuietly
  | retryTransient
  | revive
  deriving DecidableEq, Repr

def initialPassFailure (err : SlipstreamError) : InitialPassFailure :=
  if err.isStopForWalletChange then .endQuietly
  else if err.isTransient then .retryTransient
  else .revive

inductive CatchUpFailure where
  | endQuietly
  | staySynced
  deriving DecidableEq, Repr

def catchUpFailure (err : SlipstreamError) : CatchUpFailure :=
  if err.isStopForWalletChange then .endQuietly else .staySynced

def shouldResync (lastSyncedTip observedTip : Nat) : Bool := observedTip > lastSyncedTip

/-- The two callers of `run_pass_with_retry`. -/
inductive PassCall where
  | initial
  | catchUp
  deriving DecidableEq, Repr

inductive Entry where
  /-- `Progress::begin_session` -/
  | beginSession
  | setState (state : SyncState)
  | pushEvent (event : Handle.FfiSlipstreamEvent)
  | noteAttemptFailed
  | sleep (duration : Nat)
  /-- `sync_once` returned. -/
  | attempt (call : PassCall) (result : PassResult)
  /-- `run_pass_with_retry` returned. -/
  | callEnds (call : PassCall) (result : PassResult)
  /-- `probe_tip` returned. -/
  | probe (result : Except SlipstreamError Nat)

structure Answers where
  bootstrap : Except SlipstreamError Unit
  pass : PassResult
  now : Nat
  mempool : Except SlipstreamError Unit
  failedAt : Nat
  jitter : Nat
  tip : Except SlipstreamError Nat

/-- The local variables of `follow_loop`. -/
structure Follow where
  lastTip : Nat
  consecutiveFailures : Nat
  mempool : MempoolGate
  deriving DecidableEq, Repr

inductive Phase where
  | locking
  | bootstrapping (failures : Nat)
  | initial (attempt initialFailures revivals : Nat)
  | backingOff (initialFailures revivals : Nat)
  | mempool (follow : Follow)
  | probing (follow : Follow)
  | catchUp (follow : Follow) (attempt : Nat)
  | returned
  deriving DecidableEq, Repr

/-- `run_pass_with_retry` from one `sync_once` to the next, or to its return. -/
def afterAttempt (call : PassCall) (attempt : Nat) (result : PassResult)
    : List Entry × Option PassResult :=
  match result with
  | .ok outcome => ([.attempt call result], some (.ok outcome))
  | .error err =>
    let action := failedPassAction err (attempt + 1)
    let counted := if action.countsAsFailedAttempt then [.noteAttemptFailed] else []
    match action with
    | .returnStop => (.attempt call result :: counted, some (.error err))
    | .retryAfter sleep => (.attempt call result :: counted ++ [.sleep sleep], none)
    | .giveUp => (.attempt call result :: counted, some (.error err))

def afterInitial (initialFailures revivals : Nat) : PassResult → List Entry × Phase
  | .ok outcome =>
    ([.setState .done, .pushEvent { tag := 3, value := outcome.txsStored }],
      .mempool { lastTip := outcome.chainTip, consecutiveFailures := 0, mempool := .default })
  | .error err =>
    match initialPassFailure err with
    | .endQuietly => ([.setState .idle], .returned)
    | .retryTransient =>
      ([.setState .idle, .sleep (syncRetryBackoff (initialFailures + 1))],
        .backingOff (initialFailures + 1) revivals)
    | .revive =>
      ([.setState (.error 1), .pushEvent { tag := 4, value := 1 },
          .sleep (wedgeRevivalBackoff (revivals + 1))],
        .backingOff initialFailures (revivals + 1))

def afterCatchUp (follow : Follow) : PassResult → List Entry × Phase
  | .ok outcome =>
    ([.setState .done, .pushEvent { tag := 3, value := outcome.txsStored }],
      .mempool { follow with lastTip := outcome.chainTip, consecutiveFailures := 0 })
  | .error err =>
    match catchUpFailure err with
    | .endQuietly => ([.setState .idle], .returned)
    | .staySynced =>
      ([.setState .done],
        .mempool { follow with consecutiveFailures := follow.consecutiveFailures + 1 })

def Phase.step (tor : Bool) (answers : Answers) : Phase → List Entry × Phase
  | .locking =>
    let started := [.beginSession, .pushEvent { tag := 1, value := 0 }]
    if tor then (started, .bootstrapping 0) else (started ++ [.setState .syncing], .initial 0 0 0)
  | .bootstrapping failures =>
    match answers.bootstrap with
    | .ok _ => ([.setState .syncing], .initial 0 0 0)
    | .error _ =>
      ([.setState .idle, .sleep (syncRetryBackoff (failures + 1))], .bootstrapping (failures + 1))
  | .initial attempt initialFailures revivals =>
    match afterAttempt .initial attempt answers.pass with
    | (done, none) => (done, .initial (attempt + 1) initialFailures revivals)
    | (done, some result) =>
      let (more, next) := afterInitial initialFailures revivals result
      (done ++ .callEnds .initial result :: more, next)
  | .backingOff initialFailures revivals =>
    ([.setState .syncing], .initial 0 initialFailures revivals)
  | .mempool follow =>
    if follow.mempool.shouldTry answers.now then
      match answers.mempool with
      | .ok _ => ([], .probing { follow with mempool := follow.mempool.onOk })
      | .error _ =>
        ([.sleep (followPollJitter answers.jitter)],
          .probing { follow with mempool := follow.mempool.onErr answers.failedAt })
    else
      ([.sleep (followPollJitter answers.jitter)], .probing follow)
  | .probing follow =>
    match answers.tip with
    | .ok observed =>
      let follow := { follow with consecutiveFailures := 0 }
      if shouldResync follow.lastTip observed then
        ([.probe answers.tip, .setState .syncing], .catchUp follow 0)
      else
        ([.probe answers.tip], .mempool follow)
    | .error _ =>
      ([.probe answers.tip, .noteAttemptFailed],
        .mempool { follow with consecutiveFailures := follow.consecutiveFailures + 1 })
  | .catchUp follow attempt =>
    match afterAttempt .catchUp attempt answers.pass with
    | (done, none) => (done, .catchUp follow (attempt + 1))
    | (done, some result) =>
      let (more, next) := afterCatchUp follow result
      (done ++ .callEnds .catchUp result :: more, next)
  | .returned => ([], .returned)

def stateAfter (state : SyncState) : List Entry → SyncState
  | [] => state
  | .setState state :: entries => stateAfter state entries
  | _ :: entries => stateAfter state entries

structure SessionState where
  phase : Phase
  /-- `SessionReporter::state` -/
  state : SyncState
  trace : List Entry

def SessionState.step (tor : Bool) (s : SessionState) (answers : Answers) : SessionState :=
  let (entries, phase) := s.phase.step tor answers
  { phase, state := stateAfter s.state entries, trace := s.trace ++ entries }

/-- `run_session`, up to its `n`-th await, when its awaits return `answers`. -/
def runSession (tor : Bool) (state : SyncState) (answers : Nat → Answers) : Nat → SessionState
  | 0 => { phase := .locking, state, trace := [] }
  | n + 1 => (runSession tor state answers n).step tor (answers n)

end Session
end Slipstream
