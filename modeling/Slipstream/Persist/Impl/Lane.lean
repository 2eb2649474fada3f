import Slipstream.Chain.Error
import Slipstream.Machine.Basic

/-!
This module contains the write-behind lane (`PersistLane` in `persist.rs`): a queue of commit jobs of
which one at a time runs on a blocking thread, and a caller that submits jobs and drains the lane.
-/

namespace Slipstream

variable {J : Type}

inductive CommitOutcome where
  | committed
  | error (detail : String)
  | panic (detail : String)
  deriving DecidableEq, Repr

structure PersistLane (J : Type) where
  connection : Bool
  inFlight : Bool
  inFlightSpan : Nat × Nat
  queue : List ((Nat × Nat) × J)
  depth : Nat

namespace PersistLane

/-- `PersistLane::open` -/
def opened (depth : Nat) : PersistLane J where
  connection := true
  inFlight := false
  inFlightSpan := (0, 0)
  queue := []
  depth := max depth 1

variable (lane : PersistLane J)

def awaitInFlight (ended : CommitOutcome) : PersistLane J × Except SlipstreamError Unit :=
  let (firstHeight, lastHeight) := lane.inFlightSpan
  let lane := { lane with inFlight := false }
  match ended with
  | .panic e =>
    (lane, .error (.wallet s!"write-behind persist task died (panic/cancel): {e}"))
  | .error e =>
    ({ lane with connection := true },
      .error (.wallet s!"write-behind deferred put_blocks [{firstHeight}..={lastHeight}]: {e}"))
  | .committed => ({ lane with connection := true }, .ok ())

def pendingCount : Nat := (if lane.inFlight then 1 else 0) + lane.queue.length

def spawnNext : PersistLane J × Except SlipstreamError (Option J) :=
  if lane.inFlight then
    (lane, .ok none)
  else
    match lane.queue with
    | [] => (lane, .ok none)
    | (span, job) :: queue =>
      if lane.connection then
        ({ lane with connection := false, inFlight := true, inFlightSpan := span, queue }, .ok (some job))
      else
        ({ lane with queue },
          .error (.wallet
            "write-behind persist lane unusable (connection lost by an earlier failure)"))

end PersistLane

inductive LaneCall (J : Type) where
  | submit (span : Nat × Nat) (job : J)
  | drain

structure LaneSystem (J : Type) where
  lane : PersistLane J
  tasks : List (J × Option CommitOutcome)
  calls : List (LaneCall J)
  current : Option (LaneCall J)
  submitted : List J
  results : List (LaneCall J × Except SlipstreamError Unit)

namespace LaneSystem

def opened (depth : Nat) (calls : List (LaneCall J)) : LaneSystem J where
  lane := .opened depth
  tasks := []
  calls
  current := none
  submitted := []
  results := []

variable (s : LaneSystem J)

def failed : Bool := s.results.any fun r => !r.2.toBool

def started : List J := s.tasks.map Prod.fst

def committed : List J := (s.tasks.filter fun t => decide (t.2 = some .committed)).map Prod.fst

def returns (call : LaneCall J) (result : Except SlipstreamError Unit) : LaneSystem J :=
  { s with current := none, results := s.results ++ [(call, result)] }

def spawn : LaneSystem J × Except SlipstreamError Unit :=
  let (lane, spawned) := s.lane.spawnNext
  match spawned with
  | .ok none => ({ s with lane }, .ok ())
  | .ok (some job) => ({ s with lane, tasks := s.tasks ++ [(job, none)] }, .ok ())
  | .error e => ({ s with lane }, .error e)

def allowed : LaneCall J → Nat
  | .submit _ _ => s.lane.depth
  | .drain => 0

def goOn (call : LaneCall J) : LaneSystem J :=
  match s.spawn with
  | (s, .ok ()) => s
  | (s, .error e) => s.returns call (.error e)

/-- One round of the loop in `submit_job` and `drain`; `none` while the awaited task runs. -/
def poll (call : LaneCall J) : Option (LaneSystem J) :=
  if s.lane.pendingCount ≤ s.allowed call then
    some (s.returns call (.ok ()))
  else if s.lane.inFlight then
    match s.tasks.getLast? with
    | some (_, some ended) =>
      match s.lane.awaitInFlight ended with
      | (lane, .ok ()) => some ({ s with lane }.goOn call)
      | (lane, .error e) =>
        some ({ s with lane := { lane with queue := [] } }.returns call (.error e))
    | _ => none
  else
    some (s.goOn call)

def push (span : Nat × Nat) (job : J) : LaneSystem J :=
  { s with
    lane := { s.lane with queue := s.lane.queue ++ [(span, job)] }
    submitted := s.submitted ++ [job]
    current := some (.submit span job) }

/-- `submit_job` up to its loop. -/
def submit (span : Nat × Nat) (job : J) : LaneSystem J :=
  (s.push span job).goOn (.submit span job)

end LaneSystem

inductive LaneEvent where
  | call
  | poll
  | taskEnds (i : Nat)

def LaneSystem.step (outcome : Nat → CommitOutcome) (s : LaneSystem J)
    : LaneEvent → Option (LaneSystem J)
  | .call =>
    match s.current, s.calls with
    | none, .submit span job :: calls =>
      let s := { s with calls }
      -- After an error the caller makes no further submit.
      some (if s.failed then s else s.submit span job)
    | none, .drain :: calls => some { s with calls, current := some .drain }
    | _, _ => none
  | .poll => s.current.bind s.poll
  | .taskEnds i =>
    match s.tasks[i]? with
    | some (job, none) => some { s with tasks := s.tasks.set i (job, some (outcome i)) }
    | _ => none

def laneMachine (depth : Nat) (outcome : Nat → CommitOutcome) (calls : List (LaneCall J))
    : Machine (LaneSystem J) LaneEvent where
  start s := s = .opened depth calls
  step := LaneSystem.step outcome

end Slipstream
