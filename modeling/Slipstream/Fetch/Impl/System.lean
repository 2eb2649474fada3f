import Slipstream.Fetch.Impl.Worker
import Slipstream.Machine.Basic

/-!
This module contains the whole fetch of `fetch.rs`: the workers behind the ahead gate, the bounded
sub-chunk channel, the reorder stage with its wire detector, the chunk queue and the supervisor.
-/

namespace Slipstream

structure WireDetector where
  arm : WireFailoverArm
  samples : List (Float × Nat)
  cumBytes : Nat
  starveSecs : Nat
  bestWindowMbps : Float

namespace WireDetector

def DETECT_WINDOW_S : Float := 10.0
def DETECT_WARMUP_S : Float := 15.0
def DETECT_WARMUP_BYTES : Nat := 4 * 1024 * 1024

def new (arm : WireFailoverArm) : WireDetector where
  arm
  samples := []
  cumBytes := 0
  starveSecs := 0
  bestWindowMbps := 0.0

def warmedUp (d : WireDetector) (now : Float) : Bool :=
  decide (DETECT_WARMUP_S < now) && decide (DETECT_WARMUP_BYTES < d.cumBytes)

def windowMbps (d : WireDetector) (now : Float) : Option Float :=
  let cut := now - DETECT_WINDOW_S
  if cut ≤ 0.0 then
    none
  else
    let base :=
      match d.samples.reverse.find? fun sample => decide (sample.1 ≤ cut) with
      | some (_, b) => b
      | none => 0
    some (Float.ofNat (d.cumBytes - base) / (1024.0 * 1024.0) / DETECT_WINDOW_S)

def arrival (d : WireDetector) (bytes : Nat) (now : Float) : Except SlipstreamError WireDetector :=
  let d := {
    d with
    starveSecs := 0
    cumBytes := d.cumBytes + bytes
    samples := d.samples ++ [(now, d.cumBytes + bytes)]
  }
  match d.windowMbps now with
  | none => .ok d
  | some rate =>
    let d := if d.bestWindowMbps < rate then { d with bestWindowMbps := rate } else d
    if !d.warmedUp now then
      .ok d
    else
      let relativeFloor := d.arm.collapseFraction * d.bestWindowMbps
      if (rate < relativeFloor ∧ rate < d.arm.painfulMbps) ∨ rate < d.arm.floorMbps then
        .error (.wireCollapse rate (max (min relativeFloor d.arm.painfulMbps) d.arm.floorMbps))
      else
        .ok d

def starveTick (d : WireDetector) (now : Float) : Except SlipstreamError WireDetector :=
  let d := { d with starveSecs := d.starveSecs + 1 }
  if d.warmedUp now && decide (d.arm.stallSecs ≤ d.starveSecs) then
    .error (.wireCollapse 0.0 d.arm.floorMbps)
  else
    .ok d

end WireDetector

inductive ReleasePhase where
  | receiving
  | draining
  | sending (sub : SubChunk)
  | ended

structure Reorder where
  phase : ReleasePhase
  continuity : Continuity
  pending : List SubChunk
  next : Nat × Nat
  emittedChunks : Nat
  plansReleased : Nat
  blocks : Nat
  bytes : Nat
  detector : Option WireDetector

structure ChunkQueue where
  budgetBytes : Nat
  sent : List Chunk
  inFlight : List Nat
  receiverGone : Bool

namespace ChunkQueue

def new (budgetBytes : Nat) : ChunkQueue where
  budgetBytes := max budgetBytes 1
  sent := []
  inFlight := []
  receiverGone := false

def need (q : ChunkQueue) (chunk : Chunk) : Nat :=
  min (max (min chunk.estimatedBytes q.budgetBytes) 1) (2 ^ 32 - 1)

def free (q : ChunkQueue) : Nat := q.budgetBytes - q.inFlight.sum

end ChunkQueue

structure FetchStats where
  blocks : Nat
  bytes : Nat

structure FetchState where
  next : Nat
  floor : Nat
  aheadFree : Nat
  channel : List SubChunk
  workers : List Worker
  reorder : Reorder
  queue : ChunkQueue
  unreleasedFrom : Nat
  result : Option (Except SlipstreamError FetchStats)

inductive FetchEvent where
  | input (worker : Nat) (i : WorkerInput)
  | claim (worker : Nat)
  | gate (worker : Nat)
  | acquire (worker : Nat)
  | repoll (worker : Nat)
  | send (worker : Nat)
  | starve (now : Float)
  | recv (now : Float)
  | drain
  | release
  | releaseEnds
  | join (worker : Nat)
  | panicked (worker : Nat) (detail : String)
  | finish
  | scannerReturns
  | scannerGone

namespace Fetch

def AHEAD_BUDGET_FACTOR : Nat := 8

def aheadCap (plan : FetchPlan) : Nat :=
  max (min (plan.splitBytes * AHEAD_BUDGET_FACTOR) (2 ^ 64 - 1)) 1

def MAX_PERMITS : Nat := 2 ^ 61 - 1

def aheadPermits (plan : FetchPlan) : Nat := min (aheadCap plan) MAX_PERMITS

def init (plan : FetchPlan) (budgetBytes : Nat) : FetchState where
  next := 0
  floor := 0
  aheadFree := aheadPermits plan
  channel := []
  workers := List.replicate plan.workerCount (.connecting none)
  reorder := {
    phase := .receiving
    continuity := Continuity.empty
    pending := []
    next := (0, 0)
    emittedChunks := 0
    plansReleased := 0
    blocks := 0
    bytes := 0
    detector := plan.failover.map WireDetector.new
  }
  queue := ChunkQueue.new budgetBytes
  unreleasedFrom := plan.start
  result := none

def setWorker (s : FetchState) (i : Nat) (w : Worker) : FetchState :=
  { s with workers := s.workers.set i w }

def aheadNeed (plan : FetchPlan) (bytes : Nat) : Nat :=
  min (max (min bytes (aheadCap plan)) 1) (2 ^ 32 - 1)

def claimStep (plan : FetchPlan) (s : FetchState) (i : Nat) : Option FetchState :=
  match s.workers[i]? with
  | some .claiming =>
    let claimed := Worker.claim plan s.next
    some (setWorker { s with next := claimed.1 } i claimed.2)
  | _ => none

/-- `AheadGate::admit`: the floor's plan chunk passes freely, any other one waits for permits. -/
def admitStep (s : FetchState) (i : Nat) : Option FetchState :=
  match s.workers[i]? with
  | some (.admitting a blocks bytes isLast after) =>
    if s.floor ≥ a.cursor.planIndex then
      some (setWorker s i (.sending a (a.subChunk blocks bytes isLast none) after))
    else
      some (setWorker s i (.acquiring a blocks bytes isLast after))
  | _ => none

/--
The semaphore hands out its permits, whatever the floor is by now. Its queue of waiters is not
modelled: any of them may be the one that is served.
-/
def acquireStep (plan : FetchPlan) (s : FetchState) (i : Nat) : Option FetchState :=
  match s.workers[i]? with
  | some (.acquiring a blocks bytes isLast after) =>
    let need := aheadNeed plan bytes
    if need ≤ s.aheadFree then
      some (setWorker { s with aheadFree := s.aheadFree - need } i
        (.sending a (a.subChunk blocks bytes isLast (some need)) after))
    else
      none
  | _ => none

def repollStep (s : FetchState) (i : Nat) : Option FetchState :=
  match s.workers[i]? with
  | some (.acquiring a blocks bytes isLast after) =>
    if s.floor ≥ a.cursor.planIndex then
      some (setWorker s i (.sending a (a.subChunk blocks bytes isLast none) after))
    else
      some s
  | _ => none

def sendStep (plan : FetchPlan) (s : FetchState) (i : Nat) : Option FetchState :=
  match s.workers[i]? with
  | some (.sending a sub after) =>
    if s.result.isSome then
      -- The receiver went away with the fetch: stop quietly.
      some (setWorker s i (.finished (.ok ())))
    else if s.channel.length < plan.workerCount then
      let a := { a with cursor := Worker.advance a.cursor sub }
      some (setWorker { s with channel := s.channel ++ [sub] } i (Worker.resume plan a after))
    else
      none
  | _ => none

def fail (s : FetchState) (e : SlipstreamError) : FetchState := { s with result := some (.error e) }

def starveStep (s : FetchState) (now : Float) : Option FetchState :=
  match s.reorder.phase, s.channel, s.reorder.detector with
  | .receiving, [], some d =>
    match d.starveTick now with
    | .error e => some (fail s e)
    | .ok d => some { s with reorder := { s.reorder with detector := some d } }
  | .receiving, [], none => some s
  | _, _, _ => none

def insertPending (pending : List SubChunk) (sub : SubChunk) : List SubChunk :=
  pending.filter (fun p => (p.planIndex, p.subIndex) ≠ (sub.planIndex, sub.subIndex)) ++ [sub]

def recvStep (s : FetchState) (now : Float) : Option FetchState :=
  match s.reorder.phase, s.channel with
  | .receiving, sub :: rest =>
    let took (d : Option WireDetector) := some {
      s with
      channel := rest
      reorder := {
        s.reorder with
        phase := .draining
        pending := insertPending s.reorder.pending sub
        detector := d
      }
    }
    match s.reorder.detector with
    | none => took none
    | some d =>
      match d.arrival sub.bytes now with
      | .error e => some (fail { s with channel := rest } e)
      | .ok d => took (some d)
  | _, _ => none

def drainStep (s : FetchState) : Option FetchState :=
  match s.reorder.phase with
  | .draining =>
    match s.reorder.pending.find? fun p => (p.planIndex, p.subIndex) = s.reorder.next with
    | none => some { s with reorder := { s.reorder with phase := .receiving } }
    | some sub =>
      let pending := s.reorder.pending.filter fun p => (p.planIndex, p.subIndex) ≠ s.reorder.next
      match s.reorder.continuity.verifyBlocks sub.blocks with
      | .error e => some (fail { s with reorder := { s.reorder with pending } } e)
      | .ok continuity =>
        some { s with reorder := { s.reorder with pending, continuity, phase := .sending sub } }
  | _ => none

def releaseStep (s : FetchState) : Option FetchState :=
  match s.reorder.phase with
  | .sending sub =>
    let chunk := Chunk.fromBlocks s.reorder.emittedChunks sub.blocks
    if s.queue.receiverGone then
      some (fail s .stopped)
    else if s.queue.need chunk ≤ s.queue.free then
      some {
        s with
        queue := {
          s.queue with
          sent := s.queue.sent ++ [chunk]
          inFlight := s.queue.inFlight ++ [s.queue.need chunk]
        }
        unreleasedFrom :=
          match sub.blocks.getLast? with
          | some b => b.height + 1
          | none => s.unreleasedFrom
        aheadFree := s.aheadFree + sub.permit.getD 0
        floor := if sub.isLast then sub.planIndex + 1 else s.floor
        reorder := {
          s.reorder with
          phase := .draining
          blocks := s.reorder.blocks + chunk.blocks.length
          bytes := s.reorder.bytes + chunk.estimatedBytes
          emittedChunks := s.reorder.emittedChunks + 1
          plansReleased :=
            if sub.isLast then s.reorder.plansReleased + 1 else s.reorder.plansReleased
          next :=
            if sub.isLast then (sub.planIndex + 1, 0)
            else (s.reorder.next.1, s.reorder.next.2 + 1)
        }
      }
    else
      none
  | _ => none

def releaseEndsStep (s : FetchState) : Option FetchState :=
  match s.reorder.phase, s.channel with
  | .receiving, [] =>
    if s.workers.all Worker.isFinished then
      some { s with reorder := { s.reorder with phase := .ended } }
    else
      none
  | _, _ => none

def joinStep (plan : FetchPlan) (s : FetchState) (i : Nat) : Option FetchState :=
  match s.workers[i]? with
  | some (.finished (.ok ())) => some (setWorker s i .joined)
  | some (.finished (.error e)) =>
    match plan.failover with
    | some arm => some (fail s (.wireCollapse 0.0 arm.floorMbps))
    | none => some (fail s e)
  | _ => none

def finishStep (plan : FetchPlan) (s : FetchState) : Option FetchState :=
  match s.reorder.phase with
  | .ended =>
    if s.workers.all Worker.isJoined then
      if s.reorder.plansReleased ≠ plan.chunkCount then
        let released := s.reorder.plansReleased
        let chunkCount := plan.chunkCount
        some (fail s (.transport s!"fetch incomplete: released {released}/{chunkCount} plan chunks"))
      else
        some { s with result := some (.ok { blocks := s.reorder.blocks, bytes := s.reorder.bytes }) }
    else
      none
  | _ => none

def stageStep (plan : FetchPlan) (s : FetchState) : FetchEvent → Option FetchState
  | .starve now => starveStep s now
  | .recv now => recvStep s now
  | .drain => drainStep s
  | .release => releaseStep s
  | .releaseEnds => releaseEndsStep s
  | .join i => joinStep plan s i
  | .panicked _ detail => some (fail s (.transport s!"worker panicked: {detail}"))
  | .finish => finishStep plan s
  | _ => none

def step (plan : FetchPlan) (s : FetchState) : FetchEvent → Option FetchState
  | .input i inp =>
    match s.workers[i]? with
    | some w => (w.input plan inp).map (setWorker s i)
    | none => none
  | .claim i => claimStep plan s i
  | .gate i => admitStep s i
  | .acquire i => acquireStep plan s i
  | .repoll i => repollStep s i
  | .send i => sendStep plan s i
  | .scannerReturns =>
    some { s with queue := { s.queue with inFlight := s.queue.inFlight.tail } }
  | .scannerGone => some { s with queue := { s.queue with receiverGone := true } }
  | e => if s.result.isSome then none else stageStep plan s e

def machine (plan : FetchPlan) (budgetBytes : Nat) : Machine FetchState FetchEvent where
  start s := s = init plan budgetBytes
  step := step plan

def released (s : FetchState) : List CompactBlock := s.queue.sent.flatMap Chunk.blocks

end Fetch
end Slipstream
