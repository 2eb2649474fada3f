import Slipstream.WriteBehind.Impl.Facade
import Slipstream.Persist.Impl.Lane

/-!
This module contains a write-behind range of `scan_chunks`: the scan loop with the two walks of every
scan call over the block source, the stash and its submission to the persist lane, interleaved
enhancements behind a drain, the barrier at the end, and the stop that a host requests meanwhile.
-/

namespace Slipstream
namespace WriteBehind

structure StopCounters where
  stopRequests : Nat
  sessionStopRequests : Nat
  /-- The count that a `begin_session` has read and not stored yet. -/
  beginning : Option Nat
  /-- Requests since the latest `begin_session` that is done read the count. -/
  sinceSession : Nat
  sinceRead : Nat
  deriving DecidableEq, Repr

namespace StopCounters

def new : StopCounters where
  stopRequests := 0
  sessionStopRequests := 0
  beginning := none
  sinceSession := 0
  sinceRead := 0

def requestStopForWalletChange (p : StopCounters) : StopCounters :=
  { p with
    stopRequests := p.stopRequests + 1
    sinceSession := p.sinceSession + 1
    sinceRead := p.sinceRead + 1 }

/-- `begin_session` loads the count. -/
def readCount (p : StopCounters) : StopCounters :=
  { p with beginning := some p.stopRequests, sinceRead := 0 }

/-- `begin_session` stores the count it has loaded. -/
def storeCount (p : StopCounters) (count : Nat) : StopCounters :=
  { p with sessionStopRequests := count, beginning := none, sinceSession := p.sinceRead }

def stopRequested (p : StopCounters) : Bool := p.stopRequests ≠ p.sessionStopRequests

end StopCounters

def nextBlock (fromHeight limit served : Nat)
    : List CompactBlock → Option (CompactBlock × List CompactBlock)
  | [] => none
  | block :: rest =>
    if block.height < fromHeight then nextBlock fromHeight limit served rest
    else if limit ≤ served then none
    else some (block, rest)

/-- How `scan_cached_blocks` fails. -/
inductive ChainError where
  | blockSource
  | continuity (at_ : Nat)
  | other (detail : String)
  deriving DecidableEq, Repr

def mapScanError : ChainError → SlipstreamError
  | .blockSource => .stoppedForWalletChange
  | .continuity at_ => .scanContinuity at_
  | .other detail => .wallet s!"scan_cached_blocks: {detail}"

inductive CallFault where
  | continuity (at_ : Nat)
  | other (detail : String)
  deriving DecidableEq, Repr

def CallFault.error : CallFault → ChainError
  | .continuity at_ => .continuity at_
  | .other detail => .other detail

structure Call (F : Type) extends Scan.ScanCall F where
  chunk : Chunk

structure Walk where
  /-- Pass 2 of `scan_cached_blocks`, which scans what pass 1 has only fed to the runners. -/
  second : Bool
  rest : List CompactBlock
  served : Nat
  scanned : List ScannedBlock

def Walk.start (second : Bool) (chunk : Chunk) : Walk where
  second
  rest := chunk.blocks
  served := 0
  scanned := []

/-- Where `scan_chunks` is. -/
inductive Phase (F : Type) where
  | loop
  | walking (call : Call F) (walk : Walk)
  | scanFailed (error : ChainError)
  | scanned
  | submitting (pending : Bool)
  | draining
  | enhancing
  | reseeding
  | finalDrain
  | returned (result : Except SlipstreamError Unit)

structure RangeState (T F D : Type) where
  stop : StopCounters
  scan : Scan.ScanState T F
  facade : Facade F
  lane : LaneSystem (PendingPersist F)
  db : D
  phase : Phase F
  made : List (LaneCall (PendingPersist F))
  completed : List (Call F)
  inline : D
  refused : Bool

inductive RangeEvent (T E : Type) where
  | requestStop
  | beginSessionReads
  | beginSessionStores
  | beginPass
  | loop (e : Scan.ScanEvent T)
  | startCall
  | serve (scanned : Except CallFault ScannedBlock)
  | walkEnds
  | callFails (fault : CallFault)
  | submit
  | lane (e : LaneEvent)
  | turnEnds (inp : Scan.SubBatchInput T)
  | interleave
  | enhance (effect : E)
  | reseed (faults : ReadFaults)
  | barrier
  | finish (graft : Except SlipstreamError Unit)

section Range

variable {T F D E : Type} [DecidableEq F] (tree : Scan.TreeStateApi T F) (api : WalletDb D E)
variable (cfg : Scan.ScanConfig) (outcome : Nat → CommitOutcome)

def callOf (s : Scan.ScanState T F) : Option (Call F) :=
  match s.current, s.nextState with
  | some (chunk, subStart), some seed =>
    match chunk.startHeight, chunk.endHeight with
    | some _, some chunkEnd =>
      let remaining := chunkEnd + 1 - subStart
      if remaining = 0 then none
      else
        match Scan.fromState tree s seed with
        | .error _ => none
        | .ok fromState =>
          if subStart ≥ 2 ^ 32 then none
          else
            some { chunk, fromHeight := subStart, fromState, limit := Nat.min s.batchLen remaining }
    | _, _ => none
  | _, _ => none

def plainStep (s : Scan.ScanState T F) : Scan.ScanEvent T → Bool
  | .subBatch _ => (callOf tree s).isNone
  | .chunkDone (.error _) => false
  | _ => true

namespace RangeState

variable (s : RangeState T F D)

def callLane (call : LaneCall (PendingPersist F)) : Option (RangeState T F D) :=
  (LaneSystem.step outcome { s.lane with calls := [call] } .call).map fun lane =>
    { s with lane, made := s.made ++ [call] }

def laneResult : Option (Except SlipstreamError Unit) :=
  if s.lane.current.isSome then none else s.lane.results.getLast?.map Prod.snd

def scanStep (e : Scan.ScanEvent T) : Option (RangeState T F D) :=
  (Scan.step tree cfg s.scan e).map fun scan => { s with scan, phase := .loop }

def serve (call : Call F) (walk : Walk) (scanned : Except CallFault ScannedBlock)
    : Option (RangeState T F D) :=
  match nextBlock call.fromHeight call.limit walk.served walk.rest with
  | none => none
  | some (block, rest) =>
    if s.stop.stopRequested then
      some { s with phase := .scanFailed .blockSource, refused := true }
    else
      match scanned with
      | .error fault => some { s with phase := .scanFailed fault.error }
      | .ok scanned =>
        if scanned.height ≠ block.height then none
        else
          let walk := { walk with
            rest
            served := walk.served + 1
            scanned := if walk.second then walk.scanned ++ [scanned] else walk.scanned }
          some { s with phase := .walking call walk }

/-- `scan_cached_blocks` puts its blocks. -/
def putBlocks (call : Call F) (blocks : List ScannedBlock) : RangeState T F D :=
  match s.facade.putBlocks call.fromState blocks with
  | (facade, .error e) => { s with facade, phase := .scanFailed (.other e) }
  | (facade, .ok ()) =>
    { s with
      facade
      phase := .scanned
      completed := s.completed ++ [call]
      inline := api.putBlocks s.inline blocks }

def walkEnds (call : Call F) (walk : Walk) : Option (RangeState T F D) :=
  match nextBlock call.fromHeight call.limit walk.served walk.rest with
  | some _ => none
  | none =>
    if walk.second then some (s.putBlocks api call walk.scanned)
    else some { s with phase := .walking call (.start true call.chunk) }

def submit : Option (RangeState T F D) :=
  let (facade, stash) := s.facade.takeStash
  let s := { s with facade }
  match stash with
  | none => some { s with phase := .submitting false }
  | some pending =>
    { s with phase := .submitting true }.callLane outcome
      (.submit (pending.firstHeight, pending.lastHeight) pending)

def turnEnds (inp : Scan.SubBatchInput T) : Option (RangeState T F D) :=
  match s.phase with
  | .scanFailed e => s.scanStep tree cfg (.subBatch { inp with scan := .error (mapScanError e) })
  | .submitting false =>
    s.scanStep tree cfg (.subBatch { inp with scan := .ok (), submit := .ok () })
  | .submitting true =>
    s.laneResult.bind fun submit =>
      s.scanStep tree cfg (.subBatch { inp with scan := .ok (), submit })
  | _ => none

def drained : Option (RangeState T F D) :=
  s.laneResult.bind fun
    | .error e => s.scanStep tree cfg (.chunkDone (.error e))
    | .ok () => some { s with phase := .enhancing }

def reseed (faults : ReadFaults) : Option (RangeState T F D) :=
  match s.facade.reseedNullifiers api faults s.db with
  | (facade, .error e) =>
    { s with facade }.scanStep tree cfg
      (.chunkDone (.error (.wallet s!"write-behind reseed: {e}")))
  | (facade, .ok ()) => { s with facade }.scanStep tree cfg (.chunkDone (.ok ()))

def laneStep (e : LaneEvent) : Option (RangeState T F D) :=
  match e with
  | .call => none
  | .poll => (s.lane.step outcome .poll).map fun lane => { s with lane }
  | .taskEnds i =>
    (s.lane.step outcome (.taskEnds i)).map fun lane =>
      match s.lane.tasks[i]?, outcome i with
      | some (job, _), .committed => { s with lane, db := api.putBlocks s.db job.blocks }
      | _, _ => { s with lane }

/-- What `scan_chunks` returns: a persist error first. -/
def result (graft : Except SlipstreamError Unit) : Option (Except SlipstreamError Unit) :=
  s.laneResult.bind fun
    | .error e => some (.error e)
    | .ok () =>
      match s.scan.ended with
      | some .finished => some graft
      | some (.failed e) => some (.error e)
      | _ => none

def step : RangeEvent T E → Option (RangeState T F D)
  | .requestStop => some { s with stop := s.stop.requestStopForWalletChange }
  | .beginSessionReads =>
    if s.stop.beginning.isSome then none else some { s with stop := s.stop.readCount }
  | .beginSessionStores => s.stop.beginning.map fun count => { s with stop := s.stop.storeCount count }
  -- The counts are not among what `begin_pass` resets.
  | .beginPass => some s
  | .loop e =>
    match s.phase with
    | .loop => if plainStep tree s.scan e then s.scanStep tree cfg e else none
    | _ => none
  | .startCall =>
    match s.phase with
    | .loop =>
      if s.scan.ended.isSome then none
      else
        (callOf tree s.scan).map fun call =>
          { s with phase := .walking call (.start false call.chunk) }
    | _ => none
  | .serve scanned =>
    match s.phase with
    | .walking call walk => s.serve call walk scanned
    | _ => none
  | .walkEnds =>
    match s.phase with
    | .walking call walk => s.walkEnds api call walk
    | _ => none
  | .callFails fault =>
    match s.phase with
    | .loop =>
      if s.scan.ended.isSome || (callOf tree s.scan).isNone then none
      else some { s with phase := .scanFailed fault.error }
    | .walking call walk =>
      if (nextBlock call.fromHeight call.limit walk.served walk.rest).isSome then none
      else some { s with phase := .scanFailed fault.error }
    | _ => none
  | .submit =>
    match s.phase with
    | .scanned => s.submit outcome
    | _ => none
  | .lane e => s.laneStep api outcome e
  | .turnEnds inp => s.turnEnds tree cfg inp
  | .interleave =>
    match s.phase with
    | .loop =>
      -- After a chunk that is scanned through.
      if (Scan.step tree cfg s.scan (.chunkDone (.ok ()))).isSome then
        { s with phase := .draining }.callLane outcome .drain
      else
        none
    | .draining => s.drained tree cfg
    | _ => none
  | .enhance effect =>
    match s.phase with
    | .enhancing =>
      some { s with
        db := api.enhance s.db effect
        inline := api.enhance s.inline effect
        phase := .reseeding }
    | _ => none
  | .reseed faults =>
    match s.phase with
    | .reseeding => s.reseed tree api cfg faults
    | _ => none
  | .barrier =>
    match s.phase, s.scan.ended with
    | .loop, some .finished | .loop, some (.failed _) =>
      { s with facade := s.facade.takeStash.1, phase := .finalDrain }.callLane outcome .drain
    | _, _ => none
  | .finish graft =>
    match s.phase with
    | .finalDrain => (s.result graft).map fun result => { s with phase := .returned result }
    | _ => none

end RangeState

def rangeMachine (depth : Nat) (chunks : List Chunk)
    : Machine (RangeState T F D) (RangeEvent T E) where
  start s := ∃ faults facade db, Facade.seed api faults db cfg.rangeStart = .ok facade ∧ s = {
    stop := .new
    scan := Scan.init chunks
    facade
    lane := .opened depth []
    db
    phase := .loop
    made := []
    completed := []
    inline := db
    refused := false }
  step s := s.step tree api cfg outcome

end Range

end WriteBehind
end Slipstream
