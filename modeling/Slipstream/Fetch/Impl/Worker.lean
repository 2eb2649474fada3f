import Slipstream.Fetch.Impl.Stream

/-!
This module contains the fetch worker of `fetch.rs` as a state machine: it claims plan chunks,
streams each one into sub-chunks and retries a failed attempt from the resume height.
-/

namespace Slipstream

structure SubChunk where
  planIndex : Nat
  subIndex : Nat
  isLast : Bool
  bytes : Nat
  blocks : List CompactBlock
  permit : Option Nat

structure PlanChunkCursor where
  planIndex : Nat
  stop : Nat
  resumeFrom : Nat
  nextSubIndex : Nat
  emittedThisAttempt : Bool

structure Attempt where
  cursor : PlanChunkCursor
  attempt : Nat
  ctx : String

def Attempt.subChunk (a : Attempt) (blocks : List CompactBlock) (bytes : Nat) (isLast : Bool)
    (permit : Option Nat) : SubChunk where
  planIndex := a.cursor.planIndex
  subIndex := a.cursor.nextSubIndex
  isLast
  bytes
  blocks
  permit

/-- What `pump_block_stream` does once a sub-chunk is handed over. -/
inductive AfterEmit where
  | stream (splitter : ChunkSplitter)
  | complete
  | fail (detail : String)

inductive Worker where
  | connecting (resume : Option (PlanChunkCursor × Nat))
  | claiming
  | opening (cursor : PlanChunkCursor) (attempt : Nat)
  | streaming (a : Attempt) (splitter : ChunkSplitter)
  | admitting (a : Attempt) (blocks : List CompactBlock) (bytes : Nat) (isLast : Bool)
    (after : AfterEmit)
  | acquiring (a : Attempt) (blocks : List CompactBlock) (bytes : Nat) (isLast : Bool)
    (after : AfterEmit)
  | sending (a : Attempt) (sub : SubChunk) (after : AfterEmit)
  | finished (result : Except SlipstreamError Unit)
  | joined

inductive WorkerInput where
  | connected
  | connectFailed (error : SlipstreamError)
  | opened
  | openFailed (detail : String)
  | block (b : CompactBlock) (deadline : Bool)
  | status (detail : String)
  | idleTimeout
  | endOfStream

def STREAM_IDLE_TIMEOUT_SECS : Nat := 30

namespace Worker

def isFinished : Worker → Bool
  | .finished _ => true
  | .joined => true
  | _ => false

def isJoined : Worker → Bool
  | .joined => true
  | _ => false

def beginAttempt (cursor : PlanChunkCursor) (attempt : Nat) : Worker :=
  .opening { cursor with emittedThisAttempt := false } (attempt + 1)

def retry (plan : FetchPlan) (cursor : PlanChunkCursor) (attempt : Nat) (detail : String)
    : Worker :=
  let attempt := if cursor.emittedThisAttempt then 0 else attempt
  if attempt > plan.retriesPerChunk then
    let index := cursor.planIndex
    let s := (plan.chunkRange index).1
    let e := (plan.chunkRange index).2
    .finished <| .error <| .transport
      s!"plan chunk {index} ({s}..{e}) failed after {attempt} zero-progress attempts: transport: {detail}"
  else
    .connecting (some (cursor, attempt))

def flushThenFail (plan : FetchPlan) (a : Attempt) (tail : Option (List CompactBlock × Nat))
    (detail : String) : Worker :=
  match tail with
  | some (blocks, bytes) =>
    if blocks.getLast?.map CompactBlock.height ≠ some a.cursor.stop then
      .admitting a blocks bytes false (.fail detail)
    else
      retry plan a.cursor a.attempt detail
  | none => retry plan a.cursor a.attempt detail

def endOfStream (plan : FetchPlan) (a : Attempt) (splitter : ChunkSplitter) : Worker :=
  let short (got : Nat) :=
    flushThenFail plan a splitter.finish
      s!"{a.ctx}: stream ended short at {got}, expected {a.cursor.stop}"
  match splitter.finish with
  | some (blocks, bytes) =>
    if blocks.getLast?.map CompactBlock.height = some a.cursor.stop then
      .admitting a blocks bytes true .complete
    else
      short ((blocks.getLast?.map CompactBlock.height).getD (a.cursor.resumeFrom - 1))
  | none => short (a.cursor.resumeFrom - 1)

def onBlock (a : Attempt) (splitter : ChunkSplitter) (b : CompactBlock) (deadline : Bool)
    : Worker :=
  match splitter.push b with
  | (splitter, some (blocks, bytes)) => .admitting a blocks bytes false (.stream splitter)
  | (splitter, none) =>
    -- The plan chunk's final block is only ever flushed by the clean end.
    if deadline && splitter.lastHeight ≠ some a.cursor.stop then
      match splitter.takePartial with
      | (splitter, some (blocks, bytes)) => .admitting a blocks bytes false (.stream splitter)
      | (splitter, none) => .streaming a splitter
    else
      .streaming a splitter

def streamContext (cursor : PlanChunkCursor) : String :=
  s!"block stream {cursor.resumeFrom}..{cursor.stop} (plan chunk {cursor.planIndex})"

def input (plan : FetchPlan) (w : Worker) (i : WorkerInput) : Option Worker :=
  match w, i with
  | .connecting none, .connected => some .claiming
  | .connecting (some (cursor, attempt)), .connected => some (beginAttempt cursor attempt)
  | .connecting _, .connectFailed error => some (.finished (.error error))
  | .opening cursor attempt, .opened =>
    some (.streaming { cursor, attempt, ctx := streamContext cursor }
      (ChunkSplitter.new plan.splitBytes))
  | .opening cursor attempt, .openFailed detail =>
    some (retry plan cursor attempt
      s!"get_block_range {cursor.resumeFrom}..{cursor.stop}: {detail}")
  | .streaming a splitter, .block b deadline => some (onBlock a splitter b deadline)
  | .streaming a splitter, .status detail =>
    some (flushThenFail plan a splitter.finish s!"{a.ctx}: {detail}")
  | .streaming a splitter, .idleTimeout =>
    some (flushThenFail plan a splitter.finish
      s!"{a.ctx}: stream idle timeout ({STREAM_IDLE_TIMEOUT_SECS}s without a message)")
  | .streaming a splitter, .endOfStream => some (endOfStream plan a splitter)
  | _, _ => none

def claim (plan : FetchPlan) (next : Nat) : Nat × Worker :=
  match plan.claimChunk next with
  | (next, none) => (next, .finished (.ok ()))
  | (next, some (index, s, e)) =>
    (next, beginAttempt {
      planIndex := index
      stop := e
      resumeFrom := s
      nextSubIndex := 0
      emittedThisAttempt := false
    } 0)

def advance (cursor : PlanChunkCursor) (sub : SubChunk) : PlanChunkCursor where
  planIndex := cursor.planIndex
  stop := cursor.stop
  resumeFrom :=
    match sub.blocks.getLast? with
    | some b => (b.height + 1) % 2 ^ 64
    | none => cursor.resumeFrom
  nextSubIndex := cursor.nextSubIndex + 1
  emittedThisAttempt := true

def resume (plan : FetchPlan) (a : Attempt) : AfterEmit → Worker
  | .stream splitter => .streaming a splitter
  | .complete => .claiming
  | .fail detail => retry plan a.cursor a.attempt detail

end Worker
end Slipstream
