import Slipstream.Chain.Error

/-!
This module contains the sequential parts of the block fetch: the fetch plan and the byte-budgeted
splitter of `fetch.rs`, the continuity check of `verify.rs` and the chunks of `chunk.rs`.
-/

namespace Slipstream

/-- A block as the server sends it. `encodedLen` stands for its protobuf wire size. -/
structure CompactBlock where
  height : Nat
  hash : List UInt8
  prevHash : List UInt8
  encodedLen : Nat
  height_lt : height < 2 ^ 64
  deriving DecidableEq

structure Continuity where
  lastHash : Option (List UInt8)
  lastHeight : Option Nat

namespace Continuity

def empty : Continuity where
  lastHash := none
  lastHeight := none

/-- The check of one block. Heights above 32 bits are a misbehaving server. -/
def verifyBlock (c : Continuity) (b : CompactBlock) : Except SlipstreamError Continuity :=
  if b.height ≥ 2 ^ 32 then
    .error .misbehavingServer
  else if let some expected := heightMismatch c b then
    .error (.discontinuity b.height s!"expected height {expected}, got {b.height}")
  else if hashMismatch c b then
    .error (.discontinuity b.height "prev-hash mismatch")
  else
    .ok { lastHash := some b.hash, lastHeight := some b.height }
where
  heightMismatch (c : Continuity) (b : CompactBlock) : Option Nat :=
    match c.lastHeight with
    | some h => if b.height ≠ h + 1 then some (h + 1) else none
    | none => none
  hashMismatch (c : Continuity) (b : CompactBlock) : Bool :=
    match c.lastHash with
    | some prev => !b.prevHash.isEmpty && b.prevHash ≠ prev
    | none => false

def verifyBlocks (c : Continuity) (blocks : List CompactBlock)
    : Except SlipstreamError Continuity :=
  match blocks with
  | [] => .ok c
  | b :: bs =>
    match c.verifyBlock b with
    | .error e => .error e
    | .ok c => c.verifyBlocks bs

end Continuity

structure ChunkSplitter where
  splitBytes : Nat
  acc : List CompactBlock
  accBytes : Nat

namespace ChunkSplitter

def new (splitBytes : Nat) : ChunkSplitter where
  splitBytes
  acc := []
  accBytes := 0

def push (sp : ChunkSplitter) (block : CompactBlock)
    : ChunkSplitter × Option (List CompactBlock × Nat) :=
  if !sp.acc.isEmpty && sp.accBytes + block.encodedLen > sp.splitBytes then
    ({ sp with acc := [block], accBytes := block.encodedLen }, some (sp.acc, sp.accBytes))
  else
    ({ sp with acc := sp.acc ++ [block], accBytes := sp.accBytes + block.encodedLen }, none)

def finish (sp : ChunkSplitter) : Option (List CompactBlock × Nat) :=
  if sp.acc.isEmpty then none else some (sp.acc, sp.accBytes)

def takePartial (sp : ChunkSplitter) : ChunkSplitter × Option (List CompactBlock × Nat) :=
  if sp.acc.isEmpty then
    (sp, none)
  else
    ({ sp with acc := [], accBytes := 0 }, some (sp.acc, sp.accBytes))

def lastHeight (sp : ChunkSplitter) : Option Nat := sp.acc.getLast?.map CompactBlock.height

end ChunkSplitter

structure WireFailoverArm where
  stallSecs : Nat
  collapseFraction : Float
  painfulMbps : Float
  floorMbps : Float

/--
The heights are those of a scan range, so they fit in 32 bits; `FetchPlan::new` asserts the other
two conditions.
-/
structure FetchPlan where
  start : Nat
  stop : Nat
  chunkBlocks : Nat
  streams : Nat
  retriesPerChunk : Nat
  splitBytes : Nat
  failover : Option WireFailoverArm
  start_le : start ≤ stop
  stop_lt : stop < 2 ^ 32
  chunkBlocks_pos : 0 < chunkBlocks

namespace FetchPlan

def chunkCount (plan : FetchPlan) : Nat :=
  let span := plan.stop - plan.start + 1
  (span + plan.chunkBlocks - 1) / plan.chunkBlocks

def chunkRange (plan : FetchPlan) (index : Nat) : Nat × Nat :=
  let s := plan.start + index * plan.chunkBlocks
  (s, min (s + plan.chunkBlocks - 1) plan.stop)

def workerCount (plan : FetchPlan) : Nat := min (max plan.streams 1) plan.chunkCount

def claimChunk (plan : FetchPlan) (next : Nat) : Nat × Option (Nat × Nat × Nat) :=
  if next ≥ plan.chunkCount then
    (next + 1, none)
  else
    (next + 1, some (next, plan.chunkRange next))

end FetchPlan

structure Chunk where
  index : Nat
  blocks : List CompactBlock
  estimatedBytes : Nat

namespace Chunk

def fromBlocks (index : Nat) (blocks : List CompactBlock) : Chunk where
  index
  blocks
  estimatedBytes := (blocks.map CompactBlock.encodedLen).sum

def startHeight (c : Chunk) : Option Nat := c.blocks.head?.map CompactBlock.height

def endHeight (c : Chunk) : Option Nat := c.blocks.getLast?.map CompactBlock.height

end Chunk
end Slipstream
