import Slipstream.Persist.Impl.Plan
import Slipstream.Persist.Impl.Store
import Mathlib.Order.Interval.Finset.Nat

/-!
This module contains `sparse_put_blocks`: the plan of the grafted pools, the tree stage of the three
pools in memory, and the flush of what it changed.
-/

namespace Slipstream

variable {H B Shard : Type}

structure PoolBlock (H : Type) where
  commitments : List (H × Retention)
  finalTreeSize : Nat
  notePositions : List Nat

structure ScannedBlock (H : Type) where
  height : Nat
  pool : ShieldedPool → PoolBlock H
  checkpointed : ∀ p i c, (pool p).commitments[i]? = some c →
    c.2.checkpointId = if i + 1 = (pool p).commitments.length then some height else none

structure FromState (H : Type) where
  blockHeight : Nat
  finalTree : ShieldedPool → Frontier H

structure PutBlocks (H : Type) where
  fromState : FromState H
  blocks : List (ScannedBlock H)
  chainTip : Option Nat

inductive PersistError where
  | nonSequentialBlocks (prevHeight blockHeight : Nat)
  | corruptedData (detail : String)
  | db (detail : String)
  deriving DecidableEq, Repr

/-- `map_sparse_err` -/
def mapSparseErr (r : Except String α) : Except PersistError α :=
  r.mapError fun e => .corruptedData s!"sparse tree: {e}"

def ShieldedPool.all : List ShieldedPool := [.sapling, .orchard, .ironwood]

def ShieldedPool.name : ShieldedPool → String
  | .sapling => "sapling"
  | .orchard => "orchard"
  | .ironwood => "ironwood"

namespace PutBlocks

variable (call : PutBlocks H)

def stream (pool : ShieldedPool) : List (H × Retention) :=
  call.blocks.flatMap fun b => (b.pool pool).commitments

def notePositions (pool : ShieldedPool) : List Nat :=
  call.blocks.flatMap fun b => (b.pool pool).notePositions

def frontier (pool : ShieldedPool) : Frontier H := call.fromState.finalTree pool

def continues (initial : ScannedBlock H) : Bool :=
  call.fromState.blockHeight + 1 == initial.height
    && ShieldedPool.all.all fun p => (call.frontier p).treeSize
        + (initial.pool p).commitments.length == (initial.pool p).finalTreeSize

def isDeep : Bool := call.blocks.getLast?.any fun last => isDeepHistory call.chainTip last.height

def doomedStream (policy : Option AnchorRetention) (pool : ShieldedPool) : List (H × Retention) :=
  if call.isDeep then
    (downgradeDoomedCheckpoints (call.stream pool) DOOM_ALL policy).1
  else
    call.stream pool

def planInputs (policy : Option AnchorRetention) (verifySample : Nat) (pool : ShieldedPool)
    (storeHasShard : Nat → Bool) (treeRefuses : List (AccRow H) → Option String)
    (serverRoot : Nat → Except String (Option H)) (readError : Option String) : PlanInputs H where
  verifySample
  startPosition := (call.frontier pool).treeSize
  frontierLeaf := (call.frontier pool).value.map fun f => (f.position, f.leaf)
  stream :=
    if call.isDeep then
      doomDeepHistoryStream (call.stream pool) policy
    else
      call.stream pool
  notePositions := call.notePositions pool
  storeHasShard
  treeRefuses
  serverRoot
  anchorRetention := policy
  readError

end PutBlocks

def batchEnsureHeights (keys : ShieldedPool → Finset Nat) (policy : Option AnchorRetention)
    (first last : Nat) (pool : ShieldedPool) : Finset Nat :=
  let others := ShieldedPool.all.filter (· ≠ pool)
  others.foldl (fun s p => s ∪ keys p) ∅
    ∪ (Finset.Icc first last).filter (shouldRetainAnchor policy · = true)

def ensureCheckpoints (ensure : Finset Nat) (existing : OrdMap Nat Nat)
    (frontier : Frontier H) : List (Nat × Checkpoint) :=
  ((ensure \ existing.keys).sort (· ≤ ·)).map fun h =>
    match existing.floor? h with
    | some position => (h, .atPosition position)
    | none => (h, .ofSize frontier.treeSize)

def buildSubtrees (api : ShardTreeApi H Shard) (start : Nat) (rows : List (H × Retention))
    : List (Subtree H) :=
  if rows.isEmpty then [] else go start (api.cut start rows)
where
  go (start : Nat) : List (List (H × Retention)) → List (Subtree H)
    | [] => []
    | piece :: rest => { start, rows := piece } :: go (start + piece.length) rest

structure Lane (H : Type) where
  pool : ShieldedPool
  frontierId : Nat
  frontier : Frontier H
  commitments : List (H × Retention)
  missing : List (Nat × Checkpoint)
  plan : Option (PoolPlan H)

namespace Lane

variable (lane : Lane H)

def cpPos : OrdMap Nat Nat :=
  streamCheckpointPositions lane.frontier.treeSize lane.commitments

def cutoff (store : SparseShardStore Shard) : Option Nat :=
  doomedCheckpointCutoff store.checkpoints.keys lane.frontierId lane.cpPos.keys

def subtrees (api : ShardTreeApi H Shard) (policy : Option AnchorRetention)
    (store : SparseShardStore Shard) : List (Subtree H) :=
  match lane.plan with
  | none =>
    buildSubtrees api lane.frontier.treeSize
      (downgradeBelow lane.commitments (lane.cutoff store) policy)
  | some plan =>
    plan.segments.flatMap fun (start, rows) =>
      buildSubtrees api start (downgradeBelow rows (lane.cutoff store) policy)

def graft (api : ShardTreeApi H Shard) (store : SparseShardStore Shard) : SparseShardStore Shard :=
  match lane.plan with
  | none => store
  | some plan => plan.grafts.foldl (fun s (idx, root) => s.putShard (idx, api.leaf root)) store

def insertFrontier (api : ShardTreeApi H Shard) (policy : Option AnchorRetention)
    (store : SparseShardStore Shard) : Except PersistError (SparseShardStore Shard) := do
  let store ← mapSparseErr (store.insertFrontier api lane.frontier lane.frontierId)
  if shouldRetainAnchor policy lane.frontierId then
    return store.ensureRetained lane.frontierId
  else
    return store

def ensure (store : SparseShardStore Shard) : Except PersistError (SparseShardStore Shard) :=
  match store.checkpoints.minKey? with
  | none => .error (.corruptedData s!"no {lane.pool.name} checkpoint after insert_frontier")
  | some minCp => .ok (store.addCheckpoints (lane.missing.filter fun e => minCp < e.1))

def run (api : ShardTreeApi H Shard) (policy : Option AnchorRetention)
    (store : SparseShardStore Shard) : Except PersistError (SparseShardStore Shard) := do
  let subtrees := lane.subtrees api policy store
  let store ← lane.insertFrontier api policy (lane.graft api store)
  let store ← mapSparseErr (store.insertSubtrees api policy subtrees)
  lane.ensure store

end Lane

def perPool (sapling orchard ironwood : α) : ShieldedPool → α
  | .sapling => sapling
  | .orchard => orchard
  | .ironwood => ironwood

namespace PutBlocks

variable (call : PutBlocks H)

def cpPos (policy : Option AnchorRetention) (pool : ShieldedPool) : OrdMap Nat Nat :=
  streamCheckpointPositions (call.frontier pool).treeSize (call.doomedStream policy pool)

def missing (policy : Option AnchorRetention) (last : Nat) (pool : ShieldedPool)
    : List (Nat × Checkpoint) :=
  let ensure := batchEnsureHeights (fun p => (call.cpPos policy p).keys) policy
    (call.fromState.blockHeight + 1) last pool
  ensureCheckpoints ensure (call.cpPos policy pool) (call.frontier pool)

def lane (policy : Option AnchorRetention) (last : Nat) (plan : Option (PoolPlan H))
    (pool : ShieldedPool) : Lane H where
  pool
  frontierId := call.fromState.blockHeight
  frontier := call.frontier pool
  commitments := call.doomedStream policy pool
  missing := call.missing policy last pool
  plan

def putBlocksRows : Except PersistError Nat := go call.fromState.blockHeight call.blocks
where
  go (prev : Nat) : List (ScannedBlock H) → Except PersistError Nat
    | [] => .ok prev
    | b :: rest =>
      if prev + 1 = b.height then
        go b.height rest
      else
        .error (.nonSequentialBlocks prev b.height)

def treeStage (api : ShardTreeApi H Shard) (policy : Option AnchorRetention) (last : Nat)
    (plans : ShieldedPool → Option (PoolPlan H)) (trees : ShieldedPool → SparseShardStore Shard)
    : Except PersistError (ShieldedPool → SparseShardStore Shard) := do
  let sapling ← (call.lane policy last (plans .sapling) .sapling).run api policy (trees .sapling)
  let orchard ← (call.lane policy last (plans .orchard) .orchard).run api policy (trees .orchard)
  let ironwood ← (call.lane policy last none .ironwood).run api policy (trees .ironwood)
  return perPool sapling orchard ironwood

end PutBlocks
end Slipstream
