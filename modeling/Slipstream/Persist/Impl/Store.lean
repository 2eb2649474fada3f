import Slipstream.Persist.Impl.Retention
import Slipstream.Data.Newest

/-!
This module contains the in-memory shard store of a scan range: how it is seeded from SQLite, what
the commitment tree library does to it, and how it is flushed back.
-/

namespace Slipstream

/-- A checkpoint of a tree: the position of its last leaf, `none` for the empty tree. -/
structure Checkpoint where
  treeState : Option Nat
  marksRemoved : Finset Nat
  deriving DecidableEq

namespace Checkpoint

def treeEmpty : Checkpoint where
  treeState := none
  marksRemoved := ∅

def atPosition (position : Nat) : Checkpoint where
  treeState := some position
  marksRemoved := ∅

def ofSize (size : Nat) : Checkpoint :=
  if size = 0 then treeEmpty else atPosition (size - 1)

end Checkpoint

structure NonEmptyFrontier (H : Type) where
  position : Nat
  leaf : H
  ommers : List H

structure Frontier (H : Type) where
  value : Option (NonEmptyFrontier H)

def Frontier.treeSize (f : Frontier H) : Nat :=
  match f.value with
  | none => 0
  | some v => v.position + 1

structure Subtree (H : Type) where
  start : Nat
  rows : List (H × Retention)

def Subtree.checkpoints (t : Subtree H) : OrdMap Nat Nat :=
  streamCheckpointPositions t.start t.rows

structure TreePuts (Shard : Type) where
  shards : List (Nat × Shard)
  cap : Option Shard

structure ShardTreeApi (H Shard : Type) where
  insertFrontierNodes : OrdMap Nat Shard → NonEmptyFrontier H → Nat → Except String (TreePuts Shard)
  insertSubtree : OrdMap Nat Shard → Subtree H → Except String (TreePuts Shard)
  clearFlags : OrdMap Nat Shard → OrdMap Nat Checkpoint → Except String (TreePuts Shard)
  leaf : H → Shard
  isLeaf : Shard → Bool
  cut : Nat → List (H × Retention) → List (List (H × Retention))
  cut_flatten : ∀ start rows, (cut start rows).flatten = rows

structure SqlTree (Shard : Type) where
  shards : OrdMap Nat Shard
  cap : Shard
  checkpoints : OrdMap Nat Checkpoint
  retained : Finset Nat

structure SparseShardStore (Shard : Type) where
  dbShardIndices : Finset Nat
  shards : OrdMap Nat Shard
  dirtyShards : Finset Nat
  cap : Shard
  capDirty : Bool
  checkpoints : OrdMap Nat Checkpoint
  dbCheckpoints : OrdMap Nat Checkpoint
  retained : Finset Nat
  /-- The checkpoints added so far, for the record only. -/
  added : List (Nat × Checkpoint)

namespace SparseShardStore

variable {H Shard : Type}

def shardHasInterior (api : ShardTreeApi H Shard) (s : SparseShardStore Shard) (idx : Nat) : Bool :=
  match s.shards.get? idx with
  | some t => !api.isLeaf t
  | none => decide (idx ∈ s.dbShardIndices)

def putShard (s : SparseShardStore Shard) (e : Nat × Shard) : SparseShardStore Shard :=
  { s with shards := s.shards.insert e.1 e.2, dirtyShards := insert e.1 s.dirtyShards }

def putCap (s : SparseShardStore Shard) (cap : Shard) : SparseShardStore Shard :=
  { s with cap, capDirty := true }

def apply (s : SparseShardStore Shard) (puts : TreePuts Shard) : SparseShardStore Shard :=
  let s := puts.shards.foldl putShard s
  match puts.cap with
  | none => s
  | some cap => s.putCap cap

def addCheckpoint (s : SparseShardStore Shard) (e : Nat × Checkpoint)
    : SparseShardStore Shard :=
  { s with checkpoints := s.checkpoints.insert e.1 e.2, added := s.added ++ [e] }

def addCheckpoints (s : SparseShardStore Shard) (es : List (Nat × Checkpoint))
    : SparseShardStore Shard :=
  es.foldl addCheckpoint s

def updateCheckpointWith (s : SparseShardStore Shard) (id : Nat)
    (update : Checkpoint → Checkpoint × Except String Unit)
    : SparseShardStore Shard × Except String Bool :=
  match s.checkpoints.get? id with
  | some cp =>
    let (cp, res) := update cp
    ({ s with checkpoints := s.checkpoints.insert id cp }, res.map fun _ => true)
  | none => (s, .ok false)

def removeCheckpoint (s : SparseShardStore Shard) (id : Nat) : SparseShardStore Shard :=
  { s with checkpoints := s.checkpoints.filter (· ≠ id) }

def ensureRetained (s : SparseShardStore Shard) (id : Nat) : SparseShardStore Shard :=
  { s with retained := insert id s.retained }

def pruneExcessCheckpoints (api : ShardTreeApi H Shard) (s : SparseShardStore Shard)
    : Except String (SparseShardStore Shard) := do
  let kept := Newest.keep MAX_CHECKPOINTS s.retained s.checkpoints.keys
  let puts ← api.clearFlags s.shards (s.checkpoints.filter fun id => decide (id ∉ kept))
  return { s.apply puts with checkpoints := s.checkpoints.filter fun id => decide (id ∈ kept) }

/-- `ShardTree::insert_frontier` with a checkpoint at the frontier's leaf. -/
def insertFrontier (api : ShardTreeApi H Shard) (s : SparseShardStore Shard) (frontier : Frontier H)
    (id : Nat) : Except String (SparseShardStore Shard) :=
  match frontier.value with
  -- An empty frontier has no nodes: its checkpoint is added and nothing is pruned.
  | none => return s.addCheckpoint (id, .treeEmpty)
  | some f => do
    let puts ← api.insertFrontierNodes s.shards f id
    let s := (s.apply puts).addCheckpoint (id, .atPosition f.position)
    s.pruneExcessCheckpoints api

/-- `ShardTree::insert_tree` with the checkpoints of the subtree's rows. -/
def insertTree (api : ShardTreeApi H Shard) (s : SparseShardStore Shard) (subtree : Subtree H)
    : Except String (SparseShardStore Shard) := do
  let puts ← api.insertSubtree s.shards subtree
  let entries := checkpointEntries (rowsFrom subtree.start subtree.rows)
  let s := (s.apply puts).addCheckpoints (entries.map fun e => (e.1, .atPosition e.2))
  s.pruneExcessCheckpoints api

def insertSubtrees (api : ShardTreeApi H Shard) (anchorRetention : Option AnchorRetention)
    (s : SparseShardStore Shard) (subtrees : List (Subtree H))
    : Except String (SparseShardStore Shard) :=
  subtrees.foldlM (fun s subtree =>
    let anchors := subtree.checkpoints.keys.filter (shouldRetainAnchor anchorRetention · = true)
    insertTree api { s with retained := s.retained ∪ anchors } subtree) s

/-- `seed_sapling`, `seed_orchard` and `seed_ironwood`: load the pool's tree and re-pin its anchors. -/
def seed (db : SqlTree Shard) (anchorRetention : Option AnchorRetention)
    : SparseShardStore Shard where
  dbShardIndices := db.shards.keys
  shards := db.shards
  dirtyShards := ∅
  cap := db.cap
  capDirty := false
  checkpoints := db.checkpoints
  dbCheckpoints := db.checkpoints
  retained := db.checkpoints.keys.filter (shouldRetainAnchor anchorRetention · = true)
  added := []

def checkpointDelta (s : SparseShardStore Shard)
    : Finset Nat × OrdMap Nat Checkpoint :=
  (s.dbCheckpoints.keys.filter fun h => s.checkpoints.get? h ≠ s.dbCheckpoints.get? h,
    s.checkpoints.filter fun h => s.checkpoints.get? h ≠ s.dbCheckpoints.get? h)

/-- `flush_sapling`, `flush_orchard` and `flush_ironwood`, inside the caller's transaction. -/
def flush (s : SparseShardStore Shard) (db : SqlTree Shard)
    : Except String (SqlTree Shard × SparseShardStore Shard) :=
  match (s.dirtyShards \ s.shards.keys).sort (· ≤ ·) with
  | idx :: _ => .error s!"dirty shard {idx} missing from memory"
  | [] =>
    let (remove, add) := s.checkpointDelta
    let marks := add.keys.filter (· ∈ s.retained)
    let db := {
      shards := db.shards.overlay (s.shards.filter fun idx => decide (idx ∈ s.dirtyShards))
      cap := if s.capDirty then s.cap else db.cap
      checkpoints := (db.checkpoints.filter fun h => decide (h ∉ remove)).overlay add
      -- A mark goes with the checkpoint that is removed; a changed one is marked again.
      retained := db.retained \ remove ∪ marks
    }
    .ok (db, { s with dbCheckpoints := s.checkpoints, dirtyShards := ∅, capDirty := false })

end SparseShardStore
end Slipstream
