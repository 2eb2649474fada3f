import Slipstream.Graft.Impl.Sweep
import Slipstream.Persist.Impl.PutBlocks

/-!
This module contains a wallet as the persist lane sees it, its SQLite side and the state of one scan
range in memory, and a whole `sparse_put_blocks` call on it.
-/

namespace Slipstream

variable {H B Shard : Type}

structure WalletDb (B Shard : Type) where
  trees : ShieldedPool → SqlTree Shard
  buffer : ShieldedPool → PoolBuffer B
  scanned : Finset Nat

structure GraftCtx (H : Type) where
  verifySample : Nat
  acc : ShieldedPool → Option (ShardAccumulator H)

structure SparseTreeState (H Shard : Type) where
  trees : ShieldedPool → Option (SparseShardStore Shard)
  anchorRetention : Option AnchorRetention
  graft : Option (GraftCtx H)

def SparseTreeState.opened (anchorRetention : Option AnchorRetention) (verifySample : Option Nat)
    : SparseTreeState H Shard where
  trees _ := none
  anchorRetention
  graft := verifySample.map fun n => { verifySample := n, acc := fun _ => none }

structure Upstream (H B Shard : Type) extends ShardTreeApi H Shard where
  ser : HashSer H B
  emptyShard : Nat → Shard
  insertFrontierInto : Shard → NonEmptyFrontier H → Nat → Option Shard
  insertSubtreeInto : Shard → Subtree H → Except String Shard
  leafAt : Shard → Nat → Option H
  contentRoot : Shard → Option H
  truncateShards : OrdMap Nat Shard → Nat → OrdMap Nat Shard
  truncateCap : Shard → Nat → Shard

/-- `none` when there is nothing to insert. -/
def insertDeferredRows (api : ShardTreeApi H Shard) (tree : SparseShardStore Shard)
    (rows : List (AccRow H)) (anchorRetention : Option AnchorRetention) (label : String)
    : Except PersistError (Option (SparseShardStore Shard)) :=
  match rowsToSegment rows with
  | none => .ok none
  | some (start, rows) => do
    let cutoff := deferredBuildCutoff tree.checkpoints.keys rows
    let subtrees := buildSubtrees api start (downgradeBelow rows cutoff anchorRetention)
    let tree ← (tree.insertSubtrees api anchorRetention subtrees).mapError fun e =>
      .corruptedData s!"{label} insert: {e}"
    return some tree

structure CallReads (H : Type) where
  serverRoot : ShieldedPool → Nat → Except String (Option H)
  readError : ShieldedPool → Option String

namespace SparseShardStore

def getShard (s : SparseShardStore Shard) (idx : Nat) : Except String (Option Shard) :=
  match s.shards.get? idx with
  | some shard => .ok (some shard)
  | none =>
    if idx ∈ s.dbShardIndices then
      .error s!"shard index {idx} exists in the database but was not preloaded"
    else
      .ok none

end SparseShardStore

def resumeRefusal (up : Upstream H B Shard) (store : SparseShardStore Shard)
    (frontier : Option (NonEmptyFrontier H)) (frontierId : Nat) (run : List (AccRow H))
    : Option String := do
  let first := (← run.head?).position
  let idx := shardOf first
  let shard ← (store.getShard idx).toOption
  let shard := shard.getD (up.emptyShard idx)
  let shard ←
    match frontier.filter fun f => shardOf f.position == idx with
    | none => some shard
    | some f => up.insertFrontierInto shard f frontierId
  let rows := run.map fun r => (r.hash, r.retention)
  go shard (buildSubtrees up.toShardTreeApi first rows)
where
  go (shard : Shard) : List (Subtree H) → Option String
    | [] => none
    | subtree :: rest =>
      match up.insertSubtreeInto shard subtree with
      | .ok merged => go merged rest
      | .error e => some e

def SparseTreeState.seeded (sparse : SparseTreeState H Shard) (db : WalletDb B Shard)
    (pool : ShieldedPool) : SparseShardStore Shard :=
  (sparse.trees pool).getD (.seed (db.trees pool) sparse.anchorRetention)

def BufferOp.apply (ser : HashSer H B) (t : PoolBuffer B) : BufferOp H → Except String (PoolBuffer B)
  | .deleteRowsIn shard start stop => .ok (t.deleteRowsIn shard start stop)
  | .appendRows shard rows => t.appendRows ser shard rows
  | .deleteFromPosition minPosition => .ok (t.deleteFromPosition minPosition)

def PoolPlan.cleanup (plan : PoolPlan H) : List (BufferOp H) :=
  plan.cleanupSpans.map fun (shard, start, stop) => .deleteRowsIn shard start stop

namespace PutBlocks

variable (call : PutBlocks H)

def plan [DecidableEq H] (up : Upstream H B Shard) (reads : CallReads H)
    (policy : Option AnchorRetention) (ctx : GraftCtx H) (store : SparseShardStore Shard)
    (buffer : PoolBuffer B) (pool : ShieldedPool) : Planned H :=
  planPool up.ser buffer (ctx.acc pool) <|
    call.planInputs policy ctx.verifySample pool (store.shardHasInterior up.toShardTreeApi)
      (resumeRefusal up store (call.frontier pool).value call.fromState.blockHeight)
      (reads.serverRoot pool) (reads.readError pool)

def transact (up : Upstream H B Shard) (policy : Option AnchorRetention) (db : WalletDb B Shard)
    (trees : ShieldedPool → SparseShardStore Shard) (plans : ShieldedPool → Option (PoolPlan H))
    : Except PersistError (WalletDb B Shard × (ShieldedPool → SparseShardStore Shard)) := do
  let last ← call.putBlocksRows
  let trees ← call.treeStage up.toShardTreeApi policy last plans trees
  let sapling ← ((trees .sapling).flush (db.trees .sapling)).mapError .db
  let orchard ← ((trees .orchard).flush (db.trees .orchard)).mapError .db
  let ironwood ← ((trees .ironwood).flush (db.trees .ironwood)).mapError .db
  let flushed := perPool sapling orchard ironwood
  let scanned := db.scanned ∪ Finset.Icc (call.fromState.blockHeight + 1) last
  return ({ db with trees := fun p => (flushed p).1, scanned }, fun p => (flushed p).2)

end PutBlocks

inductive DurableOp (H Shard : Type) where
  | buffer (pool : ShieldedPool) (op : BufferOp H)
  | transact (call : PutBlocks H) (plans : ShieldedPool → Option (PoolPlan H))
  | finish (rows : ShieldedPool → List (AccRow H))
  | flushTree (pool : ShieldedPool) (rows : List (AccRow H)) (tree : SparseShardStore Shard)
  | queueRescan (blocks : Span)
  | fail (detail : String)

namespace DurableOp

def exec (up : Upstream H B Shard) (db : WalletDb B Shard) (sparse : SparseTreeState H Shard)
    : DurableOp H Shard → Except PersistError (WalletDb B Shard × SparseTreeState H Shard)
  | .buffer pool op => do
    let t ← (op.apply up.ser (db.buffer pool)).mapError .db
    return ({ db with buffer := Function.update db.buffer pool t }, sparse)
  | .transact call plans => do
    let (db, trees) ← call.transact up sparse.anchorRetention db (sparse.seeded db) plans
    return (db, { sparse with trees := fun p => some (trees p) })
  | .finish rows => do
    let (db, sparse) ← finishPool up rows .sapling db sparse
    finishPool up rows .orchard db sparse
  | .flushTree pool _ tree => do
    let (flushed, tree) ← (tree.flush (db.trees pool)).mapError .db
    return ({ db with trees := Function.update db.trees pool flushed },
      { sparse with trees := Function.update sparse.trees pool (some tree) })
  | .queueRescan blocks =>
    .ok ({ db with scanned := db.scanned \ Finset.Ico blocks.start blocks.stop }, sparse)
  | .fail detail => .error (.db detail)
where
  -- A pool without rows of its own is not flushed either.
  finishPool (up : Upstream H B Shard) (rows : ShieldedPool → List (AccRow H)) (pool : ShieldedPool)
      (db : WalletDb B Shard) (sparse : SparseTreeState H Shard)
      : Except PersistError (WalletDb B Shard × SparseTreeState H Shard) := do
    let some inserted ← insertDeferredRows up.toShardTreeApi (sparse.seeded db pool) (rows pool)
        sparse.anchorRetention s!"finish {pool.name}"
      | return (db, sparse)
    let (flushed, tree) ← (inserted.flush (db.trees pool)).mapError .db
    return ({ db with trees := Function.update db.trees pool flushed },
      { sparse with trees := Function.update sparse.trees pool (some tree) })

def execAll (up : Upstream H B Shard) (db : WalletDb B Shard) (sparse : SparseTreeState H Shard)
    : List (DurableOp H Shard)
      → (WalletDb B Shard × SparseTreeState H Shard) × Except PersistError Unit
  | [] => ((db, sparse), .ok ())
  | op :: rest =>
    match op.exec up db sparse with
    | .ok (db, sparse) => execAll up db sparse rest
    | .error e => ((db, sparse), .error e)

end DurableOp

namespace PutBlocks

variable (call : PutBlocks H)

def planOps (pool : ShieldedPool) (planned : Planned H)
    (next : PoolPlan H → List (DurableOp H Shard)) : List (DurableOp H Shard) :=
  planned.ops.map (.buffer pool) ++
    match planned.plan with
    | .ok plan => next plan
    | .error e => [.fail e]

def start [DecidableEq H] (up : Upstream H B Shard) (reads : CallReads H) (db : WalletDb B Shard)
    (sparse : SparseTreeState H Shard) : SparseTreeState H Shard × List (DurableOp H Shard) :=
  let policy := sparse.anchorRetention
  let trees := sparse.seeded db
  let sparse := { sparse with trees := fun p => some (trees p) }
  match sparse.graft with
  | none => (sparse, [.transact call fun _ => none])
  | some ctx =>
    let planned pool := call.plan up reads policy ctx (trees pool) (db.buffer pool) pool
    let ops :=
      planOps .sapling (planned .sapling) fun sp =>
        planOps .orchard (planned .orchard) fun op =>
          .transact call (perPool (some sp) (some op) none)
            :: sp.cleanup.map (.buffer .sapling) ++ op.cleanup.map (.buffer .orchard)
    let acc := perPool (planned .sapling).acc (planned .orchard).acc none
    ({ sparse with graft := some { ctx with acc } }, ops)

def begin [DecidableEq H] (up : Upstream H B Shard) (reads : CallReads H) (db : WalletDb B Shard)
    (sparse : SparseTreeState H Shard)
    : Except PersistError (SparseTreeState H Shard × List (DurableOp H Shard)) :=
  match call.blocks with
  | [] => .ok (sparse, [])
  | initial :: _ =>
    if call.continues initial then
      .ok (call.start up reads db sparse)
    else
      .error (.nonSequentialBlocks call.fromState.blockHeight initial.height)

end PutBlocks

def sparsePutBlocks [DecidableEq H] (up : Upstream H B Shard) (reads : CallReads H)
    (db : WalletDb B Shard) (sparse : SparseTreeState H Shard) (call : PutBlocks H)
    : (WalletDb B Shard × SparseTreeState H Shard) × Except PersistError Unit :=
  match call.begin up reads db sparse with
  | .ok (sparse, ops) => DurableOp.execAll up db sparse ops
  | .error e => ((db, sparse), .error e)

end Slipstream
