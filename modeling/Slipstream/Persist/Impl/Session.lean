import Slipstream.Machine.Basic
import Slipstream.Persist.Impl.Wallet

/-!
This module contains the wallet over its whole life as a machine of durable steps: ranges and their
calls, range-end finishes, pass-start sweeps, open-time heals, rewinds, and a stop between any two
steps.
-/

namespace Slipstream

variable {H B Shard : Type}

structure ScanRange where
  blocks : Span
  historic : Bool
  deriving DecidableEq, Repr

structure SweepReads (H : Type) where
  pending : List ScanRange
  chainTip : Nat
  birthday : Nat
  graftResumes : Bool
  treeSizeAt : Nat → Except String (Option Nat)
  storedRoot : Nat → Except String (Option H)
  readError : Nat → Option String

inductive SweepJob (H : Type) where
  | undecodable (shard : Nat) (run : Run)
  | stranded (shard : Nat) (run : Run) (rows : List (AccRow H))

namespace SweepReads

variable (reads : SweepReads H)

def stretches : List Span :=
  scannedStretches (reads.pending.map (·.blocks)) reads.birthday (reads.chainTip + 1)

def rangeStartPosition (range : ScanRange) : Except String (Option Nat) :=
  if 1 ≤ range.blocks.start then reads.treeSizeAt (range.blocks.start - 1) else .ok none

def seeders : Except String (Nat → Option Nat) :=
  if reads.graftResumes then do
    let starts ← (reads.pending.filter (·.historic)).mapM reads.rangeStartPosition
    return firstSeeders starts
  else
    return fun _ => none

def shardJobs (ser : HashSer H B) (buffer : PoolBuffer B) (seeders : Nat → Option Nat) (shard : Nat)
    : List (SweepJob H) :=
  let positions := buffer.bufferedPositions shard
  match reads.readError shard, buffer.loadShard ser shard with
  | some _, _ => []
  | none, .ok rows =>
    (strandedRuns positions (seeders shard)).map fun run =>
      .stranded shard run
        ((rows.takeWhile (·.position ≤ run.last)).dropWhile (·.position < run.first))
  | none, .error _ => (contiguousRuns positions).map (.undecodable shard)

def jobs (ser : HashSer H B) (buffer : PoolBuffer B) : Except String (List (SweepJob H)) := do
  let seeders ← reads.seeders
  let all := buffer.bufferedShards.flatMap (reads.shardJobs ser buffer seeders)
  let isUndecodable : SweepJob H → Bool
    | .undecodable _ _ => true
    | .stranded _ _ _ => false
  return all.filter isUndecodable ++ all.filter (!isUndecodable ·)

def rescanOps (pool : ShieldedPool) (shard : Nat) (run : Run) : List (DurableOp H Shard) :=
  match rescansFor reads.treeSizeAt run reads.stretches with
  | .ok (some rescans) =>
    rescans.map .queueRescan ++ [.buffer pool (.deleteRowsIn shard run.first (run.last + 1))]
  | _ => []

end SweepReads

def shardContentRoot (up : Upstream H B Shard) (tree : SparseShardStore Shard) (index : Nat)
    : Option H :=
  (tree.shards.get? index).bind up.contentRoot

def ShieldedPool.debug : ShieldedPool → String
  | .sapling => "Sapling"
  | .orchard => "Orchard"
  | .ironwood => "Ironwood"

def insertChecked [DecidableEq H] (up : Upstream H B Shard) (tree : SparseShardStore Shard)
    (pool : ShieldedPool) (shard : Nat) (rows : List (AccRow H)) (check : EndCheck H)
    (chainTip : Nat) (anchorRetention : Option AnchorRetention)
    : Except PersistError (SparseShardStore Shard) := do
  let label := s!"graft sweep {pool.debug}"
  let rows := doomDeepRows rows chainTip anchorRetention
  let inserted ← insertDeferredRows up.toShardTreeApi tree rows anchorRetention label
  let tree := inserted.getD tree
  match check with
  | .lastLeaf => return tree
  | .shardRoot stored =>
    match shardContentRoot up tree shard with
    | some root =>
      if root = stored then
        return tree
      else
        .error (.corruptedData s!"{label}: shard {shard}'s root is not the root the wallet stores")
    | none =>
      .error (.corruptedData s!"{label}: shard {shard}'s root cannot be computed from the tree")

def SweepJob.ops [DecidableEq H] (up : Upstream H B Shard) (reads : SweepReads H)
    (anchorRetention : Option AnchorRetention) (pool : ShieldedPool) (tree : SparseShardStore Shard)
    : SweepJob H → List (DurableOp H Shard)
  | .undecodable shard run => reads.rescanOps pool shard run
  | .stranded shard run rows =>
    match reads.storedRoot shard, tree.getShard shard with
    | .ok storedRoot, .ok content =>
      let covered := rowsCoverRun rows run
      let lastLeafMatches :=
        match content.bind (up.leafAt · run.last), rows.getLast? with
        | some leaf, some row => decide (leaf = row.hash)
        | _, _ => false
      let check := if covered then endCheck run lastLeafMatches storedRoot else none
      let built := check.bind fun check =>
        (insertChecked up tree pool shard rows check reads.chainTip anchorRetention).toOption
      match built with
      | some tree =>
        [.flushTree pool rows tree, .buffer pool (.deleteRowsIn shard run.first (run.last + 1))]
      | none => reads.rescanOps pool shard run
    | _, _ => []

/-- `heal_pool_checkpoints`: drop what lies deep below the newest checkpoint, the anchors excepted. -/
def SqlTree.heal (t : SqlTree Shard) : SqlTree Shard :=
  match t.checkpoints.maxKey? with
  | none => t
  | some maxId =>
    let cutoff := maxId - DEEP_HISTORY_CHECKPOINT_MARGIN
    { t with
      checkpoints := t.checkpoints.filter fun id => !(decide (id < cutoff) && decide (id ∉ t.retained)) }

def SqlTree.truncate (up : Upstream H B Shard) (height : Nat) (t : SqlTree Shard) : SqlTree Shard where
  shards := up.truncateShards t.shards height
  cap := up.truncateCap t.cap height
  checkpoints := t.checkpoints.filter (· ≤ height)
  retained := t.retained.filter (· ≤ height)

def WalletDb.rewind (up : Upstream H B Shard) (height : Nat) (db : WalletDb B Shard)
    : WalletDb B Shard :=
  { db with
    trees := fun p => (db.trees p).truncate up height
    scanned := db.scanned.filter (· ≤ height) }

/-- `truncate_to_height`, with the buffered rows of the blocks it removes in one transaction. -/
def WalletDb.truncateToHeight (up : Upstream H B Shard) (height : Nat)
    (sizes : ShieldedPool → Option Nat) (db : WalletDb B Shard) : WalletDb B Shard :=
  let db := db.rewind up height
  let sizes := if db.scanned = ∅ then fun _ => some 0 else sizes
  { db with
    buffer := fun p =>
      match p, sizes p with
      | .ironwood, _ => db.buffer p
      | _, some size => (db.buffer p).deleteFromPosition size
      | _, none => db.buffer p }

inductive Activity (H : Type) where
  | idle
  | scanning
  | finishing
  | sweeping (pool : ShieldedPool) (reads : SweepReads H) (jobs : List (SweepJob H))

structure Session (H B Shard : Type) where
  db : WalletDb B Shard
  sparse : SparseTreeState H Shard
  activity : Activity H
  todo : List (DurableOp H Shard)

inductive SessionEvent (H : Type) where
  | beginRange (verifySample : Option Nat)
  | putBlocks (reads : CallReads H) (call : PutBlocks H)
  | finishRange
  | beginSweep (pool : ShieldedPool) (reads : SweepReads H)
  | sweepNext
  | proceed
  | fail
  | stop
  | heal
  | truncate (height : Nat) (sizes : ShieldedPool → Option Nat)
  | importAccount (birthday : Nat) (sizes : ShieldedPool → Nat)

namespace Session

variable (policy : Option AnchorRetention)

def atRest (db : WalletDb B Shard) : Session H B Shard where
  db
  sparse := .opened policy none
  activity := .idle
  todo := []

def failed (s : Session H B Shard) : Session H B Shard :=
  match s.activity with
  | .sweeping _ _ _ => { s with todo := [] }
  | _ => atRest policy s.db

def finishRows (ctx : GraftCtx H) (pool : ShieldedPool) : List (AccRow H) :=
  match (ctx.acc pool).bind (·.finish) with
  | some (.build rows) => rows
  | _ => []

def finishCleanup (rows : List (AccRow H)) (pool : ShieldedPool) : List (DurableOp H Shard) :=
  ((fedSpan rows).map fun (shard, start, stop) =>
    .buffer pool (.deleteRowsIn shard start stop)).toList

def finishOps (ctx : GraftCtx H) : List (DurableOp H Shard) :=
  let rows := finishRows ctx
  if (rows .sapling).isEmpty && (rows .orchard).isEmpty then
    []
  else
    .finish rows :: (finishCleanup (rows .sapling) .sapling ++ finishCleanup (rows .orchard) .orchard)

def step [DecidableEq H] (up : Upstream H B Shard) (s : Session H B Shard)
    : SessionEvent H → Option (Session H B Shard)
  | .beginRange verifySample =>
    match s.todo with
    | [] => some { s with sparse := .opened policy verifySample, activity := .scanning }
    | _ => none
  | .putBlocks reads call =>
    match s.activity, s.todo with
    | .scanning, [] =>
      match call.begin up reads s.db s.sparse with
      | .ok (sparse, ops) => some { s with sparse, todo := ops }
      | .error _ => some (s.failed policy)
    | _, _ => none
  | .finishRange =>
    match s.activity, s.todo, s.sparse.graft with
    | .scanning, [], some ctx => some { s with activity := .finishing, todo := finishOps ctx }
    | _, _, _ => none
  | .beginSweep pool reads =>
    match s.todo with
    | [] =>
      match reads.jobs up.ser (s.db.buffer pool) with
      | .ok jobs =>
        let trees := Function.update (fun _ => none) pool
          (some (.seed (s.db.trees pool) policy))
        some { s with
          sparse := { trees, anchorRetention := policy, graft := none }
          activity := .sweeping pool reads jobs }
      | .error _ => some (atRest policy s.db)
    | _ => none
  | .sweepNext =>
    match s.activity, s.todo with
    | .sweeping pool reads (job :: jobs), [] =>
      some { s with
        activity := .sweeping pool reads jobs
        todo := job.ops up reads policy pool (s.sparse.seeded s.db pool) }
    | _, _ => none
  | .proceed =>
    match s.todo with
    | op :: rest =>
      match op.exec up s.db s.sparse with
      | .ok (db, sparse) => some { s with db, sparse, todo := rest }
      | .error _ => some (s.failed policy)
    | [] => none
  | .fail => some (s.failed policy)
  | .stop => some (atRest policy s.db)
  | .heal =>
    match s.activity, s.todo with
    | .idle, [] => some (atRest policy { s.db with trees := fun p => (s.db.trees p).heal })
    | _, _ => none
  | .truncate height sizes =>
    match s.activity, s.todo with
    | .idle, [] => some (atRest policy (s.db.truncateToHeight up height sizes))
    | _, _ => none
  | .importAccount birthday sizes =>
    match s.activity, s.todo with
    | .idle, [] =>
      some { atRest policy (s.db.rewind up (birthday - 1)) with
        todo := [
          .buffer .sapling (.deleteFromPosition (sizes .sapling)),
          .buffer .orchard (.deleteFromPosition (sizes .orchard))
        ] }
    | _, _ => none

end Session

def sessionMachine [DecidableEq H] (up : Upstream H B Shard) (policy : Option AnchorRetention)
    : Machine (Session H B Shard) (SessionEvent H) where
  start s := ∃ db, s = .atRest policy db
  step := Session.step policy up

end Slipstream
