import Slipstream.Persist.Impl.Session

/-!
This module contains the pass-start sweep of `persist.rs` with each of its failures: what it reads,
builds, queues and deletes for every stranded run, and where it goes on after an error.
-/

namespace Slipstream

variable {H B Shard : Type}

structure GraftSweep where
  builtRows : Nat
  discardedRows : Nat
  rescans : List Span

structure RunFaults where
  treeSize : Nat → Option String
  flush : Option String
  queue : Nat → Option String
  delete : Option String

structure SweepFaults where
  positions : Nat → Option String
  seed : Option String
  run : Nat → Run → RunFaults

structure SweepState (H B Shard : Type) where
  db : WalletDb B Shard
  done : GraftSweep
  /-- The durable steps taken, for the record only. -/
  log : List (DurableOp H Shard)

def RunFaults.reads (faults : RunFaults) (reads : SweepReads H) : SweepReads H :=
  { reads with
    treeSizeAt := fun height =>
      match faults.treeSize height with
      | some e => .error e
      | none => reads.treeSizeAt height }

def SparseShardStore.snapshot (s : SparseShardStore Shard) : SparseShardStore Shard where
  dbShardIndices := s.dbShardIndices
  shards := s.shards
  dirtyShards := s.dirtyShards
  cap := s.cap
  capDirty := s.capDirty
  checkpoints := s.checkpoints
  dbCheckpoints := s.dbCheckpoints
  retained := s.retained
  added := s.added

namespace SweepState

variable (s : SweepState H B Shard)

def queueRescan (blocks : Span) : SweepState H B Shard :=
  { s with
    db := { s.db with scanned := s.db.scanned \ Finset.Ico blocks.start blocks.stop }
    log := s.log ++ [.queueRescan blocks] }

def deleteRowsIn (pool : ShieldedPool) (shard : Nat) (run : Run) : SweepState H B Shard :=
  let t := (s.db.buffer pool).deleteRowsIn shard run.first (run.last + 1)
  { s with
    db := { s.db with buffer := Function.update s.db.buffer pool t }
    log := s.log ++ [.buffer pool (.deleteRowsIn shard run.first (run.last + 1))] }

def setTree (pool : ShieldedPool) (rows : List (AccRow H)) (tree : SparseShardStore Shard)
    (flushed : SqlTree Shard) : SweepState H B Shard :=
  { s with
    db := { s.db with trees := Function.update s.db.trees pool flushed }
    log := s.log ++ [.flushTree pool rows tree] }

def queueAll (faults : RunFaults) (s : SweepState H B Shard) (i : Nat)
    : List Span → SweepState H B Shard × Except PersistError Unit
  | [] => (s, .ok ())
  | rescan :: rest =>
    match faults.queue i with
    | some e => (s, .error (.db e))
    | none => queueAll faults (s.queueRescan rescan) (i + 1) rest

/-- `queue_rescans`: false, queueing nothing, when the block metadata cannot place the run. -/
def queueRescans (faults : RunFaults) (reads : SweepReads H) (run : Run)
    : SweepState H B Shard × Except PersistError Bool :=
  match rescansFor (faults.reads reads).treeSizeAt run reads.stretches with
  | .error e => (s, .error (.db e))
  | .ok none => (s, .ok false)
  | .ok (some rescans) =>
    match s.queueAll faults 0 rescans with
    | (s, .error e) => (s, .error e)
    | (s, .ok ()) =>
      ({ s with done := { s.done with rescans := s.done.rescans ++ rescans } }, .ok true)

def deleteRun (faults : RunFaults) (pool : ShieldedPool) (shard : Nat) (run : Run)
    (count : GraftSweep → GraftSweep) : SweepState H B Shard × Except PersistError Unit :=
  match faults.delete with
  | some e => (s, .error (.db e))
  | none =>
    let s := s.deleteRowsIn pool shard run
    ({ s with done := count s.done }, .ok ())

def rescanRun (faults : RunFaults) (reads : SweepReads H) (pool : ShieldedPool) (shard : Nat)
    (run : Run) : SweepState H B Shard × Except PersistError Unit :=
  match s.queueRescans faults reads run with
  | (s, .error e) => (s, .error e)
  | (s, .ok false) => (s, .ok ())
  | (s, .ok true) =>
    s.deleteRun faults pool shard run fun done =>
      { done with discardedRows := done.discardedRows + (run.last - run.first + 1) }

end SweepState

/-- `SweepInputs::run`: the tree afterwards is the one in memory. -/
def sweepRun [DecidableEq H] (up : Upstream H B Shard) (policy : Option AnchorRetention)
    (faults : RunFaults) (reads : SweepReads H) (pool : ShieldedPool) (shard : Nat) (run : Run)
    (rows : List (AccRow H)) (storedRoot : Option H) (tree : SparseShardStore Shard)
    (s : SweepState H B Shard)
    : SparseShardStore Shard × SweepState H B Shard × Except PersistError Unit :=
  let covered := rowsCoverRun rows run
  match tree.getShard shard with
  | .error e => (tree, s, .error (.corruptedData s!"shard {shard}: {e}"))
  | .ok content =>
    let lastLeafMatches :=
      match content.bind (up.leafAt · run.last), rows.getLast? with
      | some leaf, some row => decide (leaf = row.hash)
      | _, _ => false
    match if covered then endCheck run lastLeafMatches storedRoot else none with
    | none => (tree, s.rescanRun faults reads pool shard run)
    | some check =>
      let before := tree.snapshot
      match insertChecked up tree pool shard rows check reads.chainTip policy with
      | .ok tree =>
        match faults.flush.elim ((tree.flush (s.db.trees pool)).mapError .db) (.error ∘ .db) with
        | .error e => (before, s, .error e)
        | .ok (flushed, written) =>
          (written, (s.setTree pool rows tree flushed).deleteRun faults pool shard run fun done =>
            { done with builtRows := done.builtRows + rows.length })
      -- The tree refuses the run: what the insert left of it is put back.
      | .error _ => (before, s.rescanRun faults reads pool shard run)

/-- A run that the sweep has dealt with, for the record only. -/
structure HandledRun (H B Shard : Type) where
  pool : ShieldedPool
  reads : SweepReads H
  job : SweepJob H
  before : SweepState H B Shard
  after : SweepState H B Shard
  tree : Option (SparseShardStore Shard)

structure PoolSweep (H B Shard : Type) where
  state : SweepState H B Shard
  handled : List (HandledRun H B Shard)

structure StrandedShard (H : Type) where
  shard : Nat
  runs : List Run
  rows : List (AccRow H)

namespace PoolSweep

variable (up : Upstream H B Shard) (policy : Option AnchorRetention) (faults : SweepFaults)
  (reads : SweepReads H) (pool : ShieldedPool)

def rescanNext (shard : Nat) (p : PoolSweep H B Shard) (run : Run) : PoolSweep H B Shard :=
  let faults := faults.run shard run
  let (state, _) := p.state.rescanRun faults reads pool shard run
  { state
    handled := p.handled ++ [{
      pool, reads := faults.reads reads, job := .undecodable shard run
      before := p.state, after := state, tree := none }] }

/-- `undecodable_shard`: a run that fails keeps its rows, and the next one is dealt with. -/
def undecodableShard (p : PoolSweep H B Shard) (shard : Nat) (positions : List Nat)
    : PoolSweep H B Shard :=
  (contiguousRuns positions).foldl (rescanNext faults reads pool shard) p

def readShards (seeders : Nat → Option Nat) (p : PoolSweep H B Shard)
    : List Nat → PoolSweep H B Shard × List (StrandedShard H)
  | [] => (p, [])
  | shard :: rest =>
    match faults.positions shard with
    | some _ => readShards seeders p rest
    | none =>
      let buffer := p.state.db.buffer pool
      let positions := buffer.bufferedPositions shard
      match reads.readError shard, buffer.loadShard up.ser shard with
      | some _, _ => readShards seeders p rest
      | none, .error _ => readShards seeders (p.undecodableShard faults reads pool shard positions) rest
      | none, .ok rows =>
        let runs := strandedRuns positions (seeders shard)
        let (p, stranded) := readShards seeders p rest
        (p, if runs.isEmpty then stranded else { shard, runs, rows } :: stranded)

def sweepNext [DecidableEq H] (e : StrandedShard H) (storedRoot : Option H)
    (tp : SparseShardStore Shard × PoolSweep H B Shard) (run : Run)
    : SparseShardStore Shard × PoolSweep H B Shard :=
  let (tree, p) := tp
  let faults := faults.run e.shard run
  let rows := (e.rows.takeWhile (·.position ≤ run.last)).dropWhile (·.position < run.first)
  let (tree, state, _) :=
    sweepRun up policy faults reads pool e.shard run rows storedRoot tree p.state
  (tree, {
    state
    handled := p.handled ++ [{
      pool, reads := faults.reads reads, job := .stranded e.shard run rows
      before := p.state, after := state, tree := some tree }] })

def sweepShard [DecidableEq H] (tp : SparseShardStore Shard × PoolSweep H B Shard)
    (e : StrandedShard H) : SparseShardStore Shard × PoolSweep H B Shard :=
  match reads.storedRoot e.shard with
  | .error _ => tp
  | .ok storedRoot => e.runs.foldl (sweepNext up policy faults reads pool e storedRoot) tp

end PoolSweep

/-- `SweepInputs::pool`: an error is the pool's own, and leaves the runs not dealt with. -/
def sweepPool [DecidableEq H] (up : Upstream H B Shard) (policy : Option AnchorRetention)
    (faults : SweepFaults) (reads : SweepReads H) (pool : ShieldedPool) (p : PoolSweep H B Shard)
    : PoolSweep H B Shard × Except String Unit :=
  let shards := (p.state.db.buffer pool).bufferedShards
  if shards.isEmpty then
    (p, .ok ())
  else
    match reads.seeders with
    | .error e => (p, .error e)
    | .ok seeders =>
      let (p, stranded) := p.readShards up faults reads pool seeders shards
      match faults.seed, stranded with
      | _, [] => (p, .ok ())
      | some e, _ => (p, .error e)
      | none, stranded =>
        let tree := .seed (p.state.db.trees pool) policy
        ((stranded.foldl (PoolSweep.sweepShard up policy faults reads pool) (tree, p)).2, .ok ())

structure PassReads (H : Type) where
  pool : ShieldedPool → SweepReads H
  requeued : Except String (List ScanRange)

/-- `sweep_stranded_graft_rows`, once the wallet's heights are read. -/
def sweepStrandedGraftRows [DecidableEq H] (up : Upstream H B Shard)
    (policy : Option AnchorRetention) (faults : ShieldedPool → SweepFaults) (reads : PassReads H)
    (db : WalletDb B Shard) : PoolSweep H B Shard :=
  let state := { db, done := { builtRows := 0, discardedRows := 0, rescans := [] }, log := [] }
  let (p, _) :=
    sweepPool up policy (faults .sapling) (reads.pool .sapling) .sapling { state, handled := [] }
  let orchard := reads.pool .orchard
  let queue :=
    if p.state.done.rescans.isEmpty || (db.buffer .orchard).bufferedShards.isEmpty then
      .ok orchard.pending
    else
      reads.requeued
  match queue with
  | .error _ => p
  | .ok pending =>
    (sweepPool up policy (faults .orchard) { orchard with pending } .orchard p).1

end Slipstream
