import Slipstream.Graft.Impl.Buffer
import Slipstream.Persist.Impl.Retention

/-!
This module contains the planner that runs before a call's transaction: it seeds a pool's shard
accumulator from the graft buffer, feeds it and turns its actions into a build plan.
-/

namespace Slipstream

variable {H B : Type}

structure PoolPlan (H : Type) where
  segments : List (Nat × List (H × Retention))
  grafts : List (Nat × H)
  cleanupSpans : List (Nat × Nat × Nat)
  fallbacks : Nat
  verifyRoots : List (Nat × H)

def PoolPlan.empty : PoolPlan H where
  segments := []
  grafts := []
  cleanupSpans := []
  fallbacks := 0
  verifyRoots := []

def rowsToSegment (rows : List (AccRow H)) : Option (Nat × List (H × Retention)) :=
  rows.head?.map fun first => (first.position, rows.map fun r => (r.hash, r.retention))

def fedSpan (rows : List (AccRow H)) : Option (Nat × Nat × Nat) :=
  match rows.head?, rows.getLast? with
  | some first, some last => some (shardOf first.position, first.position, last.position + 1)
  | _, _ => none

inductive BufferOp (H : Type) where
  | deleteRowsIn (shard start stop : Nat)
  | appendRows (shard : Nat) (rows : List (AccRow H))
  | deleteFromPosition (minPosition : Nat)

structure PlanInputs (H : Type) where
  verifySample : Nat
  startPosition : Nat
  frontierLeaf : Option (Nat × H)
  stream : List (H × Retention)
  notePositions : List Nat
  storeHasShard : Nat → Bool
  treeRefuses : List (AccRow H) → Option String
  serverRoot : Nat → Except String (Option H)
  anchorRetention : Option AnchorRetention
  readError : Option String

namespace PlanInputs

variable (inp : PlanInputs H)

def fed : Nat × Nat :=
  (inp.startPosition,
    min (inp.startPosition + inp.stream.length) ((shardOf inp.startPosition + 1) <<< SHARD_BITS))

def seedAcc [DecidableEq H] (rows : List (AccRow H)) (willNotDecode : Bool) : ShardAccumulator H :=
  let shard := shardOf inp.startPosition
  let belowStart := rows.takeWhile (·.position < inp.startPosition)
  let endsAtStart := belowStart.getLast?.any (·.position + 1 == inp.startPosition)
  let resume := (resumableRun rows inp.startPosition inp.frontierLeaf).1
  -- A run that ends right before the start on another leaf is another chain's.
  let rejectedAtStart := endsAtStart && resume.isEmpty
  let refusal := if resume.isEmpty then none else inp.treeRefuses resume
  let resume := if refusal.isSome then [] else resume
  let passthrough :=
    inp.storeHasShard shard || willNotDecode || rejectedAtStart || refusal.isSome
  .seed inp.startPosition resume passthrough

def seed [DecidableEq H] (ser : HashSer H B) (buffer : PoolBuffer B)
    : Except String (List (BufferOp H) × ShardAccumulator H) :=
  let shard := shardOf inp.startPosition
  let (start, stop) := inp.fed
  match inp.readError, buffer.loadShard ser shard with
  | some e, _ => .error e
  | none, .ok rows =>
    if rows.any fun r => start ≤ r.position && r.position < stop then
      .ok ([.deleteRowsIn shard start stop], inp.seedAcc rows false)
    else
      .ok ([], inp.seedAcc rows false)
  | none, .error _ => .ok ([.deleteRowsIn shard start stop], inp.seedAcc [] true)

def containsAnchor (rows : List (AccRow H)) : Bool :=
  rows.any fun r => r.retention.checkpointId.any (shouldRetainAnchor inp.anchorRetention)

def audits (shardIndex : Nat) : Bool :=
  decide (0 < inp.verifySample) && shardIndex % inp.verifySample == 0

def addBuild (plan : PoolPlan H) (rows : List (AccRow H)) : PoolPlan H :=
  { plan with segments := plan.segments ++ (rowsToSegment rows).toList }

def closeShard (plan : PoolPlan H) (shardIndex : Nat) (rows : List (AccRow H))
    : Except String (PoolPlan H) := do
  let plan := { plan with cleanupSpans := plan.cleanupSpans ++ (fedSpan rows).toList }
  if inp.containsAnchor rows then
    return addBuild { plan with fallbacks := plan.fallbacks + 1 } rows
  else
    match ← inp.serverRoot shardIndex with
    | some root =>
      if inp.audits shardIndex then
        return addBuild { plan with verifyRoots := plan.verifyRoots ++ [(shardIndex, root)] } rows
      else
        return { plan with grafts := plan.grafts ++ [(shardIndex, root)] }
    | none => return addBuild { plan with fallbacks := plan.fallbacks + 1 } rows

def planActions (plan : PoolPlan H)
    : List (FeedAction H) → List (BufferOp H) × Except String (PoolPlan H)
  | [] => ([], .ok plan)
  | .build rows :: rest =>
    let plan := { plan with cleanupSpans := plan.cleanupSpans ++ (fedSpan rows).toList }
    planActions (addBuild plan rows) rest
  | .closeCleanShard shardIndex rows :: rest =>
    match inp.closeShard plan shardIndex rows with
    | .error e => ([], .error e)
    | .ok plan => planActions plan rest
  | .buffer rows :: rest =>
    let (ops, res) := planActions plan rest
    match rows.head? with
    | none => (ops, res)
    | some first => (.appendRows (shardOf first.position) rows :: ops, res)

end PlanInputs

structure Planned (H : Type) where
  ops : List (BufferOp H)
  acc : Option (ShardAccumulator H)
  plan : Except String (PoolPlan H)

/-- `plan_pool`; the seed runs in the first call of a range only. -/
def planPool [DecidableEq H] (ser : HashSer H B) (buffer : PoolBuffer B)
    (acc : Option (ShardAccumulator H)) (inp : PlanInputs H) : Planned H :=
  let seeded :=
    match acc with
    | some acc => Except.ok ([], acc)
    | none => inp.seed ser buffer
  match seeded with
  | .error e => { ops := [], acc := none, plan := .error e }
  | .ok (seedOps, acc) =>
    let (acc, actions) := acc.feed inp.startPosition inp.stream inp.notePositions
    let (ops, plan) := inp.planActions .empty actions
    { ops := seedOps ++ ops, acc := some acc, plan }

end Slipstream
