import Slipstream.Chain.Basic

/-!
This module contains the shard accumulator of `graft_accumulator.rs`: commitments stream in by
position and every shard is buffered until an owned note shows up in it or it closes note-free.
-/

namespace Slipstream

def SHARD_BITS : Nat := 16

def shardOf (position : Nat) : Nat := position >>> SHARD_BITS

structure AccRow (H : Type) where
  position : Nat
  hash : H
  retention : Retention
  deriving DecidableEq, Repr

def rowsFrom (pos : Nat) : List (H × Retention) → List (AccRow H)
  | [] => []
  | (hash, retention) :: items => ⟨pos, hash, retention⟩ :: rowsFrom (pos + 1) items

inductive FeedAction (H : Type) where
  | build (rows : List (AccRow H))
  | closeCleanShard (shardIndex : Nat) (rows : List (AccRow H))
  | buffer (rows : List (AccRow H))
  deriving DecidableEq, Repr

structure OpenShard (H : Type) where
  index : Nat
  rows : List (AccRow H)
  passthrough : Bool
  deriving DecidableEq, Repr

structure ShardAccumulator (H : Type) where
  nextPosition : Nat
  openShard : Option (OpenShard H)
  deriving DecidableEq, Repr

namespace ShardAccumulator

def seed (startPosition : Nat) (resumeRows : List (AccRow H)) (storeHasInternals : Bool)
    : ShardAccumulator H where
  nextPosition := startPosition
  openShard := some {
    index := shardOf startPosition
    rows := resumeRows
    passthrough := storeHasInternals
  }

def transition (openShard : Option (OpenShard H)) (shard : Nat)
    : OpenShard H × List (FeedAction H) :=
  let fresh := { index := shard, rows := [], passthrough := false }
  match openShard with
  | some o =>
    if o.index ≠ shard then
      if !o.passthrough then
        (fresh, [.closeCleanShard o.index o.rows])
      else if !o.rows.isEmpty then
        (fresh, [.build o.rows])
      else
        (fresh, [])
    else
      (o, [])
  | none => (fresh, [])

def absorb (o : OpenShard H) (span : List (AccRow H)) (hasNote : Bool)
    : OpenShard H × FeedAction H :=
  if o.passthrough then
    if o.rows.isEmpty then
      (o, .build span)
    else
      ({ o with rows := [] }, .build (o.rows ++ span))
  else if hasNote then
    -- Eager flush: the buffered prefix and this span build in the call that found the note.
    ({ o with rows := [], passthrough := true }, .build (o.rows ++ span))
  else
    ({ o with rows := o.rows ++ span }, .buffer span)

def feed (acc : ShardAccumulator H) (startPosition : Nat) (items : List (H × Retention))
    (notePositions : List Nat) : ShardAccumulator H × List (FeedAction H) :=
  let stop := startPosition + items.length
  let res := go items.length acc.openShard startPosition items
  ({ nextPosition := stop, openShard := res.1 }, res.2)
where
  -- Every iteration consumes at least one item, so the number of items is enough fuel.
  go (fuel : Nat) (openShard : Option (OpenShard H)) (pos : Nat) (items : List (H × Retention))
      : Option (OpenShard H) × List (FeedAction H) :=
    match fuel with
    | 0 => (openShard, [])
    | fuel + 1 =>
      if items.isEmpty then
        (openShard, [])
      else
        let shard := shardOf pos
        let opened := transition openShard shard
        let spanEnd := min (pos + items.length) ((shard + 1) <<< SHARD_BITS)
        let span := rowsFrom pos (items.take (spanEnd - pos))
        let hasNote := notePositions.any (fun p => pos ≤ p && p < spanEnd)
        let taken := absorb opened.1 span hasNote
        let rest := go fuel (some taken.1) spanEnd (items.drop (spanEnd - pos))
        (rest.1, opened.2 ++ taken.2 :: rest.2)

def finish (acc : ShardAccumulator H) : Option (FeedAction H) :=
  match acc.openShard with
  | none => none
  | some o => if o.rows.isEmpty then none else some (.build o.rows)

end ShardAccumulator

def contiguousFront : List (AccRow H) → List (AccRow H)
  | [] => []
  | [r] => [r]
  | r :: prev :: rest =>
    if prev.position + 1 = r.position then r :: contiguousFront (prev :: rest) else [r]

def resumableRun [DecidableEq H] (rows : List (AccRow H)) (startPosition : Nat)
    (frontierLeaf : Option (Nat × H)) : List (AccRow H) × Bool :=
  let total := rows.length
  let rows := rows.takeWhile (·.position < startPosition)
  let endsOnTheFrontier :=
    match rows.getLast?, frontierLeaf with
    | some r, some (leafPosition, leaf) =>
      r.position + 1 == startPosition && r.position == leafPosition && decide (r.hash = leaf)
    | _, _ => false
  if !endsOnTheFrontier then
    ([], 0 < total)
  else
    let run := (contiguousFront rows.reverse).reverse
    (run, run.length < total)

end Slipstream
