import Slipstream.Persist.Impl.PutBlocks

/-!
This module contains the commitment tree library as far as the flags of leaves go: an insert writes
the flags of its rows, and a checkpoint that is cut takes the flag of its leaf with it.
-/

namespace Slipstream

variable {H : Type}

structure LeafFlags where
  marked : Bool
  checkpoint : Option Nat
  deriving DecidableEq, Repr

def LeafFlags.none : LeafFlags where
  marked := false
  checkpoint := .none

def Retention.leafFlags : Retention → LeafFlags
  | .ephemeral => .none
  | .marked => { marked := true, checkpoint := .none }
  | .checkpoint id marking => { marked := marking == .marked, checkpoint := some id }
  | .reference => .none

def LeafFlags.clear (flags : LeafFlags) (cut : OrdMap Nat Checkpoint) (position : Nat) : LeafFlags :=
  match flags.checkpoint with
  | .none => flags
  | some id =>
    if (cut.get? id).any (·.treeState == some position) then
      { flags with checkpoint := .none }
    else
      flags

abbrev Leaves := Nat → LeafFlags

namespace Leaves

def flagsAt (shards : OrdMap Nat Leaves) (position : Nat) : LeafFlags :=
  (shards.get? (shardOf position)).elim .none (· position)

def putLeaves (shards : OrdMap Nat Leaves) : List (Nat × LeafFlags) → List (Nat × Leaves)
  | [] => []
  | (position, flags) :: rest =>
    let shard := (shards.get? (shardOf position)).getD fun _ => .none
    let shard := Function.update shard position flags
    (shardOf position, shard) :: putLeaves (shards.insert (shardOf position) shard) rest

def clearAll (shards : OrdMap Nat Leaves) (cut : OrdMap Nat Checkpoint) : List (Nat × Leaves) :=
  (shards.keys.sort (· ≤ ·)).map fun idx =>
    (idx, fun position => (flagsAt shards position).clear cut position)

def api (cut : Nat → List (H × Retention) → List (List (H × Retention)))
    (cut_flatten : ∀ start rows, (cut start rows).flatten = rows) : ShardTreeApi H Leaves where
  insertFrontierNodes shards frontier id :=
    let leaf := (frontier.position, { marked := false, checkpoint := some id })
    .ok { shards := putLeaves shards [leaf], cap := none }
  insertSubtree shards subtree :=
    let leaves := (rowsFrom subtree.start subtree.rows).map fun r => (r.position, r.retention.leafFlags)
    .ok { shards := putLeaves shards leaves, cap := none }
  clearFlags shards cut := .ok { shards := clearAll shards cut, cap := none }
  leaf _ := fun _ => .none
  isLeaf _ := false
  cut
  cut_flatten

end Leaves
end Slipstream
