import Slipstream.Chain.Basic
import Slipstream.Data.OrdMap
import Slipstream.Sinsemilla.Impl.Batch

/-!
This module contains the subtree build of `lookup_build.rs`: all combines of a chunk are computed in
batches first, and the tree library then builds the chunk with a hash that looks them up.
-/

namespace Slipstream
namespace LookupBuild

open Sinsemilla (Bytes32 MerkleHashOrchard parChunks)

structure Hashable (H : Type) where
  emptyLeaf : H
  emptyRoot : UInt8 → H
  combine : UInt8 → H → H → H

structure RetentionFlags where
  checkpoint : Bool
  marked : Bool
  reference : Bool
  deriving DecidableEq

inductive PrunableTree (H : Type) where
  | nil
  | leaf (value : H × RetentionFlags)
  | parent (ann : Option H) (left right : PrunableTree H)

inductive Shape where
  | nil
  | leaf
  | parent (left right : Shape)
  deriving DecidableEq

def PrunableTree.shape : PrunableTree H → Shape
  | .nil => .nil
  | .leaf _ => .leaf
  | .parent _ left right => .parent left.shape right.shape

structure Address where
  level : UInt8
  index : Nat
  deriving DecidableEq

section Build

-- Whether a tree of that shape may stand at the address.
variable (accepts : Address → Shape → Bool)

structure LocatedTree (H : Type) where
  rootAddr : Address
  root : PrunableTree H
  accepted : accepts rootAddr root.shape = true

variable {accepts} in
def LocatedTree.fromParts (rootAddr : Address) (root : PrunableTree H)
    : Option (LocatedTree accepts H) :=
  if h : accepts rootAddr root.shape = true then
    some { rootAddr, root, accepted := h }
  else
    none

structure BatchInsertionResult (H : Type) where
  subtree : LocatedTree accepts H
  checkpoints : OrdMap Nat Nat

/-- The library's `LocatedTree::from_iter`: positions `start..end`, the level of the pruned subtree. -/
abbrev FromIter :=
  ∀ H : Type, Hashable H → Nat → Nat → UInt8 → List (H × Retention) → Option (BatchInsertionResult accepts H)

end Build

structure OrchardNode (N : Type) extends MerkleHashOrchard N where
  emptyLeaf : N
  emptyRoot : UInt8 → N
  fromBytes_toBytes : ∀ n, fromBytes (toBytes n) = some n

def OrchardNode.hashable (up : OrchardNode N) : Hashable N where
  emptyLeaf := up.emptyLeaf
  emptyRoot := up.emptyRoot
  combine := up.combine

/-- Batched combines of layers, left and right nodes. `none` is a panic. -/
abbrev BatchCombineFn := List UInt8 → List Bytes32 → List Bytes32 → Option (List Bytes32)

abbrev Key := Vector UInt8 (1 + 32 + 32)

abbrev CombineMap := List (Key × Bytes32)

def combineKey (up : OrchardNode N) (level : UInt8) (a b : N) : Key :=
  Vector.singleton level ++ up.toBytes a ++ up.toBytes b

structure LookupHashOrchard (N : Type) where
  node : N

def lookupHashable (up : OrchardNode N) (precomp : Option CombineMap)
    : Hashable (LookupHashOrchard N) where
  emptyLeaf := ⟨up.emptyLeaf⟩
  emptyRoot level := ⟨up.emptyRoot level⟩
  combine level a b :=
    let hit := precomp.bind fun map => map.lookup (combineKey up level a.node b.node)
    match hit.bind up.fromBytes with
    | some node => ⟨node⟩
    | none => ⟨up.combine level a.node b.node⟩

def pairUp : List N → List (N × N)
  | a :: b :: rest => (a, b) :: pairUp rest
  | _ => []

theorem pairUp_length : ∀ level : List N, (pairUp level).length = level.length / 2
  | [] | [_] => by simp [pairUp]
  | _ :: _ :: rest => by
    simp only [pairUp, List.length_cons, pairUp_length rest]
    omega

def levelPairs (up : OrchardNode N) (lvl : UInt8) (level : List N) : List (N × N) :=
  pairUp (if level.length % 2 = 1 then level ++ [up.emptyRoot lvl] else level)

theorem levelPairs_length (up : OrchardNode N) (lvl : UInt8) (level : List N)
    : (levelPairs up lvl level).length = (level.length + 1) / 2 := by
  rw [levelPairs, pairUp_length]
  split
  . rw [List.length_append, List.length_singleton]
  . omega

def parentOf (up : OrchardNode N) (lvl : UInt8) (pair : N × N) (bytes : Bytes32) : N :=
  (up.fromBytes bytes).getD (up.combine lvl pair.1 pair.2)

def precomputeLevels (up : OrchardNode N) (batch : BatchCombineFn) (map : CombineMap) (lvl : UInt8)
    (level : List N) : Option CombineMap :=
  if level.length ≤ 1 then
    some map
  else
    let pairs := levelPairs up lvl level
    match batch (List.replicate pairs.length lvl) (pairs.map fun p => up.toBytes p.1)
        (pairs.map fun p => up.toBytes p.2) with
    | none => none
    | some parents =>
      -- `parents[i]` for every pair
      if parents.length < pairs.length then
        none
      else
        let filled := (pairs.zip parents).foldl
          (fun map (p : (N × N) × Bytes32) => (combineKey up lvl p.1.1 p.1.2, p.2) :: map) map
        precomputeLevels up batch filled (lvl + 1) (List.zipWith (parentOf up lvl) pairs parents)
termination_by level.length
decreasing_by
  rw [List.length_zipWith, levelPairs_length]
  omega

def precomputeShardMap (up : OrchardNode N) (batch : BatchCombineFn) (leaves : List N)
    : Option CombineMap :=
  if leaves.length ≤ 1 then
    some []
  else
    precomputeLevels up batch [] 0 leaves

def convertTree : PrunableTree (LookupHashOrchard N) → PrunableTree N
  | .parent ann left right =>
    .parent (ann.map LookupHashOrchard.node) (convertTree left) (convertTree right)
  | .leaf value => .leaf (value.1.node, value.2)
  | .nil => .nil

def BUILD_CHUNK_SIZE : Nat := 1024

variable {accepts : Address → Shape → Bool}

/-- One chunk of the build. `none` is a panic, `some none` a chunk without a subtree. -/
def buildChunk (up : OrchardNode N) (batch : BatchCombineFn) (fromIter : FromIter accepts)
    (shardHeight : UInt8) (start : Nat) (chunk : List (Option (N × Retention)))
    : Option (Option (LocatedTree accepts N × OrdMap Nat Nat)) := do
  let stop := start + chunk.length
  let rows ← chunk.mapM id
  let map ← precomputeShardMap up batch (rows.map Prod.fst)
  let res := fromIter _ (lookupHashable up (some map)) start stop shardHeight
    (rows.map fun row => (⟨row.1⟩, row.2))
  match res with
  | none => return none
  | some res =>
    let converted ← LocatedTree.fromParts res.subtree.rootAddr (convertTree res.subtree.root)
    return some (converted, res.checkpoints)

/-- `none` is a panic. -/
def buildSubtreesLookup (up : OrchardNode N) (batch : BatchCombineFn) (fromIter : FromIter accepts)
    (shardHeight : UInt8) (startPosition : Nat) (commitments : List (Option (N × Retention)))
    : Option (List (LocatedTree accepts N × OrdMap Nat Nat)) := do
  let built ← (parChunks BUILD_CHUNK_SIZE commitments).zipIdx.mapM fun c =>
    buildChunk up batch fromIter shardHeight (startPosition + c.2 * BUILD_CHUNK_SIZE) c.1
  return built.filterMap id

/-- The scalar build that the lookup build is compared with: every chunk with the hash itself. -/
def buildSubtrees (hash : Hashable H) (fromIter : FromIter accepts) (shardHeight : UInt8)
    (startPosition : Nat) (commitments : List (H × Retention))
    : List (LocatedTree accepts H × OrdMap Nat Nat) :=
  (parChunks BUILD_CHUNK_SIZE commitments).zipIdx.filterMap fun c =>
    let start := startPosition + c.2 * BUILD_CHUNK_SIZE
    (fromIter H hash start (start + c.1.length) shardHeight c.1).map fun res =>
      (res.subtree, res.checkpoints)

end LookupBuild
end Slipstream
