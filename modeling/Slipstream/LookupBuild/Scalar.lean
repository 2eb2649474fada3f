import Slipstream.LookupBuild.Impl.Build
import Slipstream.Sinsemilla.Batch

/-!
This module contains the equivalence of the lookup build with the scalar one: the precomputed map holds
nothing but scalar combines, so the hash that consults it is the scalar hash under another name.
-/

namespace Slipstream
namespace LookupBuild

open Sinsemilla

section Trees

variable {H H' : Type}

def PrunableTree.map (f : H → H') : PrunableTree H → PrunableTree H'
  | .nil => .nil
  | .leaf value => .leaf (f value.1, value.2)
  | .parent ann left right => .parent (ann.map f) (left.map f) (right.map f)

def PrunableTree.annotations : PrunableTree H → List (Option H)
  | .parent ann left right => ann :: (left.annotations ++ right.annotations)
  | _ => []

def PrunableTree.leaves : PrunableTree H → List (H × RetentionFlags)
  | .nil => []
  | .leaf value => [value]
  | .parent _ left right => left.leaves ++ right.leaves

theorem PrunableTree.shape_map (f : H → H') (t : PrunableTree H) : (t.map f).shape = t.shape := by
  induction t with
  | nil => rfl
  | leaf value => rfl
  | parent ann left right ihl ihr => rw [map, shape, shape, ihl, ihr]

theorem PrunableTree.annotations_map (f : H → H') (t : PrunableTree H)
    : (t.map f).annotations = t.annotations.map (Option.map f) := by
  induction t with
  | nil => rfl
  | leaf value => rfl
  | parent ann left right ihl ihr =>
    rw [map, annotations, annotations, ihl, ihr, List.map_cons, List.map_append]

theorem PrunableTree.leaves_map (f : H → H') (t : PrunableTree H)
    : (t.map f).leaves = t.leaves.map (Prod.map f id) := by
  induction t with
  | nil => rfl
  | leaf value => rfl
  | parent ann left right ihl ihr => rw [map, leaves, leaves, ihl, ihr, List.map_append]

theorem convertTree_eq (t : PrunableTree (LookupHashOrchard N))
    : convertTree t = t.map LookupHashOrchard.node := by
  induction t with
  | nil => rfl
  | leaf value => rfl
  | parent ann left right ihl ihr => rw [convertTree, PrunableTree.map, ihl, ihr]

variable {accepts : Address → Shape → Bool}

def LocatedTree.map (f : H → H') (t : LocatedTree accepts H) : LocatedTree accepts H' where
  rootAddr := t.rootAddr
  root := t.root.map f
  accepted := by rw [PrunableTree.shape_map]; exact t.accepted

def BatchInsertionResult.map (f : H → H') (res : BatchInsertionResult accepts H)
    : BatchInsertionResult accepts H' where
  subtree := res.subtree.map f
  checkpoints := res.checkpoints

structure Hashable.Respects (hash : Hashable H) (hash' : Hashable H') (f : H → H') : Prop where
  emptyLeaf : f hash.emptyLeaf = hash'.emptyLeaf
  emptyRoot : ∀ level, f (hash.emptyRoot level) = hash'.emptyRoot level
  combine : ∀ level a b, f (hash.combine level a b) = hash'.combine level (f a) (f b)

def Parametric (fromIter : FromIter accepts) : Prop :=
  ∀ (H H' : Type) (hash : Hashable H) (hash' : Hashable H') (f : H → H'),
    Function.Injective f → hash.Respects hash' f →
      ∀ (start stop : Nat) (level : UInt8) (rows : List (H × Retention)),
        fromIter H' hash' start stop level (rows.map (Prod.map f id))
          = (fromIter H hash start stop level rows).map (BatchInsertionResult.map f)

end Trees

section Map

variable {N : Type} {up : OrchardNode N} {batch : BatchCombineFn}

def BatchCombines (up : OrchardNode N) (batch : BatchCombineFn) : Prop :=
  ∀ xs : List (UInt8 × N × N),
    batch (xs.map Prod.fst) (xs.map fun x => up.toBytes x.2.1) (xs.map fun x => up.toBytes x.2.2)
      = some (xs.map fun x => up.toBytes (up.combine x.1 x.2.1 x.2.2))

def Precomputed (up : OrchardNode N) (map : CombineMap) : Prop :=
  ∀ e ∈ map, ∃ level a b, e = (combineKey up level a b, up.toBytes (up.combine level a b))

theorem toBytes_inj {a b : N} (h : up.toBytes a = up.toBytes b) : a = b := by
  have hsome := congrArg up.fromBytes h
  rwa [up.fromBytes_toBytes, up.fromBytes_toBytes, Option.some.injEq] at hsome

theorem combineKey_inj {level level' : UInt8} {a a' b b' : N}
    (h : combineKey up level a b = combineKey up level' a' b') : level = level' ∧ a = a' ∧ b = b' := by
  obtain ⟨hleft, hb⟩ := Vector.append_inj h
  obtain ⟨hlevel, ha⟩ := Vector.append_inj hleft
  refine ⟨?_, toBytes_inj ha, toBytes_inj hb⟩
  have hhead := congrArg Vector.head hlevel
  exact hhead

theorem Precomputed.lookup {map : CombineMap} (h : Precomputed up map) {level : UInt8} {a b : N}
    {bytes : Bytes32} (hlookup : map.lookup (combineKey up level a b) = some bytes)
    : bytes = up.toBytes (up.combine level a b) := by
  obtain ⟨before, after, hmap, -⟩ := List.lookup_eq_some_iff.mp hlookup
  have hmem : (combineKey up level a b, bytes) ∈ map := by
    rw [hmap]
    exact List.mem_append_right _ List.mem_cons_self
  obtain ⟨level', a', b', he⟩ := h _ hmem
  rw [Prod.mk.injEq] at he
  obtain ⟨rfl, rfl, rfl⟩ := combineKey_inj he.1
  exact he.2

theorem Precomputed.combine {map : CombineMap} (h : Precomputed up map) (level : UInt8)
    (a b : LookupHashOrchard N)
    : ((lookupHashable up (some map)).combine level a b).node = up.combine level a.node b.node := by
  rw [lookupHashable]
  dsimp only
  cases hhit : map.lookup (combineKey up level a.node b.node) with
  | none => simp [hhit]
  | some bytes => simp [hhit, h.lookup hhit, up.fromBytes_toBytes]

theorem Precomputed.respects {map : CombineMap} (h : Precomputed up map)
    : (lookupHashable up (some map)).Respects up.hashable LookupHashOrchard.node where
  emptyLeaf := rfl
  emptyRoot _ := rfl
  combine := h.combine

theorem Precomputed.level {map : CombineMap} (h : Precomputed up map) (lvl : UInt8)
    (pairs : List (N × N))
    : Precomputed up ((pairs.zip (pairs.map fun p => up.toBytes (up.combine lvl p.1 p.2))).foldl
        (fun map (p : (N × N) × Bytes32) => (combineKey up lvl p.1.1 p.1.2, p.2) :: map) map) := by
  induction pairs generalizing map with
  | nil => exact h
  | cons pair pairs ih =>
    apply ih
    intro e he
    rcases List.mem_cons.mp he with rfl | he
    . exact ⟨lvl, pair.1, pair.2, rfl⟩
    . exact h e he

theorem batch_level (hbatch : BatchCombines up batch) (lvl : UInt8) (pairs : List (N × N))
    : batch (List.replicate pairs.length lvl) (pairs.map fun p => up.toBytes p.1)
        (pairs.map fun p => up.toBytes p.2)
      = some (pairs.map fun p => up.toBytes (up.combine lvl p.1 p.2)) := by
  have hxs := hbatch (pairs.map fun p => (lvl, p.1, p.2))
  simpa [Function.comp_def, List.map_const'] using hxs

theorem precomputeLevels_precomputed (hbatch : BatchCombines up batch) {map : CombineMap}
    (h : Precomputed up map) (lvl : UInt8) (level : List N)
    : ∃ map', precomputeLevels up batch map lvl level = some map' ∧ Precomputed up map' := by
  rw [precomputeLevels]
  by_cases hlevel : level.length ≤ 1
  . rw [if_pos hlevel]
    exact ⟨map, rfl, h⟩
  . rw [if_neg hlevel]
    dsimp only
    rw [batch_level hbatch]
    dsimp only
    rw [if_neg (by rw [List.length_map]; exact Nat.lt_irrefl _)]
    exact precomputeLevels_precomputed hbatch (h.level lvl _) (lvl + 1) _
termination_by level.length
decreasing_by
  rw [List.length_zipWith, levelPairs_length]
  omega

theorem precomputeShardMap_precomputed (hbatch : BatchCombines up batch) (leaves : List N)
    : ∃ map, precomputeShardMap up batch leaves = some map ∧ Precomputed up map := by
  have hempty : Precomputed up [] := by simp [Precomputed]
  rw [precomputeShardMap]
  split
  . exact ⟨[], rfl, hempty⟩
  . exact precomputeLevels_precomputed hbatch hempty 0 leaves

end Map

section Chunks

variable {N : Type} {up : OrchardNode N} {batch : BatchCombineFn} {accepts : Address → Shape → Bool}
  {fromIter : FromIter accepts}

theorem fromParts_convertTree (t : LocatedTree accepts (LookupHashOrchard N))
    : LocatedTree.fromParts t.rootAddr (convertTree t.root) = some (t.map LookupHashOrchard.node) := by
  have haccepted : accepts t.rootAddr (convertTree t.root).shape = true := by
    rw [convertTree_eq, PrunableTree.shape_map]
    exact t.accepted
  rw [LocatedTree.fromParts, dif_pos haccepted, LocatedTree.map, Option.some.injEq,
    LocatedTree.mk.injEq]
  exact ⟨rfl, convertTree_eq t.root⟩

theorem buildChunk_eq (hbatch : BatchCombines up batch) (hfromIter : Parametric fromIter)
    (shardHeight : UInt8) (start : Nat) (rows : List (N × Retention))
    : buildChunk up batch fromIter shardHeight start (rows.map some)
      = some ((fromIter N up.hashable start (start + rows.length) shardHeight rows).map
          fun res => (res.subtree, res.checkpoints)) := by
  obtain ⟨map, hmap, hprecomputed⟩ := precomputeShardMap_precomputed hbatch (rows.map Prod.fst)
  have hinjective : Function.Injective (LookupHashOrchard.node (N := N)) := by
    rintro ⟨a⟩ ⟨b⟩ rfl
    rfl
  have hparam := hfromIter _ _ _ _ _ hinjective hprecomputed.respects start (start + rows.length)
    shardHeight (rows.map fun row => (⟨row.1⟩, row.2))
  have hrows : (rows.map fun row => ((⟨row.1⟩ : LookupHashOrchard N), row.2)).map
      (Prod.map LookupHashOrchard.node id) = rows := by
    rw [List.map_map]
    exact List.map_id rows
  rw [hrows] at hparam
  have hsome : (rows.map some).mapM id = some rows := by
    rw [List.mapM_map]
    exact (mapM_eq_some_map (g := id) fun _ _ => rfl).trans (congrArg some (List.map_id rows))
  rw [hparam, buildChunk, List.length_map, hsome]
  simp only [Option.bind_eq_bind, Option.bind_some, hmap]
  cases fromIter _ (lookupHashable up (some map)) start (start + rows.length) shardHeight
      (rows.map fun row => (⟨row.1⟩, row.2)) with
  | none => rfl
  | some res =>
    simp only [fromParts_convertTree, Option.bind_some]
    rfl

theorem buildSubtreesLookup_eq (hbatch : BatchCombines up batch) (hfromIter : Parametric fromIter)
    (shardHeight : UInt8) (start : Nat) (leaves : List (N × Retention))
    : buildSubtreesLookup up batch fromIter shardHeight start (leaves.map some)
      = some (buildSubtrees up.hashable fromIter shardHeight start leaves) := by
  have hchunk : ∀ c ∈ (parChunks BUILD_CHUNK_SIZE leaves).zipIdx,
      buildChunk up batch fromIter shardHeight (start + c.2 * BUILD_CHUNK_SIZE) (c.1.map some)
        = some ((fromIter N up.hashable (start + c.2 * BUILD_CHUNK_SIZE)
            (start + c.2 * BUILD_CHUNK_SIZE + c.1.length) shardHeight c.1).map
              fun res => (res.subtree, res.checkpoints)) :=
    fun c _ => buildChunk_eq hbatch hfromIter shardHeight _ c.1
  rw [buildSubtreesLookup, parChunks_map, List.zipIdx_map, List.mapM_map]
  change ((parChunks BUILD_CHUNK_SIZE leaves).zipIdx.mapM fun c => buildChunk up batch fromIter
    shardHeight (start + c.2 * BUILD_CHUNK_SIZE) (c.1.map some)) >>= _ = _
  rw [mapM_eq_some_map hchunk, Option.bind_eq_bind, Option.bind_some, List.filterMap_map]
  rfl

/--
For every start, every list of leaves and any retentions, the lookup build returns what the build of
each chunk with the scalar hash returns. The map holds scalar combines only, and the conversion changes
nothing but the type of the hashes.
-/
theorem lookup_build_eq_scalar (up : OrchardNode N) (hbatch : BatchCombines up batch)
    (hfromIter : Parametric fromIter)
    : (∀ (shardHeight : UInt8) (start : Nat) (leaves : List (N × Retention)),
        buildSubtreesLookup up batch fromIter shardHeight start (leaves.map some)
          = some (buildSubtrees up.hashable fromIter shardHeight start leaves))
      ∧ (∀ leaves : List N, ∃ map, precomputeShardMap up batch leaves = some map
        ∧ ∀ (key : Key) (bytes : Bytes32), (key, bytes) ∈ map →
          ∃ level a b, key = combineKey up level a b ∧ bytes = up.toBytes (up.combine level a b))
      ∧ ∀ t : PrunableTree (LookupHashOrchard N),
        (convertTree t).shape = t.shape
          ∧ (convertTree t).annotations = t.annotations.map (Option.map LookupHashOrchard.node)
          ∧ (convertTree t).leaves = t.leaves.map fun value => (value.1.node, value.2) := by
  refine ⟨?_, ?_, ?_⟩
  . exact buildSubtreesLookup_eq hbatch hfromIter
  . intro leaves
    obtain ⟨map, hmap, hprecomputed⟩ := precomputeShardMap_precomputed hbatch leaves
    refine ⟨map, hmap, ?_⟩
    intro key bytes hmem
    obtain ⟨level, a, b, he⟩ := hprecomputed _ hmem
    exact ⟨level, a, b, congrArg Prod.fst he, congrArg Prod.snd he⟩
  . intro t
    rw [convertTree_eq]
    exact ⟨t.shape_map _, t.annotations_map _, t.leaves_map _⟩

end Chunks

section Kernel

variable {N F : Type} [Field F] [DecidableEq F] {cs : Consts F} {toRepr : F → Bytes32}
variable {up : OrchardNode N}

theorem orchardCombineBatchCpu_combines (h : SameChain cs toRepr up.toMerkleHashOrchard)
    : BatchCombines up (orchardCombineBatchCpu cs toRepr up.toMerkleHashOrchard) := by
  intro xs
  rw [orchardCombineBatchCpu_eq cs toRepr _ (by simp) (by simp), List.zip_map', List.zip_map',
    List.map_map, Option.some.injEq]
  apply List.map_congr_left
  intro x _
  have hcanonical : ∀ n, (up.fromBytes (up.toBytes n)).isSome := by
    intro n
    rw [up.fromBytes_toBytes]
    rfl
  rw [Function.comp_apply, combined_eq_scalarCombine h (hcanonical _) (hcanonical _), scalarCombine,
    up.fromBytes_toBytes, up.fromBytes_toBytes]

theorem buildSubtreesLookup_cpu {accepts : Address → Shape → Bool} {fromIter : FromIter accepts}
    (h : SameChain cs toRepr up.toMerkleHashOrchard) (hfromIter : Parametric fromIter)
    (shardHeight : UInt8) (start : Nat) (leaves : List (N × Retention))
    : buildSubtreesLookup up (orchardCombineBatchCpu cs toRepr up.toMerkleHashOrchard) fromIter
        shardHeight start (leaves.map some)
      = some (buildSubtrees up.hashable fromIter shardHeight start leaves) :=
  buildSubtreesLookup_eq (orchardCombineBatchCpu_combines h) hfromIter shardHeight start leaves

end Kernel
section Sample

def flagsOf : Retention → RetentionFlags
  | .ephemeral => ⟨false, false, false⟩
  | .checkpoint _ marking => ⟨true, marking == .marked, marking == .reference⟩
  | .marked => ⟨false, true, false⟩
  | .reference => ⟨false, false, true⟩

/-- Two ephemeral siblings leave their combined hash only. -/
def unite (hash : Hashable H) (level : UInt8) : PrunableTree H → PrunableTree H → PrunableTree H
  | .leaf a, .leaf b =>
    if a.2 = flagsOf .ephemeral ∧ b.2 = flagsOf .ephemeral then
      .leaf (hash.combine level a.1 b.1, a.2)
    else
      .parent none (.leaf a) (.leaf b)
  | left, right => .parent none left right

def uniteAll (hash : Hashable H) (level : UInt8) : List (PrunableTree H) → List (PrunableTree H)
  | left :: right :: rest => unite hash level left right :: uniteAll hash level rest
  | [left] => [unite hash level left .nil]
  | [] => []

def alignedTree (hash : Hashable H) : Nat → UInt8 → List (PrunableTree H) → PrunableTree H
  | 0, _, trees => trees.headD .nil
  | height + 1, level, trees => alignedTree hash height (level + 1) (uniteAll hash level trees)

def alignedIter : FromIter (fun _ _ => true) := fun _ hash start _ level rows =>
  if rows.isEmpty then
    none
  else
    let trees := rows.map fun row => .leaf (row.1, flagsOf row.2)
    some
      { subtree :=
          { rootAddr := ⟨level, start / 2 ^ level.toNat⟩
            root := alignedTree hash level.toNat 0 trees
            accepted := rfl }
        checkpoints := .ofList ((rows.map Prod.snd).zipIdx.filterMap fun r =>
          r.1.checkpointId.map fun id => (id, start + r.2)) }

theorem unite_map {hash : Hashable H} {hash' : Hashable H'} {f : H → H'} (hf : hash.Respects hash' f)
    (level : UInt8) (left right : PrunableTree H)
    : unite hash' level (left.map f) (right.map f) = (unite hash level left right).map f := by
  cases left with
  | leaf a =>
    cases right with
    | leaf b =>
      simp only [unite, PrunableTree.map]
      split
      . rw [PrunableTree.map, hf.combine]
      . rfl
    | _ => rfl
  | _ => rfl

theorem alignedTree_map {hash : Hashable H} {hash' : Hashable H'} {f : H → H'}
    (hf : hash.Respects hash' f) (height : Nat) (level : UInt8) (trees : List (PrunableTree H))
    : alignedTree hash' height level (trees.map (·.map f)) = (alignedTree hash height level trees).map f := by
  have hall : ∀ level (trees : List (PrunableTree H)),
      uniteAll hash' level (trees.map (·.map f)) = (uniteAll hash level trees).map (·.map f) := by
    intro level trees
    fun_induction uniteAll hash level trees with
    | case1 left right rest ih => simp [uniteAll, unite_map hf, ih]
    | case2 left => simp [uniteAll, ← unite_map hf, PrunableTree.map]
    | case3 => rfl
  induction height generalizing level trees with
  | zero => cases trees <;> rfl
  | succ height ih => rw [alignedTree, alignedTree, hall, ih]

theorem alignedIter_parametric : Parametric alignedIter := by
  intro H H' hash hash' f _ hf start stop level rows
  rw [alignedIter, alignedIter, List.isEmpty_map]
  split
  . rfl
  . have htrees : (rows.map (Prod.map f id)).map (fun row => .leaf (row.1, flagsOf row.2))
        = (rows.map fun row => PrunableTree.leaf (row.1, flagsOf row.2)).map (·.map f) := by
      rw [List.map_map, List.map_map]
      rfl
    have hretentions : (rows.map (Prod.map f id)).map Prod.snd = rows.map Prod.snd := by
      rw [List.map_map]
      rfl
    simp only [htrees, hretentions, alignedTree_map hf]
    rfl

def addNode : OrchardNode Bytes32 where
  fromBytes := some
  toBytes := id
  combine level a b := Vector.zipWith (fun x y => x + 3 * y + level) a b
  emptyLeaf := Vector.replicate 32 0
  emptyRoot := Vector.replicate 32
  fromBytes_toBytes _ := rfl

def addBatch : BatchCombineFn := fun layers lefts rights =>
  some (List.zipWith (fun layer p => addNode.combine layer p.1 p.2) layers (lefts.zip rights))

theorem addBatch_combines : BatchCombines addNode addBatch := by
  intro xs
  simp [addBatch, addNode, List.zip_map', List.zipWith_map, List.zipWith_self]

def threeLeaves : List (Bytes32 × Retention) :=
  [(Vector.replicate 32 1, .ephemeral), (Vector.replicate 32 2, .ephemeral),
    (Vector.replicate 32 5, .checkpoint 700 .reference)]

theorem lookup_build_eq_scalar_threeLeaves
    : buildSubtreesLookup addNode addBatch alignedIter 16 65536 (threeLeaves.map some)
      = some (buildSubtrees addNode.hashable alignedIter 16 65536 threeLeaves) :=
  (lookup_build_eq_scalar addNode addBatch_combines alignedIter_parametric).1 16 65536 threeLeaves

def countedConsts : Consts ℚ where
  q := (0, 0)
  s m := (m.val + 1, m.val)

def countedRepr (x : ℚ) : Bytes32 := Vector.replicate 32 (.ofNat x.num.toNat)

def chainNode : OrchardNode Bytes32 where
  fromBytes := some
  toBytes := id
  combine level a b :=
    ((chain countedConsts (chunkIndices level a b)).map fun p => countedRepr p.1).getD a
  emptyLeaf := Vector.replicate 32 0
  emptyRoot := Vector.replicate 32
  fromBytes_toBytes _ := rfl

theorem chainNode_same : SameChain countedConsts countedRepr chainNode.toMerkleHashOrchard := by
  intro layer left right acc _ _ hchain
  simp [scalarCombine, chainNode, hchain]

theorem buildSubtreesLookup_cpu_threeLeaves
    : buildSubtreesLookup chainNode
        (orchardCombineBatchCpu countedConsts countedRepr chainNode.toMerkleHashOrchard) alignedIter 16 65536
        (threeLeaves.map some)
      = some (buildSubtrees chainNode.hashable alignedIter 16 65536 threeLeaves) :=
  buildSubtreesLookup_cpu chainNode_same alignedIter_parametric 16 65536 threeLeaves

end Sample
end LookupBuild
end Slipstream
