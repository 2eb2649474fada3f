import Slipstream.Data.Except
import Slipstream.Persist.Impl.Wallet

/-!
This module contains what the operations of the commitment tree library do to the checkpoints of an
in-memory store.
-/

namespace Slipstream

def Subtree.entries (t : Subtree H) : List (Nat × Checkpoint) :=
  (checkpointEntries (rowsFrom t.start t.rows)).map fun e => (e.1, .atPosition e.2)

theorem Subtree.mem_checkpoints_keys (t : Subtree H)
    : k ∈ t.checkpoints.keys ↔ k ∈ t.entries.map Prod.fst := by
  unfold Subtree.checkpoints streamCheckpointPositions Subtree.entries
  rw [OrdMap.mem_keys_ofList, List.map_map]
  rfl

theorem mem_total_checkpoints {subtrees : List (Subtree H)}
    : k ∈ Newest.total (subtrees.map (·.checkpoints.keys))
        ↔
      k ∈ (subtrees.flatMap Subtree.entries).map Prod.fst := by
  rw [Newest.mem_total, List.map_flatMap, List.mem_flatMap]
  constructor
  . rintro ⟨_, hbatch, hk⟩
    obtain ⟨t, ht, rfl⟩ := List.mem_map.mp hbatch
    exact ⟨t, ht, t.mem_checkpoints_keys.mp hk⟩
  . rintro ⟨t, ht, hk⟩
    exact ⟨_, List.mem_map_of_mem ht, t.mem_checkpoints_keys.mpr hk⟩

/-- The checkpoints left once a frontier is in; only nodes bring the prune with them. -/
def Frontier.kept (f : Frontier H) (pinned ids : Finset Nat) : Finset Nat :=
  match f.value with
  | none => ids
  | some _ => Newest.keep MAX_CHECKPOINTS pinned ids

theorem Frontier.mem_kept {f : Frontier H} {pinned ids : Finset Nat}
    : x ∈ f.kept pinned ids
        ↔
      x ∈ ids ∧ (f.value = none ∨ x ∈ pinned
        ∨ ((ids \ pinned).filter (x < ·)).card < MAX_CHECKPOINTS) := by
  unfold kept
  cases f.value with
  | none => simp
  | some _ => simp [Newest.keep]

theorem Frontier.kept_subset (f : Frontier H) (pinned ids : Finset Nat) : f.kept pinned ids ⊆ ids :=
  fun _ hx => (mem_kept.mp hx).1

theorem Frontier.keep_subset_kept (f : Frontier H) (pinned ids : Finset Nat)
    : Newest.keep MAX_CHECKPOINTS pinned ids ⊆ f.kept pinned ids := by
  intro x hx
  obtain ⟨hmem, hkept⟩ := Finset.mem_filter.mp hx
  exact mem_kept.mpr ⟨hmem, Or.inr hkept⟩

theorem Frontier.card_above_kept (f : Frontier H) (pinned ids t : Finset Nat) (x : Nat)
    : ((f.kept pinned ids \ pinned ∪ t).filter (x < ·)).card < MAX_CHECKPOINTS
        ↔
      ((ids \ pinned ∪ t).filter (x < ·)).card < MAX_CHECKPOINTS := by
  unfold kept
  cases f.value with
  | none => exact Iff.rfl
  | some _ => exact Newest.card_above_keep pinned ids t x

namespace SparseShardStore

variable {H Shard : Type} {api : ShardTreeApi H Shard} {s s' : SparseShardStore Shard}

structure SameCheckpoints (s s' : SparseShardStore Shard) : Prop where
  checkpoints : s'.checkpoints = s.checkpoints
  dbCheckpoints : s'.dbCheckpoints = s.dbCheckpoints
  retained : s'.retained = s.retained
  added : s'.added = s.added

theorem SameCheckpoints.trans {s'' : SparseShardStore Shard} (h : SameCheckpoints s s')
    (h' : SameCheckpoints s' s'') : SameCheckpoints s s'' where
  checkpoints := h'.checkpoints.trans h.checkpoints
  dbCheckpoints := h'.dbCheckpoints.trans h.dbCheckpoints
  retained := h'.retained.trans h.retained
  added := h'.added.trans h.added

theorem putShard_sameCheckpoints (s : SparseShardStore Shard) (e : Nat × Shard)
    : SameCheckpoints s (s.putShard e) := ⟨rfl, rfl, rfl, rfl⟩

theorem foldl_putShard_sameCheckpoints (es : List (Nat × Shard)) (s : SparseShardStore Shard)
    : SameCheckpoints s (es.foldl putShard s) := by
  induction es generalizing s with
  | nil => exact ⟨rfl, rfl, rfl, rfl⟩
  | cons e es ih => exact (s.putShard_sameCheckpoints e).trans (ih _)

theorem apply_sameCheckpoints (s : SparseShardStore Shard) (puts : TreePuts Shard)
    : SameCheckpoints s (s.apply puts) := by
  unfold apply
  apply (foldl_putShard_sameCheckpoints puts.shards s).trans
  cases puts.cap <;> exact ⟨rfl, rfl, rfl, rfl⟩

theorem addCheckpoints_eq (s : SparseShardStore Shard) (es : List (Nat × Checkpoint))
    : s.addCheckpoints es
        =
      { s with checkpoints := s.checkpoints.insertAll es, added := s.added ++ es } := by
  unfold addCheckpoints
  induction es generalizing s with
  | nil => simp [OrdMap.insertAll]
  | cons e es ih =>
    rw [List.foldl_cons, ih]
    simp [addCheckpoint, OrdMap.insertAll]

structure Grown (kept : Finset Nat → Finset Nat) (s s' : SparseShardStore Shard)
    (new : List (Nat × Checkpoint)) : Prop where
  checkpoints : s'.checkpoints = (s.checkpoints.insertAll new).filter fun id =>
    decide (id ∈ kept (s.checkpoints.insertAll new).keys)
  dbCheckpoints : s'.dbCheckpoints = s.dbCheckpoints
  retained : s'.retained = s.retained
  added : s'.added = s.added ++ new

theorem Grown.keys {kept : Finset Nat → Finset Nat} {new : List (Nat × Checkpoint)}
    (h : Grown kept s s' new) (hsub : ∀ ids, kept ids ⊆ ids)
    : s'.checkpoints.keys = kept (s.checkpoints.insertAll new).keys := by
  ext x
  simp only [h.checkpoints, OrdMap.keys_filter, Finset.mem_filter, decide_eq_true_eq]
  exact ⟨And.right, fun hx => ⟨hsub _ hx, hx⟩⟩

theorem Grown.source {kept : Finset Nat → Finset Nat} {new : List (Nat × Checkpoint)}
    (h : Grown kept s s' new) (hcp : s'.checkpoints.get? k = some cp)
    : (k, cp) ∈ new ∨ k ∉ new.map Prod.fst ∧ s.checkpoints.get? k = some cp := by
  rw [h.checkpoints, OrdMap.get?_filter] at hcp
  split at hcp
  . exact s.checkpoints.get?_insertAll_cases hcp
  . cases hcp

theorem pruneExcessCheckpoints_grown (puts : TreePuts Shard) (new : List (Nat × Checkpoint))
    (h : ((s.apply puts).addCheckpoints new).pruneExcessCheckpoints api = .ok s')
    : Grown (Newest.keep MAX_CHECKPOINTS s.retained) s s' new := by
  have hsame := s.apply_sameCheckpoints puts
  unfold pruneExcessCheckpoints at h
  obtain ⟨cleared, -, h⟩ := bind_eq_ok.mp h
  cases h
  have hcleared := apply_sameCheckpoints ((s.apply puts).addCheckpoints new) cleared
  rw [addCheckpoints_eq] at hcleared ⊢
  constructor
  case checkpoints => simp only [hsame.checkpoints, hsame.retained]
  case dbCheckpoints => exact hcleared.dbCheckpoints.trans hsame.dbCheckpoints
  case retained => exact hcleared.retained.trans hsame.retained
  case added => rw [hcleared.added, hsame.added]

theorem insertFrontier_grown {frontier : Frontier H} {id : Nat}
    (h : s.insertFrontier api frontier id = .ok s')
    : Grown (frontier.kept s.retained) s s' [(id, .ofSize frontier.treeSize)] := by
  unfold insertFrontier at h
  unfold Frontier.kept Frontier.treeSize
  cases hvalue : frontier.value with
  | none =>
    rw [hvalue] at h
    cases h
    refine ⟨OrdMap.ext_get? fun k => ?_, rfl, rfl, rfl⟩
    rw [OrdMap.get?_filter]
    dsimp only
    split
    . rfl
    . next hk => exact OrdMap.get?_eq_none fun hmem => hk (decide_eq_true hmem)
  | some f =>
    rw [hvalue] at h
    obtain ⟨puts, -, h⟩ := bind_eq_ok.mp h
    exact pruneExcessCheckpoints_grown puts [(id, .atPosition f.position)] h

theorem insertTree_grown {subtree : Subtree H} (h : s.insertTree api subtree = .ok s')
    : Grown (Newest.keep MAX_CHECKPOINTS s.retained) s s' subtree.entries := by
  unfold insertTree at h
  obtain ⟨puts, -, h⟩ := bind_eq_ok.mp h
  exact pruneExcessCheckpoints_grown puts _ h

theorem keys_insertAll_entries (checkpoints : OrdMap Nat Checkpoint) (subtree : Subtree H)
    : (checkpoints.insertAll subtree.entries).keys
        =
      checkpoints.keys ∪ subtree.checkpoints.keys := by
  ext k
  rw [OrdMap.mem_keys_insertAll, Finset.mem_union, subtree.mem_checkpoints_keys]

structure Built (policy : Option AnchorRetention) (s s' : SparseShardStore Shard)
    (subtrees : List (Subtree H)) : Prop where
  ids : (s'.retained, s'.checkpoints.keys)
    = (subtrees.map (·.checkpoints.keys)).foldl
        (Newest.absorb MAX_CHECKPOINTS (shouldRetainAnchor policy)) (s.retained, s.checkpoints.keys)
  dbCheckpoints : s'.dbCheckpoints = s.dbCheckpoints
  added : s'.added = s.added ++ subtrees.flatMap Subtree.entries

theorem insertSubtrees_built {policy : Option AnchorRetention} {subtrees : List (Subtree H)}
    (h : s.insertSubtrees api policy subtrees = .ok s') : Built policy s s' subtrees := by
  unfold insertSubtrees at h
  induction subtrees generalizing s with
  | nil =>
    cases h
    exact ⟨rfl, rfl, by simp⟩
  | cons t rest ih =>
    rw [List.foldlM_cons] at h
    obtain ⟨u, hu, hrest⟩ := bind_eq_ok.mp h
    have hgrown := insertTree_grown hu
    have hbuilt := ih hrest
    constructor
    case ids =>
      rw [hbuilt.ids, List.map_cons, List.foldl_cons, hgrown.retained,
        hgrown.keys (Newest.keep_subset _ _), keys_insertAll_entries]
      rfl
    case dbCheckpoints => exact hbuilt.dbCheckpoints.trans hgrown.dbCheckpoints
    case added => rw [hbuilt.added, hgrown.added, List.flatMap_cons, List.append_assoc]

end SparseShardStore

namespace Lane

open SparseShardStore

variable {H Shard : Type} {api : ShardTreeApi H Shard} {policy : Option AnchorRetention}
  {lane : Lane H} {s s' : SparseShardStore Shard}

theorem graft_sameCheckpoints (lane : Lane H) (s : SparseShardStore Shard)
    : SameCheckpoints s (lane.graft api s) := by
  unfold graft
  cases lane.plan with
  | none => exact ⟨rfl, rfl, rfl, rfl⟩
  | some plan =>
    have := foldl_putShard_sameCheckpoints (plan.grafts.map fun g => (g.1, api.leaf g.2)) s
    rwa [List.foldl_map] at this

def withFrontier (policy : Option AnchorRetention) (lane : Lane H) (s : SparseShardStore Shard)
    : Finset Nat × Finset Nat :=
  (if shouldRetainAnchor policy lane.frontierId then insert lane.frontierId s.retained
    else s.retained,
    lane.frontier.kept s.retained (insert lane.frontierId s.checkpoints.keys))

def withSubtrees (api : ShardTreeApi H Shard) (policy : Option AnchorRetention) (lane : Lane H)
    (s : SparseShardStore Shard) : Finset Nat × Finset Nat :=
  ((lane.subtrees api policy s).map (·.checkpoints.keys)).foldl
    (Newest.absorb MAX_CHECKPOINTS (shouldRetainAnchor policy)) (lane.withFrontier policy s)

structure Ran (api : ShardTreeApi H Shard) (policy : Option AnchorRetention) (lane : Lane H)
    (s s' : SparseShardStore Shard) : Prop where
  retained : s'.retained = (lane.withSubtrees api policy s).1
  ensured : ∃ minCp ∈ (lane.withSubtrees api policy s).2,
    (∀ id ∈ (lane.withSubtrees api policy s).2, minCp ≤ id)
    ∧ (∀ id, id ∈ s'.checkpoints.keys ↔ id ∈ (lane.withSubtrees api policy s).2
      ∨ id ∈ (lane.missing.filter fun e => minCp < e.1).map Prod.fst)
    ∧ s'.added = s.added ++ (lane.frontierId, .ofSize lane.frontier.treeSize)
        :: ((lane.subtrees api policy s).flatMap Subtree.entries
          ++ lane.missing.filter fun e => minCp < e.1)
  dbCheckpoints : s'.dbCheckpoints = s.dbCheckpoints

theorem insertFrontier_ids (h : lane.insertFrontier api policy s = .ok s')
    : (s'.retained, s'.checkpoints.keys) = lane.withFrontier policy s
      ∧ s'.dbCheckpoints = s.dbCheckpoints
      ∧ s'.added = s.added ++ [(lane.frontierId, .ofSize lane.frontier.treeSize)] := by
  unfold Lane.insertFrontier at h
  obtain ⟨t, ht, h⟩ := bind_eq_ok.mp h
  have hgrown := insertFrontier_grown (mapError_eq_ok.mp ht)
  have hkeys : t.checkpoints.keys = (lane.withFrontier policy s).2 := by
    rw [hgrown.keys (lane.frontier.kept_subset _)]
    rfl
  split at h
  . next hanchor =>
    cases h
    refine ⟨?_, hgrown.dbCheckpoints, hgrown.added⟩
    simp only [ensureRetained, hkeys, hgrown.retained, withFrontier, if_pos hanchor]
  . next hanchor =>
    cases h
    refine ⟨?_, hgrown.dbCheckpoints, hgrown.added⟩
    simp only [hkeys, hgrown.retained, withFrontier, if_neg hanchor]

theorem run_ran (h : lane.run api policy s = .ok s') : Ran api policy lane s s' := by
  unfold run at h
  obtain ⟨t, ht, h⟩ := bind_eq_ok.mp h
  obtain ⟨u, hu, h⟩ := bind_eq_ok.mp h
  have hsame : SameCheckpoints s (lane.graft api s) := lane.graft_sameCheckpoints s
  have hfrontier := insertFrontier_ids ht
  rw [withFrontier, hsame.retained, hsame.checkpoints, hsame.dbCheckpoints, hsame.added,
    ← withFrontier] at hfrontier
  have hbuilt := insertSubtrees_built (mapError_eq_ok.mp hu)
  have hids : (u.retained, u.checkpoints.keys) = lane.withSubtrees api policy s := by
    rw [hbuilt.ids, hfrontier.1]
    rfl
  unfold Lane.ensure at h
  split at h
  . cases h
  . next minCp hmin =>
    cases h
    obtain ⟨hmem, hle⟩ := OrdMap.minKey?_eq_some hmin
    rw [addCheckpoints_eq]
    constructor
    case retained => rw [← hids]
    case dbCheckpoints => exact hbuilt.dbCheckpoints.trans hfrontier.2.1
    case ensured =>
      rw [← hids]
      refine ⟨minCp, hmem, hle, fun id => OrdMap.mem_keys_insertAll _ _, ?_⟩
      rw [hbuilt.added, hfrontier.2.2]
      simp

end Lane
end Slipstream
