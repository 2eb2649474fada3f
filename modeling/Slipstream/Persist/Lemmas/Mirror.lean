import Slipstream.Persist.Lemmas.Accepts
import Slipstream.Persist.Lemmas.Plan

/-!
This module contains the shard side of an in-memory store: what the operations of the commitment tree
library keep of it, and what a flush makes of the tree in SQLite.
-/

namespace Slipstream

variable {H B Shard : Type}

namespace SparseShardStore

variable {api : ShardTreeApi H Shard} {P : SparseShardStore Shard → Prop} {s s' : SparseShardStore Shard}
  {t t' : SqlTree Shard}

structure Keeps (api : ShardTreeApi H Shard) (P : SparseShardStore Shard → Prop) : Prop where
  side : ∀ s checkpoints retained added, P s → P { s with checkpoints, retained, added }
  frontier : ∀ s f id puts, api.insertFrontierNodes s.shards f id = .ok puts → P s → P (s.apply puts)
  subtree : ∀ s t puts, api.insertSubtree s.shards t = .ok puts → P s → P (s.apply puts)
  flags : ∀ s cut puts, api.clearFlags s.shards cut = .ok puts → P s → P (s.apply puts)

namespace Keeps

theorem addCheckpoints (h : Keeps api P) (es : List (Nat × Checkpoint)) (hs : P s)
    : P (s.addCheckpoints es) := by
  rw [addCheckpoints_eq]
  apply h.side
  exact hs

theorem prune (h : Keeps api P) (hprune : s.pruneExcessCheckpoints api = .ok s') (hs : P s) : P s' := by
  unfold pruneExcessCheckpoints at hprune
  obtain ⟨puts, hputs, hprune⟩ := bind_eq_ok.mp hprune
  cases hprune
  apply h.side
  apply h.flags _ _ _ hputs hs

theorem insertFrontier (h : Keeps api P) {f : Frontier H} {id : Nat}
    (hinsert : s.insertFrontier api f id = .ok s') (hs : P s) : P s' := by
  unfold SparseShardStore.insertFrontier at hinsert
  split at hinsert
  . cases hinsert
    exact h.addCheckpoints [_] hs
  . obtain ⟨puts, hputs, hinsert⟩ := bind_eq_ok.mp hinsert
    apply h.prune hinsert
    apply h.addCheckpoints [_]
    apply h.frontier _ _ _ _ hputs hs

theorem insertTree (h : Keeps api P) {t : Subtree H} (hinsert : s.insertTree api t = .ok s') (hs : P s)
    : P s' := by
  unfold SparseShardStore.insertTree at hinsert
  obtain ⟨puts, hputs, hinsert⟩ := bind_eq_ok.mp hinsert
  apply h.prune hinsert
  apply h.addCheckpoints
  apply h.subtree _ _ _ hputs hs

theorem insertSubtrees (h : Keeps api P) {subtrees : List (Subtree H)}
    (hinsert : s.insertSubtrees api policy subtrees = .ok s') (hs : P s) : P s' := by
  unfold SparseShardStore.insertSubtrees at hinsert
  induction subtrees generalizing s with
  | nil =>
    cases hinsert
    exact hs
  | cons t rest ih =>
    rw [List.foldlM_cons] at hinsert
    obtain ⟨u, hu, hrest⟩ := bind_eq_ok.mp hinsert
    apply ih hrest
    apply h.insertTree hu
    apply h.side
    exact hs

theorem run (h : Keeps api P) {lane : Lane H} (hrun : lane.run api policy s = .ok s')
    (hs : P (lane.graft api s)) : P s' := by
  unfold Lane.run at hrun
  obtain ⟨u, hu, hrun⟩ := bind_eq_ok.mp hrun
  obtain ⟨v, hv, hrun⟩ := bind_eq_ok.mp hrun
  have hfrontier : P u := by
    unfold Lane.insertFrontier at hu
    obtain ⟨w, hw, hu⟩ := bind_eq_ok.mp hu
    have hw := h.insertFrontier (mapError_eq_ok.mp hw) hs
    split at hu
    . cases hu
      apply h.side
      exact hw
    . cases hu
      exact hw
  unfold Lane.ensure at hrun
  split at hrun
  . cases hrun
  . cases hrun
    apply h.addCheckpoints
    apply h.insertSubtrees (mapError_eq_ok.mp hv) hfrontier

theorem insertDeferredRows (h : Keeps api P) {tree' : SparseShardStore Shard}
    (hinsert : Slipstream.insertDeferredRows api s rows policy label = .ok (some tree')) (hs : P s)
    : P tree' := by
  unfold Slipstream.insertDeferredRows at hinsert
  split at hinsert
  . cases hinsert
  . obtain ⟨u, hu, hinsert⟩ := bind_eq_ok.mp hinsert
    cases hinsert
    apply h.insertSubtrees (mapError_eq_ok.mp hu) hs

end Keeps

structure InStep (t : SqlTree Shard) (s : SparseShardStore Shard) : Prop where
  shards : ∀ k, k ∉ s.dirtyShards → s.shards.get? k = t.shards.get? k
  flushable : s.Flushable
  cap : s.capDirty = false → s.cap = t.cap
  synced : s.dbCheckpoints = t.checkpoints

theorem seed_inStep (t : SqlTree Shard) (policy : Option AnchorRetention)
    : InStep t (seed t policy) where
  shards _ _ := rfl
  flushable := Finset.empty_subset _
  cap _ := rfl
  synced := rfl

theorem InStep.putShard (h : InStep t s) (e : Nat × Shard) : InStep t (s.putShard e) where
  shards k hk := by
    simp only [SparseShardStore.putShard, Finset.mem_insert, not_or] at hk ⊢
    rw [OrdMap.get?_insert_of_ne _ _ hk.1]
    apply h.shards k hk.2
  flushable := h.flushable.putShard e
  cap := h.cap
  synced := h.synced

theorem InStep.putCap (h : InStep t s) (cap : Shard) : InStep t (s.putCap cap) where
  shards := h.shards
  flushable := h.flushable
  cap hclean := by cases hclean
  synced := h.synced

theorem InStep.putShards (h : InStep t s) (es : List (Nat × Shard))
    : InStep t (es.foldl SparseShardStore.putShard s) := by
  induction es generalizing s with
  | nil => exact h
  | cons e es ih =>
    apply ih
    apply h.putShard

theorem InStep.apply (h : InStep t s) (puts : TreePuts Shard) : InStep t (s.apply puts) := by
  unfold SparseShardStore.apply
  cases puts.cap with
  | none => apply h.putShards
  | some cap =>
    apply InStep.putCap
    apply h.putShards

theorem inStep_keeps (api : ShardTreeApi H Shard) (t : SqlTree Shard) : Keeps api (InStep t) where
  side _ _ _ _ h := ⟨h.shards, h.flushable, h.cap, h.synced⟩
  frontier _ _ _ puts _ h := h.apply puts
  subtree _ _ puts _ h := h.apply puts
  flags _ _ puts _ h := h.apply puts

theorem InStep.graft (h : InStep t s) (lane : Lane H) : InStep t (lane.graft api s) := by
  unfold Lane.graft
  cases lane.plan with
  | none => exact h
  | some plan =>
    have := h.putShards (plan.grafts.map fun g => (g.1, api.leaf g.2))
    rwa [List.foldl_map] at this

theorem flush_checkpoints (hsynced : s.dbCheckpoints = t.checkpoints)
    (h : s.flush t = .ok (t', s'))
    : t'.checkpoints = s.checkpoints
      ∧ ∀ id, id ∈ t'.retained ↔
        if s.checkpoints.get? id = t.checkpoints.get? id then id ∈ t.retained
        else id ∈ s.retained ∧ id ∈ s.checkpoints.keys ∨ id ∈ t.retained ∧ id ∉ t.checkpoints.keys := by
  unfold flush at h
  split at h
  . cases h
  . cases h
    simp only [hsynced]
    constructor
    . apply OrdMap.ext_get?
      intro k
      rw [OrdMap.get?_overlay, OrdMap.get?_filter, OrdMap.get?_filter]
      by_cases heq : s.checkpoints.get? k = t.checkpoints.get? k
      . simp [heq]
      . cases hs : s.checkpoints.get? k with
        | some v => simp [hs ▸ heq]
        | none =>
          rw [hs] at heq
          have hmem : k ∈ t.checkpoints.keys := by
            rw [OrdMap.mem_keys]
            exact Option.isSome_iff_ne_none.mpr (Ne.symm heq)
          simp [hs, heq, hmem]
    . intro id
      simp only [Finset.mem_union, Finset.mem_sdiff, Finset.mem_filter, OrdMap.keys_filter]
      split
      . next heq => simp [heq]
      . next heq =>
        simp only [heq, ne_eq, not_false_eq_true, and_true, decide_true]
        tauto

theorem InStep.flush_shards (h : InStep t s) (hflush : s.flush t = .ok (t', s'))
    : t'.shards = s.shards := by
  unfold flush at hflush
  split at hflush
  . cases hflush
  . cases hflush
    apply OrdMap.ext_get?
    intro k
    rw [OrdMap.get?_overlay, OrdMap.get?_filter]
    by_cases hk : k ∈ s.dirtyShards
    . obtain ⟨v, hv⟩ := OrdMap.mem_keys_iff.mp (h.flushable hk)
      simp [hk, hv]
    . simp [hk, h.shards k hk]

theorem InStep.flush_cap (h : InStep t s) (hflush : s.flush t = .ok (t', s')) : t'.cap = s.cap := by
  unfold flush at hflush
  split at hflush
  . cases hflush
  . cases hflush
    dsimp only
    split
    . rfl
    . next hcap =>
      rw [h.cap]
      simpa using hcap

structure Matches (t : SqlTree Shard) (s : SparseShardStore Shard) : Prop extends InStep t s where
  same_shards : s.shards = t.shards
  same_cap : s.cap = t.cap
  same_checkpoints : s.checkpoints = t.checkpoints

theorem seed_matches (t : SqlTree Shard) (policy : Option AnchorRetention)
    : Matches t (seed t policy) where
  toInStep := seed_inStep t policy
  same_shards := rfl
  same_cap := rfl
  same_checkpoints := rfl

theorem InStep.flush (h : InStep t s) (hflush : s.flush t = .ok (t', s')) : Matches t' s' := by
  have hshards := h.flush_shards hflush
  have hcap := h.flush_cap hflush
  obtain ⟨hcheckpoints, -⟩ := flush_checkpoints h.synced hflush
  rw [flush_store hflush]
  constructor
  case toInStep =>
    constructor
    case shards => simp [hshards]
    case flushable => apply Finset.empty_subset
    case cap => simp [hcap]
    case synced => rw [hcheckpoints]
  case same_shards => exact hshards.symm
  case same_cap => exact hcap.symm
  case same_checkpoints => exact hcheckpoints.symm

end SparseShardStore
end Slipstream
