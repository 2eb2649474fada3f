import Slipstream.Persist.Impl.Leaves
import Slipstream.Persist.Lemmas.Plan

/-!
This module contains the flags of a batch's leaves: as long as no two of them carry the same id, a
leaf is flagged for its checkpoint exactly while the store holds that checkpoint.
-/

namespace Slipstream

variable {H : Type}

namespace Leaves

section Flags

variable {shards : OrdMap Nat Leaves}

theorem flagsAt_insert (shards : OrdMap Nat Leaves) (idx : Nat) (shard : Leaves) (p : Nat)
    : flagsAt (shards.insert idx shard) p = if shardOf p = idx then shard p else flagsAt shards p := by
  rw [flagsAt, OrdMap.get?_insert]
  split <;> rfl

theorem flagsAt_update (shards : OrdMap Nat Leaves) (position : Nat) (flags : LeafFlags) (p : Nat)
    : flagsAt (shards.insert (shardOf position) (Function.update
          ((shards.get? (shardOf position)).getD fun _ => .none) position flags)) p
        =
      if p = position then flags else flagsAt shards p := by
  rw [flagsAt_insert]
  by_cases hp : p = position
  . rw [hp, if_pos rfl, if_pos rfl, Function.update_self]
  . rw [if_neg hp]
    split
    . next hshard =>
      rw [Function.update_of_ne hp, flagsAt, hshard]
      cases shards.get? (shardOf position) <;> rfl
    . rfl

theorem flagsAt_putLeaves_of_not_mem {leaves : List (Nat × LeafFlags)} (hp : p ∉ leaves.map Prod.fst)
    : flagsAt (shards.insertAll (putLeaves shards leaves)) p = flagsAt shards p := by
  induction leaves generalizing shards with
  | nil => rfl
  | cons leaf rest ih =>
    rw [List.map_cons, List.mem_cons, not_or] at hp
    rw [putLeaves, OrdMap.insertAll_cons, ih hp.2, flagsAt_update, if_neg hp.1]

theorem flagsAt_putLeaves {leaves : List (Nat × LeafFlags)} (hnodup : (leaves.map Prod.fst).Nodup)
    (hp : (p, flags) ∈ leaves)
    : flagsAt (shards.insertAll (putLeaves shards leaves)) p = flags := by
  induction leaves generalizing shards with
  | nil => cases hp
  | cons leaf rest ih =>
    rw [List.map_cons, List.nodup_cons] at hnodup
    rw [putLeaves, OrdMap.insertAll_cons]
    rcases List.mem_cons.mp hp with rfl | hp
    . rw [flagsAt_putLeaves_of_not_mem hnodup.1, flagsAt_update, if_pos rfl]
    . exact ih hnodup.2 hp

theorem flagsAt_clearAll (shards : OrdMap Nat Leaves) (cut : OrdMap Nat Checkpoint) (p : Nat)
    : flagsAt (shards.insertAll (clearAll shards cut)) p = (flagsAt shards p).clear cut p := by
  have hall : ∀ e ∈ clearAll shards cut,
      e.2 = fun position => (flagsAt shards position).clear cut position := by
    intro e he
    obtain ⟨idx, -, rfl⟩ := List.mem_map.mp he
    rfl
  by_cases hmem : shardOf p ∈ shards.keys
  . have hkey : shardOf p ∈ (clearAll shards cut).map Prod.fst := by
      rw [clearAll, List.map_map]
      simpa using hmem
    obtain ⟨shard, hget, hin⟩ := shards.exists_get?_insertAll hkey
    have hshard : shard = fun position => (flagsAt shards position).clear cut position := hall _ hin
    rw [flagsAt, hget, hshard]
    rfl
  . have hkey : shardOf p ∉ (clearAll shards cut).map Prod.fst := by
      rw [clearAll, List.map_map]
      simpa using hmem
    have hnone : flagsAt shards p = .none := by
      rw [flagsAt, OrdMap.get?_eq_none hmem]
      rfl
    rw [flagsAt, shards.get?_insertAll_of_not_mem hkey, ← flagsAt, hnone]
    rfl

end Flags

theorem apply_shards (s : SparseShardStore Leaves) (es : List (Nat × Leaves))
    : (s.apply { shards := es, cap := none }).shards = s.shards.insertAll es := by
  show (es.foldl SparseShardStore.putShard s).shards = _
  induction es generalizing s with
  | nil => rfl
  | cons e es ih => exact ih (s.putShard e)

section Insert

variable {cut : Nat → List (H × Retention) → List (List (H × Retention))}
  {cut_flatten : ∀ start rows, (cut start rows).flatten = rows}
  {s s' : SparseShardStore Leaves} {t : Subtree H} {id : Nat}

def leavesOf (t : Subtree H) : List (Nat × LeafFlags) :=
  (rowsFrom t.start t.rows).map fun r => (r.position, r.retention.leafFlags)

theorem insertTree_flags (hinsert : s.insertTree (api cut cut_flatten) t = .ok s') (p : Nat)
    : flagsAt s'.shards p
        =
      (flagsAt (s.shards.insertAll (putLeaves s.shards (leavesOf t))) p).clear
        ((s.checkpoints.insertAll t.entries).filter fun id => decide (id ∉ s'.checkpoints.keys)) p := by
  have hgrown := SparseShardStore.insertTree_grown hinsert
  rw [hgrown.keys (Newest.keep_subset _ _)]
  -- What the library writes first, and what it then clears.
  let written := (s.apply { shards := putLeaves s.shards (leavesOf t), cap := none }).addCheckpoints
    t.entries
  have hwritten : written.shards = s.shards.insertAll (putLeaves s.shards (leavesOf t))
      ∧ written.checkpoints = s.checkpoints.insertAll t.entries ∧ written.retained = s.retained := by
    have hsame := s.apply_sameCheckpoints { shards := putLeaves s.shards (leavesOf t), cap := none }
    simp only [written, SparseShardStore.addCheckpoints_eq, apply_shards, hsame.checkpoints,
      hsame.retained, and_self]
  have hprune : written.pruneExcessCheckpoints (api cut cut_flatten) = .ok s' := hinsert
  cases hprune
  show flagsAt (written.apply { shards := clearAll written.shards _, cap := none }).shards p = _
  rw [apply_shards, flagsAt_clearAll, hwritten.1, hwritten.2.1, hwritten.2.2]

def flagsFor (ids : Finset Nat) (r : Retention) : LeafFlags where
  marked := r.leafFlags.marked
  checkpoint := r.checkpointId.filter (· ∈ ids)

/-- A leaf shows its retention; an id that may still be cut has its checkpoint at this leaf. -/
structure Shows (lasts : Nat → Bool) (s : SparseShardStore Leaves) (p : Nat) (r : Retention)
    : Prop where
  flags : flagsAt s.shards p = flagsFor s.checkpoints.keys r
  stays : ∀ id, r.checkpointId = some id → lasts id = true → id ∈ s.checkpoints.keys
  entry : ∀ id, r.checkpointId = some id → lasts id = false → id ∈ s.checkpoints.keys →
    s.checkpoints.get? id = some (.atPosition p)

theorem flagsFor_mem {ids : Finset Nat} {r : Retention} (hid : r.checkpointId = some id) (h : id ∈ ids)
    : flagsFor ids r = { marked := r.leafFlags.marked, checkpoint := some id } := by
  simp [flagsFor, hid, Option.filter, h]

theorem flagsFor_not_mem {ids : Finset Nat} {r : Retention}
    (h : ∀ id, r.checkpointId = some id → id ∉ ids)
    : flagsFor ids r = { marked := r.leafFlags.marked, checkpoint := none } := by
  cases hid : r.checkpointId with
  | none => simp [flagsFor, hid]
  | some id => simp [flagsFor, hid, Option.filter, h id hid]

theorem clear_flagsFor {table : OrdMap Nat Checkpoint} {ids kept : Finset Nat} {r : Retention}
    (hentry : ∀ id, r.checkpointId = some id → id ∈ ids → id ∉ kept →
      table.get? id = some (.atPosition p))
    (hids : ∀ id, r.checkpointId = some id → id ∈ kept → id ∈ ids)
    : (flagsFor ids r).clear (table.filter fun id => decide (id ∉ kept)) p = flagsFor kept r := by
  by_cases hflagged : ∃ id, r.checkpointId = some id ∧ id ∈ ids
  . obtain ⟨id, hid, hin⟩ := hflagged
    rw [flagsFor_mem hid hin, LeafFlags.clear]
    dsimp only
    rw [OrdMap.get?_filter]
    by_cases hkept : id ∈ kept
    . simp [flagsFor_mem hid hkept, hkept]
    . rw [hentry id hid hin hkept]
      have hnone : ∀ id', r.checkpointId = some id' → id' ∉ kept := by
        intro id' hid'
        rw [hid] at hid'
        cases hid'
        exact hkept
      simp [flagsFor_not_mem hnone, hkept, Checkpoint.atPosition]
  . have hnone : ∀ id, r.checkpointId = some id → id ∉ ids := by
      intro id hid hin
      exact hflagged ⟨id, hid, hin⟩
    rw [flagsFor_not_mem hnone, flagsFor_not_mem fun id hid hkept => hnone id hid (hids id hid hkept)]
    rfl

theorem flagsFor_all {ids : Finset Nat} {r : Retention} (h : ∀ id, r.checkpointId = some id → id ∈ ids)
    : flagsFor ids r = r.leafFlags := by
  cases r with
  | checkpoint id marking => rw [flagsFor_mem rfl (h id rfl)]; rfl
  | _ => rfl

def idsOf (t : Subtree H) : List Nat := (rowsFrom t.start t.rows).filterMap (·.retention.checkpointId)

theorem entries_fst (t : Subtree H) : t.entries.map Prod.fst = idsOf t := by
  rw [Subtree.entries, idsOf, List.map_map, checkpointEntries, List.map_filterMap]
  congr 1
  funext r
  cases r.retention.checkpointId <;> rfl

theorem leavesOf_fst (t : Subtree H)
    : (leavesOf t).map Prod.fst = (rowsFrom t.start t.rows).map AccRow.position := by
  rw [leavesOf, List.map_map]
  rfl

theorem mem_entries {row : AccRow H} (hrow : row ∈ rowsFrom t.start t.rows)
    (hid : row.retention.checkpointId = some id) : (id, .atPosition row.position) ∈ t.entries := by
  rw [Subtree.entries, List.mem_map]
  exact ⟨(id, row.position), mem_checkpointEntries.mpr ⟨row, hrow, hid, rfl⟩, rfl⟩

theorem kept_sub (hinsert : s.insertTree (api cut cut_flatten) t = .ok s')
    (hid : id ∈ s'.checkpoints.keys) : id ∈ s.checkpoints.keys ∨ id ∈ idsOf t := by
  rw [(SparseShardStore.insertTree_grown hinsert).keys (Newest.keep_subset _ _)] at hid
  rw [← entries_fst]
  exact (OrdMap.mem_keys_insertAll _ _).mp (Newest.keep_subset _ _ _ hid)

theorem insertTree_get? (hinsert : s.insertTree (api cut cut_flatten) t = .ok s')
    (hid : id ∈ s'.checkpoints.keys)
    : s'.checkpoints.get? id = (s.checkpoints.insertAll t.entries).get? id := by
  have hgrown := SparseShardStore.insertTree_grown hinsert
  rw [hgrown.keys (Newest.keep_subset _ _)] at hid
  rw [hgrown.checkpoints, OrdMap.get?_filter, if_pos (decide_eq_true hid)]

variable {lasts : Nat → Bool}

theorem insertTree_shows (hinsert : s.insertTree (api cut cut_flatten) t = .ok s')
    (hlasts : ∀ id, lasts id = true → id ∈ (s.checkpoints.insertAll t.entries).keys →
      id ∈ s'.checkpoints.keys)
    (hnodup : ((idsOf t).filter fun id => !lasts id).Nodup) {row : AccRow H}
    (hrow : row ∈ rowsFrom t.start t.rows) : Shows lasts s' row.position row.retention := by
  have hadded : ∀ id, row.retention.checkpointId = some id →
      id ∈ (s.checkpoints.insertAll t.entries).keys := by
    intro id hid
    rw [OrdMap.mem_keys_insertAll]
    exact Or.inr (List.mem_map_of_mem (mem_entries hrow hid))
  have hentry : ∀ id, row.retention.checkpointId = some id → lasts id = false →
      (s.checkpoints.insertAll t.entries).get? id = some (.atPosition row.position) := by
    intro id hid hcut
    have hmem := mem_entries hrow hid
    obtain ⟨c, hget, hin⟩ := s.checkpoints.exists_get?_insertAll (List.mem_map_of_mem hmem)
    -- No other row brings the id.
    have hunique : ((t.entries.filter fun e => !lasts e.1).map Prod.fst).Nodup := by
      rwa [← entries_fst, List.filter_map] at hnodup
    cases List.inj_on_of_nodup_map hunique (List.mem_filter.mpr ⟨hin, by simp [hcut]⟩)
      (List.mem_filter.mpr ⟨hmem, by simp [hcut]⟩) rfl
    exact hget
  have hwritten : flagsAt (s.shards.insertAll (putLeaves s.shards (leavesOf t))) row.position
      = row.retention.leafFlags := by
    apply flagsAt_putLeaves
    . rw [leavesOf_fst, RunFrom.rowsFrom]
      exact List.nodup_range'
    . exact List.mem_map_of_mem hrow
  constructor
  case flags =>
    rw [insertTree_flags hinsert, hwritten, ← flagsFor_all hadded]
    apply clear_flagsFor _ fun id hid _ => hadded id hid
    intro id hid _ hgone
    cases hlast : lasts id with
    | true => exact absurd (hlasts id hlast (hadded id hid)) hgone
    | false => exact hentry id hid hlast
  case stays => exact fun id hid hlast => hlasts id hlast (hadded id hid)
  case entry =>
    intro id hid hcut hkept
    rw [insertTree_get? hinsert hkept]
    exact hentry id hid hcut

theorem Shows.insertTree (h : Shows lasts s p r) (hinsert : s.insertTree (api cut cut_flatten) t = .ok s')
    (hlasts : ∀ id, lasts id = true → id ∈ (s.checkpoints.insertAll t.entries).keys →
      id ∈ s'.checkpoints.keys)
    (hp : p ∉ (rowsFrom t.start t.rows).map AccRow.position)
    (hids : ∀ id, r.checkpointId = some id → lasts id = false → id ∉ idsOf t)
    : Shows lasts s' p r := by
  have hold : ∀ id, r.checkpointId = some id → lasts id = false →
      (s.checkpoints.insertAll t.entries).get? id = s.checkpoints.get? id := by
    intro id hid hcut
    apply OrdMap.get?_insertAll_of_not_mem
    rw [entries_fst]
    exact hids id hid hcut
  have hadded : ∀ id, id ∈ s.checkpoints.keys → id ∈ (s.checkpoints.insertAll t.entries).keys :=
    fun id hid => (OrdMap.mem_keys_insertAll _ _).mpr (Or.inl hid)
  have hthere : ∀ id, r.checkpointId = some id → id ∈ s'.checkpoints.keys →
      id ∈ s.checkpoints.keys := by
    intro id hid hkept
    cases hlast : lasts id with
    | true => exact h.stays id hid hlast
    | false => exact (kept_sub hinsert hkept).resolve_right (hids id hid hlast)
  constructor
  case flags =>
    rw [insertTree_flags hinsert, flagsAt_putLeaves_of_not_mem (by rwa [leavesOf_fst]), h.flags]
    apply clear_flagsFor _ hthere
    intro id hid hin hgone
    cases hlast : lasts id with
    | true => exact absurd (hlasts id hlast (hadded id hin)) hgone
    | false =>
      rw [hold id hid hlast]
      exact h.entry id hid hlast hin
  case stays => exact fun id hid hlast => hlasts id hlast (hadded id (h.stays id hid hlast))
  case entry =>
    intro id hid hcut hkept
    rw [insertTree_get? hinsert hkept, hold id hid hcut]
    exact h.entry id hid hcut (hthere id hid hkept)

variable {policy : Option AnchorRetention} {subtrees : List (Subtree H)}

theorem insertSubtrees_ok (s : SparseShardStore Leaves) (subtrees : List (Subtree H))
    : ∃ s', s.insertSubtrees (api cut cut_flatten) policy subtrees = .ok s' := by
  induction subtrees generalizing s with
  | nil => exact ⟨s, rfl⟩
  | cons t rest ih =>
    obtain ⟨s', hs'⟩ : ∃ s', SparseShardStore.insertTree (api cut cut_flatten)
        { s with retained := s.retained ∪ t.checkpoints.keys.filter (shouldRetainAnchor policy · = true) }
        t = .ok s' := ⟨_, rfl⟩
    obtain ⟨s'', hs''⟩ := ih s'
    refine ⟨s'', ?_⟩
    rw [SparseShardStore.insertSubtrees, List.foldlM_cons]
    exact bind_eq_ok.mpr ⟨s', hs', hs''⟩

/-- The ids that last have room for all of `ids` above them. -/
structure Roomy (lasts : Nat → Bool) (s : SparseShardStore Leaves) (ids : List Nat) : Prop where
  unpinned : s.retained = ∅
  room : ∀ id, lasts id = true →
    ((s.checkpoints.keys ∪ ids.toFinset).filter (id < ·)).card < MAX_CHECKPOINTS

theorem Roomy.insertTree (h : Roomy lasts s (idsOf t ++ ids))
    (hinsert : SparseShardStore.insertTree (api cut cut_flatten)
      { s with retained := s.retained ∪ t.checkpoints.keys.filter (shouldRetainAnchor none · = true) } t
      = .ok s')
    : Roomy lasts s' ids ∧ ∀ id, lasts id = true → id ∈ (s.checkpoints.insertAll t.entries).keys →
      id ∈ s'.checkpoints.keys := by
  have hgrown := SparseShardStore.insertTree_grown hinsert
  have hpins : s.retained ∪ t.checkpoints.keys.filter (shouldRetainAnchor none · = true) = ∅ := by
    rw [h.unpinned]
    simp [shouldRetainAnchor]
  have hkeys := hgrown.keys (Newest.keep_subset _ _)
  have hretained := hgrown.retained
  dsimp only at hkeys hretained
  rw [hpins] at hkeys hretained
  have hin : (s.checkpoints.insertAll t.entries).keys = s.checkpoints.keys ∪ (idsOf t).toFinset := by
    ext id
    rw [OrdMap.mem_keys_insertAll, entries_fst, Finset.mem_union, List.mem_toFinset]
  rw [hin] at hkeys ⊢
  have hsub : ∀ id, ((s.checkpoints.keys ∪ (idsOf t).toFinset).filter (id < ·)).card
      ≤ ((s.checkpoints.keys ∪ (idsOf t ++ ids).toFinset).filter (id < ·)).card := by
    intro id
    apply Finset.card_le_card
    apply Finset.filter_subset_filter
    rw [List.toFinset_append, ← Finset.union_assoc]
    exact Finset.subset_union_left
  constructor
  . refine ⟨hretained, fun id hlast => lt_of_le_of_lt (Finset.card_le_card ?_) (h.room id hlast)⟩
    apply Finset.filter_subset_filter
    rw [hkeys, List.toFinset_append, ← Finset.union_assoc]
    exact Finset.union_subset_union_left (Newest.keep_subset _ _ _)
  . intro id hlast hid
    rw [hkeys, Newest.mem_keep_empty]
    exact ⟨hid, lt_of_le_of_lt (hsub id) (h.room id hlast)⟩

theorem Shows.insertSubtrees (h : Shows lasts s p r) (hroomy : Roomy lasts s (subtrees.flatMap idsOf))
    (hinsert : s.insertSubtrees (api cut cut_flatten) none subtrees = .ok s')
    (hp : p ∉ (subtrees.flatMap fun t => rowsFrom t.start t.rows).map AccRow.position)
    (hids : ∀ id, r.checkpointId = some id → lasts id = false → id ∉ subtrees.flatMap idsOf)
    : Shows lasts s' p r := by
  induction subtrees generalizing s with
  | nil =>
    cases hinsert
    exact h
  | cons t rest ih =>
    rw [SparseShardStore.insertSubtrees, List.foldlM_cons] at hinsert
    obtain ⟨u, hu, hrest⟩ := bind_eq_ok.mp hinsert
    obtain ⟨hroomy, hlasts⟩ := hroomy.insertTree hu
    simp only [List.flatMap_cons, List.map_append, List.mem_append, not_or] at hp hids
    apply ih _ hroomy hrest hp.2 fun id hid hcut => (hids id hid hcut).2
    apply Shows.insertTree _ hu hlasts hp.1 fun id hid hcut => (hids id hid hcut).1
    exact ⟨h.flags, h.stays, h.entry⟩

theorem insertSubtrees_shows (hroomy : Roomy lasts s (subtrees.flatMap idsOf))
    (hinsert : s.insertSubtrees (api cut cut_flatten) none subtrees = .ok s')
    (hpositions : ((subtrees.flatMap fun t => rowsFrom t.start t.rows).map AccRow.position).Nodup)
    (hids : ((subtrees.flatMap idsOf).filter fun id => !lasts id).Nodup) {row : AccRow H}
    (hrow : row ∈ subtrees.flatMap fun t => rowsFrom t.start t.rows)
    : Shows lasts s' row.position row.retention := by
  induction subtrees generalizing s with
  | nil => cases hrow
  | cons t rest ih =>
    rw [SparseShardStore.insertSubtrees, List.foldlM_cons] at hinsert
    obtain ⟨u, hu, hrest⟩ := bind_eq_ok.mp hinsert
    obtain ⟨hroomy, hlasts⟩ := hroomy.insertTree hu
    rw [List.flatMap_cons, List.map_append, List.nodup_append] at hpositions
    rw [List.flatMap_cons, List.filter_append, List.nodup_append] at hids
    rw [List.flatMap_cons, List.mem_append] at hrow
    rcases hrow with hrow | hrow
    . apply (insertTree_shows hu hlasts hids.1 hrow).insertSubtrees hroomy hrest
      . intro hmem
        exact hpositions.2.2 _ (List.mem_map_of_mem hrow) _ hmem rfl
      . intro id hid hcut hmem
        have hin : id ∈ idsOf t := List.mem_filterMap.mpr ⟨row, hrow, hid⟩
        exact hids.2.2 _ (List.mem_filter.mpr ⟨hin, by simp [hcut]⟩) _
          (List.mem_filter.mpr ⟨hmem, by simp [hcut]⟩) rfl
    . exact ih hroomy hrest hpositions.2.1 hids.2.1 hrow

end Insert
end Leaves
end Slipstream
