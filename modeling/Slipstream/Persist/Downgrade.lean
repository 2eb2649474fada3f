import Slipstream.Persist.Lemmas.Accepts
import Slipstream.Persist.Lemmas.Leaves

/-!
This module contains the comparison of a lane with the same lane without its downgrade: when both
leave the same checkpoints behind.
-/

namespace Slipstream

variable {H Shard : Type}

namespace Lane

def insertAll (lane : Lane H) (api : ShardTreeApi H Shard) (policy : Option AnchorRetention)
    (subtrees : List (Subtree H)) (store : SparseShardStore Shard)
    : Except PersistError (SparseShardStore Shard) := do
  let store ← lane.insertFrontier api policy store
  mapSparseErr (store.insertSubtrees api policy subtrees)

def plainSubtrees (lane : Lane H) (api : ShardTreeApi H Shard) : List (Subtree H) :=
  buildSubtrees api lane.frontier.treeSize lane.commitments

def runPlain (lane : Lane H) (api : ShardTreeApi H Shard) (policy : Option AnchorRetention)
    (store : SparseShardStore Shard) : Except PersistError (SparseShardStore Shard) := do
  let store ← lane.insertAll api policy (lane.plainSubtrees api) store
  lane.ensure store

variable {api api' : ShardTreeApi H Shard} {policy : Option AnchorRetention} {lane : Lane H}
  {subtrees : List (Subtree H)} {s t t' u u' : SparseShardStore Shard}

theorem run_of_plan_none (hplan : lane.plan = none) (s : SparseShardStore Shard)
    : lane.run api policy s
        =
      lane.insertAll api policy (lane.subtrees api policy s) s >>= lane.ensure := by
  unfold run insertAll graft
  rw [hplan, bind_assoc]

section Ids

theorem insertAll_ids (h : lane.insertAll api policy subtrees s = .ok t)
    : (t.retained, t.checkpoints.keys)
        =
      (subtrees.map (·.checkpoints.keys)).foldl
        (Newest.absorb MAX_CHECKPOINTS (shouldRetainAnchor policy)) (lane.withFrontier policy s) := by
  unfold insertAll at h
  obtain ⟨mid, hmid, h⟩ := bind_eq_ok.mp h
  rw [(SparseShardStore.insertSubtrees_built (mapError_eq_ok.mp h)).ids, (insertFrontier_ids hmid).1]

theorem insertAll_nonempty (h : lane.insertAll api policy subtrees s = .ok t)
    : t.checkpoints.keys.Nonempty := by
  have hids := congrArg Prod.snd (insertAll_ids h)
  dsimp only at hids
  rw [hids]
  apply Newest.absorb_nonempty (by decide)
  apply Finset.Nonempty.mono (lane.frontier.keep_subset_kept _ _)
  exact Newest.keep_nonempty (by decide) _ (Finset.insert_nonempty _ _)

structure Pinnable (policy : Option AnchorRetention) (lane : Lane H) (s : SparseShardStore Shard)
    : Prop where
  anchors : ∀ id ∈ s.retained, shouldRetainAnchor policy id = true
  pinned : ∀ id ∈ s.checkpoints.keys, id ∈ lane.cpPos.keys → shouldRetainAnchor policy id = true →
    id ∈ s.retained

theorem seed_pinnable (db : SqlTree Shard) (policy : Option AnchorRetention) (lane : Lane H)
    : lane.Pinnable policy (SparseShardStore.seed db policy) where
  anchors _ hid := (Finset.mem_filter.mp hid).2
  pinned _ hid _ hanchor := Finset.mem_filter.mpr ⟨hid, hanchor⟩

def pins (policy : Option AnchorRetention) (lane : Lane H) (s : SparseShardStore Shard) (id : Nat)
    : Bool :=
  shouldRetainAnchor policy id
    && decide (id ∈ s.checkpoints.keys → id ∈ s.retained ∨ id = lane.frontierId)

theorem Pinnable.pins_eq (h : lane.Pinnable policy s) {id : Nat} (hid : id ∈ lane.cpPos.keys)
    : lane.pins policy s id = shouldRetainAnchor policy id := by
  rw [pins, Bool.and_eq_left_iff_imp, decide_eq_true_eq]
  intro hanchor hstored
  exact Or.inl (h.pinned id hstored hid hanchor)

theorem Pinnable.withFrontier (h : lane.Pinnable policy s)
    : Newest.PinsExactly (lane.pins policy s) (lane.withFrontier policy s) := by
  have hretained : ∀ id ∈ s.retained, lane.pins policy s id = true := by
    intro id hid
    simp [pins, h.anchors id hid, hid]
  unfold Lane.withFrontier
  constructor
  . intro id hid
    dsimp only at hid
    split at hid
    . next hanchor =>
      rcases Finset.mem_insert.mp hid with rfl | hid
      . simp [pins, hanchor]
      . exact hretained id hid
    . exact hretained id hid
  . intro id hid hpins
    rw [pins, Bool.and_eq_true, decide_eq_true_eq] at hpins
    obtain ⟨hanchor, hpinned⟩ := hpins
    have hcase : id ∈ s.retained ∨ id = lane.frontierId := by
      rcases Finset.mem_insert.mp (lane.frontier.kept_subset _ _ hid) with hid | hid
      . exact Or.inr hid
      . exact hpinned hid
    dsimp only
    rcases hcase with hid | rfl
    . split
      . exact Finset.mem_insert_of_mem hid
      . exact hid
    . rw [if_pos hanchor]
      exact Finset.mem_insert_self _ _

theorem mem_cpPos_iff {id : Nat}
    : id ∈ lane.cpPos.keys
        ↔
      ∃ p, (id, p) ∈ checkpointEntries (rowsFrom lane.frontier.treeSize lane.commitments) := by
  rw [cpPos, streamCheckpointPositions, OrdMap.mem_keys_ofList]
  simp

theorem plainSubtrees_eq_nil : lane.plainSubtrees api = [] ↔ lane.commitments = [] :=
  buildSubtrees_eq_nil

theorem total_plainSubtrees (lane : Lane H) (api : ShardTreeApi H Shard)
    : Newest.total ((lane.plainSubtrees api).map (·.checkpoints.keys)) = lane.cpPos.keys := by
  ext id
  rw [mem_total_checkpoints, plainSubtrees, buildSubtrees_entries, mem_cpPos_iff]
  simp

theorem mem_total_subtrees (hplan : lane.plan = none) {id : Nat}
    : id ∈ Newest.total ((lane.subtrees api policy s).map (·.checkpoints.keys))
        ↔
      id ∈ lane.cpPos.keys ∧ (shouldRetainAnchor policy id = true
        ∨ ((insert lane.frontierId s.checkpoints.keys ∪ lane.cpPos.keys).filter (id < ·)).card
            < SPARSE_CHECKPOINT_WINDOW) := by
  rw [mem_total_checkpoints, subtrees, hplan]
  dsimp only
  rw [buildSubtrees_entries, mem_cpPos_iff, ← spared_iff policy]
  simp only [List.map_map, List.mem_map, Function.comp_apply, mem_entries_downgradeBelow, cutoff]
  constructor
  . rintro ⟨e, ⟨he, hspared⟩, rfl⟩
    exact ⟨⟨e.2, he⟩, hspared⟩
  . rintro ⟨⟨p, hp⟩, hspared⟩
    exact ⟨(id, p), ⟨hp, hspared⟩, rfl⟩

structure Brings (policy : Option AnchorRetention) (lane : Lane H) (subtrees : List (Subtree H))
    : Prop where
  sub : Newest.total (subtrees.map (·.checkpoints.keys)) ⊆ lane.cpPos.keys
  anchors : ∀ id ∈ lane.cpPos.keys, shouldRetainAnchor policy id = true →
    id ∈ Newest.total (subtrees.map (·.checkpoints.keys))

theorem plainSubtrees_brings (lane : Lane H) (api : ShardTreeApi H Shard)
    (policy : Option AnchorRetention) : lane.Brings policy (lane.plainSubtrees api) := by
  constructor
  . rw [total_plainSubtrees]
  . intro id hid _
    rwa [total_plainSubtrees]

theorem subtrees_brings (hplan : lane.plan = none)
    : lane.Brings policy (lane.subtrees api policy s) where
  sub _ hid := ((mem_total_subtrees hplan).mp hid).1
  anchors _ hid hanchor := (mem_total_subtrees hplan).mpr ⟨hid, Or.inl hanchor⟩

theorem Brings.keys (hbrings : lane.Brings policy subtrees) (hpins : lane.Pinnable policy s)
    (h : lane.insertAll api policy subtrees s = .ok t)
    : t.checkpoints.keys
        =
      ((subtrees.map (·.checkpoints.keys)).foldl
        (Newest.absorb MAX_CHECKPOINTS (lane.pins policy s)) (lane.withFrontier policy s)).2 := by
  have hids := congrArg Prod.snd (insertAll_ids h)
  dsimp only at hids
  rw [hids, Newest.foldl_absorb_congr fun id hid => (hpins.pins_eq (hbrings.sub hid)).symm]

theorem Brings.plain (hbrings : lane.Brings policy subtrees) (hne : subtrees ≠ [])
    (hpins : lane.Pinnable policy s) (h : lane.insertAll api policy subtrees s = .ok t)
    : Newest.plain (lane.pins policy s) t.checkpoints.keys
        =
      Newest.keep MAX_CHECKPOINTS ∅ (Newest.plain (lane.pins policy s) (lane.withFrontier policy s).2
        ∪ Newest.plain (lane.pins policy s) (Newest.total (subtrees.map (·.checkpoints.keys)))) := by
  rw [hbrings.keys hpins h]
  apply Newest.plain_foldl_absorb _ hpins.withFrontier
  intro hnil
  exact absurd (List.map_eq_nil_iff.mp hnil) hne

theorem Brings.mem_pinned (hbrings : lane.Brings policy subtrees) (hpins : lane.Pinnable policy s)
    (h : lane.insertAll api policy subtrees s = .ok t) {id : Nat} (hid : lane.pins policy s id = true)
    : id ∈ t.checkpoints.keys ↔ id ∈ (lane.withFrontier policy s).2 ∨ id ∈ lane.cpPos.keys := by
  rw [hbrings.keys hpins h, hpins.withFrontier.mem_foldl_absorb hid]
  apply or_congr_right
  refine ⟨fun h => hbrings.sub h, fun h => hbrings.anchors id h ?_⟩
  rwa [← hpins.pins_eq h]

def CutAnyway (policy : Option AnchorRetention) (lane : Lane H) (s : SparseShardStore Shard) : Prop :=
  ∀ id ∈ lane.cpPos.keys, shouldRetainAnchor policy id = false →
    SPARSE_CHECKPOINT_WINDOW
      ≤ ((insert lane.frontierId s.checkpoints.keys ∪ lane.cpPos.keys).filter (id < ·)).card →
    id ∈ (lane.withFrontier policy s).2
      ∨ MAX_CHECKPOINTS ≤ ((Newest.plain (lane.pins policy s)
          ((lane.withFrontier policy s).2 ∪ lane.cpPos.keys)).filter (id < ·)).card

theorem keys_eq (hplan : lane.plan = none) (hpins : lane.Pinnable policy s)
    (ht : lane.insertAll api policy (lane.subtrees api policy s) s = .ok t)
    (ht' : lane.insertAll api' policy (lane.plainSubtrees api') s = .ok t')
    (hcut : lane.CutAnyway policy s) : t.checkpoints.keys = t'.checkpoints.keys := by
  by_cases hrows : lane.commitments = []
  . -- Only the frontier goes in.
    rw [(subtrees_eq_nil hplan).mpr hrows] at ht
    rw [plainSubtrees_eq_nil.mpr hrows] at ht'
    exact congrArg Prod.snd ((insertAll_ids ht).trans (insertAll_ids ht').symm)
  have hsub : Newest.plain (lane.pins policy s)
        (Newest.total ((lane.subtrees api policy s).map (·.checkpoints.keys)))
      ⊆ Newest.plain (lane.pins policy s) lane.cpPos.keys :=
    Finset.filter_subset_filter _ (subtrees_brings hplan).sub
  have hplain : Newest.plain (lane.pins policy s) t.checkpoints.keys
      = Newest.plain (lane.pins policy s) t'.checkpoints.keys := by
    rw [(subtrees_brings hplan).plain (mt (subtrees_eq_nil hplan).mp hrows) hpins ht,
      (plainSubtrees_brings lane api' policy).plain (mt plainSubtrees_eq_nil.mp hrows) hpins ht',
      total_plainSubtrees]
    apply Newest.keep_union_eq hsub
    intro id hid hleft
    obtain ⟨hmem, hfree⟩ := Finset.mem_filter.mp hid
    have hanchor := hfree
    rw [hpins.pins_eq hmem] at hanchor
    have hfull : SPARSE_CHECKPOINT_WINDOW
        ≤ ((insert lane.frontierId s.checkpoints.keys ∪ lane.cpPos.keys).filter (id < ·)).card := by
      by_contra hroom
      apply hleft
      refine Finset.mem_filter.mpr ⟨(mem_total_subtrees hplan).mpr ⟨hmem, Or.inr ?_⟩, hfree⟩
      omega
    rw [← Newest.plain_union]
    rcases hcut id hmem hanchor hfull with hin | hmany
    . exact Or.inl (Finset.mem_filter.mpr ⟨hin, hfree⟩)
    . exact Or.inr hmany
  ext id
  cases hid : lane.pins policy s id with
  | true =>
    rw [(subtrees_brings hplan).mem_pinned hpins ht hid,
      (plainSubtrees_brings lane api' policy).mem_pinned hpins ht' hid]
  | false =>
    have := Finset.ext_iff.mp hplain id
    simpa [Newest.plain, hid] using this

theorem lost_of_full (hplan : lane.plan = none) (hpins : lane.Pinnable policy s)
    (ht : lane.insertAll api policy (lane.subtrees api policy s) s = .ok t)
    (ht' : lane.insertAll api' policy (lane.plainSubtrees api') s = .ok t') {id : Nat}
    (hmem : id ∈ lane.cpPos.keys) (hanchor : shouldRetainAnchor policy id = false)
    (hfull : SPARSE_CHECKPOINT_WINDOW
      ≤ ((insert lane.frontierId s.checkpoints.keys ∪ lane.cpPos.keys).filter (id < ·)).card)
    (hleft : id ∉ (lane.withFrontier policy s).2)
    (hroom : ((Newest.plain (lane.pins policy s)
      ((lane.withFrontier policy s).2 ∪ lane.cpPos.keys)).filter (id < ·)).card < MAX_CHECKPOINTS)
    : id ∈ t'.checkpoints.keys ∧ id ∉ t.checkpoints.keys := by
  have hfree : lane.pins policy s id = false := by rw [hpins.pins_eq hmem, hanchor]
  have hrows : lane.commitments ≠ [] := by
    rintro hnil
    rw [cpPos, hnil] at hmem
    cases hmem
  constructor
  . have hkept : id ∈ Newest.plain (lane.pins policy s) t'.checkpoints.keys := by
      rw [(plainSubtrees_brings lane api' policy).plain (mt plainSubtrees_eq_nil.mp hrows) hpins ht',
        total_plainSubtrees, ← Newest.plain_union, Newest.mem_keep_empty]
      exact ⟨Finset.mem_filter.mpr ⟨Finset.mem_union_right _ hmem, hfree⟩, hroom⟩
    exact (Finset.mem_filter.mp hkept).1
  . intro hin
    rw [(subtrees_brings hplan).keys hpins ht] at hin
    rcases Newest.mem_of_mem_absorb hin with hin | hin
    . exact hleft hin
    . rcases ((mem_total_subtrees hplan).mp hin).2 with hretain | hfew
      . rw [hanchor] at hretain
        cases hretain
      . omega

section NoPolicy

theorem plain_pins_none (lane : Lane H) (s : SparseShardStore Shard) (ids : Finset Nat)
    : Newest.plain (lane.pins none s) ids = ids :=
  Finset.filter_true_of_mem fun _ _ => rfl

theorem room_withFrontier (hretained : s.retained = ∅) (ids : Finset Nat) (id : Nat)
    : (((lane.withFrontier none s).2 ∪ ids).filter (id < ·)).card < MAX_CHECKPOINTS
        ↔
      ((insert lane.frontierId s.checkpoints.keys ∪ ids).filter (id < ·)).card
        < SPARSE_CHECKPOINT_WINDOW := by
  have hkeep := lane.frontier.card_above_kept ∅ (insert lane.frontierId s.checkpoints.keys) ids id
  rw [Finset.sdiff_empty, Finset.sdiff_empty] at hkeep
  rw [withFrontier, hretained]
  exact hkeep

theorem pinnable_none (lane : Lane H) (hretained : s.retained = ∅) : lane.Pinnable none s where
  anchors id hid := by simp [hretained] at hid
  pinned _ _ _ hanchor := by cases hanchor

theorem cutAnyway_none (hretained : s.retained = ∅) : lane.CutAnyway none s := by
  intro id _ _ hfull
  apply Or.inr
  rw [plain_pins_none, ← not_lt, room_withFrontier hretained]
  omega

theorem spared_of_kept (hretained : s.retained = ∅) (hrows : lane.commitments ≠ [])
    (ht : lane.insertAll api none (lane.plainSubtrees api) s = .ok t) {id : Nat}
    (hid : id ∈ t.checkpoints.keys)
    : ∀ c, lane.cutoff s = some c → spares none c id = true := by
  have hkeys := (plainSubtrees_brings lane api none).plain (mt plainSubtrees_eq_nil.mp hrows)
    (pinnable_none lane hretained) ht
  simp only [plain_pins_none, total_plainSubtrees] at hkeys
  rw [hkeys, Newest.mem_keep_empty, room_withFrontier hretained] at hid
  exact (spared_iff none).mpr (Or.inr hid.2)

end NoPolicy

end Ids

section Ensure

theorem ensure_eq (lane : Lane H) (h : t.checkpoints.keys.Nonempty)
    : ∃ minCp, t.checkpoints.minKey? = some minCp
      ∧ lane.ensure t = .ok (t.addCheckpoints (lane.missing.filter fun e => minCp < e.1)) := by
  refine ⟨t.checkpoints.keys.min' h, dif_pos h, ?_⟩
  rw [ensure, OrdMap.minKey?, dif_pos h]

theorem keys_ensured (minCp : Nat) {id : Nat}
    : id ∈ (t.addCheckpoints (lane.missing.filter fun e => minCp < e.1)).checkpoints.keys
        ↔
      id ∈ t.checkpoints.keys ∨ ∃ e ∈ lane.missing, minCp < e.1 ∧ e.1 = id := by
  rw [SparseShardStore.addCheckpoints_eq, OrdMap.mem_keys_insertAll]
  simp [and_assoc]

end Ensure

section Flags

variable {cut cut' : Nat → List (H × Retention) → List (List (H × Retention))}
  {cut_flatten : ∀ start rows, (cut start rows).flatten = rows}
  {cut_flatten' : ∀ start rows, (cut' start rows).flatten = rows}
  {s t : SparseShardStore Leaves}

theorem insertAll_ok (lane : Lane H) (policy : Option AnchorRetention) (subtrees : List (Subtree H))
    (s : SparseShardStore Leaves)
    : ∃ t, lane.insertAll (Leaves.api cut cut_flatten) policy subtrees s = .ok t := by
  obtain ⟨mid, hmid⟩ : ∃ mid, lane.insertFrontier (Leaves.api cut cut_flatten) policy s = .ok mid := by
    unfold Lane.insertFrontier SparseShardStore.insertFrontier
    cases lane.frontier.value <;> cases shouldRetainAnchor policy lane.frontierId <;> exact ⟨_, rfl⟩
  obtain ⟨t, ht⟩ : ∃ t, mid.insertSubtrees (Leaves.api cut cut_flatten) policy subtrees = .ok t :=
    Leaves.insertSubtrees_ok mid subtrees
  exact ⟨t, bind_eq_ok.mpr ⟨mid, hmid, mapError_eq_ok.mpr ht⟩⟩

theorem buildSubtrees_ids (api : ShardTreeApi H Shard) (start : Nat) (rows : List (H × Retention))
    : (buildSubtrees api start rows).flatMap Leaves.idsOf = rows.filterMap (·.2.checkpointId) := by
  have hrows : (buildSubtrees api start rows).flatMap (fun t => rowsFrom t.start t.rows)
      = rowsFrom start rows := buildSubtrees_rows _ start rows
  have hids : (buildSubtrees api start rows).flatMap Leaves.idsOf
      = (rowsFrom start rows).filterMap (·.retention.checkpointId) := by
    rw [← hrows, List.filterMap_flatMap]
    rfl
  rw [hids]
  clear hids hrows
  induction rows generalizing start with
  | nil => rfl
  | cons c rest ih => rw [rowsFrom, List.filterMap_cons, List.filterMap_cons, ih]

theorem insertAll_shows {rows : List (H × Retention)} {c : H × Retention} {lasts : Nat → Bool}
    (hretained : s.retained = ∅)
    (hroom : ∀ id, lasts id = true → ((insert lane.frontierId s.checkpoints.keys
      ∪ (rows.filterMap (·.2.checkpointId)).toFinset).filter (id < ·)).card < MAX_CHECKPOINTS)
    (h : lane.insertAll (Leaves.api cut cut_flatten) none
      (buildSubtrees (Leaves.api cut cut_flatten) start rows) s = .ok t)
    (hids : ((rows.filterMap (·.2.checkpointId)).filter fun id => !lasts id).Nodup)
    (hi : rows[i]? = some c) : Leaves.Shows lasts t (start + i) c.2 := by
  unfold insertAll at h
  obtain ⟨mid, hmid, h⟩ := bind_eq_ok.mp h
  have hroomy : Leaves.Roomy lasts mid (rows.filterMap (·.2.checkpointId)) := by
    have hfrontier := (insertFrontier_ids hmid).1
    refine ⟨(congrArg Prod.fst hfrontier).trans hretained, fun id hlast => ?_⟩
    have hkeys : mid.checkpoints.keys = (lane.withFrontier none s).2 := congrArg Prod.snd hfrontier
    refine lt_of_le_of_lt (Finset.card_le_card (Finset.filter_subset_filter _ ?_)) (hroom id hlast)
    rw [hkeys]
    exact Finset.union_subset_union_left (lane.frontier.kept_subset _ _)
  have hrow : (⟨start + i, c.1, c.2⟩ : AccRow H)
      ∈ (buildSubtrees (Leaves.api cut cut_flatten) start rows).flatMap
          fun t => rowsFrom t.start t.rows := by
    rw [buildSubtrees_rows]
    exact mem_rowsFrom.mpr ⟨i, c, hi, rfl⟩
  refine Leaves.insertSubtrees_shows ?_ (mapError_eq_ok.mp h) ?_ ?_ hrow
  . rwa [buildSubtrees_ids]
  . rw [buildSubtrees_rows, RunFrom.rowsFrom]
    exact List.nodup_range'
  . rwa [buildSubtrees_ids]

def downgraded (cutoff : Option Nat) (policy : Option AnchorRetention) (r : Retention) : Retention :=
  match cutoff with
  | none => r
  | some c => (downgradeIfDoomed r c policy).1

theorem downgradeBelow_eq_map (rows : List (H × Retention)) (cutoff : Option Nat)
    (policy : Option AnchorRetention)
    : downgradeBelow rows cutoff policy = rows.map fun c => (c.1, downgraded cutoff policy c.2) := by
  cases cutoff with
  | none => simp [downgradeBelow, downgraded]
  | some c => rfl

theorem downgraded_checkpointId (cutoff : Option Nat) (policy : Option AnchorRetention) (r : Retention)
    : (downgraded cutoff policy r).checkpointId
        =
      r.checkpointId.filter fun id => cutoff.all (spares policy · id) := by
  cases cutoff with
  | none =>
    show r.checkpointId = _
    cases r.checkpointId <;> rfl
  | some c => exact downgradeIfDoomed_checkpointId policy r c

theorem downgraded_marked (cutoff : Option Nat) (policy : Option AnchorRetention) (r : Retention)
    : (downgraded cutoff policy r).leafFlags.marked = r.leafFlags.marked := by
  cases cutoff with
  | none => rfl
  | some c =>
    cases r with
    | checkpoint id marking =>
      unfold downgraded downgradeIfDoomed
      dsimp only
      split
      . cases marking <;> rfl
      . rfl
    | _ => rfl

theorem flagsFor_downgraded {cutoff : Option Nat} {ids : Finset Nat}
    (h : ∀ id ∈ ids, ∀ c, cutoff = some c → spares policy c id = true) (r : Retention)
    : Leaves.flagsFor ids (downgraded cutoff policy r) = Leaves.flagsFor ids r := by
  unfold Leaves.flagsFor
  rw [downgraded_marked, downgraded_checkpointId]
  congr 1
  cases r.checkpointId with
  | none => rfl
  | some id =>
    by_cases hid : id ∈ ids
    . have hspared : cutoff.all (spares policy · id) = true := by
        simpa [Option.all_eq_true] using h id hid
      simp [Option.filter, hspared]
    . cases hspared : cutoff.all (spares policy · id) <;> simp [Option.filter, hspared, hid]

theorem downgradeBelow_sublist (rows : List (H × Retention)) (cutoff : Option Nat)
    (policy : Option AnchorRetention)
    : List.Sublist ((downgradeBelow rows cutoff policy).filterMap (·.2.checkpointId))
        (rows.filterMap (·.2.checkpointId)) := by
  rw [downgradeBelow_eq_map, List.filterMap_map]
  simp only [Function.comp_def, downgraded_checkpointId]
  rw [← List.filter_filterMap]
  exact List.filter_sublist

end Flags
end Lane

structure Lane.Alike (lane : Lane H) (t t' : SparseShardStore Leaves) : Prop where
  ids : t.checkpoints.keys = t'.checkpoints.keys
  flags : ∀ i < lane.commitments.length,
    Leaves.flagsAt t.shards (lane.frontier.treeSize + i)
      = Leaves.flagsAt t'.shards (lane.frontier.treeSize + i)

section NoPolicy

variable {cut cut' : Nat → List (H × Retention) → List (List (H × Retention))}
  {cut_flatten : ∀ start rows, (cut start rows).flatten = rows}
  {cut_flatten' : ∀ start rows, (cut' start rows).flatten = rows}
  {lane : Lane H} {s t t' : SparseShardStore Leaves}

def Lane.lasts (lane : Lane H) (s : SparseShardStore Leaves) (id : Nat) : Bool :=
  decide (((insert lane.frontierId s.checkpoints.keys ∪ lane.cpPos.keys).filter (id < ·)).card
    < SPARSE_CHECKPOINT_WINDOW)

theorem Lane.nodup_lasts
    (h : ∀ c, lane.cutoff s = some c →
      ((lane.commitments.filterMap (·.2.checkpointId)).filter (· < c)).Nodup)
    : ((lane.commitments.filterMap (·.2.checkpointId)).filter fun id => !lane.lasts s id).Nodup := by
  have hspared : ∀ id, lane.lasts s id = true ↔ ∀ c, lane.cutoff s = some c → spares none c id = true := by
    intro id
    rw [Lane.cutoff, spared_iff none, Lane.lasts, decide_eq_true_eq]
    exact (or_iff_right (by simp [shouldRetainAnchor])).symm
  cases hcutoff : lane.cutoff s with
  | none =>
    rw [List.filter_eq_nil_iff.mpr]
    . exact List.nodup_nil
    . intro id _
      simp [(hspared id).mpr fun c hc => by rw [hcutoff] at hc; cases hc]
  | some c =>
    refine List.Nodup.sublist (List.monotone_filter_right _ fun id hid => ?_) (h c hcutoff)
    by_contra hge
    have : lane.lasts s id = true := (hspared id).mpr fun c' hc' => by
      rw [hcutoff] at hc'
      cases hc'
      simpa [spares, shouldRetainAnchor] using hge
    simp [this] at hid

theorem Lane.insertAll_alike (hplan : lane.plan = none) (hretained : s.retained = ∅)
    (hids : ∀ c, lane.cutoff s = some c →
      ((lane.commitments.filterMap (·.2.checkpointId)).filter (· < c)).Nodup)
    (ht : lane.insertAll (Leaves.api cut cut_flatten) none
      (lane.subtrees (Leaves.api cut cut_flatten) none s) s = .ok t)
    (ht' : lane.insertAll (Leaves.api cut' cut_flatten') none
      (lane.plainSubtrees (Leaves.api cut' cut_flatten')) s = .ok t')
    : lane.Alike t t' := by
  have hkeys := keys_eq hplan (pinnable_none lane hretained) ht ht' (cutAnyway_none hretained)
  refine ⟨hkeys, ?_⟩
  intro i hi
  have hrow : lane.commitments[i]? = some lane.commitments[i] := List.getElem?_eq_getElem hi
  have hdown : (downgradeBelow lane.commitments (lane.cutoff s) none)[i]?
      = some (lane.commitments[i].1, downgraded (lane.cutoff s) none lane.commitments[i].2) := by
    rw [downgradeBelow_eq_map, List.getElem?_map, hrow]
    rfl
  rw [Lane.subtrees, hplan] at ht
  have hroom : ∀ ids, List.Sublist ids (lane.commitments.filterMap (·.2.checkpointId)) →
      ∀ id, lane.lasts s id = true → ((insert lane.frontierId s.checkpoints.keys
        ∪ ids.toFinset).filter (id < ·)).card < MAX_CHECKPOINTS := by
    intro ids hsub id hlast
    refine lt_of_le_of_lt (Finset.card_le_card ?_) (of_decide_eq_true hlast)
    apply Finset.filter_subset_filter
    apply Finset.union_subset_union_right
    intro x hx
    obtain ⟨c, hc, hx⟩ := List.mem_filterMap.mp (hsub.subset (List.mem_toFinset.mp hx))
    exact mem_cpPos_iff.mpr (exists_mem_entries.mpr ⟨c, hc, hx⟩)
  have hsub := downgradeBelow_sublist lane.commitments (lane.cutoff s) none
  have hnodup := Lane.nodup_lasts hids
  have hshows := insertAll_shows hretained (hroom _ hsub) ht (hnodup.sublist (hsub.filter _)) hdown
  have hshows' := insertAll_shows hretained (hroom _ (List.Sublist.refl _)) ht' hnodup hrow
  rw [hshows.flags, hshows'.flags, hkeys]
  apply flagsFor_downgraded
  intro id hid
  exact spared_of_kept hretained (List.ne_nil_of_length_pos (Nat.zero_lt_of_lt hi)) ht' hid

/-- A downgrade leaves no trace when there are no anchors. -/
theorem downgrade_leaves_no_trace (hplan : lane.plan = none) (hretained : s.retained = ∅)
    (hids : ∀ c, lane.cutoff s = some c →
      ((lane.commitments.filterMap (·.2.checkpointId)).filter (· < c)).Nodup)
    : ∃ t t' minCp, lane.insertAll (Leaves.api cut cut_flatten) none
          (lane.subtrees (Leaves.api cut cut_flatten) none s) s = .ok t
        ∧ lane.insertAll (Leaves.api cut' cut_flatten') none
          (lane.plainSubtrees (Leaves.api cut' cut_flatten')) s = .ok t'
        ∧ lane.Alike t t'
        ∧ lane.run (Leaves.api cut cut_flatten) none s
          = .ok (t.addCheckpoints (lane.missing.filter fun e => minCp < e.1))
        ∧ lane.runPlain (Leaves.api cut' cut_flatten') none s
          = .ok (t'.addCheckpoints (lane.missing.filter fun e => minCp < e.1)) := by
  obtain ⟨t, ht⟩ : ∃ t, lane.insertAll (Leaves.api cut cut_flatten) none
      (lane.subtrees (Leaves.api cut cut_flatten) none s) s = .ok t := Lane.insertAll_ok _ _ _ _
  obtain ⟨t', ht'⟩ : ∃ t', lane.insertAll (Leaves.api cut' cut_flatten') none
      (lane.plainSubtrees (Leaves.api cut' cut_flatten')) s = .ok t' := Lane.insertAll_ok _ _ _ _
  have halike := Lane.insertAll_alike hplan hretained hids ht ht'
  obtain ⟨minCp, hmin, hensure⟩ := lane.ensure_eq (Lane.insertAll_nonempty ht)
  obtain ⟨minCp', hmin', hensure'⟩ := lane.ensure_eq (Lane.insertAll_nonempty ht')
  obtain rfl : minCp = minCp' := by
    rw [OrdMap.minKey?_congr halike.ids, hmin'] at hmin
    exact (Option.some.inj hmin).symm
  refine ⟨t, t', minCp, ht, ht', halike, ?_, ?_⟩
  . rw [Lane.run_of_plan_none hplan]
    exact bind_eq_ok.mpr ⟨t, ht, hensure⟩
  . exact bind_eq_ok.mpr ⟨t', ht', hensure'⟩

end NoPolicy

def ShardTreeApi.leaves : ShardTreeApi Nat Leaves :=
  Leaves.api (fun _ rows => [rows]) fun _ _ => List.flatten_singleton

theorem Lane.runs_ok {lane : Lane Nat} (hplan : lane.plan = none) (policy : Option AnchorRetention)
    (s : SparseShardStore Leaves)
    : ∃ t t' u u', lane.insertAll .leaves policy (lane.subtrees .leaves policy s) s = .ok t
      ∧ lane.insertAll .leaves policy (lane.plainSubtrees .leaves) s = .ok t'
      ∧ lane.ensure t = .ok u ∧ lane.ensure t' = .ok u'
      ∧ lane.run .leaves policy s = .ok u ∧ lane.runPlain .leaves policy s = .ok u' := by
  obtain ⟨t, ht⟩ : ∃ t, lane.insertAll .leaves policy (lane.subtrees .leaves policy s) s = .ok t :=
    insertAll_ok lane policy _ s
  obtain ⟨t', ht'⟩ : ∃ t', lane.insertAll .leaves policy (lane.plainSubtrees .leaves) s = .ok t' :=
    insertAll_ok lane policy _ s
  obtain ⟨minCp, -, hu⟩ := lane.ensure_eq (insertAll_nonempty ht)
  obtain ⟨minCp', -, hu'⟩ := lane.ensure_eq (insertAll_nonempty ht')
  refine ⟨t, t', _, _, ht, ht', hu, hu', ?_, bind_eq_ok.mpr ⟨t', ht', hu'⟩⟩
  rw [run_of_plan_none hplan]
  exact bind_eq_ok.mpr ⟨t, ht, hu⟩

def SparseShardStore.holding (policy : Option AnchorRetention) (ids : List Nat)
    : SparseShardStore Leaves :=
  seed {
    shards := .empty
    cap := fun _ => .none
    checkpoints := .ofList (ids.map (·, .treeEmpty))
    retained := ∅
  } policy

def windowCall : PutBlocks Nat where
  fromState := { blockHeight := 899, finalTree := fun _ => ⟨none⟩ }
  blocks := (List.range 101).map fun i => saplingBlock (900 + i) i [i]
  chainTip := some 1100

def windowLane (policy : Option AnchorRetention) : Lane Nat := windowCall.lane policy 1000 none .sapling

theorem downgrade_leaves_no_trace_windowCall
    : ∃ t t' minCp, (windowLane none).insertAll .leaves none
          ((windowLane none).subtrees .leaves none (.holding none [])) (.holding none []) = .ok t
        ∧ (windowLane none).insertAll .leaves none ((windowLane none).plainSubtrees .leaves)
          (.holding none []) = .ok t'
        ∧ (windowLane none).Alike t t'
        ∧ (windowLane none).run .leaves none (.holding none [])
          = .ok (t.addCheckpoints ((windowLane none).missing.filter fun e => minCp < e.1))
        ∧ (windowLane none).runPlain .leaves none (.holding none [])
          = .ok (t'.addCheckpoints ((windowLane none).missing.filter fun e => minCp < e.1)) :=
  downgrade_leaves_no_trace rfl rfl fun _ _ => List.Nodup.filter _ (by decide +kernel)

def repeatLane : Lane Nat where
  pool := .sapling
  frontierId := 4
  frontier := ⟨none⟩
  commitments := [(0, .checkpoint 5 .none), (1, .checkpoint 5 .none)]
  missing := []
  plan := none

def newerStore : SparseShardStore Leaves := .holding none (List.range' 1000 100)

theorem repeatLane_downgrades
    : repeatLane.subtrees .leaves none newerStore
        =
      buildSubtrees .leaves 0 [(0, .ephemeral), (1, .ephemeral)] := by
  obtain ⟨c, hc, hlt⟩ : ∃ c, repeatLane.cutoff newerStore = some c ∧ 5 < c := by
    by_contra hno
    push Not at hno
    have hspared : ∀ c, repeatLane.cutoff newerStore = some c → spares none c 5 = true := by
      intro c hc
      simp [spares, hno c hc]
    exact absurd ((spared_iff none).mp hspared) (by decide +kernel)
  have hdoomed : (downgradeIfDoomed (.checkpoint 5 .none) c none).1 = .ephemeral := by
    simp [downgradeIfDoomed, hlt, shouldRetainAnchor]
  show buildSubtrees .leaves 0 (downgradeBelow repeatLane.commitments (repeatLane.cutoff newerStore) none) = _
  rw [hc]
  simp only [downgradeBelow, downgradeDoomedCheckpoints, repeatLane, List.map_cons, List.map_nil, hdoomed]

theorem repeatLane_keeps_flag {s s' : SparseShardStore Leaves}
    (h : s.insertTree .leaves ⟨0, repeatLane.commitments⟩ = .ok s')
    : Leaves.flagsAt s'.shards 0 = { marked := false, checkpoint := some 5 } := by
  have hput : Leaves.flagsAt (s.shards.insertAll
        (Leaves.putLeaves s.shards (Leaves.leavesOf ⟨0, repeatLane.commitments⟩))) 0
      = { marked := false, checkpoint := some 5 } :=
    Leaves.flagsAt_putLeaves (by decide) List.mem_cons_self
  have hentry : (s.checkpoints.insertAll (Subtree.entries ⟨0, repeatLane.commitments⟩)).get? 5
      = some (.atPosition 1) := rfl
  rw [Leaves.insertTree_flags h, hput, LeafFlags.clear]
  dsimp only
  rw [OrdMap.get?_filter, hentry]
  split <;> rfl

theorem repeatLane_leaves_trace
    : ∃ t t', repeatLane.insertAll .leaves none (repeatLane.subtrees .leaves none newerStore) newerStore
          = .ok t
      ∧ repeatLane.insertAll .leaves none (repeatLane.plainSubtrees .leaves) newerStore = .ok t'
      ∧ Leaves.flagsAt t.shards 0 = { marked := false, checkpoint := none }
      ∧ Leaves.flagsAt t'.shards 0 = { marked := false, checkpoint := some 5 } := by
  obtain ⟨t, t', -, -, ht, ht', -⟩ := repeatLane.runs_ok rfl none newerStore
  refine ⟨t, t', ht, ht', ?_, ?_⟩
  . rw [repeatLane_downgrades] at ht
    have hrow : [((0 : Nat), Retention.ephemeral), (1, .ephemeral)][0]? = some (0, .ephemeral) := rfl
    have hunpinned : newerStore.retained = ∅ :=
      Finset.filter_false_of_mem fun _ _ => by simp [shouldRetainAnchor]
    have hshows : Leaves.Shows (fun _ => false) t (0 + 0) .ephemeral :=
      Lane.insertAll_shows hunpinned (by simp) ht List.nodup_nil hrow
    exact hshows.flags
  . obtain ⟨mid, -, ht'⟩ := bind_eq_ok.mp ht'
    obtain ⟨last, hlast, ht'⟩ := bind_eq_ok.mp (mapError_eq_ok.mp ht')
    cases ht'
    exact repeatLane_keeps_flag hlast

section Policy

variable {api api' : ShardTreeApi H Shard} {policy : Option AnchorRetention} {call : PutBlocks H}
  {last : Nat} {pool : ShieldedPool} {s t u u' : SparseShardStore Shard}

theorem mem_of_ensure (ht : t.checkpoints.keys.Nonempty)
    (h : (call.lane policy last none pool).ensure t = .ok u) {id : Nat}
    (hid : id ∈ (call.cpPos policy pool).keys) : id ∈ u.checkpoints.keys ↔ id ∈ t.checkpoints.keys := by
  obtain ⟨minCp, -, hensure⟩ := (call.lane policy last none pool).ensure_eq ht
  rw [hensure] at h
  cases h
  rw [Lane.keys_ensured, or_iff_left]
  rintro ⟨e, he, -, rfl⟩
  exact (PutBlocks.mem_missing.mp he).1.2 hid

/--
Which checkpoints survive besides the anchors does not depend on the downgrade exactly if all that is
downgraded is cut anyway.
-/
theorem plain_survivors_iff (hpins : (call.lane policy last none pool).Pinnable policy s)
    (hrun : (call.lane policy last none pool).run api policy s = .ok u)
    (hplain : (call.lane policy last none pool).runPlain api' policy s = .ok u')
    : Newest.plain (shouldRetainAnchor policy) u.checkpoints.keys
          = Newest.plain (shouldRetainAnchor policy) u'.checkpoints.keys
        ↔
      (call.lane policy last none pool).CutAnyway policy s := by
  rw [Lane.run_of_plan_none rfl] at hrun
  obtain ⟨t, ht, hu⟩ := bind_eq_ok.mp hrun
  obtain ⟨t', ht', hu'⟩ := bind_eq_ok.mp hplain
  constructor
  . intro heq
    by_contra hcut
    unfold Lane.CutAnyway at hcut
    push Not at hcut
    obtain ⟨id, hown, hid, hfull, hleft, hroom⟩ := hcut
    obtain ⟨hin, hout⟩ := Lane.lost_of_full rfl hpins ht ht' hown hid hfull hleft hroom
    rw [← mem_of_ensure (Lane.insertAll_nonempty ht') hu' hown] at hin
    rw [← mem_of_ensure (Lane.insertAll_nonempty ht) hu hown] at hout
    have hmem := Finset.ext_iff.mp heq id
    simp only [Newest.plain, Finset.mem_filter, hid, and_true] at hmem
    exact hout (hmem.mpr hin)
  . intro hcut
    have hkeys := Lane.keys_eq rfl hpins ht ht' hcut
    obtain ⟨minCp, hmin, hensure⟩ :=
      (call.lane policy last none pool).ensure_eq (Lane.insertAll_nonempty ht)
    obtain ⟨minCp', hmin', hensure'⟩ :=
      (call.lane policy last none pool).ensure_eq (Lane.insertAll_nonempty ht')
    obtain rfl : minCp = minCp' := by
      rw [OrdMap.minKey?_congr hkeys, hmin'] at hmin
      exact (Option.some.inj hmin).symm
    rw [hensure] at hu
    rw [hensure'] at hu'
    cases hu
    cases hu'
    congr 1
    ext id
    rw [Lane.keys_ensured, Lane.keys_ensured, hkeys]

end Policy

theorem plain_survivors_iff_windowCall
    : ∃ u u', (windowLane (onlyAnchor 1000)).run .leaves (onlyAnchor 1000) (.holding (onlyAnchor 1000) [])
          = .ok u
      ∧ (windowLane (onlyAnchor 1000)).runPlain .leaves (onlyAnchor 1000)
          (.holding (onlyAnchor 1000) []) = .ok u'
      ∧ (Newest.plain (shouldRetainAnchor (onlyAnchor 1000)) u.checkpoints.keys
            = Newest.plain (shouldRetainAnchor (onlyAnchor 1000)) u'.checkpoints.keys
          ↔ (windowLane (onlyAnchor 1000)).CutAnyway (onlyAnchor 1000) (.holding (onlyAnchor 1000) [])) := by
  obtain ⟨-, -, u, u', -, -, -, -, hrun, hplain⟩ :=
    (windowLane (onlyAnchor 1000)).runs_ok rfl (onlyAnchor 1000) (.holding (onlyAnchor 1000) [])
  exact ⟨u, u', hrun, hplain, plain_survivors_iff (Lane.seed_pinnable _ _ _) hrun hplain⟩

/--
The anchor at 1000 takes the place of the block at 900, which is downgraded although it is one of the
hundred newest that are no anchors.
-/
theorem windowCall_loses
    : ∃ u u', (windowLane (onlyAnchor 1000)).run .leaves (onlyAnchor 1000) (.holding (onlyAnchor 1000) [])
          = .ok u
      ∧ (windowLane (onlyAnchor 1000)).runPlain .leaves (onlyAnchor 1000)
          (.holding (onlyAnchor 1000) []) = .ok u'
      ∧ 900 ∈ u'.checkpoints.keys ∧ 900 ∉ u.checkpoints.keys
      ∧ Newest.plain (shouldRetainAnchor (onlyAnchor 1000)) u.checkpoints.keys
          ≠ Newest.plain (shouldRetainAnchor (onlyAnchor 1000)) u'.checkpoints.keys := by
  obtain ⟨t, t', u, u', ht, ht', hu, hu', hrun, hplain⟩ :=
    (windowLane (onlyAnchor 1000)).runs_ok rfl (onlyAnchor 1000) (.holding (onlyAnchor 1000) [])
  have hown : 900 ∈ (windowLane (onlyAnchor 1000)).cpPos.keys := by decide +kernel
  obtain ⟨hin, hout⟩ := Lane.lost_of_full rfl (Lane.seed_pinnable _ _ _) ht ht' hown (by decide)
    (by decide +kernel) (by decide +kernel) (by decide +kernel)
  rw [← mem_of_ensure (Lane.insertAll_nonempty ht') hu' hown] at hin
  rw [← mem_of_ensure (Lane.insertAll_nonempty ht) hu hown] at hout
  refine ⟨u, u', hrun, hplain, hin, hout, ?_⟩
  intro heq
  have hmem := Finset.ext_iff.mp heq 900
  simp only [Newest.plain, Finset.mem_filter] at hmem
  exact hout (hmem.mpr ⟨hin, by decide⟩).1

end Slipstream
