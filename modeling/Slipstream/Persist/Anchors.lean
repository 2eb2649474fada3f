import Slipstream.Persist.Lemmas.Accepts
import Slipstream.Persist.Lemmas.Plan

/-!
This module contains which durable anchors a call leaves a checkpoint for: an anchor that the pool has
no commitment for is added only above the oldest checkpoint that survived the inserts.
-/

namespace Slipstream

variable {H B Shard : Type}

structure SparseShardStore.Pinned (policy : Option AnchorRetention) (frontierId : Nat)
    (s : SparseShardStore Shard) : Prop where
  anchors : ∀ id ∈ s.retained, shouldRetainAnchor policy id = true
  pinned : ∀ id ∈ s.checkpoints.keys, frontierId < id → shouldRetainAnchor policy id = true →
    id ∈ s.retained

theorem SparseShardStore.seed_pinned (db : SqlTree Shard) (policy : Option AnchorRetention)
    (frontierId : Nat) : (SparseShardStore.seed db policy).Pinned policy frontierId where
  anchors _ hid := (Finset.mem_filter.mp hid).2
  pinned _ hid _ hanchor := Finset.mem_filter.mpr ⟨hid, hanchor⟩

def PutBlocks.builtIds (call : PutBlocks H) (policy : Option AnchorRetention) (pool : ShieldedPool)
    (stored : Finset Nat) : Finset Nat :=
  (call.cpPos policy pool).keys.filter fun id => shouldRetainAnchor policy id = true
    ∨ ((insert call.fromState.blockHeight stored ∪ (call.cpPos policy pool).keys).filter
        (id < ·)).card < SPARSE_CHECKPOINT_WINDOW

def RoomBelow (policy : Option AnchorRetention) (call : PutBlocks H) (pool : ShieldedPool)
    (s : SparseShardStore Shard) (h : Nat) : Prop :=
  ((call.frontier pool).value = none ∧ call.stream pool = [])
    ∨ (∃ id ∈ s.checkpoints.keys, id ∈ s.retained ∧ id ≤ h)
    ∨ (shouldRetainAnchor policy call.fromState.blockHeight = true
      ∧ ((call.frontier pool).value = none ∨ call.fromState.blockHeight ∈ s.retained
        ∨ ((s.checkpoints.keys \ s.retained).filter (call.fromState.blockHeight < ·)).card
            < MAX_CHECKPOINTS))
    ∨ (∃ b ∈ call.blocks, shouldRetainAnchor policy b.height = true
      ∧ (b.pool pool).commitments ≠ [] ∧ b.height ≤ h)
    ∨ (((s.checkpoints.keys \ s.retained)
        ∪ (call.builtIds policy pool s.checkpoints.keys).filter
            (shouldRetainAnchor policy · = false)).filter (h < ·)).card < MAX_CHECKPOINTS

section Frontier

open SparseShardStore

variable {policy : Option AnchorRetention} {lane : Lane H} {s : SparseShardStore Shard}

theorem mem_withFrontier_pins
    : x ∈ (lane.withFrontier policy s).1
        ↔
      x ∈ s.retained ∨ x = lane.frontierId ∧ shouldRetainAnchor policy lane.frontierId = true := by
  unfold Lane.withFrontier
  dsimp only
  split
  . next h => simp [h, or_comm]
  . next h => simp [h]

theorem withFrontier_pins (h : s.Pinned policy lane.frontierId)
    : ∀ x ∈ (lane.withFrontier policy s).1, shouldRetainAnchor policy x = true := by
  intro x hx
  rcases mem_withFrontier_pins.mp hx with hx | ⟨rfl, hanchor⟩
  . exact h.anchors x hx
  . exact hanchor

theorem withFrontier_plain (h : s.Pinned policy lane.frontierId) (hk : lane.frontierId < k)
    : ∀ x ∈ (lane.withFrontier policy s).2, k < x → x ∉ (lane.withFrontier policy s).1 →
      shouldRetainAnchor policy x = false := by
  intro x hx hlt hnot
  have hstored : x ∈ s.checkpoints.keys := by
    rcases Finset.mem_insert.mp (lane.frontier.kept_subset _ _ hx) with rfl | hx
    . omega
    . exact hx
  cases hanchor : shouldRetainAnchor policy x with
  | false => rfl
  | true =>
    have := h.pinned x hstored (by omega) hanchor
    exact absurd (mem_withFrontier_pins.mpr (Or.inl this)) hnot

theorem above_insert (hk : f ≤ k) (ids pins t : Finset Nat)
    : (insert f ids \ pins ∪ t).filter (k < ·) = (ids \ pins ∪ t).filter (k < ·) := by
  ext x
  simp only [Finset.mem_filter, Finset.mem_union, Finset.mem_sdiff, Finset.mem_insert]
  apply and_congr_left
  intro hlt
  have : x ≠ f := by omega
  simp [this]

theorem above_insert' (hk : f ≤ k) (ids pins : Finset Nat)
    : (insert f ids \ pins).filter (k < ·) = (ids \ pins).filter (k < ·) := by
  have := above_insert hk ids pins ∅
  rwa [Finset.union_empty, Finset.union_empty] at this

theorem withFrontier_unpinned (hk : lane.frontierId ≤ k) (t : Finset Nat)
    : (((lane.withFrontier policy s).2 \ (lane.withFrontier policy s).1 ∪ t).filter (k < ·)).card
          < MAX_CHECKPOINTS
        ↔
      ((s.checkpoints.keys \ s.retained ∪ t).filter (k < ·)).card < MAX_CHECKPOINTS := by
  have hpins : ((lane.withFrontier policy s).2 \ (lane.withFrontier policy s).1 ∪ t).filter (k < ·)
      = ((lane.withFrontier policy s).2 \ s.retained ∪ t).filter (k < ·) := by
    ext x
    simp only [Finset.mem_filter, Finset.mem_union, Finset.mem_sdiff, mem_withFrontier_pins]
    apply and_congr_left
    intro hlt
    have : x ≠ lane.frontierId := by omega
    simp [this]
  rw [hpins, ← above_insert hk s.checkpoints.keys]
  exact lane.frontier.card_above_kept s.retained _ t k

theorem exists_pinned_withFrontier (h : s.Pinned policy lane.frontierId) (hk : lane.frontierId ≤ k)
    : (∃ x ∈ (lane.withFrontier policy s).2, x ∈ (lane.withFrontier policy s).1 ∧ x ≤ k)
        ↔
      (∃ id ∈ s.checkpoints.keys, id ∈ s.retained ∧ id ≤ k)
        ∨ shouldRetainAnchor policy lane.frontierId = true
          ∧ (lane.frontier.value = none ∨ lane.frontierId ∈ s.retained
            ∨ ((s.checkpoints.keys \ s.retained).filter (lane.frontierId < ·)).card
                < MAX_CHECKPOINTS) := by
  have habove := above_insert' (Nat.le_refl lane.frontierId) s.checkpoints.keys s.retained
  have hmem : ∀ x, x ∈ (lane.withFrontier policy s).2
      ↔ x ∈ insert lane.frontierId s.checkpoints.keys ∧ (lane.frontier.value = none ∨ x ∈ s.retained
        ∨ ((insert lane.frontierId s.checkpoints.keys \ s.retained).filter (x < ·)).card
            < MAX_CHECKPOINTS) := fun x => Frontier.mem_kept
  constructor
  . rintro ⟨x, hx, hpin, hle⟩
    obtain ⟨hin, hkept⟩ := (hmem x).mp hx
    rcases mem_withFrontier_pins.mp hpin with hpin | ⟨rfl, hanchor⟩
    . rcases Finset.mem_insert.mp hin with rfl | hin
      . exact Or.inr ⟨h.anchors _ hpin, Or.inr (Or.inl hpin)⟩
      . exact Or.inl ⟨x, hin, hpin, hle⟩
    . rw [habove] at hkept
      exact Or.inr ⟨hanchor, hkept⟩
  . rintro (⟨x, hin, hpin, hle⟩ | ⟨hanchor, hkept⟩)
    . refine ⟨x, (hmem x).mpr ⟨Finset.mem_insert_of_mem hin, Or.inr (Or.inl hpin)⟩, ?_, hle⟩
      exact mem_withFrontier_pins.mpr (Or.inl hpin)
    . rw [← habove] at hkept
      refine ⟨_, (hmem _).mpr ⟨Finset.mem_insert_self _ _, hkept⟩, ?_, hk⟩
      exact mem_withFrontier_pins.mpr (Or.inr ⟨rfl, hanchor⟩)

theorem withFrontier_cut (hsome : lane.frontier.value ≠ none)
    (hlow : ∃ x ∈ (lane.withFrontier policy s).2, x ≤ k)
    : (∃ x ∈ (lane.withFrontier policy s).2, x ∈ (lane.withFrontier policy s).1 ∧ x ≤ k)
      ∨ (((lane.withFrontier policy s).2 \ (lane.withFrontier policy s).1).filter (k < ·)).card
          < MAX_CHECKPOINTS := by
  have hsub : s.retained ⊆ (lane.withFrontier policy s).1 :=
    fun x hx => mem_withFrontier_pins.mpr (Or.inl hx)
  have hkeep : (lane.withFrontier policy s).2
      = Newest.keep MAX_CHECKPOINTS s.retained (insert lane.frontierId s.checkpoints.keys) := by
    unfold Lane.withFrontier Frontier.kept
    cases hvalue : lane.frontier.value with
    | none => exact absurd hvalue hsome
    | some _ => rfl
  rw [hkeep] at hlow ⊢
  rcases Newest.keep_low hlow with ⟨x, hx, hpin, hle⟩ | hroom
  . exact Or.inl ⟨x, hx, hsub hpin, hle⟩
  . apply Or.inr
    refine lt_of_le_of_lt (Finset.card_le_card ?_) hroom
    exact Finset.filter_subset_filter _ (Finset.sdiff_subset_sdiff (Finset.Subset.refl _) hsub)

theorem exists_le_withFrontier (hk : lane.frontierId ≤ k)
    (hroom : ((s.checkpoints.keys \ s.retained).filter (k < ·)).card < MAX_CHECKPOINTS)
    : ∃ x ∈ (lane.withFrontier policy s).2, x ≤ k := by
  obtain ⟨x, hx, hle⟩ := Newest.exists_le_keep.mpr <| Or.inr
    ⟨⟨_, Finset.mem_insert_self lane.frontierId s.checkpoints.keys, hk⟩, by rwa [above_insert' hk]⟩
  exact ⟨x, lane.frontier.keep_subset_kept _ _ hx, hle⟩

end Frontier

section Lane

variable {policy : Option AnchorRetention} {api : ShardTreeApi H Shard} {call : PutBlocks H}
  {pool : ShieldedPool} {s : SparseShardStore Shard}

theorem PutBlocks.Valid.mem_total (hcall : call.Valid)
    : x ∈ Newest.total (((call.lane policy last none pool).subtrees api policy s).map
          (·.checkpoints.keys))
        ↔
      x ∈ call.builtIds policy pool s.checkpoints.keys := by
  have hkeys : x ∈ (call.cpPos policy pool).keys ↔ ∃ p, (x, p) ∈ checkpointEntries
      (rowsFrom (call.frontier pool).treeSize (call.doomedStream policy pool)) := by
    rw [OrdMap.mem_keys_iff]
    apply exists_congr
    intro p
    rw [hcall.get?_cpPos, hcall.mem_entries]
  unfold builtIds
  rw [mem_total_checkpoints, Finset.mem_filter, ← spared_iff, hkeys, List.mem_map]
  constructor
  . rintro ⟨e, he, rfl⟩
    obtain ⟨seg, hseg, p, hp, -, hspared⟩ := Lane.mem_subtrees_entries.mp he
    obtain rfl := List.mem_singleton.mp hseg
    exact ⟨⟨p, hp⟩, hspared⟩
  . rintro ⟨⟨p, hp⟩, hspared⟩
    refine ⟨(x, .atPosition p), Lane.mem_subtrees_entries.mpr ?_, rfl⟩
    exact ⟨_, List.mem_singleton.mpr rfl, p, hp, rfl, hspared⟩

theorem PutBlocks.Valid.exists_le_withSubtrees (hcall : call.Valid)
    (hpinned : s.Pinned policy call.fromState.blockHeight) (hk : call.fromState.blockHeight < k)
    : (∃ x ∈ ((call.lane policy last none pool).withSubtrees api policy s).2, x ≤ k)
        ↔
      RoomBelow policy call pool s k := by
  have htotal : Newest.total (((call.lane policy last none pool).subtrees api policy s).map
      (·.checkpoints.keys)) = call.builtIds policy pool s.checkpoints.keys :=
    Finset.ext fun x => hcall.mem_total
  have hnone : ((call.lane policy last none pool).subtrees api policy s).map (·.checkpoints.keys) = []
      ↔ call.stream pool = [] := by
    rw [List.map_eq_nil_iff, Lane.subtrees_eq_nil rfl, ← List.length_eq_zero_iff,
      ← List.length_eq_zero_iff (l := call.stream pool), ← call.doomedStream_length policy pool]
    rfl
  unfold Lane.withSubtrees RoomBelow
  by_cases hempty : (call.frontier pool).value = none ∧ call.stream pool = []
  . -- Nothing is pruned, so that the checkpoint of the frontier is there.
    rw [hnone.mpr hempty.2]
    refine iff_of_true ⟨call.fromState.blockHeight, ?_, Nat.le_of_lt hk⟩ (Or.inl hempty)
    exact Frontier.mem_kept.mpr ⟨Finset.mem_insert_self _ _, Or.inl hempty.1⟩
  rw [Newest.exists_le_absorb _ (withFrontier_pins hpinned) (withFrontier_plain hpinned hk)
      fun hnil => withFrontier_cut fun hvalue => hempty ⟨hvalue, hnone.mp hnil⟩,
    or_iff_right hempty, exists_pinned_withFrontier hpinned (Nat.le_of_lt hk), or_assoc, htotal,
    withFrontier_unpinned (Nat.le_of_lt hk)]
  apply or_congr_right
  apply or_congr_right
  apply or_congr
  . constructor
    . rintro ⟨x, hx, hanchor, hle⟩
      obtain ⟨⟨b, hb, rfl, hne⟩, -⟩ := hcall.mem_cpPos.mp (Finset.mem_filter.mp hx).1
      exact ⟨b, hb, hanchor, hne, hle⟩
    . rintro ⟨b, hb, hanchor, hne, hle⟩
      refine ⟨b.height, Finset.mem_filter.mpr ⟨?_, Or.inl hanchor⟩, hanchor, hle⟩
      exact hcall.mem_cpPos.mpr ⟨⟨b, hb, rfl, hne⟩, fun _ => hanchor⟩
  . apply and_iff_left_of_imp
    intro hroom
    obtain ⟨x, hx, hle⟩ : ∃ x ∈ ((call.lane policy last none pool).withFrontier policy s).2,
        x ≤ k := by
      apply exists_le_withFrontier (Nat.le_of_lt hk)
      refine lt_of_le_of_lt (Finset.card_le_card ?_) hroom
      exact Finset.filter_subset_filter _ Finset.subset_union_left
    exact ⟨x, Finset.mem_union_left _ hx, hle⟩

end Lane

def AnchorsPresent (policy : Option AnchorRetention) (call : PutBlocks H) (db : WalletDb B Shard)
    (sparse : SparseTreeState H Shard) : Prop :=
  ∀ pool h, call.fromState.blockHeight < h → h ≤ call.lastHeight →
    shouldRetainAnchor policy h = true → h ∈ (sparse.seeded db pool).checkpoints.keys

section Call

variable [DecidableEq H] {up : Upstream H B Shard} {reads : CallReads H} {db db' : WalletDb B Shard}
  {sparse sparse' : SparseTreeState H Shard} {call : PutBlocks H}

theorem mem_checkpoints_iff (hcall : call.Valid) (hgraft : sparse.graft = none)
    (hpinned : (sparse.seeded db pool).Pinned sparse.anchorRetention call.fromState.blockHeight)
    (hrun : sparsePutBlocks up reads db sparse call = ((db', sparse'), .ok ()))
    (hlo : call.fromState.blockHeight < h) (hhi : h ≤ call.lastHeight)
    (hanchor : shouldRetainAnchor sparse.anchorRetention h = true)
    : h ∈ (sparse'.seeded db' pool).checkpoints.keys
        ↔
      RoomBelow sparse.anchorRetention call pool (sparse.seeded db pool) h := by
  obtain ⟨plans, hs⟩ := sparsePutBlocks_succeeded hcall.nonempty hrun
  obtain ⟨staged, hran, hflush⟩ := hs.ran hcall.rows pool
  have hplans : plans pool = none := by
    have := hs.planned
    rw [hgraft] at this
    exact this pool
  rw [hplans, ite_self] at hran
  obtain ⟨minCp, hmin, hle, hkeys, -⟩ := hran.ensured
  rw [flush_store hflush, ← hcall.exists_le_withSubtrees hpinned hlo]
  dsimp only
  rw [hkeys h]
  constructor
  . rintro (hmem | hmem)
    . exact ⟨h, hmem, Nat.le_refl _⟩
    . obtain ⟨e, he, rfl⟩ := List.mem_map.mp hmem
      have : minCp < e.1 := by simpa using (List.mem_filter.mp he).2
      exact ⟨minCp, hmin, Nat.le_of_lt this⟩
  . rintro ⟨x, hx, hxle⟩
    have hminle := Nat.le_trans (hle x hx) hxle
    by_cases hown : h ∈ (call.cpPos sparse.anchorRetention pool).keys
    . -- An anchor among the rows is pinned before the rows go in.
      apply Or.inl
      have hbuilt : h ∈ call.builtIds sparse.anchorRetention pool
          (sparse.seeded db pool).checkpoints.keys :=
        Finset.mem_filter.mpr ⟨hown, Or.inl hanchor⟩
      obtain ⟨batch, hbatch, hin⟩ := Newest.mem_total.mp (hcall.mem_total.mpr hbuilt)
      exact (Newest.mem_absorb_of_batch hbatch hin hanchor _).1
    . rcases Nat.lt_or_eq_of_le hminle with hlt | rfl
      . apply Or.inr
        rw [List.mem_map]
        refine ⟨(h, call.ensuredAt sparse.anchorRetention pool h), ?_, rfl⟩
        rw [List.mem_filter]
        refine ⟨PutBlocks.mem_missing.mpr ⟨⟨?_, hown⟩, rfl⟩, decide_eq_true hlt⟩
        exact PutBlocks.mem_batchEnsureHeights.mpr (Or.inr ⟨⟨hlo, hhi⟩, hanchor⟩)
      . exact Or.inl hmin

theorem SparseShardStore.Pinned.next (hcall : call.Valid) (hgraft : sparse.graft = none)
    (hpinned : (sparse.seeded db pool).Pinned sparse.anchorRetention call.fromState.blockHeight)
    (hrun : sparsePutBlocks up reads db sparse call = ((db', sparse'), .ok ()))
    : (sparse'.seeded db' pool).Pinned sparse'.anchorRetention call.lastHeight := by
  obtain ⟨plans, hs⟩ := sparsePutBlocks_succeeded hcall.nonempty hrun
  obtain ⟨staged, hran, hflush⟩ := hs.ran hcall.rows pool
  have hplans : plans pool = none := by
    have := hs.planned
    rw [hgraft] at this
    exact this pool
  rw [hplans, ite_self] at hran
  obtain ⟨minCp, -, -, hkeys, -⟩ := hran.ensured
  have hlast : call.fromState.blockHeight < call.lastHeight :=
    Nat.lt_add_of_pos_right (List.length_pos_of_ne_nil hcall.nonempty)
  rw [flush_store hflush, hs.anchorRetention]
  constructor
  case anchors =>
    intro id hid
    dsimp only at hid
    rw [hran.retained, Lane.withSubtrees, Newest.mem_pins_absorb] at hid
    exact hid.elim (withFrontier_pins hpinned id) And.right
  case pinned =>
    intro id hid hlt hanchor
    dsimp only at hid ⊢
    rw [hran.retained, Lane.withSubtrees, Newest.mem_pins_absorb]
    apply Or.inl
    by_contra hnot
    rcases (hkeys id).mp hid with hid | hid
    . rcases Newest.mem_of_mem_absorb hid with hold | hown
      . have := withFrontier_plain hpinned hlast id hold hlt hnot
        rw [hanchor] at this
        cases this
      . obtain ⟨⟨b, hb, rfl, -⟩, -⟩ :=
          hcall.mem_cpPos.mp (Finset.mem_filter.mp (hcall.mem_total.mp hown)).1
        have := (hcall.mem_height hb).2
        omega
    . obtain ⟨e, he, rfl⟩ := List.mem_map.mp hid
      have hmissing := PutBlocks.mem_missing.mp (List.mem_filter.mp he).1
      have := (hcall.ensured_height hmissing.1.1).2
      omega

theorem anchorsPresent_iff (hcall : call.Valid) (hgraft : sparse.graft = none)
    (hpinned : ∀ pool, (sparse.seeded db pool).Pinned sparse.anchorRetention
      call.fromState.blockHeight)
    (hrun : sparsePutBlocks up reads db sparse call = ((db', sparse'), .ok ()))
    : AnchorsPresent sparse.anchorRetention call db' sparse'
        ↔
      ∀ pool h, call.fromState.blockHeight < h → h ≤ call.lastHeight →
        shouldRetainAnchor sparse.anchorRetention h = true →
        RoomBelow sparse.anchorRetention call pool (sparse.seeded db pool) h := by
  apply forall_congr'
  intro pool
  apply forall_congr'
  intro h
  apply forall_congr'
  intro hlo
  apply forall_congr'
  intro hhi
  apply forall_congr'
  intro hanchor
  exact mem_checkpoints_iff hcall hgraft (hpinned pool) hrun hlo hhi hanchor

end Call

def recentWallet (first count : Nat) : WalletDb Nat Unit :=
  { WalletDb.fresh Nat with
    trees := fun _ => {
      shards := .empty
      cap := ()
      checkpoints := .ofList ((List.range' first count).map (·, .atPosition 0))
      retained := ∅
    } }

def bareCall : PutBlocks Nat where
  fromState := {
    blockHeight := 100
    finalTree
      | .sapling => ⟨some { position := 0, leaf := 0, ommers := [] }⟩
      | _ => ⟨none⟩
  }
  blocks := [saplingBlock 101 1 [], saplingBlock 102 1 []]
  chainTip := some 1200

theorem bareCall_valid : bareCall.Valid where
  nonempty := by simp [bareCall]
  consecutive := rfl
  continues b hb := by
    cases hb
    decide
  tip_lt tip htip := by
    cases htip
    decide

def bareRun (db : WalletDb Nat Unit)
    : (WalletDb Nat Unit × SparseTreeState Nat Unit) × Except PersistError Unit :=
  sparsePutBlocks (.bare Nat) .none db (.opened (onlyAnchor 102) none) bareCall

theorem anchorsPresent_iff_bareCall
    : ∃ db' sparse', bareRun (.fresh Nat) = ((db', sparse'), .ok ())
      ∧ (AnchorsPresent (onlyAnchor 102) bareCall db' sparse'
        ↔ ∀ pool h, bareCall.fromState.blockHeight < h → h ≤ bareCall.lastHeight →
          shouldRetainAnchor (onlyAnchor 102) h = true →
          RoomBelow (onlyAnchor 102) bareCall pool
            ((SparseTreeState.opened (onlyAnchor 102) none : SparseTreeState Nat Unit).seeded (.fresh Nat)
              pool) h) := by
  obtain ⟨⟨db', sparse'⟩, hrun⟩ := sparsePutBlocks_fresh bareCall_valid (onlyAnchor 102)
  refine ⟨db', sparse', hrun, ?_⟩
  exact anchorsPresent_iff bareCall_valid rfl
    (fun pool => SparseShardStore.seed_pinned _ _ _) hrun

/-- With a hundred newer checkpoints in the store, nothing is left to add the anchor above. -/
theorem bareCall_leaves_out
    : ∃ db' sparse', bareRun (recentWallet 1000 100) = ((db', sparse'), .ok ())
      ∧ 102 ∉ (sparse'.seeded db' .sapling).checkpoints.keys
      ∧ ¬AnchorsPresent (onlyAnchor 102) bareCall db' sparse' := by
  have hroom : ¬RoomBelow (onlyAnchor 102) bareCall .sapling
      ((SparseTreeState.opened (onlyAnchor 102) none : SparseTreeState Nat Unit).seeded
        (recentWallet 1000 100) .sapling) 102 := by
    unfold RoomBelow
    rw [not_or, not_or, not_or, not_or]
    exact ⟨by decide, by decide +kernel, by decide +kernel, by decide +kernel, by decide +kernel⟩
  obtain ⟨⟨db', sparse'⟩, hrun⟩ := sparsePutBlocks_accepts (Upstream.bare_accepts Nat)
    bareCall_valid .none (recentWallet 1000 100) (.opened (onlyAnchor 102) none) nofun
    fun _ => Finset.empty_subset _
  have habsent : 102 ∉ (sparse'.seeded db' .sapling).checkpoints.keys := by
    rwa [mem_checkpoints_iff bareCall_valid rfl (SparseShardStore.seed_pinned _ _ _) hrun (by decide)
      (by decide) (by decide)]
  refine ⟨db', sparse', hrun, habsent, ?_⟩
  intro hpresent
  exact habsent (hpresent .sapling 102 (by decide) (by decide) (by decide))

end Slipstream
