import Slipstream.Persist.Lemmas.Accepts
import Slipstream.Persist.Lemmas.Plan

/-!
This module contains where the checkpoints that a call adds end up: on the pool's last commitment at
or below their height, unless a deep call has doomed the checkpoint of the block that holds it.
-/

namespace Slipstream

variable {H B Shard : Type}

theorem Checkpoint.ofSize_succ (p : Nat) : Checkpoint.ofSize (p + 1) = .atPosition p := by
  simp [Checkpoint.ofSize]

theorem Checkpoint.ofSize_injective : Function.Injective Checkpoint.ofSize := by
  intro a b h
  cases a with
  | zero =>
    cases b with
    | zero => rfl
    | succ b =>
      rw [Checkpoint.ofSize_succ] at h
      cases h
  | succ a =>
    cases b with
    | zero =>
      rw [Checkpoint.ofSize_succ] at h
      cases h
    | succ b =>
      rw [Checkpoint.ofSize_succ, Checkpoint.ofSize_succ, Checkpoint.atPosition,
        Checkpoint.atPosition] at h
      cases h
      rfl

def addedBy (db db' : WalletDb B Shard) (sparse sparse' : SparseTreeState H Shard)
    (pool : ShieldedPool) : List (Nat × Checkpoint) :=
  (sparse'.seeded db' pool).added.drop (sparse.seeded db pool).added.length

def CarriesEarlier (up : Upstream H B Shard) (db : WalletDb B Shard)
    (sparse : SparseTreeState H Shard) (call : PutBlocks H) : Prop :=
  ∀ ctx, sparse.graft = some ctx → ∀ pool, pool ≠ .ironwood →
    Carries up.ser (db.buffer pool) (ctx.acc pool) (call.frontier pool).treeSize fun r =>
      ∀ id, r.retention.checkpointId = some id → id ≤ call.fromState.blockHeight

def PositionsRight [DecidableEq H] (policy : Option AnchorRetention) (call : PutBlocks H) : Prop :=
  ∀ (B Shard : Type) (up : Upstream H B Shard) (reads : CallReads H) (db db' : WalletDb B Shard)
    (sparse sparse' : SparseTreeState H Shard), sparse.anchorRetention = policy →
    CarriesEarlier up db sparse call →
    sparsePutBlocks up reads db sparse call = ((db', sparse'), .ok ()) →
    ∀ pool, ∀ e ∈ addedBy db db' sparse sparse' pool,
      call.fromState.blockHeight < e.1 → e.1 ≤ call.lastHeight →
      e.2 = .ofSize (call.sizeAt pool e.1)

structure Misplaced (policy : Option AnchorRetention) (call : PutBlocks H) (pool : ShieldedPool)
    (h : Nat) : Prop where
  deep : call.isDeep = true
  above : call.fromState.blockHeight < h
  le : h ≤ call.lastHeight
  anchor : shouldRetainAnchor policy h = true
  doomed : ∃ b, LastCommitted pool call.blocks h b ∧ shouldRetainAnchor policy b.height = false

namespace PutBlocks.Valid

variable {call : PutBlocks H} {policy : Option AnchorRetention} {pool : ShieldedPool}

theorem own_right (hcall : call.Valid)
    (h : (k, p) ∈ checkpointEntries (rowsFrom (call.frontier pool).treeSize
      (call.doomedStream policy pool)))
    : Checkpoint.atPosition p = .ofSize (call.sizeAt pool k) := by
  rw [← (hcall.mem_entries.mp h).2.1, Checkpoint.ofSize_succ]

theorem ensured_anchor (hcall : call.Valid) (hdeep : call.isDeep = true)
    (h : k ∈ batchEnsureHeights (fun p => (call.cpPos policy p).keys) policy
      (call.fromState.blockHeight + 1) last pool) : shouldRetainAnchor policy k = true := by
  rcases mem_batchEnsureHeights.mp h with ⟨p, -, hp⟩ | ⟨-, hanchor⟩
  . exact (hcall.mem_cpPos.mp hp).2 hdeep
  . exact hanchor

theorem floor?_cpPos (hcall : call.Valid) (hlast : LastCommitted pool call.blocks k b)
    (hkept : call.isDeep = true → shouldRetainAnchor policy b.height = true)
    : ∃ p, (call.cpPos policy pool).floor? k = some p ∧ p + 1 = call.sizeAt pool k := by
  have hmem : b.height ∈ (call.cpPos policy pool).keys :=
    hcall.mem_cpPos.mpr ⟨⟨b, hlast.mem, rfl, hlast.committed⟩, hkept⟩
  obtain ⟨p, hp⟩ := OrdMap.mem_keys_iff.mp hmem
  refine ⟨p, OrdMap.floor?_eq_some hp hlast.le ?_, ?_⟩
  . intro j hj hle
    obtain ⟨⟨c, hc, rfl, hne⟩, -⟩ := hcall.mem_cpPos.mp hj
    by_contra hlt
    exact hne (hlast.last c hc (Nat.lt_of_not_le hlt) hle)
  . rw [(hcall.get?_cpPos.mp hp).2.1]
    unfold sizeAt
    rw [commitmentsUpTo_congr pool hlast.le hlast.last]

theorem missing_right (hcall : call.Valid) (hno : ∀ h, ¬Misplaced policy call pool h)
    (he : e ∈ call.missing policy call.lastHeight pool) (hlo : call.fromState.blockHeight < e.1)
    (hhi : e.1 ≤ call.lastHeight) : e.2 = .ofSize (call.sizeAt pool e.1) := by
  obtain ⟨⟨hensured, -⟩, hcp⟩ := PutBlocks.mem_missing.mp he
  unfold ensuredAt at hcp
  rcases lastCommitted_or pool call.blocks hcall.ascending e.1 with ⟨b, hlast⟩ | hbare
  . have hkept : call.isDeep = true → shouldRetainAnchor policy b.height = true := by
      intro hdeep
      by_contra hdoomed
      rw [Bool.not_eq_true] at hdoomed
      exact hno e.1 ⟨hdeep, hlo, hhi, hcall.ensured_anchor hdeep hensured, b, hlast, hdoomed⟩
    obtain ⟨p, hfloor, hp⟩ := hcall.floor?_cpPos hlast hkept
    rw [hfloor] at hcp
    rw [hcp, ← hp, Checkpoint.ofSize_succ]
  . have hfloor : (call.cpPos policy pool).floor? e.1 = none := by
      apply OrdMap.floor?_eq_none
      intro j hj
      obtain ⟨⟨c, hc, rfl, hne⟩, -⟩ := hcall.mem_cpPos.mp hj
      by_contra hle
      exact hne (hbare c hc (Nat.le_of_not_lt hle))
    rw [hfloor] at hcp
    rw [hcp, sizeAt, commitmentsUpTo_eq_zero pool hbare, Nat.add_zero]

theorem missing_wrong (hcall : call.Valid) (hm : Misplaced policy call pool h)
    : ∃ cp, (h, cp) ∈ call.missing policy call.lastHeight pool
      ∧ cp ≠ .ofSize (call.sizeAt pool h) := by
  obtain ⟨b, hlast, hdoomed⟩ := hm.doomed
  -- The own block of `h` has no commitment: it would be the last one, and it is an anchor.
  have hown : h ∉ (call.cpPos policy pool).keys := by
    intro hmem
    obtain ⟨⟨c, hc, hheight, hne⟩, -⟩ := hcall.mem_cpPos.mp hmem
    have hlt : b.height < h := by
      apply Nat.lt_of_le_of_ne hlast.le
      intro heq
      rw [heq, hm.anchor] at hdoomed
      cases hdoomed
    exact hne (hlast.last c hc (by omega) (by omega))
  have hensured : h ∈ batchEnsureHeights (fun p => (call.cpPos policy p).keys) policy
      (call.fromState.blockHeight + 1) call.lastHeight pool :=
    mem_batchEnsureHeights.mpr (Or.inr ⟨⟨hm.above, hm.le⟩, hm.anchor⟩)
  refine ⟨call.ensuredAt policy pool h, mem_missing.mpr ⟨⟨hensured, hown⟩, rfl⟩, ?_⟩
  have hsize : ∀ j, j < b.height → call.sizeAt pool j < call.sizeAt pool h := fun j hj =>
    Nat.add_lt_add_left (commitmentsUpTo_lt pool hlast.mem hj hlast.le hlast.committed) _
  unfold ensuredAt
  cases hfloor : (call.cpPos policy pool).floor? h with
  | none =>
    intro heq
    have heq := Checkpoint.ofSize_injective heq
    have := hsize call.fromState.blockHeight (hcall.mem_height hlast.mem).1
    unfold sizeAt at this heq
    omega
  | some p =>
    obtain ⟨j, hle, hj⟩ := OrdMap.exists_of_floor? hfloor
    obtain ⟨⟨c, hc, rfl, hne⟩, hp, hanchor⟩ := hcall.get?_cpPos.mp hj
    have hlt : c.height < b.height := by
      rcases Nat.lt_trichotomy c.height b.height with hlt | heq | hgt
      . exact hlt
      . rw [← heq, hanchor hm.deep] at hdoomed
        cases hdoomed
      . exact absurd (hlast.last c hc hgt hle) hne
    have := hsize c.height hlt
    dsimp only
    rw [← Checkpoint.ofSize_succ]
    intro heq
    have := Checkpoint.ofSize_injective heq
    omega

end PutBlocks.Valid

theorem exists_le_frontier {api : ShardTreeApi H Unit} {policy : Option AnchorRetention}
    (lane : Lane H) (pool : ShieldedPool)
    (hanchors : ∀ e ∈ (lane.subtrees api policy
      ((SparseTreeState.opened policy none : SparseTreeState H Unit).seeded (.fresh B) pool)).flatMap
        Subtree.entries, shouldRetainAnchor policy e.1 = true)
    : ∃ x ∈ (lane.withSubtrees api policy
        ((SparseTreeState.opened policy none : SparseTreeState H Unit).seeded (.fresh B) pool)).2,
      x ≤ lane.frontierId := by
  unfold Lane.withSubtrees
  generalize hstore : (SparseTreeState.opened policy none : SparseTreeState H Unit).seeded (.fresh B) pool
    = store at *
  have hretained : store.retained = ∅ := by
    rw [← hstore]
    rfl
  have hkeys : store.checkpoints.keys = ∅ := by
    rw [← hstore]
    rfl
  have hids : ∀ x, x ∈ (lane.withFrontier policy store).2 ↔ x = lane.frontierId := by
    intro x
    have hnone : (({lane.frontierId} : Finset Nat).filter (lane.frontierId < ·)).card = 0 := by simp
    simp only [Lane.withFrontier, hretained, hkeys, insert_empty_eq]
    constructor
    . intro hx
      exact Finset.mem_singleton.mp (lane.frontier.kept_subset _ _ hx)
    . rintro rfl
      apply lane.frontier.keep_subset_kept
      rw [Newest.mem_keep_empty, hnone]
      exact ⟨Finset.mem_singleton_self _, by decide⟩
  have hpins : ∀ x ∈ (lane.withFrontier policy store).1, shouldRetainAnchor policy x = true := by
    intro x hx
    unfold Lane.withFrontier at hx
    rw [hretained] at hx
    split at hx <;> simp_all
  have hroom : ∀ ids : Finset Nat, (∀ x ∈ ids, shouldRetainAnchor policy x = true) →
      ((((lane.withFrontier policy store).2 \ (lane.withFrontier policy store).1)
        ∪ ids.filter (shouldRetainAnchor policy · = false)).filter (lane.frontierId < ·)).card
        < MAX_CHECKPOINTS := by
    intro ids hpass
    rw [Finset.filter_eq_empty_iff.mpr, Finset.card_empty]
    . decide
    . intro x hx hlt
      rw [Finset.mem_union, Finset.mem_sdiff, Finset.mem_filter, hids] at hx
      rcases hx with ⟨rfl, -⟩ | ⟨hx, hfail⟩
      . exact Nat.lt_irrefl _ hlt
      . rw [hpass x hx] at hfail
        cases hfail
  have hlow : ∃ x ∈ (lane.withFrontier policy store).2, x ≤ lane.frontierId :=
    ⟨_, (hids _).mpr rfl, Nat.le_refl _⟩
  apply (Newest.exists_le_absorb _ hpins _ _).mpr
  . refine Or.inr (Or.inr ⟨hroom _ ?_, ?_⟩)
    . intro x hx
      obtain ⟨e, he, rfl⟩ := List.mem_map.mp (mem_total_checkpoints.mp hx)
      exact hanchors e he
    . obtain ⟨x, hx, hle⟩ := hlow
      exact ⟨x, Finset.mem_union_left _ hx, hle⟩
  . intro x hx hlt
    rw [(hids x).mp hx] at hlt
    exact absurd hlt (Nat.lt_irrefl _)
  . intro _ _
    have := hroom ∅ (by simp)
    rw [Finset.filter_empty, Finset.union_empty] at this
    exact Or.inr this

section Call

variable [DecidableEq H] {up : Upstream H B Shard} {reads : CallReads H} {db db' : WalletDb B Shard}
  {sparse sparse' : SparseTreeState H Shard} {call : PutBlocks H}
  {plans : ShieldedPool → Option (PoolPlan H)}

theorem Succeeded.mem_addedBy (h : Succeeded up reads call db db' sparse sparse' plans)
    (hcall : call.Valid) (pool : ShieldedPool)
    : ∃ lane, lane = call.lane sparse.anchorRetention call.lastHeight
        (if pool = .ironwood then none else plans pool) pool
      ∧ ∃ minCp ∈ (lane.withSubtrees up.toShardTreeApi sparse.anchorRetention
          (sparse.seeded db pool)).2,
        (∀ id ∈ (lane.withSubtrees up.toShardTreeApi sparse.anchorRetention
          (sparse.seeded db pool)).2, minCp ≤ id)
        ∧ addedBy db db' sparse sparse' pool
          = (call.fromState.blockHeight, .ofSize (call.frontier pool).treeSize)
            :: ((lane.subtrees up.toShardTreeApi sparse.anchorRetention
                (sparse.seeded db pool)).flatMap Subtree.entries
              ++ (call.missing sparse.anchorRetention call.lastHeight pool).filter
                fun e => minCp < e.1) := by
  obtain ⟨staged, hran, hflush⟩ := h.ran hcall.rows pool
  obtain ⟨minCp, hmin, hle, -, hadded⟩ := hran.ensured
  refine ⟨_, rfl, minCp, hmin, hle, ?_⟩
  rw [addedBy, flush_store hflush]
  dsimp only
  rw [hadded, List.drop_left]
  rfl

theorem Succeeded.segments_right (h : Succeeded up reads call db db' sparse sparse' plans)
    (hcarries : CarriesEarlier up db sparse call)
    (hseg : seg ∈ (call.lane sparse.anchorRetention call.lastHeight
      (if pool = .ironwood then none else plans pool) pool).segments)
    (he : (k, p) ∈ checkpointEntries (rowsFrom seg.1 seg.2)) (hlo : call.fromState.blockHeight < k)
    : (k, p) ∈ checkpointEntries (rowsFrom (call.frontier pool).treeSize
        (call.doomedStream sparse.anchorRetention pool)) := by
  unfold Lane.segments at hseg
  split at hseg
  . obtain rfl := List.mem_singleton.mp hseg
    exact he
  . next plan hplan =>
    have hpool : pool ≠ .ironwood ∧ plans pool = some plan := by
      by_cases hiron : pool = .ironwood
      . simp [PutBlocks.lane, hiron] at hplan
      . simpa [PutBlocks.lane, hiron] using hplan
    have hplanned := h.planned
    cases hgraft : sparse.graft with
    | none =>
      rw [hgraft] at hplanned
      rw [hplanned pool] at hpool
      cases hpool.2
    | some ctx =>
      rw [hgraft] at hplanned
      obtain ⟨plan', hplan', hok⟩ := hplanned pool hpool.1
      obtain rfl : plan = plan' := Option.some.inj (hpool.2.symm.trans hplan')
      obtain ⟨o, o', acts, hknown, hfed, hactions⟩ :=
        planPool_ok (hcarries ctx hgraft pool hpool.1) hok
      rcases hactions.segments seg hseg with hnone | ⟨a, ha, hsegment⟩
      . cases hnone
      . rw [(hfed.acted a ha).placed.built_segment hsegment, mem_checkpointEntries] at he
        obtain ⟨r, hr, hid, hpos⟩ := he
        have hrow := List.mem_append_left o'.rows (List.mem_flatMap.mpr ⟨a, ha, hr⟩)
        rw [hfed.conserved, List.mem_append] at hrow
        rcases hrow with hold | hnew
        . have := hknown r hold k hid
          omega
        . exact mem_checkpointEntries.mpr ⟨r, hnew, hid, hpos⟩

theorem positionsRight_of_not_misplaced {policy : Option AnchorRetention} (hcall : call.Valid)
    (hno : ∀ pool h, ¬Misplaced policy call pool h) : PositionsRight policy call := by
  rintro B Shard up reads db db' sparse sparse' rfl hcarries hrun pool e he hlo hhi
  obtain ⟨plans, h⟩ := sparsePutBlocks_succeeded hcall.nonempty hrun
  obtain ⟨lane, rfl, minCp, -, -, hadded⟩ := h.mem_addedBy hcall pool
  rw [hadded, List.mem_cons, List.mem_append, List.mem_filter] at he
  rcases he with rfl | he | he
  . exact absurd hlo (Nat.lt_irrefl _)
  . obtain ⟨seg, hseg, p, hp, hcp, -⟩ := Lane.mem_subtrees_entries.mp he
    rw [hcp]
    exact hcall.own_right (h.segments_right hcarries hseg hp hlo)
  . exact hcall.missing_right (hno pool) he.1 hlo hhi

theorem not_positionsRight_of_misplaced {policy : Option AnchorRetention} (hcall : call.Valid)
    (hm : Misplaced policy call pool h) : ¬PositionsRight policy call := by
  intro hright
  obtain ⟨⟨db', sparse'⟩, hrun⟩ := sparsePutBlocks_fresh hcall policy
  obtain ⟨cp, hcp, hwrong⟩ := hcall.missing_wrong hm
  obtain ⟨plans, hs⟩ := sparsePutBlocks_succeeded hcall.nonempty hrun
  obtain ⟨lane, hlane, minCp, hmin, hle, hadded⟩ := hs.mem_addedBy hcall pool
  have hnone : plans pool = none := hs.planned pool
  rw [hnone, ite_self] at hlane
  have hbuilt : ∀ e ∈ (lane.subtrees (Upstream.bare H).toShardTreeApi policy
      ((SparseTreeState.opened policy none : SparseTreeState H Unit).seeded (.fresh H) pool)).flatMap
        Subtree.entries, shouldRetainAnchor policy e.1 = true := by
    intro e he
    obtain ⟨seg, hseg, p, hp, -⟩ := Lane.mem_subtrees_entries.mp he
    rw [hlane] at hseg
    obtain rfl := List.mem_singleton.mp hseg
    exact (hcall.mem_entries.mp hp).2.2 hm.deep
  obtain ⟨x, hx, hlow⟩ := exists_le_frontier lane pool hbuilt
  have hmin : minCp < h := by
    have := hle x hx
    have := hm.above
    rw [hlane] at hlow
    exact Nat.lt_of_le_of_lt (Nat.le_trans ‹minCp ≤ x› hlow) this
  apply hwrong
  apply hright _ _ _ _ _ _ _ _ rfl ?_ hrun pool (h, cp) ?_ hm.above hm.le
  . intro ctx hctx
    cases hctx
  . rw [hadded]
    apply List.mem_cons_of_mem
    apply List.mem_append_right
    rw [List.mem_filter]
    exact ⟨hcp, decide_eq_true hmin⟩

theorem positionsRight_iff {policy : Option AnchorRetention} (hcall : call.Valid)
    : PositionsRight policy call ↔ ∀ pool h, ¬Misplaced policy call pool h := by
  constructor
  . intro hright pool h hm
    exact not_positionsRight_of_misplaced hcall hm hright
  . exact positionsRight_of_not_misplaced hcall

end Call

def deepCall : PutBlocks Nat where
  fromState := { blockHeight := 100, finalTree := fun _ => ⟨none⟩ }
  blocks := [saplingBlock 101 0 [7], saplingBlock 102 1 []]
  chainTip := some 50000

theorem deepCall_valid : deepCall.Valid where
  nonempty := by simp [deepCall]
  consecutive := rfl
  continues b hb := by
    cases hb
    decide
  tip_lt tip htip := by
    cases htip
    decide

theorem positionsRight_iff_deepCall
    : deepCall.Valid ∧ (PositionsRight (onlyAnchor 101) deepCall
      ↔ ∀ pool h, ¬Misplaced (onlyAnchor 101) deepCall pool h) :=
  ⟨deepCall_valid, positionsRight_iff deepCall_valid⟩

/-- The call succeeds, and the checkpoint of 102 says that the tree was empty. -/
theorem deepCall_misplaces
    : (sparsePutBlocks (.bare Nat) .none (.fresh Nat) (.opened (onlyAnchor 102) none) deepCall).2 = .ok ()
      ∧ (let after :=
          (sparsePutBlocks (.bare Nat) .none (.fresh Nat) (.opened (onlyAnchor 102) none) deepCall).1
        addedBy (.fresh Nat) after.1 (.opened (onlyAnchor 102) none) after.2 .sapling
          = [(100, .treeEmpty), (102, .treeEmpty)])
      ∧ deepCall.sizeAt .sapling 102 = 1
      ∧ ¬PositionsRight (onlyAnchor 102) deepCall := by
  refine ⟨by decide +kernel, by decide +kernel, by decide +kernel, ?_⟩
  have hm : Misplaced (onlyAnchor 102) deepCall .sapling 102 := by
    refine ⟨by decide, by decide, by decide, by decide, saplingBlock 101 0 [7], ⟨?_, ?_, ?_, ?_⟩, ?_⟩
    . exact List.mem_cons_self
    . decide
    . decide
    . intro c hc hlt _
      simp only [deepCall, List.mem_cons, List.not_mem_nil, or_false] at hc
      rcases hc with rfl | rfl
      . exact absurd hlt (Nat.lt_irrefl _)
      . rfl
    . decide
  exact not_positionsRight_of_misplaced deepCall_valid hm

end Slipstream
