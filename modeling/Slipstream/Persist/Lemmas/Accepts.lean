import Slipstream.Persist.Lemmas.Call
import Slipstream.Persist.Lemmas.Valid

/-!
This module contains the calls that cannot fail: valid blocks, no graft, and a commitment tree library
that refuses none of them.
-/

namespace Slipstream

structure ShardTreeApi.Accepts (api : ShardTreeApi H Shard) : Prop where
  frontier : ∀ shards f id, ∃ puts, api.insertFrontierNodes shards f id = .ok puts
  subtree : ∀ shards t, ∃ puts, api.insertSubtree shards t = .ok puts
  flags : ∀ shards cut, ∃ puts, api.clearFlags shards cut = .ok puts

namespace SparseShardStore

variable {H Shard : Type} {api : ShardTreeApi H Shard} {s s' : SparseShardStore Shard}

def Flushable (s : SparseShardStore Shard) : Prop := s.dirtyShards ⊆ s.shards.keys

theorem Flushable.putShard (h : s.Flushable) (e : Nat × Shard) : (s.putShard e).Flushable :=
  Finset.insert_subset_insert _ h

theorem Flushable.putShards (h : s.Flushable) (es : List (Nat × Shard))
    : (es.foldl SparseShardStore.putShard s).Flushable := by
  induction es generalizing s with
  | nil => exact h
  | cons e es ih => exact ih (h.putShard e)

theorem Flushable.apply (h : s.Flushable) (puts : TreePuts Shard) : (s.apply puts).Flushable := by
  unfold SparseShardStore.apply
  cases puts.cap <;> exact h.putShards puts.shards

theorem Flushable.addCheckpoints (h : s.Flushable) (es : List (Nat × Checkpoint))
    : (s.addCheckpoints es).Flushable := by
  rw [addCheckpoints_eq]
  exact h

theorem pruneExcessCheckpoints_accepts (hapi : api.Accepts) (h : s.Flushable)
    : ∃ s', s.pruneExcessCheckpoints api = .ok s' ∧ s'.Flushable := by
  unfold pruneExcessCheckpoints
  dsimp only
  obtain ⟨puts, hputs⟩ := hapi.flags s.shards
    (s.checkpoints.filter fun id =>
      decide (id ∉ Newest.keep MAX_CHECKPOINTS s.retained s.checkpoints.keys))
  rw [hputs]
  exact ⟨_, rfl, h.apply puts⟩

theorem insertFrontier_accepts (hapi : api.Accepts) (h : s.Flushable) (frontier : Frontier H)
    (id : Nat) : ∃ s', s.insertFrontier api frontier id = .ok s' ∧ s'.Flushable := by
  unfold insertFrontier
  cases frontier.value with
  | none => exact ⟨_, rfl, h.addCheckpoints [_]⟩
  | some f =>
    obtain ⟨puts, hputs⟩ := hapi.frontier s.shards f id
    dsimp only
    rw [hputs]
    apply pruneExcessCheckpoints_accepts hapi
    exact (h.apply puts).addCheckpoints [_]

theorem insertTree_accepts (hapi : api.Accepts) (h : s.Flushable) (subtree : Subtree H)
    : ∃ s', s.insertTree api subtree = .ok s' ∧ s'.Flushable := by
  unfold insertTree
  obtain ⟨puts, hputs⟩ := hapi.subtree s.shards subtree
  rw [hputs]
  apply pruneExcessCheckpoints_accepts hapi
  exact (h.apply puts).addCheckpoints _

theorem insertSubtrees_accepts (hapi : api.Accepts) (h : s.Flushable)
    (policy : Option AnchorRetention) (subtrees : List (Subtree H))
    : ∃ s', s.insertSubtrees api policy subtrees = .ok s' ∧ s'.Flushable := by
  unfold insertSubtrees
  induction subtrees generalizing s with
  | nil => exact ⟨s, rfl, h⟩
  | cons t rest ih =>
    rw [List.foldlM_cons]
    have hpinned : ∀ anchors, ({ s with retained := anchors } : SparseShardStore Shard).Flushable :=
      fun _ => h
    obtain ⟨u, hu, hflush⟩ := insertTree_accepts hapi (hpinned _) t
    rw [hu]
    exact ih hflush

theorem Flushable.flush_accepts (h : s.Flushable) (db : SqlTree Shard) : ∃ res, s.flush db = .ok res := by
  unfold flush
  rw [Finset.sdiff_eq_empty_iff_subset.mpr h, Finset.sort_empty]
  exact ⟨_, rfl⟩

end SparseShardStore

namespace Lane

open SparseShardStore

variable {H Shard : Type} {api : ShardTreeApi H Shard} {lane : Lane H} {s : SparseShardStore Shard}

theorem graft_flushable (h : s.Flushable) : (lane.graft api s).Flushable := by
  unfold graft
  cases lane.plan with
  | none => exact h
  | some plan =>
    have := h.putShards (plan.grafts.map fun g => (g.1, api.leaf g.2))
    rwa [List.foldl_map] at this

theorem insertFrontier_accepts (hapi : api.Accepts) (h : s.Flushable)
    (policy : Option AnchorRetention)
    : ∃ s', lane.insertFrontier api policy s = .ok s' ∧ s'.Flushable
      ∧ s'.checkpoints.keys.Nonempty := by
  unfold Lane.insertFrontier
  obtain ⟨t, ht, hflush⟩ := SparseShardStore.insertFrontier_accepts hapi h lane.frontier
    lane.frontierId
  have hne : t.checkpoints.keys.Nonempty := by
    rw [(insertFrontier_grown ht).keys (lane.frontier.kept_subset _)]
    refine (Newest.keep_nonempty (by decide) _ ?_).mono (lane.frontier.keep_subset_kept _ _)
    exact ⟨lane.frontierId, by simp [OrdMap.insertAll]⟩
  have hok : mapSparseErr (s.insertFrontier api lane.frontier lane.frontierId) = .ok t :=
    mapError_eq_ok.mpr ht
  by_cases hanchor : shouldRetainAnchor policy lane.frontierId = true
  . refine ⟨t.ensureRetained lane.frontierId, bind_eq_ok.mpr ⟨t, hok, ?_⟩, hflush, hne⟩
    rw [if_pos hanchor]
    rfl
  . refine ⟨t, bind_eq_ok.mpr ⟨t, hok, ?_⟩, hflush, hne⟩
    rw [if_neg hanchor]
    rfl

theorem run_accepts (hapi : api.Accepts) (h : s.Flushable) (policy : Option AnchorRetention)
    : ∃ s', lane.run api policy s = .ok s' ∧ s'.Flushable := by
  have hgraft : (lane.graft api s).Flushable := graft_flushable h
  obtain ⟨t, ht, hflush, hne⟩ := insertFrontier_accepts hapi hgraft policy
  obtain ⟨u, hu, hflush'⟩ := insertSubtrees_accepts hapi hflush policy (lane.subtrees api policy s)
  have hne' : u.checkpoints.keys.Nonempty := by
    have := congrArg Prod.snd (insertSubtrees_built hu).ids
    dsimp only at this
    rw [this]
    exact Newest.absorb_nonempty (by decide) _ _ hne
  refine ⟨_, bind_eq_ok.mpr ⟨t, ht, bind_eq_ok.mpr ⟨u, mapError_eq_ok.mpr hu, ?_⟩⟩,
    hflush'.addCheckpoints (lane.missing.filter fun e => u.checkpoints.keys.min' hne' < e.1)⟩
  unfold Lane.ensure
  rw [OrdMap.minKey?, dif_pos hne']

end Lane

variable {H B Shard : Type} {up : Upstream H B Shard}

structure Upstream.Accepts (up : Upstream H B Shard) : Prop where
  api : up.toShardTreeApi.Accepts
  write : ∀ hash, ∃ bytes, up.ser.write hash = .ok bytes

section Transact

variable {call : PutBlocks H} {db : WalletDb B Shard} {sparse : SparseTreeState H Shard}

theorem treeStage_accepts {api : ShardTreeApi H Shard} (call : PutBlocks H) (last : Nat)
    (hapi : api.Accepts) {trees : ShieldedPool → SparseShardStore Shard} (hflush : ∀ p, (trees p).Flushable)
    (policy : Option AnchorRetention) (plans : ShieldedPool → Option (PoolPlan H))
    : ∃ staged, call.treeStage api policy last plans trees = .ok staged
      ∧ ∀ p, (staged p).Flushable := by
  have hrun := fun plan p => (call.lane policy last plan p).run_accepts hapi (hflush p) policy
  obtain ⟨sapling, hsapling, hfs⟩ := hrun (plans .sapling) .sapling
  obtain ⟨orchard, horchard, hfo⟩ := hrun (plans .orchard) .orchard
  obtain ⟨ironwood, hironwood, hfi⟩ := hrun none .ironwood
  refine ⟨perPool sapling orchard ironwood, ?_, ?_⟩
  . unfold PutBlocks.treeStage
    rw [hsapling, horchard, hironwood]
    rfl
  . intro p
    cases p with
    | sapling => exact hfs
    | orchard => exact hfo
    | ironwood => exact hfi

theorem exec_transact_accepts (hapi : up.toShardTreeApi.Accepts) (hcall : call.Valid)
    (hflush : ∀ p, (sparse.seeded db p).Flushable) (plans : ShieldedPool → Option (PoolPlan H))
    : ∃ st, DurableOp.exec up db sparse (.transact call plans) = .ok st := by
  obtain ⟨staged, hstaged, hflushed⟩ :=
    treeStage_accepts call call.lastHeight hapi hflush sparse.anchorRetention plans
  obtain ⟨sapling, hsapling⟩ := (hflushed .sapling).flush_accepts (db.trees .sapling)
  obtain ⟨orchard, horchard⟩ := (hflushed .orchard).flush_accepts (db.trees .orchard)
  obtain ⟨ironwood, hironwood⟩ := (hflushed .ironwood).flush_accepts (db.trees .ironwood)
  exact ⟨_, bind_eq_ok.mpr ⟨_, bind_eq_ok.mpr ⟨_, hcall.rows, bind_eq_ok.mpr ⟨_, hstaged,
    bind_eq_ok.mpr ⟨_, mapError_eq_ok.mpr hsapling,
      bind_eq_ok.mpr ⟨_, mapError_eq_ok.mpr horchard,
        bind_eq_ok.mpr ⟨_, mapError_eq_ok.mpr hironwood, rfl⟩⟩⟩⟩⟩, rfl⟩⟩

theorem appendRows_accepts (hup : up.Accepts) (t : PoolBuffer B) (shard : Nat)
    (rows : List (AccRow H)) : ∃ t', t.appendRows up.ser shard rows = .ok t' := by
  have hrows : ∃ stored, (rows.mapM fun r => return ((shard, r.position),
      ← PoolBuffer.encodeRow up.ser r) : Except String _) = .ok stored := by
    induction rows with
    | nil => exact ⟨_, rfl⟩
    | cons r rows ih =>
      obtain ⟨stored, hstored⟩ := ih
      obtain ⟨bytes, hbytes⟩ := hup.write r.hash
      have hrow : ∃ row, PoolBuffer.encodeRow up.ser r = .ok row := by
        unfold PoolBuffer.encodeRow
        rw [hbytes]
        exact ⟨_, rfl⟩
      obtain ⟨row, hrow⟩ := hrow
      rw [List.mapM_cons]
      exact ⟨_, bind_eq_ok.mpr ⟨_, bind_eq_ok.mpr ⟨_, hrow, rfl⟩, bind_eq_ok.mpr ⟨_, hstored, rfl⟩⟩⟩
  obtain ⟨stored, hstored⟩ := hrows
  exact ⟨_, bind_eq_ok.mpr ⟨_, hstored, rfl⟩⟩

theorem execAll_buffers_accepts (hup : up.Accepts) {ops : List (BufferOp H)}
    {rest : List (DurableOp H Shard)}
    (hrest : ∀ buffer, ∃ res, DurableOp.execAll up (db.withBuffer buffer) sparse rest = (res, .ok ()))
    : ∃ res, DurableOp.execAll up db sparse (ops.map (.buffer pool) ++ rest) = (res, .ok ()) := by
  induction ops generalizing db with
  | nil => exact hrest db.buffer
  | cons op ops ih =>
    have hop : ∃ t, op.apply up.ser (db.buffer pool) = .ok t := by
      cases op with
      | deleteRowsIn shard start stop => exact ⟨_, rfl⟩
      | appendRows shard rows => exact appendRows_accepts hup _ shard rows
      | deleteFromPosition minPosition => exact ⟨_, rfl⟩
    obtain ⟨t, ht⟩ := hop
    have hexec : DurableOp.exec up db sparse (.buffer pool op)
        = .ok ({ db with buffer := Function.update db.buffer pool t }, sparse) :=
      bind_eq_ok.mpr ⟨t, mapError_eq_ok.mpr ht, rfl⟩
    rw [List.map_cons, List.cons_append, DurableOp.execAll, hexec]
    exact ih fun buffer => hrest buffer

theorem execAll_planOps_accepts (hup : up.Accepts) {planned : Planned H} {plan : PoolPlan H}
    {next : PoolPlan H → List (DurableOp H Shard)} (hplan : planned.plan = .ok plan)
    (hnext : ∀ buffer, ∃ res,
      DurableOp.execAll up (db.withBuffer buffer) sparse (next plan) = (res, .ok ()))
    : ∃ res, DurableOp.execAll up db sparse (PutBlocks.planOps pool planned next) = (res, .ok ()) := by
  unfold PutBlocks.planOps
  rw [hplan]
  exact execAll_buffers_accepts hup hnext

theorem execAll_transact_accepts (hup : up.Accepts) (hcall : call.Valid)
    (hflush : ∀ p, (sparse.seeded db p).Flushable) (plans : ShieldedPool → Option (PoolPlan H))
    {rest : List (DurableOp H Shard)}
    (hrest : ∀ db sparse, ∃ res, DurableOp.execAll up db sparse rest = (res, .ok ()))
    : ∃ res, DurableOp.execAll up db sparse (.transact call plans :: rest) = (res, .ok ()) := by
  obtain ⟨st, hst⟩ := exec_transact_accepts hup.api hcall hflush plans
  rw [DurableOp.execAll, hst]
  exact hrest st.1 st.2

theorem execAll_cleanup_accepts (hup : up.Accepts) (sapling orchard : List (BufferOp H))
    (db : WalletDb B Shard) (sparse : SparseTreeState H Shard)
    : ∃ res, DurableOp.execAll up db sparse
        (sapling.map (.buffer .sapling) ++ orchard.map (.buffer .orchard)) = (res, .ok ()) := by
  apply execAll_buffers_accepts hup
  intro buffer
  rw [← List.append_nil (orchard.map _)]
  apply execAll_buffers_accepts hup
  intro buffer'
  exact ⟨_, rfl⟩

end Transact

section Finish

theorem insertDeferredRows_accepts {api : ShardTreeApi H Shard} {s : SparseShardStore Shard}
    (hapi : api.Accepts) (h : s.Flushable) (rows : List (AccRow H)) (policy : Option AnchorRetention)
    (label : String)
    : ∃ res, insertDeferredRows api s rows policy label = .ok res ∧ ∀ t, res = some t → t.Flushable := by
  unfold insertDeferredRows
  cases rowsToSegment rows with
  | none => exact ⟨none, rfl, nofun⟩
  | some seg =>
    obtain ⟨t, ht, hflush⟩ := SparseShardStore.insertSubtrees_accepts hapi h policy
      (buildSubtrees api seg.1 (downgradeBelow seg.2 (deferredBuildCutoff s.checkpoints.keys seg.2) policy))
    refine ⟨some t, bind_eq_ok.mpr ⟨t, mapError_eq_ok.mpr ht, rfl⟩, ?_⟩
    intro t' ht'
    cases ht'
    exact hflush

theorem finishPool_accepts (hup : up.Accepts) {db : WalletDb B Shard}
    {sparse : SparseTreeState H Shard} (h : (sparse.seeded db pool).Flushable)
    (rows : ShieldedPool → List (AccRow H))
    : ∃ db' sparse', DurableOp.exec.finishPool up rows pool db sparse = .ok (db', sparse')
      ∧ ∀ p, p ≠ pool → sparse'.seeded db' p = sparse.seeded db p := by
  obtain ⟨res, hres, hflushable⟩ := insertDeferredRows_accepts hup.api h (rows pool)
    sparse.anchorRetention s!"finish {pool.name}"
  cases res with
  | none => exact ⟨db, sparse, bind_eq_ok.mpr ⟨none, hres, rfl⟩, fun _ _ => rfl⟩
  | some t =>
    obtain ⟨⟨tree, store⟩, hflush⟩ := (hflushable t rfl).flush_accepts (db.trees pool)
    refine ⟨_, _, bind_eq_ok.mpr ⟨some t, hres, bind_eq_ok.mpr ⟨_, mapError_eq_ok.mpr hflush, rfl⟩⟩, ?_⟩
    intro p hp
    simp [SparseTreeState.seeded, Function.update_of_ne hp]

theorem execAll_finish_accepts (hup : up.Accepts) {db : WalletDb B Shard}
    {sparse : SparseTreeState H Shard} (h : ∀ p, (sparse.seeded db p).Flushable)
    (rows : ShieldedPool → List (AccRow H)) (sapling orchard : List (BufferOp H))
    : ∃ res, DurableOp.execAll up db sparse
        (.finish rows :: (sapling.map (.buffer .sapling) ++ orchard.map (.buffer .orchard)))
          = (res, .ok ()) := by
  obtain ⟨db₁, sparse₁, hsapling, hothers⟩ := finishPool_accepts hup (h .sapling) rows
  have horchard : (sparse₁.seeded db₁ .orchard).Flushable := by
    rw [hothers .orchard (by simp)]
    exact h .orchard
  obtain ⟨db₂, sparse₂, horchard, -⟩ := finishPool_accepts hup horchard rows
  have hexec : DurableOp.exec up db sparse (.finish rows) = .ok (db₂, sparse₂) :=
    bind_eq_ok.mpr ⟨_, hsapling, horchard⟩
  rw [DurableOp.execAll, hexec]
  exact execAll_cleanup_accepts hup sapling orchard db₂ sparse₂

end Finish

theorem sparsePutBlocks_accepts [DecidableEq H] (hup : up.Accepts) {call : PutBlocks H}
    (hcall : call.Valid) (reads : CallReads H) (db : WalletDb B Shard)
    (sparse : SparseTreeState H Shard)
    (hplans : ∀ ctx, sparse.graft = some ctx → ∀ pool, ∃ plan, (call.plan up reads
      sparse.anchorRetention ctx (sparse.seeded db pool) (db.buffer pool) pool).plan = .ok plan)
    (hflush : ∀ p, (sparse.seeded db p).Flushable)
    : ∃ res, sparsePutBlocks up reads db sparse call = (res, .ok ()) := by
  obtain ⟨initial, rest, hblocks⟩ := List.exists_cons_of_ne_nil hcall.nonempty
  have hcontinues := hcall.continues initial (by rw [hblocks]; rfl)
  unfold sparsePutBlocks PutBlocks.begin PutBlocks.start
  rw [hblocks]
  dsimp only
  rw [if_pos hcontinues]
  cases hgraft : sparse.graft with
  | none =>
    apply execAll_transact_accepts hup hcall
    . exact hflush
    . exact fun _ _ => ⟨_, rfl⟩
  | some ctx =>
    obtain ⟨sp, hsp⟩ := hplans ctx hgraft .sapling
    obtain ⟨op, hop⟩ := hplans ctx hgraft .orchard
    apply execAll_planOps_accepts hup hsp
    intro buffer
    apply execAll_planOps_accepts hup hop
    intro buffer'
    apply execAll_transact_accepts hup hcall
    . exact hflush
    . exact execAll_cleanup_accepts hup sp.cleanup op.cleanup

theorem flatten_uncut (_ : Nat) (rows : List (H × Retention)) : [rows].flatten = rows := by
  simp

def Upstream.bare (H : Type) : Upstream H H Unit where
  insertFrontierNodes _ _ _ := .ok ⟨[], none⟩
  insertSubtree _ _ := .ok ⟨[], none⟩
  clearFlags _ _ := .ok ⟨[], none⟩
  leaf _ := ()
  isLeaf _ := true
  cut _ rows := [rows]
  cut_flatten := flatten_uncut
  ser := { write := .ok, read := .ok }
  emptyShard _ := ()
  insertFrontierInto shard _ _ := some shard
  insertSubtreeInto shard _ := .ok shard
  leafAt _ _ := none
  contentRoot _ := none
  truncateShards shards _ := shards
  truncateCap cap _ := cap

theorem Upstream.bare_accepts (H : Type) : (Upstream.bare H).Accepts where
  api := ⟨fun _ _ _ => ⟨_, rfl⟩, fun _ _ => ⟨_, rfl⟩, fun _ _ => ⟨_, rfl⟩⟩
  write hash := ⟨hash, rfl⟩

def WalletDb.fresh (B : Type) : WalletDb B Unit where
  trees _ := { shards := .empty, cap := (), checkpoints := .empty, retained := ∅ }
  buffer _ := .empty
  scanned := ∅

def CallReads.none : CallReads H where
  serverRoot _ _ := .ok .none
  readError _ := .none

def CallReads.rooted (root : H) : CallReads H where
  serverRoot _ _ := .ok (some root)
  readError _ := .none

theorem sparsePutBlocks_fresh [DecidableEq H] {call : PutBlocks H} (hcall : call.Valid)
    (policy : Option AnchorRetention)
    : ∃ res, sparsePutBlocks (.bare H) .none (.fresh H) (.opened policy none) call = (res, .ok ()) := by
  apply sparsePutBlocks_accepts (Upstream.bare_accepts H) hcall
  . intro ctx hctx
    cases hctx
  . intro p
    exact Finset.empty_subset _

def saplingBlock (height size : Nat) (leaves : List Nat) : ScannedBlock Nat where
  height
  pool
    | .sapling => {
        commitments := leaves.mapIdx fun i x =>
          (x, if i + 1 = leaves.length then .checkpoint height .none else .ephemeral)
        finalTreeSize := size + leaves.length
        notePositions := []
      }
    | _ => { commitments := [], finalTreeSize := 0, notePositions := [] }
  checkpointed p i c h := by
    cases p with
    | sapling =>
      dsimp only at h ⊢
      rw [List.getElem?_mapIdx, Option.map_eq_some_iff] at h
      obtain ⟨x, -, rfl⟩ := h
      rw [List.length_mapIdx]
      dsimp only
      split <;> rfl
    | orchard => cases h
    | ironwood => cases h

def bufferedCall : PutBlocks Nat where
  fromState := {
    blockHeight := 100
    finalTree
      | .sapling => ⟨some { position := 4, leaf := 0, ommers := [] }⟩
      | _ => ⟨none⟩
  }
  blocks := [saplingBlock 101 5 [1]]
  chainTip := some 20000

def onlyAnchor (height : Nat) : Option AnchorRetention := some { retains := (· == height) }

end Slipstream
