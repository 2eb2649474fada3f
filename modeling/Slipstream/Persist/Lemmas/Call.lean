import Slipstream.Persist.Lemmas.Store

/-!
This module contains the inversion of a call that succeeds: the plans it ran with, the tree stage it
ran and what it flushed.
-/

namespace Slipstream

variable {H B Shard : Type} {up : Upstream H B Shard} {db db' : WalletDb B Shard}
  {sparse sparse' : SparseTreeState H Shard}

structure Committed (up : Upstream H B Shard) (policy : Option AnchorRetention)
    (call : PutBlocks H) (db db' : WalletDb B Shard) (trees trees' : ShieldedPool → SparseShardStore Shard)
    (plans : ShieldedPool → Option (PoolPlan H)) : Prop where
  committed : ∃ last staged, call.putBlocksRows = .ok last
    ∧ call.treeStage up.toShardTreeApi policy last plans trees = .ok staged
    ∧ (∀ p, (staged p).flush (db.trees p) = .ok (db'.trees p, trees' p))
    ∧ db'.scanned = db.scanned ∪ Finset.Icc (call.fromState.blockHeight + 1) last
  buffer : db'.buffer = db.buffer

theorem transact_committed {policy : Option AnchorRetention} {call : PutBlocks H}
    {trees trees' : ShieldedPool → SparseShardStore Shard}
    {plans : ShieldedPool → Option (PoolPlan H)}
    (h : call.transact up policy db trees plans = .ok (db', trees'))
    : Committed up policy call db db' trees trees' plans := by
  unfold PutBlocks.transact at h
  obtain ⟨last, hlast, h⟩ := bind_eq_ok.mp h
  obtain ⟨staged, hstaged, h⟩ := bind_eq_ok.mp h
  obtain ⟨sapling, hsapling, h⟩ := bind_eq_ok.mp h
  obtain ⟨orchard, horchard, h⟩ := bind_eq_ok.mp h
  obtain ⟨ironwood, hironwood, h⟩ := bind_eq_ok.mp h
  cases h
  refine ⟨⟨last, staged, hlast, hstaged, fun p => ?_, rfl⟩, rfl⟩
  cases p with
  | sapling => exact mapError_eq_ok.mp hsapling
  | orchard => exact mapError_eq_ok.mp horchard
  | ironwood => exact mapError_eq_ok.mp hironwood

theorem treeStage_lanes {api : ShardTreeApi H Shard} {policy : Option AnchorRetention}
    {call : PutBlocks H} {trees trees' : ShieldedPool → SparseShardStore Shard}
    {plans : ShieldedPool → Option (PoolPlan H)}
    (h : call.treeStage api policy last plans trees = .ok trees') (pool : ShieldedPool)
    : (call.lane policy last (if pool = .ironwood then none else plans pool) pool).run api policy
        (trees pool) = .ok (trees' pool) := by
  unfold PutBlocks.treeStage at h
  obtain ⟨sapling, hsapling, h⟩ := bind_eq_ok.mp h
  obtain ⟨orchard, horchard, h⟩ := bind_eq_ok.mp h
  obtain ⟨ironwood, hironwood, h⟩ := bind_eq_ok.mp h
  cases h
  cases pool with
  | sapling => exact hsapling
  | orchard => exact horchard
  | ironwood => exact hironwood

def WalletDb.withBuffer (db : WalletDb B Shard) (buffer : ShieldedPool → PoolBuffer B)
    : WalletDb B Shard :=
  { db with buffer }

theorem execAll_buffers {ops : List (BufferOp H)} {rest : List (DurableOp H Shard)}
    (h : DurableOp.execAll up db sparse (ops.map (.buffer pool) ++ rest) = (res, .ok ()))
    : ∃ buffer, DurableOp.execAll up (db.withBuffer buffer) sparse rest = (res, .ok ()) := by
  induction ops generalizing db with
  | nil => exact ⟨db.buffer, h⟩
  | cons op ops ih =>
    rw [List.map_cons, List.cons_append, DurableOp.execAll] at h
    split at h
    . next st hop =>
      unfold DurableOp.exec at hop
      obtain ⟨t, -, hop⟩ := bind_eq_ok.mp hop
      cases hop
      obtain ⟨buffer, hrest⟩ := ih h
      exact ⟨buffer, hrest⟩
    . cases h

theorem execAll_transact {rest : List (DurableOp H Shard)} {call : PutBlocks H}
    {plans : ShieldedPool → Option (PoolPlan H)}
    (h : DurableOp.execAll up db sparse (.transact call plans :: rest) = (res, .ok ()))
    : ∃ db₁ trees, Committed up sparse.anchorRetention call db db₁ (sparse.seeded db) trees plans
      ∧ DurableOp.execAll up db₁ { sparse with trees := fun p => some (trees p) } rest
          = (res, .ok ()) := by
  rw [DurableOp.execAll] at h
  split at h
  . next st hop =>
    unfold DurableOp.exec at hop
    obtain ⟨⟨_, trees⟩, htransact, hop⟩ := bind_eq_ok.mp hop
    cases hop
    exact ⟨_, trees, transact_committed htransact, h⟩
  . cases h

theorem execAll_planOps {planned : Planned H} {next : PoolPlan H → List (DurableOp H Shard)}
    (h : DurableOp.execAll up db sparse (PutBlocks.planOps pool planned next) = (res, .ok ()))
    : ∃ plan buffer, planned.plan = .ok plan
      ∧ DurableOp.execAll up (db.withBuffer buffer) sparse (next plan) = (res, .ok ()) := by
  obtain ⟨buffer, hrest⟩ := execAll_buffers h
  cases hplan : planned.plan with
  | ok plan =>
    rw [hplan] at hrest
    exact ⟨plan, buffer, rfl, hrest⟩
  | error e =>
    rw [hplan] at hrest
    cases hrest

theorem execAll_cleanup {sapling orchard : List (BufferOp H)}
    (h : DurableOp.execAll up db sparse
      (sapling.map (.buffer .sapling) ++ orchard.map (.buffer .orchard)) = (res, .ok ()))
    : ∃ buffer, res = (db.withBuffer buffer, sparse) := by
  obtain ⟨_, hrest⟩ := execAll_buffers h
  rw [← List.append_nil (orchard.map _)] at hrest
  obtain ⟨buffer, hdone⟩ := execAll_buffers hrest
  cases hdone
  exact ⟨buffer, rfl⟩

structure Succeeded [DecidableEq H] (up : Upstream H B Shard) (reads : CallReads H)
    (call : PutBlocks H) (db db' : WalletDb B Shard) (sparse sparse' : SparseTreeState H Shard)
    (plans : ShieldedPool → Option (PoolPlan H)) : Prop where
  planned : match sparse.graft with
    | none => ∀ p, plans p = none
    | some ctx => ∀ p, p ≠ .ironwood → ∃ plan, plans p = some plan
        ∧ (call.plan up reads sparse.anchorRetention ctx (sparse.seeded db p) (db.buffer p) p).plan
          = .ok plan
  committed : ∃ db₁ trees, Committed up sparse.anchorRetention call db db₁ (sparse.seeded db) trees
      plans
    ∧ db'.trees = db₁.trees ∧ db'.scanned = db₁.scanned ∧ ∀ p, sparse'.trees p = some (trees p)
  anchorRetention : sparse'.anchorRetention = sparse.anchorRetention
  graft : sparse'.graft = sparse.graft.map fun ctx =>
    let planned pool :=
      call.plan up reads sparse.anchorRetention ctx (sparse.seeded db pool) (db.buffer pool) pool
    { ctx with acc := perPool (planned .sapling).acc (planned .orchard).acc none }

theorem Committed.withBuffer {policy : Option AnchorRetention} {call : PutBlocks H}
    {trees trees' : ShieldedPool → SparseShardStore Shard}
    {plans : ShieldedPool → Option (PoolPlan H)} {buffer : ShieldedPool → PoolBuffer B}
    (h : Committed up policy call (db.withBuffer buffer) db' trees trees' plans)
    : ∃ db₁, Committed up policy call db db₁ trees trees' plans
      ∧ db'.trees = db₁.trees ∧ db'.scanned = db₁.scanned :=
  ⟨{ db' with buffer := db.buffer }, ⟨h.committed, rfl⟩, rfl, rfl⟩

theorem sparsePutBlocks_succeeded [DecidableEq H] {reads : CallReads H} {call : PutBlocks H}
    (hne : call.blocks ≠ [])
    (h : sparsePutBlocks up reads db sparse call = ((db', sparse'), .ok ()))
    : ∃ plans, Succeeded up reads call db db' sparse sparse' plans := by
  unfold sparsePutBlocks PutBlocks.begin at h
  obtain ⟨initial, rest, hblocks⟩ := List.exists_cons_of_ne_nil hne
  rw [hblocks] at h
  dsimp only at h
  by_cases hcontinues : call.continues initial = true
  . rw [if_pos hcontinues] at h
    unfold PutBlocks.start at h
    dsimp only at h
    cases hgraft : sparse.graft with
    | none =>
      simp only [hgraft] at h
      obtain ⟨db₁, trees, hcommitted, hrest⟩ := execAll_transact h
      cases hrest
      refine ⟨_, ⟨?_, ⟨_, trees, hcommitted, rfl, rfl, fun p => rfl⟩, rfl, ?_⟩⟩
      . rw [hgraft]
        exact fun _ => rfl
      . simp [hgraft]
    | some ctx =>
      simp only [hgraft] at h
      obtain ⟨sp, _, hsp, h⟩ := execAll_planOps h
      obtain ⟨op, _, hop, h⟩ := execAll_planOps h
      obtain ⟨db₁, trees, hcommitted, hrest⟩ := execAll_transact h
      obtain ⟨_, hres⟩ := execAll_cleanup hrest
      cases hres
      obtain ⟨db₂, hcommitted, htrees, hscanned⟩ := hcommitted.withBuffer
      obtain ⟨db₃, hcommitted, htrees', hscanned'⟩ := hcommitted.withBuffer
      refine ⟨_, ⟨?_, ⟨db₃, trees, hcommitted, ?_, ?_, fun p => rfl⟩, rfl, by simp [hgraft]⟩⟩
      . rw [hgraft]
        intro p hp
        cases p with
        | sapling => exact ⟨sp, rfl, hsp⟩
        | orchard => exact ⟨op, rfl, hop⟩
        | ironwood => exact absurd rfl hp
      . exact htrees.trans htrees'
      . exact hscanned.trans hscanned'
  . rw [if_neg hcontinues] at h
    cases h

theorem flush_store {s : SparseShardStore Shard} (h : s.flush tree = .ok (tree', s'))
    : s' = { s with dbCheckpoints := s.checkpoints, dirtyShards := ∅, capDirty := false } := by
  unfold SparseShardStore.flush at h
  split at h
  . cases h
  . cases h
    rfl

namespace Succeeded

variable [DecidableEq H] {reads : CallReads H} {call : PutBlocks H}
  {plans : ShieldedPool → Option (PoolPlan H)}

theorem lane (h : Succeeded up reads call db db' sparse sparse' plans) (pool : ShieldedPool)
    : ∃ last staged, call.putBlocksRows = .ok last
      ∧ (call.lane sparse.anchorRetention last (if pool = .ironwood then none else plans pool) pool).run
          up.toShardTreeApi sparse.anchorRetention (sparse.seeded db pool) = .ok staged
      ∧ staged.flush (db.trees pool) = .ok (db'.trees pool, sparse'.seeded db' pool) := by
  obtain ⟨db₁, trees, hcommitted, htrees, -, hsparse⟩ := h.committed
  obtain ⟨last, staged, hrows, hstaged, hflush, -⟩ := hcommitted.committed
  refine ⟨last, staged pool, hrows, treeStage_lanes hstaged pool, ?_⟩
  rw [hflush pool, htrees, SparseTreeState.seeded, hsparse]
  rfl

theorem ran (h : Succeeded up reads call db db' sparse sparse' plans)
    (hlast : call.putBlocksRows = .ok last) (pool : ShieldedPool)
    : ∃ staged, Lane.Ran up.toShardTreeApi sparse.anchorRetention
        (call.lane sparse.anchorRetention last (if pool = .ironwood then none else plans pool) pool)
        (sparse.seeded db pool) staged
      ∧ staged.flush (db.trees pool) = .ok (db'.trees pool, sparse'.seeded db' pool) := by
  obtain ⟨last', staged, hrows, hrun, hflush⟩ := h.lane pool
  obtain rfl : last = last' := by
    rw [hlast] at hrows
    cases hrows
    rfl
  exact ⟨staged, Lane.run_ran hrun, hflush⟩

end Succeeded
end Slipstream
