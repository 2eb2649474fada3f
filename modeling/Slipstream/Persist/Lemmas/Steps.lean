import Slipstream.Persist.Lemmas.Plan
import Slipstream.Persist.Lemmas.Session

/-!
This module contains what a durable step does, to the graft buffers or by one flush to the trees, and
which steps a call, a range's end and a sweep consist of.
-/

namespace Slipstream

variable {H B Shard γ : Type}

section Exec

variable {up : Upstream H B Shard} {db db' : WalletDb B Shard} {sparse sparse' : SparseTreeState H Shard}
  {good : ShieldedPool → SqlTree Shard → SparseShardStore Shard → Prop}

def DurableOp.treeless : DurableOp H Shard → Bool
  | .buffer _ _ | .queueRescan _ | .fail _ => true
  | _ => false

theorem exec_treeless {op : DurableOp H Shard} (hop : op.treeless = true)
    (h : op.exec up db sparse = .ok (db', sparse'))
    : db'.trees = db.trees ∧ sparse' = sparse := by
  cases op with
  | buffer pool op =>
    obtain ⟨t, -, h⟩ := bind_eq_ok.mp h
    cases h
    exact ⟨rfl, rfl⟩
  | queueRescan blocks =>
    cases h
    exact ⟨rfl, rfl⟩
  | fail detail => cases h
  | _ => cases hop

theorem seeded_of_trees (htrees : db'.trees = db.trees) (pool : ShieldedPool)
    : sparse.seeded db' pool = sparse.seeded db pool := by
  rw [SparseTreeState.seeded, SparseTreeState.seeded, htrees]

structure Flushed (idle : ShieldedPool → Prop)
    (good : ShieldedPool → SqlTree Shard → SparseShardStore Shard → Prop)
    (db db' : WalletDb B Shard) (sparse sparse' : SparseTreeState H Shard) : Prop where
  fixed : sparse'.anchorRetention = sparse.anchorRetention
  graft : sparse'.graft = sparse.graft
  buffer : db'.buffer = db.buffer
  pools : ∀ pool, (idle pool ∧ db'.trees pool = db.trees pool
      ∧ sparse'.seeded db' pool = sparse.seeded db pool)
    ∨ ∃ store : SparseShardStore Shard, good pool (db.trees pool) store
      ∧ store.flush (db.trees pool) = .ok (db'.trees pool, sparse'.seeded db' pool)

theorem exec_transact_flushed {call : PutBlocks H} {plans : ShieldedPool → Option (PoolPlan H)}
    (hran : ∀ pool last staged, call.putBlocksRows = .ok last →
      (call.lane sparse.anchorRetention last (if pool = .ironwood then none else plans pool) pool).run
        up.toShardTreeApi sparse.anchorRetention (sparse.seeded db pool) = .ok staged →
      good pool (db.trees pool) staged)
    (h : DurableOp.exec up db sparse (.transact call plans) = .ok (db', sparse'))
    : Flushed (fun _ => False) good db db' sparse sparse' := by
  obtain ⟨⟨db₁, trees⟩, htransact, h⟩ := bind_eq_ok.mp h
  cases h
  have hcommitted := transact_committed htransact
  obtain ⟨last, staged, hrows, hstaged, hflush, -⟩ := hcommitted.committed
  refine ⟨rfl, rfl, hcommitted.buffer, fun pool => Or.inr ⟨staged pool, ?_, hflush pool⟩⟩
  apply hran pool last _ hrows
  apply treeStage_lanes hstaged

theorem exec_transact_scanned {call : PutBlocks H} {plans : ShieldedPool → Option (PoolPlan H)}
    (h : DurableOp.exec up db sparse (.transact call plans) = .ok (db', sparse'))
    : ∃ last, call.putBlocksRows = .ok last
      ∧ db'.scanned = db.scanned ∪ Finset.Icc (call.fromState.blockHeight + 1) last := by
  obtain ⟨⟨db₁, trees⟩, htransact, h⟩ := bind_eq_ok.mp h
  cases h
  obtain ⟨last, staged, hrows, -, -, hscanned⟩ := (transact_committed htransact).committed
  exact ⟨last, hrows, hscanned⟩

theorem exec_flushTree_flushed {pool : ShieldedPool} {rows : List (AccRow H)}
    {tree : SparseShardStore Shard} (htree : good pool (db.trees pool) tree)
    (h : DurableOp.exec up db sparse (.flushTree pool rows tree) = .ok (db', sparse'))
    : Flushed (· ≠ pool) good db db' sparse sparse' ∧ db'.scanned = db.scanned
      ∧ ∀ p, p ≠ pool → db'.trees p = db.trees p ∧ sparse'.seeded db' p = sparse.seeded db p := by
  obtain ⟨⟨flushed, tree'⟩, hflush, h⟩ := bind_eq_ok.mp h
  cases h
  have hothers : ∀ p, p ≠ pool → Function.update db.trees pool flushed p = db.trees p
      ∧ SparseTreeState.seeded
          { sparse with trees := Function.update sparse.trees pool (some tree') }
          { db with trees := Function.update db.trees pool flushed } p = sparse.seeded db p := by
    intro p hp
    simp [SparseTreeState.seeded, hp]
  refine ⟨⟨rfl, rfl, rfl, fun p => ?_⟩, rfl, hothers⟩
  by_cases hp : p = pool
  . cases hp
    refine Or.inr ⟨tree, htree, ?_⟩
    simpa [SparseTreeState.seeded] using mapError_eq_ok.mp hflush
  . exact Or.inl ⟨hp, hothers p hp⟩

theorem eq_nil_of_insertDeferredRows {api : ShardTreeApi H Shard} {tree : SparseShardStore Shard}
    {rows : List (AccRow H)} (h : insertDeferredRows api tree rows policy label = .ok none)
    : rows = [] := by
  cases rows with
  | nil => rfl
  | cons r rest =>
    obtain ⟨tree', -, h⟩ := bind_eq_ok.mp h
    cases h

theorem finishPool_cases {rows : ShieldedPool → List (AccRow H)} {pool : ShieldedPool}
    (h : DurableOp.exec.finishPool up rows pool db sparse = .ok (db', sparse'))
    : (rows pool = [] ∧ db' = db ∧ sparse' = sparse)
      ∨ ∃ tree, insertDeferredRows up.toShardTreeApi (sparse.seeded db pool) (rows pool)
          sparse.anchorRetention s!"finish {pool.name}" = .ok (some tree)
        ∧ DurableOp.exec up db sparse (.flushTree pool (rows pool) tree) = .ok (db', sparse') := by
  unfold DurableOp.exec.finishPool at h
  obtain ⟨inserted, hinserted, h⟩ := bind_eq_ok.mp h
  cases inserted with
  | none =>
    cases h
    exact Or.inl ⟨eq_nil_of_insertDeferredRows hinserted, rfl, rfl⟩
  | some tree => exact Or.inr ⟨tree, hinserted, h⟩

theorem finishPool_flushed {rows : ShieldedPool → List (AccRow H)} {pool : ShieldedPool}
    (hgood : ∀ label tree, insertDeferredRows up.toShardTreeApi (sparse.seeded db pool) (rows pool)
      sparse.anchorRetention label = .ok (some tree) → good pool (db.trees pool) tree)
    (h : DurableOp.exec.finishPool up rows pool db sparse = .ok (db', sparse'))
    : Flushed (fun p => p ≠ pool ∨ rows p = []) good db db' sparse sparse' ∧ db'.scanned = db.scanned
      ∧ ∀ p, p ≠ pool → db'.trees p = db.trees p ∧ sparse'.seeded db' p = sparse.seeded db p := by
  rcases finishPool_cases h with ⟨hrows, rfl, rfl⟩ | ⟨tree, hinserted, hexec⟩
  . refine ⟨⟨rfl, rfl, rfl, fun p => Or.inl ⟨?_, rfl, rfl⟩⟩, rfl, fun _ _ => ⟨rfl, rfl⟩⟩
    by_cases hp : p = pool
    . exact Or.inr (hp ▸ hrows)
    . exact Or.inl hp
  . obtain ⟨hflushed, hrest⟩ := exec_flushTree_flushed (hgood _ _ hinserted) hexec
    exact ⟨⟨hflushed.fixed, hflushed.graft, hflushed.buffer,
      fun p => (hflushed.pools p).imp_left fun hp => ⟨Or.inl hp.1, hp.2⟩⟩, hrest⟩

theorem exec_finish_flushed {rows : ShieldedPool → List (AccRow H)}
    (hgood : ∀ pool label tree, insertDeferredRows up.toShardTreeApi (sparse.seeded db pool) (rows pool)
      sparse.anchorRetention label = .ok (some tree) → good pool (db.trees pool) tree)
    (h : DurableOp.exec up db sparse (.finish rows) = .ok (db', sparse'))
    : Flushed (fun p => p = .ironwood ∨ rows p = []) good db db' sparse sparse'
      ∧ db'.scanned = db.scanned := by
  obtain ⟨⟨db₁, sparse₁⟩, hsapling, horchard⟩ := bind_eq_ok.mp h
  obtain ⟨hfirst, hscanned, hothers⟩ := finishPool_flushed (hgood .sapling) hsapling
  -- The second pool starts from what the first one left alone.
  have hsecond : ∀ label tree, insertDeferredRows up.toShardTreeApi (sparse₁.seeded db₁ .orchard)
      (rows .orchard) sparse₁.anchorRetention label = .ok (some tree) →
      good .orchard (db₁.trees .orchard) tree := by
    intro label tree hinserted
    obtain ⟨htree, hstore⟩ := hothers .orchard (by simp)
    rw [hstore, hfirst.fixed] at hinserted
    rw [htree]
    apply hgood _ _ _ hinserted
  obtain ⟨hsecond, hscanned', hothers'⟩ := finishPool_flushed hsecond horchard
  refine ⟨⟨hsecond.fixed.trans hfirst.fixed, hsecond.graft.trans hfirst.graft,
    hsecond.buffer.trans hfirst.buffer, fun pool => ?_⟩, hscanned'.trans hscanned⟩
  by_cases hpool : pool = .orchard
  . obtain ⟨htree, hstore⟩ := hothers pool (by simp [hpool])
    rcases hsecond.pools pool with ⟨hidle, htree', hstore'⟩ | ⟨store, hstore', hflush⟩
    . refine Or.inl ⟨Or.inr ?_, htree'.trans htree, hstore'.trans hstore⟩
      exact hidle.resolve_left (not_not_intro hpool)
    . rw [htree] at hstore' hflush
      exact Or.inr ⟨store, hstore', hflush⟩
  . obtain ⟨htree, hstore⟩ := hothers' pool hpool
    rw [htree, hstore]
    rcases hfirst.pools pool with ⟨hidle, hsame⟩ | hflush
    . refine Or.inl ⟨hidle.imp_left fun hsapling => ?_, hsame⟩
      cases pool with
      | sapling => exact absurd rfl hsapling
      | orchard => exact absurd rfl hpool
      | ironwood => rfl
    . exact Or.inr hflush

end Exec

theorem mem_rescanOps {reads : SweepReads H} {pool : ShieldedPool} {shard : Nat} {run : Run}
    {op : DurableOp H Shard} (h : op ∈ (reads.rescanOps pool shard run : List (DurableOp H Shard)))
    : (∃ blocks, op = .queueRescan blocks)
      ∨ op = .buffer pool (.deleteRowsIn shard run.first (run.last + 1)) := by
  unfold SweepReads.rescanOps at h
  split at h
  . cases List.mem_append.mp h with
    | inl h =>
      obtain ⟨blocks, -, rfl⟩ := List.mem_map.mp h
      exact Or.inl ⟨blocks, rfl⟩
    | inr h => exact Or.inr (List.mem_singleton.mp h)
  . cases h

theorem SqlTree.heal_shards (t : SqlTree Shard) : t.heal.shards = t.shards := by
  unfold SqlTree.heal
  split <;> rfl

def rowsCleanup (rows : List (AccRow H)) : List (BufferOp H) :=
  ((fedSpan rows).map fun (shard, start, stop) => .deleteRowsIn shard start stop).toList

theorem finishCleanup_eq (rows : List (AccRow H)) (pool : ShieldedPool)
    : (Session.finishCleanup rows pool : List (DurableOp H Shard))
        =
      (rowsCleanup rows).map (.buffer pool) := by
  unfold Session.finishCleanup rowsCleanup
  cases fedSpan rows <;> rfl

theorem mem_finishCleanup {rows : List (AccRow H)} {pool : ShieldedPool} {op : DurableOp H Shard}
    (h : op ∈ (Session.finishCleanup rows pool : List (DurableOp H Shard)))
    : ∃ shard start stop, fedSpan rows = some (shard, start, stop)
      ∧ op = .buffer pool (.deleteRowsIn shard start stop) := by
  unfold Session.finishCleanup at h
  obtain ⟨⟨shard, start, stop⟩, hspan, rfl⟩ := Option.map_eq_some_iff.mp (Option.mem_toList.mp h)
  exact ⟨shard, start, stop, hspan, rfl⟩

section Work

variable [DecidableEq H] {up : Upstream H B Shard} {db : WalletDb B Shard}
  {sparse sparse' : SparseTreeState H Shard}

namespace PutBlocks

def inputs (call : PutBlocks H) (up : Upstream H B Shard) (reads : CallReads H) (db : WalletDb B Shard)
    (sparse : SparseTreeState H Shard) (ctx : GraftCtx H) (pool : ShieldedPool) : PlanInputs H :=
  call.planInputs sparse.anchorRetention ctx.verifySample pool
    ((sparse.seeded db pool).shardHasInterior up.toShardTreeApi)
    (resumeRefusal up (sparse.seeded db pool) (call.frontier pool).value call.fromState.blockHeight)
    (reads.serverRoot pool) (reads.readError pool)

omit [DecidableEq H] in
theorem inputs_stream_length (call : PutBlocks H) (up : Upstream H B Shard) (reads : CallReads H)
    (db : WalletDb B Shard) (sparse : SparseTreeState H Shard) (ctx : GraftCtx H) (pool : ShieldedPool)
    : (call.inputs up reads db sparse ctx pool).stream.length = (call.stream pool).length :=
  call.doomedStream_length _ pool

def planned (call : PutBlocks H) (up : Upstream H B Shard) (reads : CallReads H) (db : WalletDb B Shard)
    (sparse : SparseTreeState H Shard) (ctx : GraftCtx H) (pool : ShieldedPool) : Planned H :=
  planPool up.ser (db.buffer pool) (ctx.acc pool) (call.inputs up reads db sparse ctx pool)

inductive Begins (call : PutBlocks H) (up : Upstream H B Shard) (reads : CallReads H)
    (db : WalletDb B Shard) (sparse : SparseTreeState H Shard)
    : SparseTreeState H Shard → List (DurableOp H Shard) → Prop where
  | empty (hblocks : call.blocks = []) : Begins call up reads db sparse sparse []
  | plain (hgraft : sparse.graft = none)
      : Begins call up reads db sparse { sparse with trees := fun p => some (sparse.seeded db p) }
          [.transact call fun _ => none]
  | grafting {ctx : GraftCtx H} (hgraft : sparse.graft = some ctx)
      : Begins call up reads db sparse
          { sparse with
            trees := fun p => some (sparse.seeded db p)
            graft := some { ctx with
              acc := perPool (call.planned up reads db sparse ctx .sapling).acc
                (call.planned up reads db sparse ctx .orchard).acc none } }
          (planOps .sapling (call.planned up reads db sparse ctx .sapling) fun sp =>
            planOps .orchard (call.planned up reads db sparse ctx .orchard) fun op =>
              .transact call (perPool (some sp) (some op) none)
                :: (sp.cleanup.map (.buffer .sapling) ++ op.cleanup.map (.buffer .orchard)))

theorem begin_begins {call : PutBlocks H} {reads : CallReads H}
    (h : call.begin up reads db sparse = .ok (sparse', ops))
    : call.Begins up reads db sparse sparse' ops := by
  unfold PutBlocks.begin at h
  split at h
  . next hblocks =>
    cases h
    exact .empty hblocks
  . split at h
    . unfold PutBlocks.start at h
      dsimp only at h
      split at h
      . next hgraft =>
        cases h
        exact .plain hgraft
      . next ctx hgraft =>
        cases h
        exact .grafting hgraft
    . cases h

end PutBlocks

end Work

def WalletDb.setBuffer (db : WalletDb B Shard) (pool : ShieldedPool) (t : PoolBuffer B)
    : WalletDb B Shard :=
  { db with buffer := Function.update db.buffer pool t }

theorem exec_buffer {up : Upstream H B Shard} {db db' : WalletDb B Shard}
    {sparse sparse' : SparseTreeState H Shard} {op : BufferOp H}
    (h : DurableOp.exec up db sparse (.buffer pool op) = .ok (db', sparse'))
    : ∃ t, op.apply up.ser (db.buffer pool) = .ok t ∧ db' = db.setBuffer pool t ∧ sparse' = sparse := by
  obtain ⟨t, ht, h⟩ := bind_eq_ok.mp h
  cases h
  exact ⟨t, mapError_eq_ok.mp ht, rfl, rfl⟩

theorem Session.SafeFrom.buffers {hist : History H B Shard γ} {up : Upstream H B Shard}
    {inv : Session H B Shard → γ → Prop} {activity : Activity H} {ops : List (BufferOp H)}
    {rest : List (DurableOp H Shard)} {db : WalletDb B Shard} {sparse : SparseTreeState H Shard} {g : γ}
    {Q : List (BufferOp H) → PoolBuffer B → Prop}
    (hhist : ∀ op db db' g, hist.took (.buffer pool op) db db' g = g)
    (hstart : Q [] (db.buffer pool))
    (hstep : ∀ done op todo, ops = done ++ op :: todo → ∀ t t', Q done t →
      op.apply up.ser t = .ok t' → Q (done ++ [op]) t')
    (hinv : ∀ done t, Q done t →
      inv { db := db.setBuffer pool t, sparse, activity, todo := [] } g)
    (hrest : ∀ t, Q ops t → SafeFrom hist up inv activity rest (db.setBuffer pool t) sparse g)
    : SafeFrom hist up inv activity (ops.map (.buffer pool) ++ rest) db sparse g := by
  -- The invariant is `Q` of what has been done, on the way through `ops`.
  have hloop : ∀ todo done t, ops = done ++ todo → Q done t →
      SafeFrom hist up inv activity (todo.map (.buffer pool) ++ rest) (db.setBuffer pool t) sparse g := by
    intro todo
    induction todo with
    | nil =>
      intro done t hops hQ
      rw [List.append_nil] at hops
      rw [← hops] at hQ
      exact hrest t hQ
    | cons op todo ih =>
      intro done t hops hQ
      refine ⟨hinv done t hQ, fun db' sparse' hexec => ?_⟩
      obtain ⟨t', ht', rfl, rfl⟩ := exec_buffer hexec
      rw [hhist]
      have hbuffer : (db.setBuffer pool t).buffer pool = t := by simp [WalletDb.setBuffer]
      have hset : (db.setBuffer pool t).setBuffer pool t' = db.setBuffer pool t' := by
        simp [WalletDb.setBuffer]
      rw [hbuffer] at ht'
      rw [hset]
      apply ih (done ++ [op]) t'
      . simp [hops]
      . apply hstep done op todo hops t t' hQ ht'
  have hsame : db.setBuffer pool (db.buffer pool) = db := by
    simp [WalletDb.setBuffer]
  have := hloop ops [] (db.buffer pool) rfl hstart
  rwa [hsame] at this

end Slipstream
