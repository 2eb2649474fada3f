import Slipstream.Persist.Lemmas.Mirror
import Slipstream.Persist.Lemmas.Steps

/-!
This module contains what becomes of the durable anchors once a flush has written them: SQLite keeps
those whose checkpoint came from a row or from the chain state, and does not mark the others.
-/

namespace Slipstream

variable {H B Shard : Type}

section Store

open SparseShardStore

variable {api : ShardTreeApi H Shard} {policy : Option AnchorRetention} {t t' : SqlTree Shard}
  {s s' : SparseShardStore Shard}

structure AnchorsPinned (policy : Option AnchorRetention) (before : Finset Nat)
    (st : Finset Nat × Finset Nat) : Prop where
  pinned : ∀ id ∈ st.2, shouldRetainAnchor policy id = true → id ∈ st.1
  kept : ∀ id ∈ before, shouldRetainAnchor policy id = true → id ∈ st.2

theorem AnchorsPinned.absorb {before : Finset Nat} {st : Finset Nat × Finset Nat}
    (h : AnchorsPinned policy before st) (batches : List (Finset Nat))
    : AnchorsPinned policy before
        (batches.foldl (Newest.absorb MAX_CHECKPOINTS (shouldRetainAnchor policy)) st) := by
  constructor
  case pinned =>
    intro id hid hanchor
    rw [Newest.mem_pins_absorb]
    rcases Newest.mem_of_mem_absorb hid with hold | hnew
    . exact Or.inl (h.pinned id hold hanchor)
    . exact Or.inr ⟨hnew, hanchor⟩
  case kept =>
    intro id hid hanchor
    have hin := h.kept id hid hanchor
    exact (Newest.mem_absorb_of_pinned batches hin (h.pinned id hin hanchor)).1

theorem AnchorsPinned.withFrontier {before : Finset Nat}
    (h : AnchorsPinned policy before (s.retained, s.checkpoints.keys)) (lane : Lane H)
    : AnchorsPinned policy before (lane.withFrontier policy s) := by
  unfold Lane.withFrontier
  constructor
  case pinned =>
    intro id hid hanchor
    dsimp only at hid ⊢
    rcases Finset.mem_insert.mp (lane.frontier.kept_subset _ _ hid) with rfl | hid
    . rw [if_pos hanchor]
      exact Finset.mem_insert_self _ _
    . have := h.pinned id hid hanchor
      split
      . exact Finset.mem_insert_of_mem this
      . exact this
  case kept =>
    intro id hid hanchor
    have hin := h.kept id hid hanchor
    apply lane.frontier.keep_subset_kept
    exact Newest.mem_keep_of_pinned (Finset.mem_insert_of_mem hin) (h.pinned id hin hanchor)

structure SparseShardStore.Anchored (policy : Option AnchorRetention) (t : SqlTree Shard)
    (s : SparseShardStore Shard) : Prop where
  synced : s.dbCheckpoints = t.checkpoints
  anchors : AnchorsPinned policy t.checkpoints.keys (s.retained, s.checkpoints.keys)

theorem SparseShardStore.seed_anchored (t : SqlTree Shard) (policy : Option AnchorRetention)
    : (SparseShardStore.seed t policy).Anchored policy t where
  synced := rfl
  anchors := {
    pinned := fun _ hid hanchor => Finset.mem_filter.mpr ⟨hid, hanchor⟩
    kept := fun _ hid _ => hid
  }

theorem SparseShardStore.Anchored.built {subtrees : List (Subtree H)} (h : s.Anchored policy t)
    (hbuilt : Built policy s s' subtrees) : s'.Anchored policy t where
  synced := hbuilt.dbCheckpoints.trans h.synced
  anchors := by
    rw [hbuilt.ids]
    exact h.anchors.absorb _

theorem SparseShardStore.Anchored.ran {lane : Lane H} (h : s.Anchored policy t)
    (hran : Lane.Ran api policy lane s s')
    (hmissing : ∀ e ∈ lane.missing, shouldRetainAnchor policy e.1 = true → e.1 ∈ s.retained)
    : s'.Anchored policy t := by
  have hsub := (h.anchors.withFrontier lane).absorb
    ((lane.subtrees api policy s).map (·.checkpoints.keys))
  obtain ⟨minCp, -, -, hkeys, -⟩ := hran.ensured
  refine ⟨hran.dbCheckpoints.trans h.synced, ?_, ?_⟩
  . intro id hid hanchor
    dsimp only at hid ⊢
    rw [hran.retained]
    rcases (hkeys id).mp hid with hid | hid
    . exact hsub.pinned id hid hanchor
    . obtain ⟨e, he, rfl⟩ := List.mem_map.mp hid
      have hpin := hmissing e (List.mem_filter.mp he).1 hanchor
      rw [Lane.withSubtrees, Newest.mem_pins_absorb]
      apply Or.inl
      unfold Lane.withFrontier
      dsimp only
      split
      . exact Finset.mem_insert_of_mem hpin
      . exact hpin
  . intro id hid hanchor
    exact (hkeys id).mpr (Or.inl (hsub.kept id hid hanchor))

theorem SparseShardStore.Anchored.flush (h : s.Anchored policy t) (hflush : s.flush t = .ok (t', s'))
    : s'.Anchored policy t' := by
  obtain ⟨hcheckpoints, -⟩ := flush_checkpoints h.synced hflush
  rw [flush_store hflush]
  refine ⟨hcheckpoints.symm, h.anchors.pinned, ?_⟩
  intro id hid _
  rwa [hcheckpoints] at hid

def SqlTree.writtenOver (policy : Option AnchorRetention) (t t' : SqlTree Shard) : Finset Nat :=
  t'.checkpoints.keys.filter fun id =>
    shouldRetainAnchor policy id = true ∧ t'.checkpoints.get? id ≠ t.checkpoints.get? id

def SqlTree.Marks (policy : Option AnchorRetention) (t : SqlTree Shard) (written : Finset Nat)
    : Prop :=
  ∀ id ∈ written, shouldRetainAnchor policy id = true ∧ id ∈ t.checkpoints.keys ∧ id ∈ t.retained

theorem SqlTree.Marks.flush {written : Finset Nat} (h : t.Marks policy written)
    (hs : s.Anchored policy t) (hflush : s.flush t = .ok (t', s'))
    : t'.Marks policy (written ∪ t.writtenOver policy t') := by
  obtain ⟨hcheckpoints, hretained⟩ := flush_checkpoints hs.synced hflush
  intro id hid
  rcases Finset.mem_union.mp hid with hid | hid
  . obtain ⟨hanchor, hin, hmark⟩ := h id hid
    have hkept := hs.anchors.kept id hin hanchor
    refine ⟨hanchor, by rwa [hcheckpoints], (hretained id).mpr ?_⟩
    split
    . exact hmark
    . exact Or.inl ⟨hs.anchors.pinned id hkept hanchor, hkept⟩
  . obtain ⟨hin, hanchor, hne⟩ := Finset.mem_filter.mp hid
    rw [hcheckpoints] at hin hne
    refine ⟨hanchor, by rwa [hcheckpoints], (hretained id).mpr ?_⟩
    rw [if_neg hne]
    exact Or.inl ⟨hs.anchors.pinned id hin hanchor, hin⟩

theorem SqlTree.Marks.heal {written : Finset Nat} (h : t.Marks policy written)
    : t.heal.Marks policy written := by
  unfold SqlTree.heal
  split
  . exact h
  . intro id hid
    obtain ⟨hanchor, hin, hmark⟩ := h id hid
    refine ⟨hanchor, ?_, hmark⟩
    simp [hin, hmark]

theorem SqlTree.Marks.truncate {up : Upstream H B Shard} {written : Finset Nat}
    (h : t.Marks policy written) (height : Nat)
    : (t.truncate up height).Marks policy (written.filter (· ≤ height)) := by
  intro id hid
  obtain ⟨hid, hle⟩ := Finset.mem_filter.mp hid
  obtain ⟨hanchor, hin, hmark⟩ := h id hid
  refine ⟨hanchor, ?_, Finset.mem_filter.mpr ⟨hmark, hle⟩⟩
  simp [SqlTree.truncate, hin, hle]

end Store

def anchorHistory (policy : Option AnchorRetention)
    : History H B Shard (ShieldedPool → Finset Nat) where
  took _ db db' written := fun p => written p ∪ (db.trees p).writtenOver policy (db'.trees p)
  rewound height written := fun p => (written p).filter (· ≤ height)

structure AnchorsKept (policy : Option AnchorRetention) (s : Session H B Shard)
    (written : ShieldedPool → Finset Nat) : Prop where
  fixed : s.sparse.anchorRetention = policy
  stores : ∀ pool, (s.sparse.seeded s.db pool).Anchored policy (s.db.trees pool)
  marks : ∀ pool, (s.db.trees pool).Marks policy (written pool)

section Session

variable {policy : Option AnchorRetention} {up : Upstream H B Shard} {db db' : WalletDb B Shard}
  {sparse sparse' : SparseTreeState H Shard} {activity : Activity H}
  {written : ShieldedPool → Finset Nat}

theorem AnchorsKept.flushed
    (h : AnchorsKept policy { db, sparse, activity, todo := [] } written)
    (hflushed : Flushed idle (fun _ t store => store.Anchored policy t) db db' sparse sparse')
    : AnchorsKept policy { db := db', sparse := sparse', activity, todo := [] }
        fun p => written p ∪ (db.trees p).writtenOver policy (db'.trees p) := by
  refine ⟨hflushed.fixed.trans h.fixed, fun pool => ?_, fun pool => ?_⟩
  . rcases hflushed.pools pool with ⟨-, htree, hstore⟩ | ⟨store, hanchored, hflush⟩
    . dsimp only
      rw [hstore, htree]
      exact h.stores pool
    . exact hanchored.flush hflush
  . rcases hflushed.pools pool with ⟨-, htree, -⟩ | ⟨store, hanchored, hflush⟩
    . dsimp only
      rw [htree, SqlTree.writtenOver]
      simpa using h.marks pool
    . exact (h.marks pool).flush hanchored hflush

theorem insertDeferredRows_anchored {api : ShardTreeApi H Shard} {tree tree' : SparseShardStore Shard}
    {t : SqlTree Shard} (htree : tree.Anchored policy t)
    (h : insertDeferredRows api tree rows policy label = .ok (some tree'))
    : tree'.Anchored policy t := by
  unfold insertDeferredRows at h
  split at h
  . cases h
  . obtain ⟨u, hu, h⟩ := bind_eq_ok.mp h
    cases h
    exact htree.built (SparseShardStore.insertSubtrees_built (mapError_eq_ok.mp hu))

theorem AnchorsKept.treeless (h : AnchorsKept policy { db, sparse, activity, todo := [] } written)
    (htrees : db'.trees = db.trees)
    : AnchorsKept policy { db := db', sparse, activity, todo := [] }
        fun p => written p ∪ (db.trees p).writtenOver policy (db'.trees p) := by
  refine ⟨h.fixed, fun pool => ?_, fun pool => ?_⟩
  . dsimp only
    rw [seeded_of_trees htrees, htrees]
    apply h.stores
  . dsimp only
    rw [htrees, SqlTree.writtenOver]
    simpa using h.marks pool

theorem AnchorsKept.exec {op : DurableOp H Shard}
    (hop : ∀ call plans, op ≠ .transact call plans) (hop' : ∀ pool rows tree, op ≠ .flushTree pool rows tree)
    (h : AnchorsKept policy { db, sparse, activity, todo := [] } written)
    (hexec : op.exec up db sparse = .ok (db', sparse'))
    : AnchorsKept policy { db := db', sparse := sparse', activity, todo := [] }
        ((anchorHistory policy).took op db db' written) := by
  cases op with
  | transact call plans => exact absurd rfl (hop call plans)
  | flushTree pool rows tree => exact absurd rfl (hop' pool rows tree)
  | finish rows =>
    apply h.flushed
    refine (exec_finish_flushed (fun pool label tree hinserted => ?_) hexec).1
    rw [h.fixed] at hinserted
    apply insertDeferredRows_anchored (h.stores pool) hinserted
  | _ =>
    obtain ⟨htrees, rfl⟩ := exec_treeless rfl hexec
    apply h.treeless htrees

theorem AnchorsKept.safeFrom {ops rest : List (DurableOp H Shard)}
    (hops : ∀ op ∈ ops, op.treeless = true)
    (hrest : ∀ db', db'.trees = db.trees → ∀ written,
      AnchorsKept policy { db := db', sparse, activity, todo := [] } written →
      Session.SafeFrom (anchorHistory policy) up (AnchorsKept policy) activity rest db' sparse written)
    (h : AnchorsKept policy { db, sparse, activity, todo := [] } written)
    : Session.SafeFrom (anchorHistory policy) up (AnchorsKept policy) activity (ops ++ rest) db sparse
        written := by
  apply Session.SafeFrom.append (K := fun db₁ sparse₁ w => db₁.trees = db.trees ∧ sparse₁ = sparse
    ∧ AnchorsKept policy { db := db₁, sparse := sparse₁, activity, todo := [] } w)
  . rintro db₁ sparse₁ w ⟨-, -, hkept⟩
    exact hkept
  . rintro op hop db₁ sparse₁ w db₂ sparse₂ ⟨htrees, rfl, hkept⟩ hexec
    obtain ⟨htrees', rfl⟩ := exec_treeless (hops op hop) hexec
    refine ⟨htrees'.trans htrees, rfl, hkept.exec ?_ ?_ hexec⟩
    . rintro call plans rfl
      cases hops _ hop
    . rintro pool rows tree rfl
      cases hops _ hop
  . rintro db₁ sparse₁ w ⟨htrees, rfl, hkept⟩
    exact hrest db₁ htrees w hkept
  . exact ⟨rfl, rfl, h⟩

theorem AnchorsKept.safeFrom_treeless {ops : List (DurableOp H Shard)}
    (hops : ∀ op ∈ ops, op.treeless = true)
    (h : AnchorsKept policy { db, sparse, activity, todo := [] } written)
    : Session.SafeFrom (anchorHistory policy) up (AnchorsKept policy) activity ops db sparse
        written := by
  rw [← List.append_nil ops]
  exact h.safeFrom hops fun _ _ _ hkept => hkept

def AnchorsOwned (policy : Option AnchorRetention) (call : PutBlocks H) (db : WalletDb B Shard)
    (sparse : SparseTreeState H Shard) : Prop :=
  ∀ pool, ∀ b ∈ call.blocks, shouldRetainAnchor policy b.height = true →
    (b.pool pool).commitments ≠ [] ∨ b.height ∈ (sparse.seeded db pool).retained

theorem AnchorsOwned.missing {call : PutBlocks H} (h : AnchorsOwned policy call db sparse)
    (hcall : call.Valid) (pool : ShieldedPool) (hlast : call.putBlocksRows = .ok last)
    : ∀ e ∈ call.missing policy last pool, shouldRetainAnchor policy e.1 = true →
        e.1 ∈ (sparse.seeded db pool).retained := by
  intro e he hanchor
  rw [hcall.rows] at hlast
  cases hlast
  obtain ⟨⟨hensured, hnot⟩, -⟩ := PutBlocks.mem_missing.mp he
  obtain ⟨hlo, hhi⟩ := hcall.ensured_height hensured
  obtain ⟨b, hb, hheight⟩ := hcall.exists_block hlo hhi
  rw [← hheight] at hnot hanchor ⊢
  rcases h pool b hb hanchor with hown | hpin
  . exact absurd (hcall.mem_cpPos.mpr ⟨⟨b, hb, rfl, hown⟩, fun _ => hanchor⟩) hnot
  . exact hpin

theorem AnchorsKept.safeFrom_transact {call : PutBlocks H} {rest : List (DurableOp H Shard)}
    {plans : ShieldedPool → Option (PoolPlan H)} (hcall : call.Valid)
    (howned : AnchorsOwned policy call db sparse) (hrest : ∀ op ∈ rest, op.treeless = true)
    (h : AnchorsKept policy { db, sparse, activity, todo := [] } written)
    : Session.SafeFrom (anchorHistory policy) up (AnchorsKept policy) activity
        (.transact call plans :: rest) db sparse written := by
  refine ⟨h, fun db' sparse' hexec => ?_⟩
  apply AnchorsKept.safeFrom_treeless hrest
  apply h.flushed
  apply exec_transact_flushed _ hexec
  intro pool last staged hlast hrun
  have hfixed := h.fixed
  dsimp only at hfixed
  rw [hfixed] at hrun
  apply (h.stores pool).ran (Lane.run_ran hrun)
  apply howned.missing hcall pool hlast

theorem AnchorsKept.safeFrom_planOps {planned : Planned H} {pool : ShieldedPool}
    {next : PoolPlan H → List (DurableOp H Shard)}
    (hnext : ∀ plan db', db'.trees = db.trees → ∀ written,
      AnchorsKept policy { db := db', sparse, activity, todo := [] } written →
      Session.SafeFrom (anchorHistory policy) up (AnchorsKept policy) activity (next plan) db' sparse
        written)
    (h : AnchorsKept policy { db, sparse, activity, todo := [] } written)
    : Session.SafeFrom (anchorHistory policy) up (AnchorsKept policy) activity
        (PutBlocks.planOps pool planned next) db sparse written := by
  apply h.safeFrom
  . intro op hop
    obtain ⟨_, -, rfl⟩ := List.mem_map.mp hop
    rfl
  . intro db' htrees w hkept
    split
    . exact hnext _ db' htrees w hkept
    . apply hkept.safeFrom_treeless
      intro op hop
      cases List.mem_singleton.mp hop
      rfl

theorem AnchorsKept.begin [DecidableEq H] {call : PutBlocks H} {reads : CallReads H}
    (hcall : call.Valid) (howned : AnchorsOwned policy call db sparse)
    (h : AnchorsKept policy { db, sparse, activity, todo := [] } written)
    (hbegin : call.begin up reads db sparse = .ok (sparse', ops))
    : Session.SafeFrom (anchorHistory policy) up (AnchorsKept policy) activity ops db sparse'
        written := by
  have hbuffers : ∀ (pool : ShieldedPool) (cleanup : List (BufferOp H)),
      ∀ op ∈ (cleanup.map (.buffer pool) : List (DurableOp H Shard)), op.treeless = true := by
    intro pool cleanup op hop
    obtain ⟨_, -, rfl⟩ := List.mem_map.mp hop
    rfl
  cases PutBlocks.begin_begins hbegin with
  | empty hblocks => exact h
  | plain hgraft =>
    exact AnchorsKept.safeFrom_transact hcall howned (by simp) ⟨h.fixed, h.stores, h.marks⟩
  | grafting hgraft =>
    refine AnchorsKept.safeFrom_planOps ?_ ⟨h.fixed, h.stores, h.marks⟩
    intro sp db₁ htrees₁ w₁ hkept₁
    apply AnchorsKept.safeFrom_planOps _ hkept₁
    intro op db₂ htrees₂ w₂ hkept₂
    apply AnchorsKept.safeFrom_transact hcall _ _ hkept₂
    . intro pool b hb hanchor
      rw [seeded_of_trees (htrees₂.trans htrees₁)]
      apply howned pool b hb hanchor
    . intro op hop
      cases List.mem_append.mp hop with
      | inl hop => apply hbuffers _ _ op hop
      | inr hop => apply hbuffers _ _ op hop

theorem AnchorsKept.sweepJob [DecidableEq H] {reads : SweepReads H} {pool : ShieldedPool}
    (job : SweepJob H) (h : AnchorsKept policy { db, sparse, activity, todo := [] } written)
    : Session.SafeFrom (anchorHistory policy) up (AnchorsKept policy) activity
        (job.ops up reads policy pool (sparse.seeded db pool)) db sparse written := by
  rcases job.ops_cases up reads policy pool (sparse.seeded db pool) with
    hops | hops | ⟨shard, run, rows, check, tree, -, -, hchecked, hops⟩
  all_goals rw [hops]
  . exact h
  . apply h.safeFrom_treeless
    intro op hop
    rcases mem_rescanOps hop with ⟨_, rfl⟩ | rfl
    . rfl
    . rfl
  . obtain ⟨inserted, hinserted, rfl⟩ := insertChecked_ok hchecked
    have htree : (inserted.getD (sparse.seeded db pool)).Anchored policy (db.trees pool) := by
      cases inserted with
      | none => exact h.stores pool
      | some tree => exact insertDeferredRows_anchored (h.stores pool) hinserted
    refine ⟨h, fun db' sparse' hexec => ?_⟩
    apply AnchorsKept.safeFrom_treeless (by simp [DurableOp.treeless])
    exact h.flushed (exec_flushTree_flushed htree hexec).1

theorem AnchorsKept.finishOps (ctx : GraftCtx H)
    (h : AnchorsKept policy { db, sparse, activity, todo := [] } written)
    : Session.SafeFrom (anchorHistory policy) up (AnchorsKept policy) activity
        (Session.finishOps ctx) db sparse written := by
  unfold Session.finishOps
  dsimp only
  split
  . exact h
  . refine ⟨h, fun db' sparse' hexec => ?_⟩
    apply AnchorsKept.safeFrom_treeless
    . intro op hop
      cases List.mem_append.mp hop with
      | inl hop =>
        obtain ⟨_, _, _, -, rfl⟩ := mem_finishCleanup hop
        rfl
      | inr hop =>
        obtain ⟨_, _, _, -, rfl⟩ := mem_finishCleanup hop
        rfl
    . exact h.exec (by simp) (by simp) hexec

theorem anchorsKept_atRest (h : ∀ pool, (db.trees pool).Marks policy (written pool))
    : AnchorsKept policy (.atRest policy db : Session H B Shard) written where
  fixed := rfl
  stores _ := SparseShardStore.seed_anchored _ _
  marks := h

theorem AnchorsKept.begun [DecidableEq H] {s s' : Session H B Shard} {e : SessionEvent H}
    (h : AnchorsKept policy s written) (htodo : s.todo = [])
    (howned : ∀ reads call, e = .putBlocks reads call →
      call.Valid ∧ AnchorsOwned policy call s.db s.sparse)
    (hbegun : Session.Begun policy up s e s')
    : Session.Safe (anchorHistory policy) up (AnchorsKept policy) s'
        ((anchorHistory policy).observe up s e s' written) := by
  have hkept : AnchorsKept policy
      { db := s.db, sparse := s.sparse, activity := s.activity, todo := [] } written :=
    ⟨h.fixed, h.stores, h.marks⟩
  cases hbegun with
  | range =>
    refine .idle htodo ⟨rfl, fun pool => SparseShardStore.seed_anchored _ _, h.marks⟩
  | call hactivity hbegin =>
    obtain ⟨hcall, howned⟩ := howned _ _ rfl
    exact hkept.begin hcall howned hbegin
  | refused => exact .failed (fun s g h => anchorsKept_atRest h.marks) hkept
  | finish hactivity hgraft => exact AnchorsKept.finishOps _ ⟨h.fixed, h.stores, h.marks⟩
  | @sweep pool =>
    refine .idle htodo ⟨rfl, fun p => ?_, h.marks⟩
    by_cases hp : p = pool
    . cases hp
      simpa [SparseTreeState.seeded] using SparseShardStore.seed_anchored _ _
    . simpa [SparseTreeState.seeded, hp] using SparseShardStore.seed_anchored _ _
  | unswept => exact .idle rfl (anchorsKept_atRest h.marks)
  | job hactivity => exact AnchorsKept.sweepJob _ ⟨h.fixed, h.stores, h.marks⟩
  | heal => exact .idle rfl (anchorsKept_atRest fun pool => (h.marks pool).heal)
  | truncate => exact .idle rfl (anchorsKept_atRest fun pool => (h.marks pool).truncate _)
  | importAccount =>
    apply AnchorsKept.safeFrom_treeless
    . simp [DurableOp.treeless]
    . exact anchorsKept_atRest fun pool => (h.marks pool).truncate _

end Session

def anchorMachine [DecidableEq H] (up : Upstream H B Shard) (policy : Option AnchorRetention)
    : Machine (Session H B Shard × (ShieldedPool → Finset Nat)) (SessionEvent H) :=
  (sessionMachine up policy).observed (fun _ written => written = fun _ => ∅)
    ((anchorHistory policy).observe up)

def CallsOwnAnchors (policy : Option AnchorRetention)
    (st : Session H B Shard × (ShieldedPool → Finset Nat)) (e : SessionEvent H) : Prop :=
  ∀ reads call, e = .putBlocks reads call →
    call.Valid ∧ AnchorsOwned policy call st.1.db st.1.sparse

theorem written_anchors_stay [DecidableEq H] {up : Upstream H B Shard}
    {policy : Option AnchorRetention} {s : Session H B Shard} {written : ShieldedPool → Finset Nat}
    (h : (anchorMachine up policy).Reach (CallsOwnAnchors policy) (s, written))
    : ∀ pool, ∀ id ∈ written pool,
        id ∈ (s.db.trees pool).checkpoints.keys ∧ id ∈ (s.db.trees pool).retained := by
  have hsafe : Session.Safe (anchorHistory policy) up (AnchorsKept policy) s written := by
    apply Session.Safe.of_reach _ _ _ h
    . rintro db g rfl
      exact anchorsKept_atRest fun _ => by simp [SqlTree.Marks]
    . intro s g hkept
      exact anchorsKept_atRest hkept.marks
    . intro s g e s' htodo hkept howned hbegun
      exact hkept.begun htodo howned hbegun
  intro pool id hid
  exact (hsafe.now.marks pool id hid).2

def callEvents (call : PutBlocks H) : List (SessionEvent H) :=
  [.beginRange none, .putBlocks .none call, .proceed]

def plainCall (height : Nat) : PutBlocks Nat where
  fromState := { blockHeight := height, finalTree := fun _ => ⟨none⟩ }
  blocks := [saplingBlock (height + 1) 0 [], saplingBlock (height + 2) 0 []]
  chainTip := none

theorem plainCall_valid (height : Nat) : (plainCall height).Valid where
  nonempty := by simp [plainCall]
  consecutive := rfl
  continues b hb := by
    cases hb
    simp [PutBlocks.continues, plainCall, saplingBlock, PutBlocks.frontier, Frontier.treeSize,
      ShieldedPool.all]
  tip_lt _ htip := by cases htip

def anchorRun (anchor : Nat) (events : List (SessionEvent Nat))
    : Option (Session Nat Nat Unit × (ShieldedPool → Finset Nat)) :=
  (anchorMachine (.bare Nat) (onlyAnchor anchor)).run
    (.atRest (onlyAnchor anchor) (.fresh Nat), fun _ => ∅) events

theorem written_anchors_stay_frontier
    : ∃ s written, anchorRun 100 (callEvents (plainCall 100)) = some (s, written)
      ∧ 100 ∈ written .sapling
      ∧ 100 ∈ (s.db.trees .sapling).checkpoints.keys ∧ 100 ∈ (s.db.trees .sapling).retained := by
  have hrun : (anchorRun 100 (callEvents (plainCall 100))).any (fun st => decide (100 ∈ st.2 .sapling))
      = true := by
    decide +kernel
  obtain ⟨⟨s, written⟩, hs, hwritten⟩ := (Option.any_eq_true _ _).mp hrun
  have hmem := of_decide_eq_true hwritten
  refine ⟨s, written, hs, hmem, written_anchors_stay (Machine.reach_of_run ?_ ?_ hs) .sapling 100 hmem⟩
  . exact .start ⟨⟨_, rfl⟩, rfl⟩
  . intro e he st reads call heq
    simp only [callEvents, List.mem_cons, List.not_mem_nil, or_false] at he
    rcases he with rfl | rfl | rfl
    all_goals cases heq
    refine ⟨plainCall_valid 100, fun pool b hb hanchor => ?_⟩
    simp only [plainCall, List.mem_cons, List.not_mem_nil, or_false] at hb
    rcases hb with rfl | rfl
    all_goals cases hanchor

/-- An anchor at a block without a commitment is written without a mark. -/
theorem plainCall_writes_unmarked
    : ∃ s written, anchorRun 102 (callEvents (plainCall 100)) = some (s, written)
      ∧ 102 ∈ written .sapling ∧ 102 ∈ (s.db.trees .sapling).checkpoints.keys
      ∧ 102 ∉ (s.db.trees .sapling).retained := by
  have hrun : (anchorRun 102 (callEvents (plainCall 100))).any (fun st =>
      decide (102 ∈ st.2 .sapling ∧ 102 ∈ (st.1.db.trees .sapling).checkpoints.keys
        ∧ 102 ∉ (st.1.db.trees .sapling).retained)) = true := by
    decide +kernel
  obtain ⟨⟨s, written⟩, hs, hfound⟩ := (Option.any_eq_true _ _).mp hrun
  exact ⟨s, written, hs, of_decide_eq_true hfound⟩

end Slipstream
