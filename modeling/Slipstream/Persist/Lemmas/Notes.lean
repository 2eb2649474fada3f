import Slipstream.Persist.Lemmas.Content
import Slipstream.Persist.Lemmas.OnChain
import Slipstream.Persist.Lemmas.Steps

/-!
This module contains what a range does with the owned notes of the blocks it scans: their leaves are
built in the call that reports them, and the shards they are in are not grafted.
-/

namespace Slipstream

variable {H B Shard : Type}

def OpenShard.Aware (notes scannedAt : Nat → Prop) (pos : Nat) (o : OpenShard H) : Prop :=
  ∀ p, notes p → scannedAt p → shardOf p = o.index → p < pos → o.passthrough = true

section Feed

variable {notes scannedAt scannedAt' : Nat → Prop} {noted : List Nat} {pos : Nat}
  {items : List (H × Retention)} {o o' : OpenShard H} {acts : List (FeedAction H)}

theorem OpenAt.index_of_below (h : OpenAt pos o) (hp : p < pos) (hle : o.index ≤ shardOf p)
    : shardOf p = o.index := by
  have hupper := h.upper
  have hshard := (shardOf_eq_iff p _).mp rfl
  by_contra hne
  have : (o.index + 1) * 65536 ≤ shardOf p * 65536 := Nat.mul_le_mul_right _ (by omega)
  omega

theorem Fed.aware (h : Fed pos items noted o acts o')
    (haware : o.Aware notes scannedAt pos)
    (hnoted : ∀ p, notes p → pos ≤ p → p < pos + items.length → p ∈ noted)
    (hscanned : ∀ p, scannedAt' p → p < pos → scannedAt p)
    : o'.Aware notes scannedAt' (pos + items.length) := by
  intro p hnote hp hindex hlt
  rw [h.passthrough_iff]
  by_cases hpos : pos ≤ p
  . exact Or.inr ⟨p, ⟨hnoted p hnote hpos hlt, hpos, hlt⟩, hindex⟩
  . have hsame : shardOf p = o.index := by
      apply h.start_open.index_of_below (by omega)
      rw [hindex]
      apply h.index_le
    apply Or.inl
    refine ⟨?_, hindex.symm.trans hsame⟩
    apply haware p hnote (hscanned p hp (by omega)) hsame (by omega)

theorem Fed.spares (h : Fed pos items noted o acts o')
    (haware : o.Aware notes scannedAt pos)
    (hnoted : ∀ p, notes p → pos ≤ p → p < pos + items.length → p ∈ noted)
    (hclosed : .closeCleanShard k rows ∈ acts) (hnote : notes p) (hp : scannedAt p)
    : shardOf p ≠ k := by
  intro hindex
  obtain ⟨hle, hlt, -⟩ := (h.acted _ hclosed).closed k rows rfl
  apply (h.closed k hle hlt).mp ⟨rows, hclosed⟩
  by_cases hpos : pos ≤ p
  . have hstop : p < pos + items.length := by
      have hshard := (shardOf_eq_iff p _).mp hindex
      have hlower := h.opened.lower
      have : (k + 1) * 65536 ≤ o'.index * 65536 := Nat.mul_le_mul_right _ (by omega)
      omega
    exact Or.inr ⟨p, ⟨hnoted p hnote hpos hstop, hpos, hstop⟩, hindex⟩
  . have hsame := h.start_open.index_of_below (p := p) (by omega) (by omega)
    apply Or.inl
    refine ⟨?_, hindex.symm.trans hsame⟩
    apply haware p hnote hp hsame (by omega)

theorem Fed.builds (h : Fed pos items noted o acts o')
    (hnoted : ∀ p, notes p → pos ≤ p → p < pos + items.length → p ∈ noted)
    (hr : r ∈ rowsFrom pos items) (hnote : notes r.position)
    : ∃ a ∈ acts, r ∈ a.builtRows ∧ ∀ k rows, a ≠ .closeCleanShard k rows := by
  have hspan : pos ≤ r.position ∧ r.position < pos + items.length := by
    obtain ⟨i, c, hc, rfl⟩ := mem_rowsFrom.mp hr
    have := (List.getElem?_eq_some_iff.mp hc).1
    dsimp only
    omega
  have hunclean : Unclean o (fun n => n ∈ noted ∧ pos ≤ n ∧ n < pos + items.length)
      (shardOf r.position) :=
    Or.inr ⟨r.position, ⟨hnoted _ hnote hspan.1 hspan.2, hspan⟩, rfl⟩
  have hmem : r ∈ acts.flatMap FeedAction.builtRows ++ o'.rows := by
    rw [h.conserved]
    exact List.mem_append_right _ hr
  cases List.mem_append.mp hmem with
  | inl hbuilt =>
    obtain ⟨a, ha, hin⟩ := List.mem_flatMap.mp hbuilt
    refine ⟨a, ha, hin, ?_⟩
    rintro k rows rfl
    obtain ⟨hle, hlt, hrows⟩ := (h.acted _ ha).closed k rows rfl
    apply (h.closed k hle hlt).mp ⟨rows, ha⟩
    have hshard : shardOf r.position = k := by
      change r ∈ rows at hin
      rw [hrows, List.mem_filter] at hin
      simpa [inShard] using hin.2
    rwa [← hshard]
  | inr hopen =>
    -- A shard with a note keeps back only rows from before the feed.
    have hpass : o'.passthrough = true := by
      rwa [h.passthrough_iff, ← h.opened.shard r hopen]
    have := h.start_open.position_lt (h.open_resumed hpass r hopen)
    omega

end Feed

structure Lane.SparesNotes (notes scannedAt : Nat → Prop) (lane : Lane H) : Prop where
  spares : ∀ p, notes p → scannedAt p → shardOf p ∉ lane.grafted
  builds : ∀ r ∈ rowsFrom lane.frontier.treeSize lane.commitments, notes r.position →
    ∃ seg ∈ lane.segments, r ∈ rowsFrom seg.1 seg.2

theorem Lane.sparesNotes_of_plain {notes scannedAt : Nat → Prop} {lane : Lane H} (h : lane.plan = none)
    : lane.SparesNotes notes scannedAt where
  spares p _ _ := by simp [grafted, h]
  builds r hr _ := ⟨(lane.frontier.treeSize, lane.commitments), by simp [segments, h], hr⟩

def PutBlocks.Reports (call : PutBlocks H) (notes : Nat → Prop) (pool : ShieldedPool) : Prop :=
  ∀ p, notes p → (call.frontier pool).treeSize ≤ p → p < call.stop pool →
    p ∈ call.notePositions pool
      ∧ ∃ c, (call.stream pool)[p - (call.frontier pool).treeSize]? = some c ∧ c.2.isMarked = true

section Plan

variable {call : PutBlocks H} {notes scannedAt scannedAt' : Nat → Prop} {pool : ShieldedPool}
  {policy : Option AnchorRetention}

theorem PutBlocks.Reports.marked (h : call.Reports notes pool) (policy : Option AnchorRetention)
    (hnote : notes p) (hlo : (call.frontier pool).treeSize ≤ p) (hhi : p < call.stop pool)
    : ∃ r ∈ rowsFrom (call.frontier pool).treeSize (call.doomedStream policy pool),
        r.position = p ∧ r.retention.isMarked = true := by
  obtain ⟨-, c, hc, hmarked⟩ := h p hnote hlo hhi
  have hrow : ⟨p, c.1, c.2⟩ ∈ rowsFrom (call.frontier pool).treeSize (call.stream pool) := by
    refine mem_rowsFrom.mpr ⟨_, c, hc, ?_⟩
    rw [Nat.add_sub_cancel' hlo]
  have hdoomed : call.doomedStream policy pool
      = downgradeBelow (call.stream pool) (if call.isDeep then some DOOM_ALL else none) policy := by
    unfold PutBlocks.doomedStream
    split <;> rfl
  rw [hdoomed]
  obtain ⟨r, hr, hposition, hmark⟩ :=
    exists_downgradeBelow (if call.isDeep then some DOOM_ALL else none) policy hrow
  exact ⟨r, hr, hposition, hmark.trans hmarked⟩

variable {hasShard : Nat → Bool} {refuses : List (AccRow H) → Option String}
  {serverRoot : Nat → Except String (Option H)} {readError : Option String}
  {seedOps : List (BufferOp H)} {o o' : OpenShard H} {acts : List (FeedAction H)} {planned : Planned H}

theorem PlansFrom.noted
    (h : PlansFrom (call.planInputs policy verifySample pool hasShard refuses serverRoot readError)
      seedOps o o' acts planned)
    : Fed (call.frontier pool).treeSize (call.doomedStream policy pool) (call.notePositions pool)
        o acts o' :=
  h.fed

theorem PutBlocks.Reports.noted (h : call.Reports notes pool) (policy : Option AnchorRetention)
    : ∀ p, notes p → (call.frontier pool).treeSize ≤ p →
        p < (call.frontier pool).treeSize + (call.doomedStream policy pool).length →
        p ∈ call.notePositions pool := by
  intro p hnote hlo hhi
  rw [call.doomedStream_length] at hhi
  exact (h p hnote hlo hhi).1

theorem PlansFrom.sparesNotes
    (h : PlansFrom (call.planInputs policy verifySample pool hasShard refuses serverRoot readError)
      seedOps o o' acts planned) {plan : PoolPlan H} (hplan : planned.plan = .ok plan)
    (haware : o.Aware notes scannedAt (call.frontier pool).treeSize)
    (hreports : call.Reports notes pool)
    : (call.lane policy last (some plan) pool).SparesNotes notes scannedAt := by
  obtain ⟨hplanned, -⟩ := h.plan plan hplan
  constructor
  case spares =>
    intro p hnote hp hgrafted
    obtain ⟨g, hg, hindex⟩ := List.mem_map.mp hgrafted
    rcases (hplanned.grafts g).mp hg with hg | ⟨rows, hclosed, -⟩
    . cases hg
    . exact h.noted.spares haware (hreports.noted policy) hclosed hnote hp hindex.symm
  case builds =>
    intro r hr hnote
    obtain ⟨a, ha, hin, hnot⟩ := h.noted.builds (hreports.noted policy) hr hnote
    rcases h.builds_row hplan ha hin with hmem | ⟨shard, rows, root, heq, -⟩
    . exact hmem
    . exact absurd heq (hnot shard rows)

theorem PlansFrom.aware
    (h : PlansFrom (call.planInputs policy verifySample pool hasShard refuses serverRoot readError)
      seedOps o o' acts planned)
    (haware : o.Aware notes scannedAt (call.frontier pool).treeSize)
    (hreports : call.Reports notes pool)
    (hscanned : ∀ p, scannedAt' p → p < (call.frontier pool).treeSize → scannedAt p)
    (ha : planned.acc = some a)
    : ∃ o', a.openShard = some o' ∧ OpenAt a.nextPosition o'
        ∧ o'.Aware notes scannedAt' a.nextPosition := by
  rw [h.acc] at ha
  cases ha
  exact ⟨o', rfl, h.fed.opened, h.noted.aware haware (hreports.noted policy) hscanned⟩

end Plan

section Wallet

variable (sizes : ShieldedPool → Nat → Nat) (notes : ShieldedPool → Nat → Prop)
  (holds : Shard → Nat → Prop)

structure NotesSafe (s : Session H B Shard) : Prop where
  filed : ∀ pool, (s.db.buffer pool).Filed
  stores : ∀ pool, (s.sparse.seeded s.db pool).Matches (s.db.trees pool)
  held : ∀ pool, pool ≠ .ironwood → ∀ p, notes pool p → ScannedAt (sizes pool) s.db.scanned p →
    Held holds (s.db.trees pool).shards p
  aware : ∀ ctx a pool, s.sparse.graft = some ctx → ctx.acc pool = some a → pool ≠ .ironwood →
    ∃ o, a.openShard = some o ∧ OpenAt a.nextPosition o
      ∧ o.Aware (notes pool) (ScannedAt (sizes pool) s.db.scanned) a.nextPosition

variable {sizes notes holds} {up : Upstream H B Shard} {db db' : WalletDb B Shard}
  {sparse sparse' : SparseTreeState H Shard} {activity : Activity H} {call : PutBlocks H}

theorem OpenShard.Aware.mono {notes scannedAt scannedAt' : Nat → Prop} {o : OpenShard H}
    (h : o.Aware notes scannedAt pos) (hsub : ∀ p, scannedAt' p → scannedAt p)
    : o.Aware notes scannedAt' pos :=
  fun p hnote hp => h p hnote (hsub p hp)

theorem notesSafe_atRest {policy : Option AnchorRetention} {s : Session H B Shard}
    (h : NotesSafe sizes notes holds s)
    : NotesSafe sizes notes holds (.atRest policy s.db : Session H B Shard) where
  filed := h.filed
  stores _ := SparseShardStore.seed_matches _ _
  held := h.held
  aware _ _ _ hgraft := by cases hgraft

theorem NotesSafe.setBuffer (h : NotesSafe sizes notes holds { db, sparse, activity, todo := [] })
    (pool : ShieldedPool) (ht : t.Filed)
    : NotesSafe sizes notes holds { db := db.setBuffer pool t, sparse, activity, todo := [] } where
  filed p := by
    by_cases hp : p = pool
    . subst hp
      simpa [WalletDb.setBuffer] using ht
    . simpa [WalletDb.setBuffer, hp] using h.filed p
  stores := h.stores
  held := h.held
  aware := h.aware

def KeepsHeld (notes : ShieldedPool → Nat → Prop) (holds : Shard → Nat → Prop) (pool : ShieldedPool)
    (t : SqlTree Shard) (store : SparseShardStore Shard) : Prop :=
  store.InStep t ∧ ∀ p, pool ≠ .ironwood → notes pool p → Held holds t.shards p →
    Held holds store.shards p

theorem NotesSafe.flushed (h : NotesSafe sizes notes holds { db, sparse, activity, todo := [] })
    (hflushed : Flushed idle (KeepsHeld notes holds) db db' sparse sparse')
    (hscanned : db'.scanned = db.scanned)
    : NotesSafe sizes notes holds { db := db', sparse := sparse', activity, todo := [] } := by
  constructor
  case filed =>
    dsimp only
    rw [hflushed.buffer]
    exact h.filed
  case stores =>
    intro pool
    rcases hflushed.pools pool with ⟨-, htree, hstore⟩ | ⟨store, hgood, hflush⟩
    . dsimp only
      rw [htree, hstore]
      apply h.stores
    . apply hgood.1.flush hflush
  case held =>
    intro pool hpool p hnote hp
    dsimp only at hp ⊢
    rw [hscanned] at hp
    have hheld := h.held pool hpool p hnote hp
    rcases hflushed.pools pool with ⟨-, htree, -⟩ | ⟨store, hgood, hflush⟩
    . rwa [htree]
    . rw [hgood.1.flush_shards hflush]
      apply hgood.2 p hpool hnote hheld
  case aware =>
    intro ctx a pool hgraft
    dsimp only at hgraft ⊢
    rw [hflushed.graft] at hgraft
    rw [hscanned]
    apply h.aware ctx a pool hgraft

theorem keepsHeld_insertDeferredRows {policy : Option AnchorRetention} {tree : SparseShardStore Shard}
    {rows : List (AccRow H)}
    (hleaves : ∀ pool, pool ≠ .ironwood → up.KeepsLeaves holds (notes pool))
    (h : NotesSafe sizes notes holds { db, sparse, activity, todo := [] }) (pool : ShieldedPool)
    (hinsert : insertDeferredRows up.toShardTreeApi (sparse.seeded db pool) rows policy label
      = .ok (some tree))
    : KeepsHeld notes holds pool (db.trees pool) tree := by
  have hmatches := h.stores pool
  constructor
  . apply (SparseShardStore.inStep_keeps _ _).insertDeferredRows hinsert
    exact hmatches.toInStep
  . intro p hpool hnote hheld
    apply (SparseShardStore.held_keeps (hleaves pool hpool).toHoldsRows hnote).insertDeferredRows hinsert
    have hshards := hmatches.same_shards
    dsimp only at hshards ⊢
    rwa [hshards]

theorem NotesSafe.transact {plans : ShieldedPool → Option (PoolPlan H)}
    (hleaves : ∀ pool, pool ≠ .ironwood → up.KeepsLeaves holds (notes pool))
    (h : NotesSafe sizes notes holds { db, sparse, activity, todo := [] }) (hcall : call.Valid)
    (hchain : call.OnChain sizes)
    (hreports : ∀ pool, pool ≠ .ironwood → call.Reports (notes pool) pool)
    (hspares : ∀ pool, pool ≠ .ironwood → ∀ last,
      (call.lane sparse.anchorRetention last (plans pool) pool).SparesNotes (notes pool)
        (ScannedAt (sizes pool) db.scanned))
    (haware : ∀ ctx a pool, sparse.graft = some ctx → ctx.acc pool = some a → pool ≠ .ironwood →
      ∃ o, a.openShard = some o ∧ OpenAt a.nextPosition o
        ∧ o.Aware (notes pool) (ScannedAt (sizes pool) (db.scanned ∪ call.heights)) a.nextPosition)
    (hexec : DurableOp.exec up db sparse (.transact call plans) = .ok (db', sparse'))
    : NotesSafe sizes notes holds { db := db', sparse := sparse', activity, todo := [] } := by
  obtain ⟨⟨db₁, trees⟩, htransact, hexec⟩ := bind_eq_ok.mp hexec
  cases hexec
  have hcommitted := transact_committed htransact
  obtain ⟨last, staged, hrows, hstaged, hflush, hscanned⟩ := hcommitted.committed
  rw [hcall.rows] at hrows
  cases hrows
  have hinStep : ∀ pool, (staged pool).InStep (db.trees pool) := by
    intro pool
    apply (SparseShardStore.inStep_keeps _ _).run (treeStage_lanes hstaged pool)
    apply (h.stores pool).toInStep.graft
  constructor
  case filed =>
    dsimp only
    rw [hcommitted.buffer]
    exact h.filed
  case stores =>
    intro pool
    apply (hinStep pool).flush (hflush pool)
  case held =>
    intro pool hpool p hnote hp
    dsimp only at hp ⊢
    rw [(hinStep pool).flush_shards (hflush pool)]
    have hrun := treeStage_lanes hstaged pool
    rw [if_neg hpool] at hrun
    have hlane := hspares pool hpool call.lastHeight
    rw [hscanned, scannedAt_union] at hp
    cases hp with
    | inl hold =>
      apply Lane.run_kept (hleaves pool hpool).toHoldsRows hrun hnote _ (hlane.spares p hnote hold)
      have hshards := (h.stores pool).same_shards
      dsimp only at hshards
      rw [hshards]
      apply h.held pool hpool p hnote hold
    | inr hnew =>
      obtain ⟨hlo, hhi⟩ := hchain.scannedAt_heights hcall hnew
      obtain ⟨r, hr, rfl, hmarked⟩ :=
        (hreports pool hpool).marked sparse.anchorRetention hnote hlo hhi
      obtain ⟨seg, hseg, hin⟩ := hlane.builds r hr hnote
      apply Lane.run_held (hleaves pool hpool).toHoldsRows hrun hseg hin _ hnote
      exact fun _ hmark => hmark.trans hmarked
  case aware =>
    intro ctx a pool hgraft hacc hpool
    dsimp only
    rw [hscanned]
    apply haware ctx a pool hgraft hacc hpool

theorem NotesSafe.queued (h : NotesSafe sizes notes holds { db, sparse, activity, todo := [] })
    (hsub : scanned ⊆ db.scanned)
    : NotesSafe sizes notes holds { db := { db with scanned }, sparse, activity, todo := [] } where
  filed := h.filed
  stores := h.stores
  held pool hpool p hnote hp := h.held pool hpool p hnote (hp.mono hsub)
  aware ctx a pool hgraft hacc hpool := by
    obtain ⟨o, ho, hat, haware⟩ := h.aware ctx a pool hgraft hacc hpool
    exact ⟨o, ho, hat, haware.mono fun p hp => hp.mono hsub⟩

section Planned

variable [DecidableEq H] {reads : CallReads H} {ctx : GraftCtx H} {pool : ShieldedPool}

theorem NotesSafe.planned (hleaves : up.KeepsLeaves holds (notes pool))
    (h : NotesSafe sizes notes holds { db, sparse, activity, todo := [] })
    (hgraft : sparse.graft = some ctx) (hpool : pool ≠ .ironwood)
    (hnext : ∀ a, ctx.acc pool = some a → a.nextPosition = (call.frontier pool).treeSize)
    : (∃ e, call.planned up reads db sparse ctx pool = { ops := [], acc := none, plan := .error e })
      ∨ ∃ seedOps o o' acts, PlansFrom (call.inputs up reads db sparse ctx pool) seedOps o o' acts
          (call.planned up reads db sparse ctx pool)
        ∧ o.Aware (notes pool) (ScannedAt (sizes pool) db.scanned) (call.frontier pool).treeSize
        ∧ ∀ op ∈ seedOps, ∃ shard start stop, op = .deleteRowsIn shard start stop := by
  have hopen : ∀ a, ctx.acc pool = some a → ∃ o, a.openShard = some o
      ∧ OpenAt (call.frontier pool).treeSize o
      ∧ o.Aware (notes pool) (ScannedAt (sizes pool) db.scanned) (call.frontier pool).treeSize := by
    intro a ha
    rw [← hnext a ha]
    apply h.aware ctx a pool hgraft ha hpool
  have hcases := planPool_cases up.ser (ctx.acc pool) (call.inputs up reads db sparse ctx pool)
    (h.filed pool) fun a ha => by
      obtain ⟨o, ho, hat, -⟩ := hopen a ha
      exact ⟨o, ho, hat⟩
  rcases hcases with ⟨-, e, herror⟩ | ⟨seedOps, o, o', hplans, hfrom⟩
  . exact Or.inl ⟨e, herror⟩
  . refine Or.inr ⟨seedOps, o, o', _, hplans, ?_⟩
    rcases hfrom with ⟨a, ha, ho, rfl⟩ | ⟨-, hseeded⟩
    . obtain ⟨o₁, ho₁, -, haware⟩ := hopen a ha
      rw [ho₁] at ho
      cases ho
      exact ⟨haware, by simp⟩
    . constructor
      . -- The probe of the seed shard sees the leaf.
        intro p hnote hp hindex _
        obtain ⟨shard, hshard, hholds⟩ := h.held pool hpool p hnote hp
        apply hseeded.probed
        have hshards := (h.stores pool).same_shards
        dsimp only at hshards hshard
        change (sparse.seeded db pool).shardHasInterior up.toShardTreeApi o.index = true
        unfold SparseShardStore.shardHasInterior
        rw [hshards, ← hindex, hshard]
        simp [hleaves.interior shard p hholds]
      . intro op hop
        exact ⟨_, _, _, hseeded.dropped op hop⟩

structure CallScans (sizes : ShieldedPool → Nat → Nat) (notes : ShieldedPool → Nat → Prop)
    (call : PutBlocks H) (sparse : SparseTreeState H Shard) : Prop where
  valid : call.Valid
  onChain : call.OnChain sizes
  reports : ∀ pool, pool ≠ .ironwood → call.Reports (notes pool) pool
  next : ∀ ctx a pool, sparse.graft = some ctx → ctx.acc pool = some a →
    a.nextPosition = (call.frontier pool).treeSize

theorem NotesSafe.planned_files (hleaves : up.KeepsLeaves holds (notes pool))
    (h : NotesSafe sizes notes holds { db, sparse, activity, todo := [] })
    (hcall : CallScans sizes notes call sparse) (hgraft : sparse.graft = some ctx)
    (hpool : pool ≠ .ironwood)
    : ∀ op ∈ (call.planned up reads db sparse ctx pool).ops, op.Files := by
  rcases h.planned hleaves hgraft hpool (fun a ha => hcall.next ctx a pool hgraft ha) with
    ⟨e, herror⟩ | ⟨seedOps, o, o', acts, hplans, -, hdropped⟩
  . rw [herror]
    simp
  . apply hplans.files hdropped

theorem NotesSafe.planned_spares (hleaves : up.KeepsLeaves holds (notes pool))
    (h : NotesSafe sizes notes holds { db, sparse, activity, todo := [] })
    (hcall : CallScans sizes notes call sparse) (hgraft : sparse.graft = some ctx)
    (hpool : pool ≠ .ironwood) {plan : PoolPlan H}
    (hplan : (call.planned up reads db sparse ctx pool).plan = .ok plan) (last : Nat)
    : (call.lane sparse.anchorRetention last (some plan) pool).SparesNotes (notes pool)
        (ScannedAt (sizes pool) db.scanned) := by
  rcases h.planned hleaves hgraft hpool (fun a ha => hcall.next ctx a pool hgraft ha) with
    ⟨e, herror⟩ | ⟨seedOps, o, o', acts, hplans, haware, -⟩
  . rw [herror] at hplan
    cases hplan
  . apply hplans.sparesNotes hplan haware (hcall.reports pool hpool)

theorem NotesSafe.planned_aware (hleaves : up.KeepsLeaves holds (notes pool))
    (h : NotesSafe sizes notes holds { db, sparse, activity, todo := [] })
    (hcall : CallScans sizes notes call sparse) (hgraft : sparse.graft = some ctx)
    (hpool : pool ≠ .ironwood) (ha : (call.planned up reads db sparse ctx pool).acc = some a)
    : ∃ o, a.openShard = some o ∧ OpenAt a.nextPosition o
      ∧ o.Aware (notes pool) (ScannedAt (sizes pool) (db.scanned ∪ call.heights)) a.nextPosition := by
  rcases h.planned hleaves hgraft hpool (fun a ha => hcall.next ctx a pool hgraft ha) with
    ⟨e, herror⟩ | ⟨seedOps, o, o', acts, hplans, haware, -⟩
  . rw [herror] at ha
    cases ha
  . apply hplans.aware haware (hcall.reports pool hpool) _ ha
    -- The call's own blocks lie above its frontier.
    intro p hp hlt
    cases scannedAt_union.mp hp with
    | inl hp => exact hp
    | inr hp =>
      have := (hcall.onChain.scannedAt_heights hcall.valid hp).1
      omega

end Planned

end Wallet
end Slipstream
