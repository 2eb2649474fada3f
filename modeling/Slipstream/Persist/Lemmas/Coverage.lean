import Slipstream.Graft.Lemmas.Rescans
import Slipstream.Persist.Lemmas.Content
import Slipstream.Persist.Lemmas.OnChain
import Slipstream.Persist.Lemmas.Steps
import Mathlib.Data.Set.Lattice

/-!
This module contains where the positions of scanned blocks are: in the shards of the store, by what a
transaction built or grafted, or in the rows of the graft buffer. It shows which writes keep them there.
-/

namespace Slipstream

variable {H B Shard : Type}

def positionsOf (rows : List (AccRow H)) : Set Nat := {p | ∃ r ∈ rows, r.position = p}

theorem doomDeepRows_positions (rows : List (AccRow H)) (chainTip : Nat)
    (policy : Option AnchorRetention)
    : (doomDeepRows rows chainTip policy).map AccRow.position = rows.map AccRow.position := by
  unfold doomDeepRows
  rw [List.map_map]
  apply List.map_congr_left
  intro r _
  dsimp only [Function.comp]
  split
  . split <;> rfl
  . rfl

theorem fedSpan_run {rows : List (AccRow H)} (hrun : RunFrom first rows) (hne : rows ≠ [])
    : fedSpan rows = some (shardOf first, first, first + rows.length) := by
  have hlength : rows.length ≠ 0 := fun h => hne (List.length_eq_zero_iff.mp h)
  have hhead := congrArg List.head? hrun
  have hlast := congrArg List.getLast? hrun
  rw [List.head?_map, List.head?_eq_some_head hne, List.head?_range', if_neg hlength] at hhead
  rw [List.getLast?_map, List.getLast?_eq_some_getLast hne, List.getLast?_range',
    if_neg hlength] at hlast
  have hfirst := Option.some.inj hhead
  have hstop : (rows.getLast hne).position + 1 = first + rows.length := by
    have := Option.some.inj hlast
    omega
  rw [fedSpan, List.head?_eq_some_head hne, List.getLast?_eq_some_getLast hne]
  simp only [hfirst, hstop]

theorem mem_positionsOf_of_fedSpan {rows : List (AccRow H)} (hrun : RunFrom first rows)
    (hspan : fedSpan rows = some (shard, start, stop)) (hlo : start ≤ p) (hhi : p < stop)
    : p ∈ positionsOf rows := by
  have hne : rows ≠ [] := by
    rintro rfl
    cases hspan
  rw [fedSpan_run hrun hne] at hspan
  cases hspan
  obtain ⟨r, hr, hp⟩ := List.mem_map.mp ((hrun.mem_iff p).mpr ⟨hlo, hhi⟩)
  exact ⟨r, hr, hp⟩

def PutBlocks.builds (call : PutBlocks H) (pool : ShieldedPool) : Option (PoolPlan H) → Set Nat
  | none => Set.Ico (call.frontier pool).treeSize (call.stop pool)
  | some plan => {p | (∃ seg ∈ plan.segments, seg.1 ≤ p ∧ p < seg.1 + seg.2.length)
      ∨ ∃ graft ∈ plan.grafts, shardOf p = graft.1}

section Plan

variable {call : PutBlocks H} {pool : ShieldedPool} {inp : PlanInputs H}
  {seedOps : List (BufferOp H)} {o o' : OpenShard H} {acts : List (FeedAction H)} {planned : Planned H}
  {plan : PoolPlan H}

theorem PlansFrom.built (h : PlansFrom inp seedOps o o' acts planned)
    (hplan : planned.plan = .ok plan) (ha : a ∈ acts) (hr : r ∈ a.builtRows)
    : r.position ∈ call.builds pool (some plan) := by
  rcases h.builds_row hplan ha hr with ⟨seg, hmem, hr⟩ | ⟨shard, rows, root, rfl, hmem⟩
  . have := (RunFrom.rowsFrom seg.1 seg.2).position_mem hr
    rw [rowsFrom_length] at this
    exact Or.inl ⟨seg, hmem, this⟩
  . obtain ⟨first, shard', -, hshard, hindex⟩ := (h.fed.acted _ ha).placed
    exact Or.inr ⟨_, hmem, (hshard r hr).trans (hindex shard rows rfl).symm⟩

theorem PlansFrom.built_or_buffered (h : PlansFrom inp seedOps o o' acts planned)
    (hplan : planned.plan = .ok plan) (hlo : inp.startPosition ≤ p)
    (hhi : p < inp.startPosition + inp.stream.length)
    : p ∈ call.builds pool (some plan) ∨ ∃ a ∈ acts, ∃ r ∈ a.bufferRows, r.position = p := by
  have hfed : p ∈ (rowsFrom inp.startPosition inp.stream).map AccRow.position := by
    rw [(RunFrom.rowsFrom _ _).mem_iff, rowsFrom_length]
    exact ⟨hlo, hhi⟩
  obtain ⟨r, hr, rfl⟩ := List.mem_map.mp hfed
  have hmem := List.mem_append_right o.rows hr
  rw [← h.fed.conserved] at hmem
  cases List.mem_append.mp hmem with
  | inl hbuilt =>
    obtain ⟨a, ha, hr⟩ := List.mem_flatMap.mp hbuilt
    exact Or.inl (h.built hplan ha hr)
  | inr hopen =>
    obtain ⟨a, ha, hr⟩ := h.fed.waiting hopen hlo
    exact Or.inr ⟨a, ha, r, hr, rfl⟩

theorem PlansFrom.cleanup_built (h : PlansFrom inp seedOps o o' acts planned)
    (hplan : planned.plan = .ok plan) (hspan : (shard, start, stop) ∈ plan.cleanupSpans)
    (hlo : start ≤ p) (hhi : p < stop) : p ∈ call.builds pool (some plan) := by
  rw [(h.plan plan hplan).1.cleanupSpans] at hspan
  obtain ⟨a, ha, hspan⟩ := List.mem_flatMap.mp hspan
  have hspan := Option.mem_toList.mp hspan
  obtain ⟨first, hrun⟩ := (h.fed.acted a ha).placed.built_run
  obtain ⟨r, hr, rfl⟩ := mem_positionsOf_of_fedSpan hrun hspan hlo hhi
  apply h.built hplan ha hr

theorem PlansFrom.appended (h : PlansFrom inp seedOps o o' acts planned) (ha : a ∈ acts)
    (hr : r ∈ a.bufferRows)
    : ∃ rows, .appendRows (shardOf r.position) rows ∈ acts.filterMap PlanInputs.bufferOp?
      ∧ r ∈ rows := by
  cases a with
  | buffer rows =>
    cases hhead : rows.head? with
    | none =>
      rw [List.head?_eq_none_iff.mp hhead] at hr
      cases hr
    | some first =>
      obtain ⟨_, shard, -, hshard, -⟩ := (h.fed.acted _ ha).placed
      refine ⟨rows, List.mem_filterMap.mpr ⟨_, ha, ?_⟩, hr⟩
      rw [hshard r hr, ← hshard first (List.mem_of_mem_head? hhead)]
      simp [PlanInputs.bufferOp?, hhead]
  | _ => cases hr

end Plan

def BufferOp.Spares (needed : Nat → Prop) : BufferOp H → Prop
  | .deleteRowsIn _ start stop => ∀ p, start ≤ p → p < stop → ¬needed p
  | .deleteFromPosition minPosition => ∀ p, minPosition ≤ p → ¬needed p
  | .appendRows _ _ => True

theorem BufferOp.Spares.mono {needed needed' : Nat → Prop} {op : BufferOp H} (h : op.Spares needed)
    (hsub : ∀ p, needed' p → needed p) : op.Spares needed' := by
  cases op with
  | deleteRowsIn shard start stop => exact fun p hlo hhi hp => h p hlo hhi (hsub p hp)
  | deleteFromPosition minPosition => exact fun p hle hp => h p hle (hsub p hp)
  | appendRows shard rows => trivial

theorem BufferOp.Spares.apply {needed : Nat → Prop} {op : BufferOp H} {ser : HashSer H B}
    {t t' : PoolBuffer B} (h : op.Spares needed) (happly : op.apply ser t = .ok t') (hp : needed p)
    (hmem : (shard, p) ∈ t.keys) : (shard, p) ∈ t'.keys := by
  cases op with
  | deleteRowsIn shard' start stop =>
    cases happly
    refine PoolBuffer.mem_keys_deleteRowsIn.mpr ⟨hmem, ?_⟩
    rintro ⟨-, hlo, hhi⟩
    apply h p hlo hhi hp
  | deleteFromPosition minPosition =>
    cases happly
    refine PoolBuffer.mem_keys_deleteFromPosition.mpr ⟨hmem, ?_⟩
    by_contra hle
    apply h p (Nat.le_of_not_lt hle) hp
  | appendRows shard' rows => exact (PoolBuffer.mem_keys_appendRows happly).mpr (Or.inl hmem)

theorem PutBlocks.builds_held {api : ShardTreeApi H Shard} {holds : Shard → Nat → Prop}
    {call : PutBlocks H} {pool : ShieldedPool} {plan : Option (PoolPlan H)}
    {s s' : SparseShardStore Shard} (hapi : api.Covers holds)
    (h : (call.lane policy last plan pool).run api policy s = .ok s') (hp : p ∈ call.builds pool plan)
    : Held holds s'.shards p := by
  have hseg : ∀ seg ∈ (call.lane policy last plan pool).segments, seg.1 ≤ p → p < seg.1 + seg.2.length →
      Held holds s'.shards p := by
    intro seg hseg hlo hhi
    have hrow := (RunFrom.rowsFrom seg.1 seg.2).mem_iff p
    rw [rowsFrom_length] at hrow
    obtain ⟨r, hr, rfl⟩ := List.mem_map.mp (hrow.mpr ⟨hlo, hhi⟩)
    exact Lane.run_held hapi.toHoldsRows h hseg hr (fun _ _ => trivial) trivial
  cases plan with
  | none =>
    apply hseg (_, call.doomedStream policy pool) (List.mem_singleton.mpr rfl) hp.1
    rw [call.doomedStream_length]
    exact hp.2
  | some plan =>
    rcases hp with ⟨seg, hmem, hlo, hhi⟩ | ⟨graft, hgraft, hshard⟩
    . exact hseg seg hmem hlo hhi
    . apply Lane.run_grafted hapi h
      exact List.mem_map.mpr ⟨graft, hgraft, hshard.symm⟩

structure Coverage where
  birthday : Nat
  first : ShieldedPool → Nat → Nat
  stop : ShieldedPool → Nat → Nat

namespace Coverage

variable (g : Coverage)

def scan (call : PutBlocks H) : Coverage :=
  { g with
    first := fun pool h => if h ∈ call.heights then call.sizeAt pool (h - 1) else g.first pool h
    stop := fun pool h => if h ∈ call.heights then call.sizeAt pool h else g.stop pool h }

def requeue (blocks : Span) : Coverage :=
  { g with
    first := fun pool h => if blocks.start ≤ h ∧ h < blocks.stop then 0 else g.first pool h
    stop := fun pool h => if blocks.start ≤ h ∧ h < blocks.stop then 0 else g.stop pool h }

def rewind (height : Nat) : Coverage :=
  { g with
    first := fun pool h => if h ≤ height then g.first pool h else 0
    stop := fun pool h => if h ≤ height then g.stop pool h else 0 }

def Scanned (scanned : Finset Nat) (pool : ShieldedPool) (p : Nat) : Prop :=
  ∃ h ∈ scanned, g.birthday ≤ h ∧ g.first pool h ≤ p ∧ p < g.stop pool h

def Needed (holds : Shard → Nat → Prop) (db : WalletDb B Shard) (pool : ShieldedPool) (p : Nat)
    : Prop :=
  g.Scanned db.scanned pool p ∧ ¬Held holds (db.trees pool).shards p

end Coverage

def coverageHistory : History H B Shard Coverage where
  took op _ _ g :=
    match op with
    | .transact call _ => g.scan call
    | .queueRescan blocks => g.requeue blocks
    | .finish _ | .flushTree _ _ _ | .buffer _ _ | .fail _ => g
  rewound height g := g.rewind height
  imported birthday g := { g.rewind (birthday - 1) with birthday := min g.birthday birthday }

def SweepReads.Finds (reads : SweepReads H) (pool : ShieldedPool) (scanned : Finset Nat)
    (g : Coverage) : Prop :=
  ∀ run rescans, rescansFor reads.treeSizeAt run reads.stretches = .ok (some rescans) →
    ∀ h ∈ scanned, g.birthday ≤ h → run.Touches (g.first pool) (g.stop pool) h →
      ∃ r ∈ rescans, r.Mem h

structure SweepReads.Current (reads : SweepReads H) (pool : ShieldedPool) (scanned : Finset Nat)
    (g : Coverage) : Prop where
  birthday : reads.birthday = g.birthday
  pending : ∀ range ∈ reads.pending, range.blocks.start ≤ range.blocks.stop
  queue : ∀ h, g.birthday ≤ h →
    (h ∈ scanned ↔ h ≤ reads.chainTip ∧ ∀ range ∈ reads.pending, ¬range.blocks.Mem h)
  sizes : AnswersTo (· ∈ scanned) (g.stop pool) reads.treeSizeAt

theorem SweepReads.Current.finds {reads : SweepReads H} {pool : ShieldedPool} {scanned : Finset Nat}
    {g : Coverage} (h : reads.Current pool scanned g)
    (hlayout : Layout (· ∈ scanned) (g.first pool) (g.stop pool)) : reads.Finds pool scanned g := by
  intro run rescans hrescans height hmem hbirthday htouches
  have hpending : ∀ span ∈ reads.pending.map (·.blocks), span.start ≤ span.stop := by
    intro span hspan
    obtain ⟨range, hrange, rfl⟩ := List.mem_map.mp hspan
    apply h.pending range hrange
  obtain ⟨hascending, hne⟩ :=
    scannedStretches_ascending hpending reads.birthday (reads.chainTip + 1)
  have hheld : ∀ s ∈ reads.stretches, ∀ b, s.Mem b → b ∈ scanned := by
    intro s hs b hb
    obtain ⟨hlo, hhi, hnot⟩ := scannedStretches_mem hs hb
    rw [h.birthday] at hlo
    refine (h.queue b hlo).mpr ⟨by omega, fun range hrange => ?_⟩
    apply hnot
    exact List.mem_map_of_mem hrange
  obtain ⟨htip, hnot⟩ := (h.queue height hbirthday).mp hmem
  have hscanned : ∃ s ∈ reads.stretches, s.Mem height := by
    apply scannedStretches_cover
    . rw [h.birthday]
      exact hbirthday
    . omega
    . intro span hspan
      obtain ⟨range, hrange, rfl⟩ := List.mem_map.mp hspan
      apply hnot range hrange
  obtain ⟨s, hs, hb⟩ := hscanned
  exact rescansFor_covers hlayout h.sizes ⟨hascending, hne, hheld⟩ hrescans hs hb htouches

section Session

variable (holds : Shard → Nat → Prop)

structure Accounted (s : Session H B Shard) (g : Coverage) : Prop where
  stores : ∀ pool, (s.sparse.seeded s.db pool).Matches (s.db.trees pool)
  filed : ∀ pool, (s.db.buffer pool).Filed
  opened : ∀ ctx a pool, s.sparse.graft = some ctx → ctx.acc pool = some a →
    ∃ o, a.openShard = some o ∧ OpenAt a.nextPosition o
  layout : ∀ pool, pool ≠ .ironwood → Layout (· ∈ s.db.scanned) (g.first pool) (g.stop pool)
  buffered : ∀ pool, pool ≠ .ironwood → ∀ p, g.Needed holds s.db pool p →
    (shardOf p, p) ∈ (s.db.buffer pool).keys
  sweeping : ∀ pool reads jobs, s.activity = .sweeping pool reads jobs → pool ≠ .ironwood →
    reads.Finds pool s.db.scanned g

variable {holds} {up : Upstream H B Shard} {db db' : WalletDb B Shard}
  {sparse sparse' : SparseTreeState H Shard} {activity : Activity H} {call : PutBlocks H}
  {g g' : Coverage} {pool : ShieldedPool} {rest : List (DurableOp H Shard)}

theorem Accounted.setBuffer (h : Accounted holds { db, sparse, activity, todo := [] } g) {t : PoolBuffer B}
    (hfiled : t.Filed)
    (hbuffered : pool ≠ .ironwood → ∀ p, g.Needed holds db pool p → (shardOf p, p) ∈ t.keys)
    : Accounted holds { db := db.setBuffer pool t, sparse, activity, todo := [] } g where
  stores := h.stores
  filed p := by
    by_cases hp : p = pool
    . subst hp
      simpa [WalletDb.setBuffer] using hfiled
    . simpa [WalletDb.setBuffer, hp] using h.filed p
  opened := h.opened
  layout := h.layout
  buffered p hp q hq := by
    by_cases heq : p = pool
    . subst heq
      simpa [WalletDb.setBuffer] using hbuffered hp q hq
    . simpa [WalletDb.setBuffer, heq] using h.buffered p hp q hq
  sweeping := h.sweeping

theorem Accounted.buffers {ops : List (BufferOp H)}
    (h : Accounted holds { db, sparse, activity, todo := [] } g)
    (hops : ∀ op ∈ ops, op.Files ∧ (pool ≠ .ironwood → op.Spares (g.Needed holds db pool)))
    (hrest : ∀ t, Accounted holds { db := db.setBuffer pool t, sparse, activity, todo := [] } g →
      ((∀ op ∈ ops, ∃ shard rows, op = .appendRows shard rows) →
        ∀ shard rows, .appendRows shard rows ∈ ops → ∀ r ∈ rows, (shard, r.position) ∈ t.keys) →
      Session.SafeFrom coverageHistory up (Accounted holds) activity rest (db.setBuffer pool t) sparse g)
    : Session.SafeFrom coverageHistory up (Accounted holds) activity (ops.map (.buffer pool) ++ rest)
        db sparse g := by
  apply Session.SafeFrom.buffers (Q := fun done t =>
    t.Filed
      ∧ (pool ≠ .ironwood → ∀ p, g.Needed holds db pool p → (shardOf p, p) ∈ t.keys)
      ∧ ((∀ op ∈ ops, ∃ shard rows, op = .appendRows shard rows) →
        ∀ shard rows, .appendRows shard rows ∈ done → ∀ r ∈ rows, (shard, r.position) ∈ t.keys))
  . intros
    rfl
  . exact ⟨h.filed pool, h.buffered pool, by simp⟩
  . rintro done op todo hsplit t t' ⟨hfiled, hbuffered, hdone⟩ happly
    have hop : op ∈ ops := by simp [hsplit]
    obtain ⟨hfiles, hspares⟩ := hops op hop
    refine ⟨hfiled.apply hfiles happly, fun hpool p hp => ?_, fun happends => ?_⟩
    . apply (hspares hpool).apply happly hp (hbuffered hpool p hp)
    . obtain ⟨shard, rows, rfl⟩ := happends op hop
      have hkeys := fun k => PoolBuffer.mem_keys_appendRows happly (k := k)
      intro shard' rows' hmem r hr
      cases List.mem_append.mp hmem with
      | inl hmem => exact (hkeys _).mpr (Or.inl (hdone happends shard' rows' hmem r hr))
      | inr hmem =>
        cases List.mem_singleton.mp hmem
        exact (hkeys _).mpr (Or.inr ⟨rfl, r, hr, rfl⟩)
  . rintro done t ⟨hfiled, hbuffered, -⟩
    apply h.setBuffer hfiled hbuffered
  . rintro t ⟨hfiled, hbuffered, happended⟩
    apply hrest t (h.setBuffer hfiled hbuffered) happended

def Gains (holds : Shard → Nat → Prop) (new : ShieldedPool → Set Nat) (pool : ShieldedPool)
    (t : SqlTree Shard) (store : SparseShardStore Shard) : Prop :=
  store.InStep t
    ∧ (pool ≠ .ironwood → ∀ p, Held holds t.shards p ∨ p ∈ new pool → Held holds store.shards p)

theorem Flushed.held {idle : ShieldedPool → Prop} {new : ShieldedPool → Set Nat}
    (h : Flushed idle (Gains holds new) db db' sparse sparse')
    (hidle : ∀ pool, pool ≠ .ironwood → idle pool → new pool = ∅) (hpool : pool ≠ .ironwood)
    (hp : Held holds (db.trees pool).shards p ∨ p ∈ new pool)
    : Held holds (db'.trees pool).shards p := by
  rcases h.pools pool with ⟨hnothing, htree, -⟩ | ⟨store, ⟨hstep, hgains⟩, hflush⟩
  . rw [hidle pool hpool hnothing] at hp
    rw [htree]
    exact hp.resolve_right fun hmem => hmem
  . rw [hstep.flush_shards hflush]
    exact hgains hpool p hp

theorem Flushed.matches {idle : ShieldedPool → Prop} {new : ShieldedPool → Set Nat}
    (h : Flushed idle (Gains holds new) db db' sparse sparse')
    (hstores : ∀ pool, (sparse.seeded db pool).Matches (db.trees pool)) (pool : ShieldedPool)
    : (sparse'.seeded db' pool).Matches (db'.trees pool) := by
  rcases h.pools pool with ⟨-, htree, hstore⟩ | ⟨store, ⟨hstep, -⟩, hflush⟩
  . rw [htree, hstore]
    apply hstores
  . exact hstep.flush hflush

theorem Accounted.flushed {idle : ShieldedPool → Prop} {new : ShieldedPool → Set Nat}
    (h : Accounted holds { db, sparse, activity, todo := [] } g)
    (hflushed : Flushed idle (Gains holds new) db db' sparse sparse')
    (hidle : ∀ pool, pool ≠ .ironwood → idle pool → new pool = ∅) (hscanned : db'.scanned = db.scanned)
    : Accounted holds { db := db', sparse := sparse', activity, todo := [] } g where
  stores := hflushed.matches h.stores
  filed := by
    dsimp only
    rw [hflushed.buffer]
    exact h.filed
  opened := by
    dsimp only
    rw [hflushed.graft]
    exact h.opened
  layout := by
    dsimp only
    rw [hscanned]
    exact h.layout
  buffered pool hpool p hp := by
    obtain ⟨hblock, hnot⟩ := hp
    dsimp only at hblock ⊢
    rw [hscanned] at hblock
    rw [hflushed.buffer]
    exact h.buffered pool hpool p
      ⟨hblock, fun hheld => hnot (hflushed.held hidle hpool (Or.inl hheld))⟩
  sweeping := by
    dsimp only
    rw [hscanned]
    exact h.sweeping

theorem Accounted.gains {new : ShieldedPool → Set Nat} {rows : List (AccRow H)}
    {policy : Option AnchorRetention} {tree : SparseShardStore Shard} (hcovers : up.Covers holds)
    (h : Accounted holds { db, sparse, activity, todo := [] } g) (hrun : RunFrom first rows)
    (hnew : new pool = positionsOf rows)
    (hinsert : insertDeferredRows up.toShardTreeApi (sparse.seeded db pool) rows policy label
      = .ok (some tree))
    : Gains holds new pool (db.trees pool) tree := by
  have hmatches := h.stores pool
  constructor
  . apply (SparseShardStore.inStep_keeps _ _).insertDeferredRows hinsert
    exact hmatches.toInStep
  . intro _ p hp
    rw [hnew] at hp
    rcases hp with hheld | ⟨r, hr, rfl⟩
    . apply (SparseShardStore.held_keeps hcovers.toHoldsRows trivial).insertDeferredRows hinsert
      have hshards := hmatches.same_shards
      dsimp only at hshards ⊢
      rwa [hshards]
    . exact insertDeferredRows_covers hcovers hrun hinsert hr

end Session
end Slipstream
