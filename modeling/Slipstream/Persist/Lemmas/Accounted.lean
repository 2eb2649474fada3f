import Slipstream.Persist.Lemmas.Coverage

/-!
This module contains how the work of a wallet keeps the positions of its scanned blocks: calls, range
ends, sweep jobs and rewinds.
-/

namespace Slipstream

variable {H B Shard : Type}

section Call

structure CallPending (g : Coverage) (scanned : Finset Nat) (sparse : SparseTreeState H Shard)
    (call : PutBlocks H) : Prop where
  valid : call.Valid
  pending : ∀ h ∈ call.heights, h ∉ scanned
  below : ∀ pool, pool ≠ .ironwood → ∀ h ∈ scanned, h ≤ call.fromState.blockHeight →
    g.stop pool h ≤ (call.frontier pool).treeSize
  above : ∀ pool, pool ≠ .ironwood → ∀ h ∈ scanned, call.lastHeight < h →
    call.stop pool ≤ g.first pool h
  next : ∀ ctx a pool, sparse.graft = some ctx → ctx.acc pool = some a →
    a.nextPosition = (call.frontier pool).treeSize

variable {g : Coverage} {scanned : Finset Nat} {sparse : SparseTreeState H Shard}
  {call : PutBlocks H} {pool : ShieldedPool}

theorem CallPending.below_or_above (h : CallPending g scanned sparse call) (hmem : b ∈ scanned)
    : b ≤ call.fromState.blockHeight ∨ call.lastHeight < b := by
  by_contra hnot
  apply h.pending b _ hmem
  exact Finset.mem_Icc.mpr (by omega)

theorem CallPending.not_scanned (h : CallPending g scanned sparse call) (hpool : pool ≠ .ironwood)
    (hlo : (call.frontier pool).treeSize ≤ p) (hhi : p < call.stop pool)
    : ¬g.Scanned scanned pool p := by
  rintro ⟨b, hmem, -, hfirst, hstop⟩
  cases h.below_or_above hmem with
  | inl hbelow =>
    have := h.below pool hpool b hmem hbelow
    omega
  | inr habove =>
    have := h.above pool hpool b hmem habove
    omega

theorem CallPending.layout (h : CallPending g scanned sparse call) (hpool : pool ≠ .ironwood)
    (hlayout : Layout (· ∈ scanned) (g.first pool) (g.stop pool))
    : Layout (· ∈ scanned ∪ call.heights) ((g.scan call).first pool) ((g.scan call).stop pool) := by
  have hfrom : call.sizeAt pool call.fromState.blockHeight = _ := h.valid.sizeAt_from
  have hlast : call.sizeAt pool call.lastHeight = _ := h.valid.sizeAt_last
  -- Off the call's blocks the layout is the old one.
  have hold : ∀ b ∈ scanned ∪ call.heights, b ∉ call.heights → b ∈ scanned := by
    intro b hb hnot
    exact (Finset.mem_union.mp hb).resolve_right hnot
  have hnew : ∀ b ∈ call.heights, call.fromState.blockHeight < b ∧ b ≤ call.lastHeight :=
    fun b hb => Finset.mem_Icc.mp hb
  constructor
  . intro b hb
    simp only [Coverage.scan]
    split
    . apply call.sizeAt_mono pool
      omega
    . next hnot => exact hlayout.le b (hold b hb hnot)
  . intro a b ha hb hlt
    simp only [Coverage.scan]
    by_cases hanew : a ∈ call.heights <;> by_cases hbnew : b ∈ call.heights
    all_goals simp only [hanew, hbnew, if_true, if_false]
    . apply call.sizeAt_mono pool
      omega
    . have hbold := hold b hb hbnew
      have hstop := call.sizeAt_mono pool (hnew a hanew).2
      cases h.below_or_above hbold with
      | inl hbelow =>
        have := hnew a hanew
        omega
      | inr habove =>
        have := h.above pool hpool b hbold habove
        omega
    . have haold := hold a ha hanew
      have hstart := call.sizeAt_mono pool (show call.fromState.blockHeight ≤ b - 1 by
        have := hnew b hbnew
        omega)
      cases h.below_or_above haold with
      | inl hbelow =>
        have := h.below pool hpool a haold hbelow
        omega
      | inr habove =>
        have := hnew b hbnew
        omega
    . apply hlayout.next a b (hold a ha hanew) (hold b hb hbnew) hlt

theorem CallPending.old_or_fed (h : CallPending g scanned sparse call)
    (hp : (g.scan call).Scanned (scanned ∪ call.heights) pool p)
    : g.Scanned scanned pool p ∨ (call.frontier pool).treeSize ≤ p ∧ p < call.stop pool := by
  obtain ⟨b, hmem, hbirthday, hfirst, hstop⟩ := hp
  simp only [Coverage.scan] at hfirst hstop hbirthday
  by_cases hnew : b ∈ call.heights
  . rw [if_pos hnew] at hfirst hstop
    obtain ⟨hlo, hhi⟩ := Finset.mem_Icc.mp hnew
    have hfrom := call.sizeAt_mono pool (show call.fromState.blockHeight ≤ b - 1 by omega)
    have hlast := call.sizeAt_mono pool hhi
    rw [h.valid.sizeAt_from] at hfrom
    rw [h.valid.sizeAt_last] at hlast
    exact Or.inr ⟨by omega, by omega⟩
  . rw [if_neg hnew] at hfirst hstop
    exact Or.inl ⟨b, (Finset.mem_union.mp hmem).resolve_right hnew, hbirthday, hfirst, hstop⟩

end Call

section Session

variable {holds : Shard → Nat → Prop} {up : Upstream H B Shard} {db db' : WalletDb B Shard}
  {sparse sparse' : SparseTreeState H Shard} {activity : Activity H} {call : PutBlocks H}
  {g : Coverage} {pool : ShieldedPool} {rest : List (DurableOp H Shard)}

theorem Accounted.transact {plans : ShieldedPool → Option (PoolPlan H)}
    (sapling orchard : List (BufferOp H)) (hcovers : up.Covers holds)
    (h : Accounted holds { db, sparse, activity, todo := [] } g)
    (hcall : CallPending g db.scanned sparse₀ call)
    (hactivity : ∀ pool reads jobs, activity ≠ .sweeping pool reads jobs)
    (hbuffered : ∀ pool, pool ≠ .ironwood → ∀ p, (call.frontier pool).treeSize ≤ p →
      p < call.stop pool → p ∉ call.builds pool (plans pool) →
      (shardOf p, p) ∈ (db.buffer pool).keys)
    (hsapling : ∀ op ∈ sapling, op.Files ∧ op.Spares (· ∉ call.builds .sapling (plans .sapling)))
    (horchard : ∀ op ∈ orchard, op.Files ∧ op.Spares (· ∉ call.builds .orchard (plans .orchard)))
    : Session.SafeFrom coverageHistory up (Accounted holds) activity
        (.transact call plans
          :: (sapling.map (.buffer .sapling) ++ orchard.map (.buffer .orchard))) db sparse g := by
  refine ⟨h, fun db' sparse' hexec => ?_⟩
  obtain ⟨last, hrows, hscanned⟩ := exec_transact_scanned hexec
  rw [hcall.valid.rows] at hrows
  cases hrows
  have hflushed : Flushed (fun _ => False) (Gains holds fun pool => call.builds pool (plans pool))
      db db' sparse sparse' := by
    refine exec_transact_flushed (fun pool last staged _ hrun => ⟨?_, ?_⟩) hexec
    . apply (SparseShardStore.inStep_keeps _ _).run hrun
      apply (h.stores pool).toInStep.graft
    . intro hpool p hp
      rw [if_neg hpool] at hrun
      cases hp with
      | inl hheld =>
        apply Lane.run_covers hcovers hrun
        have hshards := (h.stores pool).same_shards
        dsimp only at hshards
        rwa [hshards]
      | inr hbuilt => exact PutBlocks.builds_held hcovers hrun hbuilt
  have hidle : ∀ pool, pool ≠ ShieldedPool.ironwood → False → call.builds pool (plans pool) = ∅ :=
    fun _ _ hfalse => hfalse.elim
  change Session.SafeFrom coverageHistory up (Accounted holds) activity _ db' sparse' (g.scan call)
  have hnow : Accounted holds { db := db', sparse := sparse', activity, todo := [] } (g.scan call) := by
    constructor
    case stores => exact hflushed.matches h.stores
    case filed =>
      dsimp only
      rw [hflushed.buffer]
      exact h.filed
    case opened =>
      dsimp only
      rw [hflushed.graft]
      exact h.opened
    case layout =>
      intro pool hpool
      dsimp only
      rw [hscanned]
      exact hcall.layout hpool (h.layout pool hpool)
    case buffered =>
      rintro pool hpool p ⟨hp, hnot⟩
      dsimp only at hp hnot ⊢
      rw [hflushed.buffer]
      rw [hscanned] at hp
      cases hcall.old_or_fed hp with
      | inl hold =>
        apply h.buffered pool hpool p
        exact ⟨hold, fun hheld => hnot (hflushed.held hidle hpool (Or.inl hheld))⟩
      | inr hnew =>
        apply hbuffered pool hpool p hnew.1 hnew.2
        exact fun hbuilt => hnot (hflushed.held hidle hpool (Or.inr hbuilt))
    case sweeping =>
      intro pool reads jobs heq
      exact absurd heq (hactivity pool reads jobs)
  have hspares : ∀ pool, pool ≠ .ironwood → ∀ op, op.Spares (· ∉ call.builds pool (plans pool)) →
      (op : BufferOp H).Spares ((g.scan call).Needed holds db' pool) := by
    intro pool hpool op hspares
    apply hspares.mono
    rintro p ⟨-, hnot⟩ hbuilt
    exact hnot (hflushed.held hidle hpool (Or.inr hbuilt))
  apply hnow.buffers
  . intro op hop
    exact ⟨(hsapling op hop).1, fun hpool => hspares _ hpool op (hsapling op hop).2⟩
  . intro t ht _
    rw [← List.append_nil (orchard.map _)]
    apply ht.buffers
    . intro op hop
      exact ⟨(horchard op hop).1, fun hpool => hspares _ hpool op (horchard op hop).2⟩
    . intro t' ht' _
      exact ht'

theorem Accounted.finishRows_run {ctx : GraftCtx H}
    (h : Accounted holds { db, sparse, activity, todo := [] } g) (hgraft : sparse.graft = some ctx)
    (pool : ShieldedPool) : ∃ first, RunFrom first (Session.finishRows ctx pool) := by
  unfold Session.finishRows
  cases hacc : ctx.acc pool with
  | none => exact ⟨0, .nil 0⟩
  | some a =>
    obtain ⟨o, ho, hat⟩ := h.opened ctx a pool hgraft hacc
    obtain ⟨first, hrun, -⟩ := hat.run
    rw [Option.bind_some, ShardAccumulator.finish, ho]
    dsimp only
    split
    . next heq =>
      split at heq
      . cases heq
      . cases heq
        exact ⟨first, hrun⟩
    . exact ⟨0, .nil 0⟩

theorem Accounted.finishOps {ctx : GraftCtx H} (hcovers : up.Covers holds)
    (h : Accounted holds { db, sparse, activity, todo := [] } g)
    (hgraft : sparse.graft = some ctx)
    : Session.SafeFrom coverageHistory up (Accounted holds) activity (Session.finishOps ctx) db sparse g := by
  unfold Session.finishOps
  dsimp only
  split
  . exact h
  . refine ⟨h, fun db' sparse' hexec => ?_⟩
    have hgains : ∀ pool label tree, insertDeferredRows up.toShardTreeApi (sparse.seeded db pool)
        (Session.finishRows ctx pool) sparse.anchorRetention label = .ok (some tree) →
        Gains holds (fun pool => positionsOf (Session.finishRows ctx pool)) pool (db.trees pool) tree := by
      intro pool label tree hinsert
      obtain ⟨first, hrun⟩ := h.finishRows_run hgraft pool
      exact h.gains hcovers hrun rfl hinsert
    obtain ⟨hflushed, hscanned⟩ := exec_finish_flushed hgains hexec
    have hidle : ∀ pool, pool ≠ ShieldedPool.ironwood →
        pool = .ironwood ∨ Session.finishRows ctx pool = [] →
        positionsOf (Session.finishRows ctx pool) = ∅ := by
      intro pool hpool hidle
      rw [hidle.resolve_left hpool]
      simp [positionsOf]
    have hnow := h.flushed hflushed hidle hscanned
    -- The cleanup drops rows that the transaction has built.
    have hspares : ∀ pool, ∀ op ∈ rowsCleanup (Session.finishRows ctx pool),
        op.Files ∧ (pool ≠ .ironwood → op.Spares (g.Needed holds db' pool)) := by
      intro pool op hop
      obtain ⟨first, hrun⟩ := h.finishRows_run hgraft pool
      obtain ⟨⟨shard, start, stop⟩, hspan, rfl⟩ := Option.map_eq_some_iff.mp (Option.mem_toList.mp hop)
      refine ⟨trivial, fun hpool p hlo hhi hp => hp.2 ?_⟩
      apply hflushed.held hidle hpool
      exact Or.inr (mem_positionsOf_of_fedSpan hrun hspan hlo hhi)
    rw [finishCleanup_eq, finishCleanup_eq, ← List.append_nil (List.map _ (rowsCleanup
      (Session.finishRows ctx .orchard)))]
    apply hnow.buffers (hspares .sapling)
    intro t ht _
    apply ht.buffers (hspares .orchard)
    intro t' ht' _
    exact ht'

theorem Accounted.delete (h : Accounted holds { db, sparse, activity, todo := [] } g)
    (hspares : pool ≠ .ironwood → ∀ p, start ≤ p → p < stop → ¬g.Needed holds db pool p)
    : Session.SafeFrom coverageHistory up (Accounted holds) activity
        [.buffer pool (.deleteRowsIn shard start stop)] db sparse g := by
  suffices hsafe : Session.SafeFrom coverageHistory up (Accounted holds) activity
      ([.deleteRowsIn shard start stop].map (.buffer pool) ++ []) db sparse g from hsafe
  apply h.buffers
  . intro op hop
    cases List.mem_singleton.mp hop
    exact ⟨trivial, hspares⟩
  . intro t ht _
    exact ht

theorem Accounted.shrink {g' : Coverage} (h : Accounted holds { db, sparse, activity, todo := [] } g)
    (hbuffer : db'.buffer = db.buffer) (hscanned : db'.scanned ⊆ db.scanned)
    (hbirthday : ∀ b ∈ db'.scanned, g'.birthday ≤ b → g.birthday ≤ b)
    (hfirst : ∀ pool, ∀ b ∈ db'.scanned, g'.first pool b = g.first pool b)
    (hstop : ∀ pool, ∀ b ∈ db'.scanned, g'.stop pool b = g.stop pool b)
    (hstores : ∀ pool, (sparse.seeded db' pool).Matches (db'.trees pool))
    (hheld : ∀ pool, pool ≠ .ironwood → ∀ p, ∀ b ∈ db'.scanned, p < g.stop pool b →
      Held holds (db.trees pool).shards p → Held holds (db'.trees pool).shards p)
    : Accounted holds { db := db', sparse, activity, todo := [] } g' where
  stores := hstores
  filed := by
    dsimp only
    rw [hbuffer]
    exact h.filed
  opened := h.opened
  layout pool hpool := by
    constructor
    . intro b hb
      rw [hfirst pool b hb, hstop pool b hb]
      apply (h.layout pool hpool).le b (hscanned hb)
    . intro a b ha hb hlt
      rw [hfirst pool b hb, hstop pool a ha]
      apply (h.layout pool hpool).next a b (hscanned ha) (hscanned hb) hlt
  buffered pool hpool p hp := by
    obtain ⟨⟨b, hmem, hlow, hlo, hhi⟩, hnot⟩ := hp
    rw [hfirst pool b hmem] at hlo
    rw [hstop pool b hmem] at hhi
    dsimp only
    rw [hbuffer]
    apply h.buffered pool hpool p
    refine ⟨⟨b, hscanned hmem, hbirthday b hmem hlow, hlo, hhi⟩, fun hp => hnot ?_⟩
    apply hheld pool hpool p b hmem hhi hp
  sweeping pool reads jobs heq hpool := by
    intro run rescans hrescans b hmem hlow htouches
    unfold Run.Touches at htouches
    rw [hfirst pool b hmem, hstop pool b hmem] at htouches
    apply h.sweeping pool reads jobs heq hpool run rescans hrescans b (hscanned hmem) _ htouches
    apply hbirthday b hmem hlow

theorem Accounted.rescan {run : Run} {rescans : List Span}
    (h : Accounted holds { db, sparse, activity, todo := [] } g)
    (hfinds : pool ≠ .ironwood → ∀ b ∈ db.scanned, g.birthday ≤ b →
      run.Touches (g.first pool) (g.stop pool) b → ∃ r ∈ rescans, r.Mem b)
    : Session.SafeFrom coverageHistory up (Accounted holds) activity
        (rescans.map .queueRescan ++ [.buffer pool (.deleteRowsIn shard run.first (run.last + 1))])
        db sparse g := by
  -- On the way through `rescans`, the ones left find every block of the run still scanned.
  induction rescans generalizing db g with
  | nil =>
    apply h.delete
    rintro hpool p hlo hhi ⟨⟨b, hmem, hlow, hfirst, hstop⟩, -⟩
    obtain ⟨r, hr, -⟩ := hfinds hpool b hmem hlow ⟨by omega, by omega⟩
    cases hr
  | cons r rescans ih =>
    refine ⟨h, fun db' sparse' hexec => ?_⟩
    cases hexec
    have houtside : ∀ b ∈ db.scanned \ Finset.Ico r.start r.stop, ¬(r.start ≤ b ∧ b < r.stop) := by
      intro b hb
      simpa using (Finset.mem_sdiff.mp hb).2
    have hfirst : ∀ pool, ∀ b ∈ db.scanned \ Finset.Ico r.start r.stop,
        (g.requeue r).first pool b = g.first pool b := fun _ b hb => if_neg (houtside b hb)
    have hstop : ∀ pool, ∀ b ∈ db.scanned \ Finset.Ico r.start r.stop,
        (g.requeue r).stop pool b = g.stop pool b := fun _ b hb => if_neg (houtside b hb)
    apply ih
    . apply h.shrink
      . rfl
      . exact Finset.sdiff_subset
      . exact fun _ _ hlow => hlow
      . exact hfirst
      . exact hstop
      . exact h.stores
      . exact fun _ _ _ _ _ _ hp => hp
    . intro hpool b hb hlow htouches
      unfold Run.Touches at htouches
      change (g.requeue r).first pool b ≤ _ ∧ _ < (g.requeue r).stop pool b at htouches
      rw [hfirst pool b hb, hstop pool b hb] at htouches
      obtain ⟨r', hr', hmem⟩ := hfinds hpool b (Finset.mem_sdiff.mp hb).1 hlow htouches
      cases List.mem_cons.mp hr' with
      | inl heq => exact absurd (heq ▸ hmem) (houtside b hb)
      | inr hr' => exact ⟨r', hr', hmem⟩

theorem Accounted.atRest {s : Session H B Shard} (h : Accounted holds s g) (policy : Option AnchorRetention)
    : Accounted holds (Session.atRest policy s.db : Session H B Shard) g where
  stores _ := SparseShardStore.seed_matches _ _
  filed := h.filed
  opened ctx a pool hgraft := by cases hgraft
  layout := h.layout
  buffered := h.buffered
  sweeping pool reads jobs heq := by cases heq

/-- A rewind removes from the store only positions of blocks above its target. -/
def WalletDb.RewindSpares (up : Upstream H B Shard) (holds : Shard → Nat → Prop) (g : Coverage)
    (height : Nat) (db : WalletDb B Shard) : Prop :=
  ∀ pool, pool ≠ .ironwood → ∀ p, ∀ b ∈ db.scanned, b ≤ height → p < g.stop pool b →
    Held holds (db.trees pool).shards p → Held holds ((db.rewind up height).trees pool).shards p

theorem Accounted.rewound {s : Session H B Shard} (h : Accounted holds s g)
    (policy : Option AnchorRetention) (hspares : s.db.RewindSpares up holds g height)
    : Accounted holds (Session.atRest policy (s.db.rewind up height) : Session H B Shard)
        (g.rewind height) := by
  have hle : ∀ b ∈ (s.db.rewind up height).scanned, b ∈ s.db.scanned ∧ b ≤ height := by
    intro b hb
    exact Finset.mem_filter.mp hb
  apply (h.atRest policy).shrink
  . rfl
  . exact Finset.filter_subset _ _
  . exact fun _ _ hlow => hlow
  . exact fun _ b hb => if_pos (hle b hb).2
  . exact fun _ b hb => if_pos (hle b hb).2
  . exact fun _ => SparseShardStore.seed_matches _ _
  . intro pool hpool p b hb
    exact hspares pool hpool p b (hle b hb).1 (hle b hb).2

theorem WalletDb.mem_truncateToHeight {db : WalletDb B Shard} {sizes : ShieldedPool → Option Nat}
    {k : Nat × Nat}
    : k ∈ ((db.truncateToHeight up height sizes).buffer pool).keys
        ↔
      k ∈ (db.buffer pool).keys ∧ ∀ n, pool ≠ .ironwood →
        (if (db.rewind up height).scanned = ∅ then some 0 else sizes pool) = some n → k.2 < n := by
  have hbuffer : (db.rewind up height).buffer = db.buffer := rfl
  have hsizes : (if (db.rewind up height).scanned = ∅ then fun _ => some 0 else sizes) pool
      = if (db.rewind up height).scanned = ∅ then some 0 else sizes pool := by
    split <;> rfl
  unfold WalletDb.truncateToHeight
  dsimp only
  rw [hbuffer, hsizes]
  generalize (if (db.rewind up height).scanned = ∅ then some 0 else sizes pool) = size
  cases pool <;> cases size <;> simp [PoolBuffer.mem_keys_deleteFromPosition]

theorem Accounted.truncated {s : Session H B Shard} (h : Accounted holds s g)
    (policy : Option AnchorRetention) {sizes : ShieldedPool → Option Nat}
    (hspares : s.db.RewindSpares up holds g height)
    (hsizes : ∀ pool, pool ≠ .ironwood → ∀ n, sizes pool = some n →
      ∀ b ∈ s.db.scanned, b ≤ height → g.stop pool b ≤ n)
    : Accounted holds (Session.atRest policy (s.db.truncateToHeight up height sizes) : Session H B Shard)
        (g.rewind height) := by
  have hrewound := h.rewound policy hspares
  constructor
  case stores => exact hrewound.stores
  case filed =>
    intro pool k hk
    apply h.filed pool k (WalletDb.mem_truncateToHeight.mp hk).1
  case opened => exact hrewound.opened
  case layout => exact hrewound.layout
  case buffered =>
    intro pool hpool p hp
    refine WalletDb.mem_truncateToHeight.mpr ⟨hrewound.buffered pool hpool p hp, fun n _ hn => ?_⟩
    obtain ⟨⟨b, hmem, -, -, hlt⟩, -⟩ := hp
    have hleft : b ∈ (s.db.rewind up height).scanned := hmem
    rw [if_neg (Finset.ne_empty_of_mem hleft)] at hn
    obtain ⟨hmem, hb⟩ := Finset.mem_filter.mp hleft
    have hstop := hsizes pool hpool n hn b hmem hb
    change p < (if b ≤ height then g.stop pool b else 0) at hlt
    rw [if_pos hb] at hlt
    exact Nat.lt_of_lt_of_le hlt hstop
  case sweeping => exact hrewound.sweeping

theorem Accounted.imported {s : Session H B Shard} (h : Accounted holds s g)
    (policy : Option AnchorRetention) {sizes : ShieldedPool → Nat} (hbirthday : 0 < birthday)
    (hkept : s.db.RewindSpares up holds g (birthday - 1))
    (hsizes : ∀ pool, pool ≠ .ironwood → ∀ b ∈ s.db.scanned, b < birthday → g.stop pool b ≤ sizes pool)
    : Session.Safe coverageHistory up (Accounted holds)
        { Session.atRest policy (s.db.rewind up (birthday - 1)) with
          todo := [
            .buffer .sapling (.deleteFromPosition (sizes .sapling)),
            .buffer .orchard (.deleteFromPosition (sizes .orchard))
          ] }
        { g.rewind (birthday - 1) with birthday := min g.birthday birthday } := by
  have hle : ∀ b ∈ (s.db.rewind up (birthday - 1)).scanned, b ≤ birthday - 1 := by
    intro b hb
    exact (Finset.mem_filter.mp hb).2
  have hnow : Accounted holds (Session.atRest policy (s.db.rewind up (birthday - 1)) : Session H B Shard)
      { g.rewind (birthday - 1) with birthday := min g.birthday birthday } := by
    apply (h.rewound policy hkept).shrink
    . rfl
    . exact Finset.Subset.refl _
    . -- What is left scanned lies below the new birthday.
      intro b hb hlow
      have := hle b hb
      change min g.birthday birthday ≤ b at hlow
      change g.birthday ≤ b
      omega
    . exact fun _ _ _ => rfl
    . exact fun _ _ _ => rfl
    . exact fun _ => SparseShardStore.seed_matches _ _
    . exact fun _ _ _ _ _ _ hp => hp
  have hspares : ∀ pool, pool ≠ .ironwood → ∀ p, sizes pool ≤ p →
      ¬Coverage.Needed { g.rewind (birthday - 1) with birthday := min g.birthday birthday }
        holds (s.db.rewind up (birthday - 1)) pool p := by
    rintro pool hpool p hsize ⟨⟨b, hmem, -, -, hlt⟩, -⟩
    have hb := hle b hmem
    have hstop := hsizes pool hpool b (Finset.mem_filter.mp hmem).1 (by omega)
    change p < (if b ≤ birthday - 1 then g.stop pool b else 0) at hlt
    rw [if_pos hb] at hlt
    omega
  suffices hsafe : Session.SafeFrom coverageHistory up (Accounted holds) .idle
      ([.deleteFromPosition (sizes .sapling)].map (.buffer .sapling)
        ++ ([.deleteFromPosition (sizes .orchard)].map (.buffer .orchard) ++ []))
      (s.db.rewind up (birthday - 1)) (.opened policy none)
      { g.rewind (birthday - 1) with birthday := min g.birthday birthday } from hsafe
  apply Accounted.buffers hnow
  . intro op hop
    cases List.mem_singleton.mp hop
    exact ⟨trivial, hspares .sapling⟩
  . intro t ht _
    apply ht.buffers
    . intro op hop
      cases List.mem_singleton.mp hop
      exact ⟨trivial, hspares .orchard⟩
    . intro t' ht' _
      exact ht'

def PlanOutcome (inp : PlanInputs H) (planned : Planned H) : Prop :=
  (∃ e, planned = { ops := [], acc := none, plan := .error e })
    ∨ ∃ seedOps o o' acts, PlansFrom inp seedOps o o' acts planned
      ∧ ∀ op ∈ seedOps, op = .deleteRowsIn o.index inp.fed.1 inp.fed.2

theorem Accounted.planOps {inp : PlanInputs H} {planned : Planned H}
    {next : PoolPlan H → List (DurableOp H Shard)}
    (h : Accounted holds { db, sparse, activity, todo := [] } g)
    (hcall : CallPending g db.scanned sparse₀ call) (hpool : pool ≠ .ironwood)
    (hstart : inp.startPosition = (call.frontier pool).treeSize)
    (hlength : inp.stream.length = (call.stream pool).length) (houtcome : PlanOutcome inp planned)
    (hnext : ∀ plan, planned.plan = .ok plan → ∀ t,
      Accounted holds { db := db.setBuffer pool t, sparse, activity, todo := [] } g →
      (∀ p, (call.frontier pool).treeSize ≤ p → p < call.stop pool →
        p ∉ call.builds pool (some plan) → (shardOf p, p) ∈ t.keys) →
      (∀ op ∈ plan.cleanup, op.Files ∧ op.Spares (· ∉ call.builds pool (some plan))) →
      Session.SafeFrom coverageHistory up (Accounted holds) activity (next plan) (db.setBuffer pool t) sparse g)
    : Session.SafeFrom coverageHistory up (Accounted holds) activity (PutBlocks.planOps pool planned next)
        db sparse g := by
  unfold PutBlocks.planOps
  rcases houtcome with ⟨e, rfl⟩ | ⟨seedOps, o, o', acts, hplans, hdropped⟩
  . refine ⟨h, fun db' sparse' hexec => ?_⟩
    cases hexec
  . obtain ⟨appends, hops, happends⟩ := hplans.ops
    have hstop : inp.startPosition + inp.stream.length = call.stop pool := by
      rw [hstart, hlength]
      rfl
    rw [hops, List.map_append, List.append_assoc]
    apply h.buffers
    . -- The seed drops only rows that the call feeds again.
      intro op hop
      cases hdropped op hop
      refine ⟨trivial, fun _ p hlo hhi hp => ?_⟩
      apply hcall.not_scanned hpool _ _ hp.1
      . rw [← hstart]
        exact hlo
      . rw [← hstop]
        exact Nat.lt_of_lt_of_le hhi (Nat.min_le_left _ _)
    . intro t ht _
      have happend : ∀ op ∈ appends, op.Files ∧ ∃ shard rows, op = .appendRows shard rows := by
        intro op hop
        obtain ⟨a, ha, hop⟩ := List.mem_filterMap.mp (happends op hop)
        refine ⟨PlanInputs.bufferOp?_files (hplans.fed.acted a ha).placed hop, ?_⟩
        cases a with
        | buffer rows =>
          obtain ⟨first, -, rfl⟩ := Option.map_eq_some_iff.mp hop
          exact ⟨_, _, rfl⟩
        | _ => cases hop
      apply ht.buffers
      . intro op hop
        obtain ⟨hfiles, shard, rows, rfl⟩ := happend op hop
        exact ⟨hfiles, fun _ => trivial⟩
      . intro t' ht' happended
        have hset : (db.setBuffer pool t).setBuffer pool t' = db.setBuffer pool t' := by
          simp [WalletDb.setBuffer]
        rw [hset] at ht' ⊢
        cases hplan : planned.plan with
        | error e =>
          refine ⟨ht', fun db' sparse' hexec => ?_⟩
          cases hexec
        | ok plan =>
          apply hnext plan hplan t' ht'
          . intro p hlo hhi hnot
            rw [← hstart] at hlo
            rw [← hstop] at hhi
            obtain ⟨a, ha, r, hr, rfl⟩ := (hplans.built_or_buffered hplan hlo hhi).resolve_left hnot
            obtain ⟨rows, hrows, hr⟩ := hplans.appended ha hr
            apply happended (fun op hop => (happend op hop).2) _ rows _ r hr
            have hall := (hplans.plan plan hplan).2
            rw [hops] at hall
            rwa [List.append_cancel_left hall]
          . intro op hop
            obtain ⟨⟨shard, start, stop⟩, hspan, rfl⟩ := List.mem_map.mp hop
            refine ⟨trivial, fun p hlo hhi hnot => hnot ?_⟩
            apply hplans.cleanup_built hplan hspan hlo hhi

theorem PlanOutcome.opened {inp : PlanInputs H} {planned : Planned H} (h : PlanOutcome inp planned)
    (ha : planned.acc = some a)
    : ∃ o, a.openShard = some o ∧ OpenAt a.nextPosition o := by
  rcases h with ⟨e, rfl⟩ | ⟨seedOps, o, o', acts, hplans, -⟩
  . cases ha
  . rw [hplans.acc] at ha
    cases ha
    exact ⟨o', rfl, hplans.fed.opened⟩

section Begin

variable [DecidableEq H] {reads : CallReads H} {ctx : GraftCtx H}

theorem Accounted.outcome (h : Accounted holds { db, sparse, activity, todo := [] } g)
    (hgraft : sparse.graft = some ctx)
    (hnext : ∀ a, ctx.acc pool = some a → a.nextPosition = (call.frontier pool).treeSize)
    : PlanOutcome (call.inputs up reads db sparse ctx pool)
        (call.planned up reads db sparse ctx pool) := by
  have hopen : ∀ a, ctx.acc pool = some a → ∃ o, a.openShard = some o
      ∧ OpenAt (call.frontier pool).treeSize o := by
    intro a ha
    rw [← hnext a ha]
    apply h.opened ctx a pool hgraft ha
  rcases planPool_cases up.ser (ctx.acc pool) (call.inputs up reads db sparse ctx pool)
    (h.filed pool) hopen with ⟨-, e, herror⟩ | ⟨seedOps, o, o', hplans, hfrom⟩
  . exact Or.inl ⟨e, herror⟩
  . refine Or.inr ⟨seedOps, o, o', _, hplans, ?_⟩
    rcases hfrom with ⟨a, ha, ho, rfl⟩ | ⟨-, hseeded⟩
    . simp
    . exact hseeded.dropped

theorem Accounted.begin (hcovers : up.Covers holds)
    (h : Accounted holds { db, sparse, activity, todo := [] } g)
    (hcall : CallPending g db.scanned sparse call)
    (hactivity : ∀ pool reads jobs, activity ≠ .sweeping pool reads jobs)
    (hbegin : call.begin up reads db sparse = .ok (sparse', ops))
    : Session.SafeFrom coverageHistory up (Accounted holds) activity ops db sparse' g := by
  cases PutBlocks.begin_begins hbegin with
  | empty hblocks => exact h
  | plain hgraft =>
    have hnow : Accounted holds
        { db, sparse := { sparse with trees := fun p => some (sparse.seeded db p) }, activity, todo := [] }
        g := ⟨h.stores, h.filed, h.opened, h.layout, h.buffered, h.sweeping⟩
    apply Accounted.transact [] [] hcovers hnow hcall hactivity
    . intro pool _ p hlo hhi hnot
      exact absurd ⟨hlo, hhi⟩ hnot
    . simp
    . simp
  | @grafting ctx hgraft =>
    have houtcome : ∀ pool, PlanOutcome (call.inputs up reads db sparse ctx pool)
        (call.planned up reads db sparse ctx pool) :=
      fun pool => h.outcome hgraft fun a ha => hcall.next ctx a pool hgraft ha
    have hnow : Accounted holds {
        db
        sparse := { sparse with
          trees := fun p => some (sparse.seeded db p)
          graft := some { ctx with
            acc := perPool (call.planned up reads db sparse ctx .sapling).acc
              (call.planned up reads db sparse ctx .orchard).acc none } }
        activity
        todo := [] } g := by
      refine ⟨h.stores, h.filed, ?_, h.layout, h.buffered, h.sweeping⟩
      intro ctx' a pool hctx ha
      cases hctx
      cases pool with
      | sapling => exact (houtcome _).opened ha
      | orchard => exact (houtcome _).opened ha
      | ironwood => cases ha
    have hsaplingPool : ShieldedPool.sapling ≠ .ironwood := by simp
    have horchardPool : ShieldedPool.orchard ≠ .ironwood := by simp
    apply hnow.planOps hcall hsaplingPool rfl (call.inputs_stream_length ..) (houtcome _)
    intro sp hsp t ht hsapling hspcleanup
    apply ht.planOps hcall horchardPool rfl (call.inputs_stream_length ..) (houtcome _)
    intro op hop t' ht' horchard hopcleanup
    apply Accounted.transact _ _ hcovers ht' hcall hactivity _ hspcleanup hopcleanup
    intro pool hpool
    cases pool with
    | sapling => simpa [WalletDb.setBuffer, perPool] using hsapling
    | orchard => simpa [WalletDb.setBuffer, perPool] using horchard
    | ironwood => exact absurd rfl hpool

theorem Accounted.checked_gains {policy : Option AnchorRetention} {rows : List (AccRow H)}
    {check : EndCheck H} {tree : SparseShardStore Shard} (hcovers : up.Covers holds)
    (h : Accounted holds { db, sparse, activity, todo := [] } g) (hrun : RunFrom first rows)
    (hchecked : insertChecked up (sparse.seeded db pool) pool shard rows check chainTip policy = .ok tree)
    : Gains holds (fun p => if p = pool then positionsOf rows else ∅) pool (db.trees pool) tree := by
  obtain ⟨inserted, hinserted, rfl⟩ := insertChecked_ok hchecked
  have hpositions := doomDeepRows_positions rows chainTip policy
  have hnew : (if pool = pool then positionsOf rows else ∅)
      = positionsOf (doomDeepRows rows chainTip policy) := by
    rw [if_pos rfl]
    ext p
    change (∃ r ∈ rows, r.position = p) ↔ ∃ r ∈ doomDeepRows rows chainTip policy, r.position = p
    rw [← List.mem_map, ← List.mem_map, hpositions]
  have hdoomed : RunFrom first (doomDeepRows rows chainTip policy) := by
    have hlength : (doomDeepRows rows chainTip policy).length = rows.length := List.length_map _
    unfold RunFrom
    rw [hpositions, hlength]
    exact hrun
  cases inserted with
  | some tree => exact h.gains hcovers hdoomed hnew hinserted
  | none =>
    have hmatches := h.stores pool
    refine ⟨hmatches.toInStep, fun _ p hp => ?_⟩
    dsimp only at hp
    rw [hnew, eq_nil_of_insertDeferredRows hinserted] at hp
    have hshards := hmatches.same_shards
    dsimp only [Option.getD_none] at hshards ⊢
    rw [hshards]
    exact hp.resolve_right (by simp [positionsOf])

theorem Accounted.sweepJob {policy : Option AnchorRetention} {reads : SweepReads H}
    (job : SweepJob H) (hcovers : up.Covers holds)
    (h : Accounted holds { db, sparse, activity, todo := [] } g)
    (hfinds : pool ≠ .ironwood → reads.Finds pool db.scanned g)
    : Session.SafeFrom coverageHistory up (Accounted holds) activity
        (job.ops up reads policy pool (sparse.seeded db pool)) db sparse g := by
  rcases job.ops_cases up reads policy pool (sparse.seeded db pool) with
    hops | hops | ⟨shard, run, rows, check, tree, -, hcover, hchecked, hops⟩
  all_goals rw [hops]
  . exact h
  . unfold SweepReads.rescanOps
    split
    . next rescans hrescans =>
      apply h.rescan
      intro hpool height hmem hbirthday htouches
      apply hfinds hpool _ _ hrescans height hmem hbirthday htouches
    . exact h
  . obtain ⟨hrun, hlength⟩ := rowsCoverRun_run hcover
    refine ⟨h, fun db' sparse' hexec => ?_⟩
    obtain ⟨hflushed, hscanned, -⟩ :=
      exec_flushTree_flushed (h.checked_gains hcovers hrun hchecked) hexec
    have hidle : ∀ p, p ≠ ShieldedPool.ironwood → p ≠ pool →
        (if p = pool then positionsOf rows else ∅) = ∅ := fun p _ hp => if_neg hp
    apply (h.flushed hflushed hidle hscanned).delete
    intro hpool p hlo hhi hp
    -- The rows that were built are the run's.
    apply hp.2
    apply hflushed.held hidle hpool
    apply Or.inr
    rw [if_pos rfl]
    exact List.mem_map.mp ((hrun.mem_iff p).mpr ⟨hlo, by omega⟩)

end Begin

end Session
end Slipstream
