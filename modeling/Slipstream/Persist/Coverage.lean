import Slipstream.Persist.Lemmas.Accepts
import Slipstream.Persist.Lemmas.Accounted

/-!
This module contains the restart safety of the graft buffer: at every point of a wallet's life, every
position of a scanned block is held by a shard of the store or is a row of the buffer.
-/

namespace Slipstream

variable {H B Shard : Type}

section Session

variable [DecidableEq H] {up : Upstream H B Shard} {holds : Shard → Nat → Prop} {g : Coverage}

def ScansQueue (up : Upstream H B Shard) (holds : Shard → Nat → Prop)
    (st : Session H B Shard × Coverage) : SessionEvent H → Prop
  | .putBlocks _ call => CallPending st.2 st.1.db.scanned st.1.sparse call
  | .beginSweep pool reads => pool ≠ .ironwood → reads.Current pool st.1.db.scanned st.2
  | .truncate height sizes => st.1.db.RewindSpares up holds st.2 height
      ∧ ∀ pool, pool ≠ .ironwood → ∀ n, sizes pool = some n →
        ∀ h ∈ st.1.db.scanned, h ≤ height → st.2.stop pool h ≤ n
  | .importAccount birthday sizes => 0 < birthday
      ∧ st.1.db.RewindSpares up holds st.2 (birthday - 1)
      ∧ ∀ pool, pool ≠ .ironwood →
        ∀ h ∈ st.1.db.scanned, h < birthday → st.2.stop pool h ≤ sizes pool
  | _ => True

theorem Accounted.begun {policy : Option AnchorRetention} {s s' : Session H B Shard}
    {e : SessionEvent H} (hcovers : up.Covers holds) (h : Accounted holds s g) (htodo : s.todo = [])
    (hok : ScansQueue up holds (s, g) e) (hbegun : Session.Begun policy up s e s')
    : Session.Safe coverageHistory up (Accounted holds) s' (coverageHistory.observe up s e s' g) := by
  have hdb : ∀ activity, (∀ pool reads jobs, activity = .sweeping pool reads jobs → pool ≠ .ironwood →
      reads.Finds pool s.db.scanned g) →
      Accounted holds { db := s.db, sparse := s.sparse, activity, todo := [] } g :=
    fun _ hsweeping => ⟨h.stores, h.filed, h.opened, h.layout, h.buffered, hsweeping⟩
  cases hbegun with
  | @range verifySample =>
    refine .idle htodo
      ⟨fun _ => SparseShardStore.seed_matches _ _, h.filed, ?_, h.layout, h.buffered, ?_⟩
    . intro ctx a pool hgraft hacc
      obtain ⟨n, -, rfl⟩ := Option.map_eq_some_iff.mp hgraft
      cases hacc
    . intro pool reads jobs heq
      cases heq
  | call hactivity hbegin =>
    apply (hdb _ h.sweeping).begin hcovers hok _ hbegin
    intro pool reads jobs heq
    cases hactivity.symm.trans heq
  | refused =>
    apply Session.Safe.failed _ (hdb _ h.sweeping)
    exact fun s g h => h.atRest policy
  | finish hactivity hgraft =>
    apply (hdb .finishing _).finishOps hcovers hgraft
    intro pool reads jobs heq
    cases heq
  | @sweep pool reads jobs =>
    refine .idle htodo ⟨fun p => ?_, h.filed, ?_, h.layout, h.buffered, ?_⟩
    . by_cases hp : p = pool
      . cases hp
        simpa [SparseTreeState.seeded] using SparseShardStore.seed_matches _ _
      . simpa [SparseTreeState.seeded, hp] using SparseShardStore.seed_matches _ _
    . intro ctx a pool hgraft
      cases hgraft
    . intro pool reads jobs heq hpool
      cases heq
      apply (hok hpool).finds (h.layout pool hpool)
  | unswept => exact .idle rfl (h.atRest policy)
  | @job pool reads job jobs hactivity =>
    apply (hdb (.sweeping pool reads jobs) _).sweepJob job hcovers
    . intro hpool
      apply h.sweeping pool reads _ hactivity hpool
    . intro pool reads jobs heq hpool
      cases heq
      apply h.sweeping _ _ _ hactivity hpool
  | heal =>
    have hrest := h.atRest policy
    refine .idle rfl ⟨fun _ => SparseShardStore.seed_matches _ _, hrest.filed, hrest.opened,
      hrest.layout, ?_, hrest.sweeping⟩
    rintro pool hpool p ⟨hp, hnot⟩
    apply h.buffered pool hpool p
    refine ⟨hp, ?_⟩
    simpa only [Session.atRest, SqlTree.heal_shards] using hnot
  | @truncate height sizes => exact .idle rfl (h.truncated policy hok.1 hok.2)
  | @importAccount birthday sizes => exact h.imported policy hok.1 hok.2.1 hok.2.2

end Session

def coverageMachine [DecidableEq H] (up : Upstream H B Shard) (holds : Shard → Nat → Prop)
    (policy : Option AnchorRetention) : Machine (Session H B Shard × Coverage) (SessionEvent H) :=
  (sessionMachine up policy).observed
    (fun s g => ∀ pool, s.db.buffer pool = .empty ∧ (pool ≠ .ironwood →
      Layout (· ∈ s.db.scanned) (g.first pool) (g.stop pool)
        ∧ ∀ p, g.Scanned s.db.scanned pool p → Held holds (s.db.trees pool).shards p))
    (coverageHistory.observe up)

theorem scanned_positions_kept [DecidableEq H] {up : Upstream H B Shard}
    {holds : Shard → Nat → Prop} {policy : Option AnchorRetention} {s : Session H B Shard}
    {g : Coverage} (hcovers : up.Covers holds)
    (h : (coverageMachine up holds policy).Reach (ScansQueue up holds) (s, g))
    : ∀ pool, pool ≠ .ironwood → ∀ p, g.Scanned s.db.scanned pool p →
        Held holds (s.db.trees pool).shards p ∨ (shardOf p, p) ∈ (s.db.buffer pool).keys := by
  have hsafe : Session.Safe coverageHistory up (Accounted holds) s g := by
    apply Session.Safe.of_reach _ _ _ h
    . intro db g hinit
      refine ⟨fun _ => SparseShardStore.seed_matches _ _, fun pool => ?_, ?_,
        fun pool hpool => ((hinit pool).2 hpool).1, ?_, ?_⟩
      . rw [(hinit pool).1]
        exact PoolBuffer.filed_empty
      . intro ctx a pool hgraft
        cases hgraft
      . rintro pool hpool p ⟨hp, hnot⟩
        exact absurd (((hinit pool).2 hpool).2 p hp) hnot
      . intro pool reads jobs heq
        cases heq
    . exact fun s g h => h.atRest policy
    . intro s g e s' htodo hnow hok hbegun
      exact hnow.begun hcovers htodo hok hbegun
  intro pool hpool p hp
  by_cases hheld : Held holds (s.db.trees pool).shards p
  . exact Or.inl hheld
  . exact Or.inr (hsafe.now.buffered pool hpool p ⟨hp, hheld⟩)

theorem bufferedCall_pending (g : Coverage) {sparse : SparseTreeState Nat Shard}
    (hacc : ∀ ctx a pool, sparse.graft = some ctx → ctx.acc pool ≠ some a)
    : CallPending g ∅ sparse bufferedCall where
  valid := by
    refine ⟨by simp [bufferedCall], rfl, ?_, ?_⟩
    . intro b hb
      cases hb
      decide
    . intro tip htip
      cases htip
      decide
  pending := by simp
  below := by simp
  above := by simp
  next ctx a pool hgraft ha := absurd ha (hacc ctx a pool hgraft)

def Coverage.fresh : Coverage where
  birthday := 101
  first _ _ := 0
  stop _ _ := 0

def ledgerHolds (shard : Bool × Finset Nat) (p : Nat) : Prop := shard.1 = true ∨ p ∈ shard.2

theorem ledger_covers : (Upstream.ledger H fun _ => true).Covers ledgerHolds := by
  have hrows : (Upstream.ledger H fun _ => true).HoldsRows ledgerHolds (fun _ => True) fun _ =>
      true = true := by
    apply Upstream.ledger_holdsRows
    . exact fun shard s p hp => hp.imp_right (Finset.mem_union_left s)
    . exact fun shard p hp => Or.inr hp
  constructor
  . exact ⟨hrows.frontier, hrows.subtree, hrows.flags,
      fun shards t puts hputs r hr _ => hrows.added shards t puts hputs r hr rfl⟩
  . exact fun root p => Or.inl rfl

def builtRun : Option (Session Nat Nat (Bool × Finset Nat) × Coverage) :=
  (coverageMachine (.ledger Nat fun _ => true) ledgerHolds none).run
    (.atRest none (ledgerWallet Nat), .fresh)
    [.beginRange (some 0), .putBlocks .none bufferedCall, .proceed, .proceed, .finishRange, .proceed,
      .proceed]

theorem builtRun_reach (h : builtRun = some st)
    : (coverageMachine (.ledger Nat fun _ => true) ledgerHolds none).Reach
        (ScansQueue (.ledger Nat fun _ => true) ledgerHolds) st := by
  unfold builtRun Machine.run at h
  obtain ⟨s₁, hs₁, hrest⟩ := Option.bind_eq_some_iff.mp h
  unfold Machine.run at hrest
  obtain ⟨s₂, hs₂, hproceed⟩ := Option.bind_eq_some_iff.mp hrest
  have hcalled : (coverageMachine (.ledger Nat fun _ => true) ledgerHolds none).Reach
      (ScansQueue (.ledger Nat fun _ => true) ledgerHolds) s₂ := by
    apply Machine.Reach.step (.step (.start _) _ hs₁) _ hs₂
    . refine ⟨⟨_, rfl⟩, fun pool => ⟨rfl, fun _ => ⟨⟨?_, ?_⟩, ?_⟩⟩⟩
      . exact fun _ _ => Nat.le_refl _
      . exact fun _ _ _ _ _ => Nat.le_refl _
      . rintro p ⟨b, hb, -⟩
        cases hb
    . trivial
    . cases hs₁
      apply bufferedCall_pending
      intro ctx a pool hctx ha
      cases hctx
      cases ha
  apply Machine.reach_of_run hcalled _ hproceed
  intro e he st
  simp only [List.mem_cons, List.not_mem_nil, or_false] at he
  rcases he with rfl | rfl | rfl | rfl | rfl <;> trivial

theorem scanned_positions_kept_builtRun
    : ∃ s g, builtRun = some (s, g) ∧ g.Scanned s.db.scanned .sapling 5
      ∧ (s.db.buffer .sapling).keys = ∅
      ∧ ∀ pool, pool ≠ .ironwood → ∀ p, g.Scanned s.db.scanned pool p →
        Held ledgerHolds (s.db.trees pool).shards p ∨ (shardOf p, p) ∈ (s.db.buffer pool).keys := by
  have hbuilt : builtRun.any (fun st => decide (101 ∈ st.1.db.scanned ∧ st.2.birthday = 101
      ∧ st.2.first .sapling 101 = 5 ∧ st.2.stop .sapling 101 = 6
      ∧ (st.1.db.buffer .sapling).keys = ∅)) = true := by
    decide +kernel
  obtain ⟨⟨s, g⟩, hs, hfacts⟩ := (Option.any_eq_true _ _).mp hbuilt
  obtain ⟨hmem, hbirthday, hfirst, hstop, hbuffer⟩ := of_decide_eq_true hfacts
  refine ⟨s, g, hs, ⟨101, hmem, ?_, ?_, ?_⟩, hbuffer,
    scanned_positions_kept ledger_covers (builtRun_reach hs)⟩
  . rw [hbirthday]
  . rw [hfirst]
  . rw [hstop]
    decide

end Slipstream
