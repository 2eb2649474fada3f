import Slipstream.Persist.Lemmas.Notes

/-!
This module contains the safety of grafts: no graft replaces a shard that holds the leaf of an owned
note of a scanned block, over any ranges, rescans, sweeps and restarts.
-/

namespace Slipstream

variable {H B Shard : Type}

structure Replaced (Shard : Type) where
  pool : ShieldedPool
  shard : Nat
  content : Option Shard
  scanned : Finset Nat

def replacedBy (db : WalletDb B Shard) (plans : ShieldedPool → Option (PoolPlan H))
    : List (Replaced Shard) :=
  [.sapling, .orchard].flatMap fun pool =>
    match plans pool with
    | none => []
    | some plan => plan.grafts.map fun graft => {
        pool
        shard := graft.1
        content := (db.trees pool).shards.get? graft.1
        scanned := db.scanned
      }

def graftHistory : History H B Shard (List (Replaced Shard)) where
  took op db _ replaced :=
    match op with
    | .transact _ plans => replaced ++ replacedBy db plans
    | _ => replaced
  rewound _ replaced := replaced

section Session

variable (sizes : ShieldedPool → Nat → Nat) (notes : ShieldedPool → Nat → Prop)
  (holds : Shard → Nat → Prop)

def Replaced.Harmless (r : Replaced Shard) : Prop :=
  ∀ p, notes r.pool p → shardOf p = r.shard → ScannedAt (sizes r.pool) r.scanned p →
    ∀ content, r.content = some content → ¬holds content p

structure GraftsSafe (s : Session H B Shard) (replaced : List (Replaced Shard)) : Prop where
  notesSafe : NotesSafe sizes notes holds s
  harmless : ∀ r ∈ replaced, r.Harmless sizes notes holds

variable {sizes notes holds} {up : Upstream H B Shard} {db db' : WalletDb B Shard}
  {sparse sparse' : SparseTreeState H Shard} {activity : Activity H} {call : PutBlocks H}

theorem harmless_replacedBy {plans : ShieldedPool → Option (PoolPlan H)}
    (hspares : ∀ pool, pool ≠ .ironwood → ∀ last,
      (call.lane policy last (plans pool) pool).SparesNotes (notes pool)
        (ScannedAt (sizes pool) db.scanned))
    : ∀ r ∈ replacedBy db plans, r.Harmless sizes notes holds := by
  intro r hr p hnote hindex hp content _ _
  obtain ⟨pool, hpool, hr⟩ := List.mem_flatMap.mp hr
  have hpool : pool ≠ .ironwood := by
    rintro rfl
    simp at hpool
  cases hplan : plans pool with
  | none =>
    rw [hplan] at hr
    cases hr
  | some plan =>
    rw [hplan] at hr
    obtain ⟨graft, hgraft, rfl⟩ := List.mem_map.mp hr
    apply (hspares pool hpool 0).spares p hnote hp
    rw [hindex]
    unfold Lane.grafted PutBlocks.lane
    dsimp only
    rw [hplan]
    exact List.mem_map_of_mem hgraft

variable {g : List (Replaced Shard)} {pool : ShieldedPool} {rest : List (DurableOp H Shard)}

theorem GraftsSafe.buffers {ops : List (BufferOp H)}
    (h : GraftsSafe sizes notes holds { db, sparse, activity, todo := [] } g)
    (hops : ∀ op ∈ ops, op.Files)
    (hrest : ∀ t, t.Filed → Session.SafeFrom graftHistory up (GraftsSafe sizes notes holds) activity
      rest (db.setBuffer pool t) sparse g)
    : Session.SafeFrom graftHistory up (GraftsSafe sizes notes holds) activity
        (ops.map (.buffer pool) ++ rest) db sparse g := by
  apply Session.SafeFrom.buffers (Q := fun _ t => t.Filed)
  . intros
    rfl
  . apply h.notesSafe.filed
  . intro done op todo hsplit t t' ht happly
    apply ht.apply _ happly
    apply hops
    simp [hsplit]
  . intro _ t ht
    exact ⟨h.notesSafe.setBuffer pool ht, h.harmless⟩
  . exact hrest

theorem GraftsSafe.planOps {planned : Planned H} {next : PoolPlan H → List (DurableOp H Shard)}
    (h : GraftsSafe sizes notes holds { db, sparse, activity, todo := [] } g)
    (hops : ∀ op ∈ planned.ops, op.Files)
    (hnext : ∀ plan, planned.plan = .ok plan → ∀ t, t.Filed →
      Session.SafeFrom graftHistory up (GraftsSafe sizes notes holds) activity (next plan)
        (db.setBuffer pool t) sparse g)
    : Session.SafeFrom graftHistory up (GraftsSafe sizes notes holds) activity
        (PutBlocks.planOps pool planned next) db sparse g := by
  apply h.buffers hops
  intro t ht
  cases hplan : planned.plan with
  | ok plan => apply hnext plan hplan t ht
  | error e =>
    refine ⟨⟨h.notesSafe.setBuffer pool ht, h.harmless⟩, fun db' sparse' hexec => ?_⟩
    cases hexec

theorem GraftsSafe.transact {plans : ShieldedPool → Option (PoolPlan H)}
    (sapling orchard : List (BufferOp H))
    (hleaves : ∀ pool, pool ≠ .ironwood → up.KeepsLeaves holds (notes pool))
    (h : GraftsSafe sizes notes holds { db, sparse, activity, todo := [] } g) (hcall : call.Valid)
    (hchain : call.OnChain sizes)
    (hreports : ∀ pool, pool ≠ .ironwood → call.Reports (notes pool) pool)
    (hspares : ∀ pool, pool ≠ .ironwood → ∀ last,
      (call.lane sparse.anchorRetention last (plans pool) pool).SparesNotes (notes pool)
        (ScannedAt (sizes pool) db.scanned))
    (haware : ∀ ctx a pool, sparse.graft = some ctx → ctx.acc pool = some a → pool ≠ .ironwood →
      ∃ o, a.openShard = some o ∧ OpenAt a.nextPosition o
        ∧ o.Aware (notes pool) (ScannedAt (sizes pool) (db.scanned ∪ call.heights)) a.nextPosition)
    (hsapling : ∀ op ∈ sapling, op.Files) (horchard : ∀ op ∈ orchard, op.Files)
    : Session.SafeFrom graftHistory up (GraftsSafe sizes notes holds) activity
        (.transact call plans
          :: (sapling.map (.buffer .sapling) ++ orchard.map (.buffer .orchard))) db sparse g := by
  refine ⟨h, fun db' sparse' hexec => ?_⟩
  have hsafe : GraftsSafe sizes notes holds { db := db', sparse := sparse', activity, todo := [] }
      (graftHistory.took (.transact call plans) db db' g) := by
    constructor
    . apply h.notesSafe.transact hleaves hcall hchain hreports hspares haware hexec
    . intro r hr
      cases List.mem_append.mp hr with
      | inl hr => apply h.harmless r hr
      | inr hr => apply harmless_replacedBy hspares r hr
  apply hsafe.buffers hsapling
  intro t ht
  rw [← List.append_nil (orchard.map _)]
  have hsafe' : GraftsSafe sizes notes holds
      { db := db'.setBuffer .sapling t, sparse := sparse', activity, todo := [] } _ :=
    ⟨hsafe.notesSafe.setBuffer .sapling ht, hsafe.harmless⟩
  apply hsafe'.buffers horchard
  intro t' ht'
  exact ⟨hsafe'.notesSafe.setBuffer .orchard ht', hsafe'.harmless⟩

theorem GraftsSafe.cleanup {ops : List (DurableOp H Shard)}
    (h : GraftsSafe sizes notes holds { db, sparse, activity, todo := [] } g)
    (hops : ∀ op ∈ ops, (∃ blocks, op = .queueRescan blocks)
      ∨ ∃ pool shard start stop, op = .buffer pool (.deleteRowsIn shard start stop))
    : Session.SafeFrom graftHistory up (GraftsSafe sizes notes holds) activity ops db sparse g := by
  rw [← List.append_nil ops]
  apply Session.SafeFrom.append (K := fun db sparse g =>
    GraftsSafe sizes notes holds { db, sparse, activity, todo := [] } g)
  . exact fun _ _ _ hsafe => hsafe
  . intro op hop db sparse g db' sparse' hsafe hexec
    rcases hops op hop with ⟨blocks, rfl⟩ | ⟨pool, shard, start, stop, rfl⟩
    . cases hexec
      exact ⟨hsafe.notesSafe.queued Finset.sdiff_subset, hsafe.harmless⟩
    . obtain ⟨t, ht, rfl, rfl⟩ := exec_buffer hexec
      refine ⟨hsafe.notesSafe.setBuffer pool ?_, hsafe.harmless⟩
      apply (hsafe.notesSafe.filed pool).apply _ ht
      trivial
  . exact fun _ _ _ hsafe => hsafe
  . exact h

theorem GraftsSafe.finishOps
    (hleaves : ∀ pool, pool ≠ .ironwood → up.KeepsLeaves holds (notes pool)) (ctx : GraftCtx H)
    (h : GraftsSafe sizes notes holds { db, sparse, activity, todo := [] } g)
    : Session.SafeFrom graftHistory up (GraftsSafe sizes notes holds) activity
        (Session.finishOps ctx) db sparse g := by
  unfold Session.finishOps
  dsimp only
  split
  . exact h
  . refine ⟨h, fun db' sparse' hexec => ?_⟩
    obtain ⟨hflushed, hscanned⟩ := exec_finish_flushed (fun pool label tree hinsert =>
      keepsHeld_insertDeferredRows hleaves h.notesSafe pool hinsert) hexec
    apply GraftsSafe.cleanup
    . exact ⟨h.notesSafe.flushed hflushed hscanned, h.harmless⟩
    . intro op hop
      apply Or.inr
      cases List.mem_append.mp hop with
      | inl hop =>
        obtain ⟨shard, start, stop, -, rfl⟩ := mem_finishCleanup hop
        exact ⟨_, shard, start, stop, rfl⟩
      | inr hop =>
        obtain ⟨shard, start, stop, -, rfl⟩ := mem_finishCleanup hop
        exact ⟨_, shard, start, stop, rfl⟩

section Begin

variable [DecidableEq H] {reads : CallReads H} {ctx : GraftCtx H}

theorem GraftsSafe.begin
    (hleaves : ∀ pool, pool ≠ .ironwood → up.KeepsLeaves holds (notes pool))
    (h : GraftsSafe sizes notes holds { db, sparse, activity, todo := [] } g)
    (hcall : CallScans sizes notes call sparse)
    (hbegin : call.begin up reads db sparse = .ok (sparse', ops))
    : Session.SafeFrom graftHistory up (GraftsSafe sizes notes holds) activity ops db sparse' g := by
  have hnotes := h.notesSafe
  have hcleanup : ∀ plan : PoolPlan H, ∀ op ∈ plan.cleanup, op.Files := by
    intro plan op hop
    obtain ⟨span, -, rfl⟩ := List.mem_map.mp hop
    trivial
  cases PutBlocks.begin_begins hbegin with
  | empty hblocks => exact h
  | plain hgraft =>
    have hsafe : GraftsSafe sizes notes holds
        { db, sparse := { sparse with trees := fun p => some (sparse.seeded db p) }, activity, todo := [] }
        g := ⟨⟨hnotes.filed, hnotes.stores, hnotes.held, hnotes.aware⟩, h.harmless⟩
    apply GraftsSafe.transact [] [] hleaves hsafe hcall.valid hcall.onChain hcall.reports
    . intro pool _ last
      apply Lane.sparesNotes_of_plain rfl
    . intro ctx a pool hsome
      cases hgraft.symm.trans hsome
    . simp
    . simp
  | @grafting ctx hgraft =>
    have haware : ∀ a pool, perPool (call.planned up reads db sparse ctx .sapling).acc
        (call.planned up reads db sparse ctx .orchard).acc none pool = some a → pool ≠ .ironwood →
        ∃ o, a.openShard = some o ∧ OpenAt a.nextPosition o
          ∧ o.Aware (notes pool) (ScannedAt (sizes pool) (db.scanned ∪ call.heights))
              a.nextPosition := by
      intro a pool ha hpool
      cases pool with
      | sapling => exact hnotes.planned_aware (hleaves _ hpool) hcall hgraft hpool ha
      | orchard => exact hnotes.planned_aware (hleaves _ hpool) hcall hgraft hpool ha
      | ironwood => cases ha
    have hsafe : NotesSafe sizes notes holds {
        db
        sparse := { sparse with
          trees := fun p => some (sparse.seeded db p)
          graft := some { ctx with
            acc := perPool (call.planned up reads db sparse ctx .sapling).acc
              (call.planned up reads db sparse ctx .orchard).acc none } }
        activity
        todo := [] } := by
      refine ⟨hnotes.filed, hnotes.stores, hnotes.held, ?_⟩
      intro ctx' a pool hctx ha hpool
      cases hctx
      obtain ⟨o, ho, hat, haware⟩ := haware a pool ha hpool
      refine ⟨o, ho, hat, haware.mono ?_⟩
      intro p hp
      exact scannedAt_union.mpr (Or.inl hp)
    refine GraftsSafe.planOps ⟨hsafe, h.harmless⟩ ?_ ?_
    . apply hnotes.planned_files (hleaves _ (by simp)) hcall hgraft (by simp)
    . intro sp hsp t ht
      refine GraftsSafe.planOps ⟨hsafe.setBuffer .sapling ht, h.harmless⟩ ?_ ?_
      . apply hnotes.planned_files (hleaves _ (by simp)) hcall hgraft (by simp)
      . intro op hop t' ht'
        refine GraftsSafe.transact _ _ hleaves
          ⟨(hsafe.setBuffer .sapling ht).setBuffer .orchard ht', h.harmless⟩ hcall.valid
          hcall.onChain hcall.reports ?_ ?_ (hcleanup sp) (hcleanup op)
        . intro pool hpool last
          cases pool with
          | sapling => exact hnotes.planned_spares (hleaves _ hpool) hcall hgraft hpool hsp last
          | orchard => exact hnotes.planned_spares (hleaves _ hpool) hcall hgraft hpool hop last
          | ironwood => exact absurd rfl hpool
        . intro ctx' a pool hctx ha hpool
          cases hctx
          apply haware a pool ha hpool

theorem GraftsSafe.sweepJob {policy : Option AnchorRetention} {reads : SweepReads H}
    (hleaves : ∀ pool, pool ≠ .ironwood → up.KeepsLeaves holds (notes pool)) (job : SweepJob H)
    (h : GraftsSafe sizes notes holds { db, sparse, activity, todo := [] } g)
    : Session.SafeFrom graftHistory up (GraftsSafe sizes notes holds) activity
        (job.ops up reads policy pool (sparse.seeded db pool)) db sparse g := by
  rcases job.ops_cases up reads policy pool (sparse.seeded db pool) with
    hops | hops | ⟨shard, run, rows, check, tree, -, -, hchecked, hops⟩
  all_goals rw [hops]
  . exact h
  . apply h.cleanup
    intro op hop
    cases mem_rescanOps hop with
    | inl hrescan => exact Or.inl hrescan
    | inr hdelete => exact Or.inr ⟨pool, _, _, _, hdelete⟩
  . obtain ⟨inserted, hinserted, rfl⟩ := insertChecked_ok hchecked
    have htree : KeepsHeld notes holds pool (db.trees pool)
        (inserted.getD (sparse.seeded db pool)) := by
      cases inserted with
      | none =>
        have hmatches := h.notesSafe.stores pool
        refine ⟨hmatches.toInStep, fun p _ _ hheld => ?_⟩
        have hshards := hmatches.same_shards
        dsimp only [Option.getD_none] at hshards ⊢
        rwa [hshards]
      | some tree => exact keepsHeld_insertDeferredRows hleaves h.notesSafe pool hinserted
    refine ⟨h, fun db' sparse' hexec => ?_⟩
    obtain ⟨hflushed, hscanned, -⟩ := exec_flushTree_flushed htree hexec
    apply GraftsSafe.cleanup
    . exact ⟨h.notesSafe.flushed hflushed hscanned, h.harmless⟩
    . intro op hop
      cases List.mem_singleton.mp hop
      exact Or.inr ⟨pool, _, _, _, rfl⟩

def ScansChain (sizes : ShieldedPool → Nat → Nat) (notes : ShieldedPool → Nat → Prop)
    (st : Session H B Shard × List (Replaced Shard)) : SessionEvent H → Prop
  | .putBlocks _ call => CallScans sizes notes call st.1.sparse
  | .truncate _ _ | .importAccount _ _ => False
  | _ => True

theorem GraftsSafe.begun {policy : Option AnchorRetention} {s s' : Session H B Shard}
    {e : SessionEvent H} (hleaves : ∀ pool, pool ≠ .ironwood → up.KeepsLeaves holds (notes pool))
    (h : GraftsSafe sizes notes holds s g) (htodo : s.todo = []) (hok : ScansChain sizes notes (s, g) e)
    (hbegun : Session.Begun policy up s e s')
    : Session.Safe graftHistory up (GraftsSafe sizes notes holds) s'
        (graftHistory.observe up s e s' g) := by
  have hnotes := h.notesSafe
  have hrest : ∀ activity, GraftsSafe sizes notes holds
      { db := s.db, sparse := s.sparse, activity, todo := [] } g :=
    fun _ => ⟨⟨hnotes.filed, hnotes.stores, hnotes.held, hnotes.aware⟩, h.harmless⟩
  cases hbegun with
  | @range verifySample =>
    refine .idle htodo ⟨⟨hnotes.filed, fun _ => SparseShardStore.seed_matches _ _, hnotes.held, ?_⟩,
      h.harmless⟩
    intro ctx a pool hgraft hacc
    obtain ⟨n, -, rfl⟩ := Option.map_eq_some_iff.mp hgraft
    cases hacc
  | call hactivity hbegin => exact (hrest _).begin hleaves hok hbegin
  | refused =>
    apply Session.Safe.failed _ (hrest _)
    exact fun s g h => ⟨notesSafe_atRest h.notesSafe, h.harmless⟩
  | finish hactivity hgraft => exact (hrest _).finishOps hleaves _
  | @sweep pool =>
    refine .idle htodo ⟨⟨hnotes.filed, fun p => ?_, hnotes.held, ?_⟩, h.harmless⟩
    . by_cases hp : p = pool
      . cases hp
        simpa [SparseTreeState.seeded] using SparseShardStore.seed_matches _ _
      . simpa [SparseTreeState.seeded, hp] using SparseShardStore.seed_matches _ _
    . intro ctx a pool hgraft
      cases hgraft
  | unswept => exact .idle rfl ⟨notesSafe_atRest hnotes, h.harmless⟩
  | job hactivity => exact (hrest _).sweepJob hleaves _
  | heal =>
    refine .idle rfl ⟨⟨hnotes.filed, fun _ => SparseShardStore.seed_matches _ _, ?_, ?_⟩, h.harmless⟩
    . intro pool hpool p hnote hp
      simp only [Session.atRest, SqlTree.heal_shards]
      apply hnotes.held pool hpool p hnote hp
    . intro ctx a pool hgraft
      cases hgraft
  | truncate => cases hok
  | importAccount => cases hok

end Begin

end Session

def graftMachine [DecidableEq H] (up : Upstream H B Shard) (policy : Option AnchorRetention)
    : Machine (Session H B Shard × List (Replaced Shard)) (SessionEvent H) :=
  (sessionMachine up policy).observed
    (fun s replaced => s.db.scanned = ∅ ∧ (∀ pool, s.db.buffer pool = .empty) ∧ replaced = [])
    (graftHistory.observe up)

theorem grafts_spare_notes [DecidableEq H] {up : Upstream H B Shard} {policy : Option AnchorRetention}
    {sizes : ShieldedPool → Nat → Nat} {notes : ShieldedPool → Nat → Prop}
    {holds : Shard → Nat → Prop} {s : Session H B Shard} {replaced : List (Replaced Shard)}
    (hleaves : ∀ pool, pool ≠ .ironwood → up.KeepsLeaves holds (notes pool))
    (h : (graftMachine up policy).Reach (ScansChain sizes notes) (s, replaced))
    : ∀ r ∈ replaced, r.Harmless sizes notes holds := by
  have hsafe : Session.Safe graftHistory up (GraftsSafe sizes notes holds) s replaced := by
    apply Session.Safe.of_reach _ _ _ h
    . rintro db g ⟨hscanned, hbuffer, rfl⟩
      refine ⟨⟨fun pool => ?_, fun _ => SparseShardStore.seed_matches _ _, ?_, ?_⟩, by simp⟩
      . rw [hbuffer]
        exact PoolBuffer.filed_empty
      . intro pool _ p _ hp
        rw [hscanned] at hp
        obtain ⟨height, hmem, -⟩ := hp
        cases hmem
      . intro ctx a pool hgraft
        cases hgraft
    . exact fun s g h => ⟨notesSafe_atRest h.notesSafe, h.harmless⟩
    . intro s g e s' htodo hsafe hok hbegun
      exact hsafe.begun hleaves htodo hok hbegun
  exact hsafe.now.harmless

def Upstream.marks (H : Type) : Upstream H H (Bool × Finset Nat) := .ledger H (·.isMarked)

theorem Upstream.marks_keepsLeaves (live : Nat → Prop)
    : (Upstream.marks H).KeepsLeaves (fun shard p => p ∈ shard.2) live where
  toHoldsRows := by
    apply Upstream.ledger_holdsRows
    . exact fun shard s p hp => Finset.mem_union_left s hp
    . exact fun shard p hp => hp
  interior shard p hp := by
    have : shard.2 ≠ ∅ := Finset.ne_empty_of_mem hp
    simp [Upstream.marks, Upstream.ledger, this]

def notedCall : PutBlocks Nat where
  fromState := {
    blockHeight := 100
    finalTree
      | .sapling => ⟨some { position := 65534, leaf := 0, ommers := [] }⟩
      | _ => ⟨none⟩
  }
  blocks := [
    saplingBlock 101 65535 [1],
    {
      height := 102
      pool
        | .sapling => {
            commitments := [(2, .checkpoint 102 .marked)]
            finalTreeSize := 65537
            notePositions := [65536]
          }
        | _ => { commitments := [], finalTreeSize := 0, notePositions := [] }
      checkpointed := by
        intro p i c h
        cases p with
        | sapling =>
          match i with
          | 0 =>
            cases h
            rfl
        | orchard => cases h
        | ironwood => cases h
    }
  ]
  chainTip := some 20000

def notedSizes : ShieldedPool → Nat → Nat
  | .sapling, h => if h ≤ 100 then 65535 else if h = 101 then 65536 else 65537
  | _, _ => 0

def notedNotes (pool : ShieldedPool) (p : Nat) : Prop := pool = .sapling ∧ p = 65536

theorem notedCall_scans (sparse : SparseTreeState Nat Shard)
    (hacc : ∀ ctx a pool, sparse.graft = some ctx → ctx.acc pool ≠ some a)
    : CallScans notedSizes notedNotes notedCall sparse where
  valid := by
    refine ⟨by simp [notedCall], rfl, ?_, ?_⟩
    . intro b hb
      cases hb
      decide
    . intro tip htip
      cases htip
      decide
  onChain pool h hlo hhi := by
    have : h = 100 ∨ h = 101 ∨ h = 102 := by
      simp only [notedCall, PutBlocks.lastHeight, List.length_cons, List.length_nil] at hlo hhi
      omega
    rcases this with rfl | rfl | rfl <;> cases pool <;> rfl
  reports pool _ p hnote _ _ := by
    obtain ⟨rfl, rfl⟩ := hnote
    exact ⟨by decide, (2, .checkpoint 102 .marked), rfl, rfl⟩
  next ctx a pool hgraft ha := absurd ha (hacc ctx a pool hgraft)

def notedRun : Option (Session Nat Nat (Bool × Finset Nat) × List (Replaced (Bool × Finset Nat))) :=
  (graftMachine (.marks Nat) none).run (.atRest none (ledgerWallet Nat), [])
    [.beginRange (some 0), .putBlocks (.rooted 7) notedCall, .proceed, .proceed]

theorem grafts_spare_notes_notedRun
    : ∃ s replaced, notedRun = some (s, replaced)
      ∧ (∃ r ∈ replaced, r.pool = .sapling ∧ r.shard = 0)
      ∧ ∀ r ∈ replaced, r.Harmless notedSizes notedNotes fun shard p => p ∈ shard.2 := by
  have hrun : notedRun.any (fun st => st.2.any fun r => decide (r.pool = .sapling ∧ r.shard = 0))
      = true := by
    decide +kernel
  obtain ⟨⟨s, replaced⟩, hs, hfound⟩ := (Option.any_eq_true _ _).mp hrun
  obtain ⟨r, hr, hgrafted⟩ := List.any_eq_true.mp hfound
  refine ⟨s, replaced, hs, ⟨r, hr, of_decide_eq_true hgrafted⟩, ?_⟩
  suffices hreach : (graftMachine (.marks Nat) none).Reach (ScansChain notedSizes notedNotes)
      (s, replaced) from grafts_spare_notes (fun _ _ => Upstream.marks_keepsLeaves _) hreach
  unfold notedRun Machine.run at hs
  obtain ⟨s₁, hs₁, hrest⟩ := Option.bind_eq_some_iff.mp hs
  unfold Machine.run at hrest
  obtain ⟨s₂, hs₂, hproceed⟩ := Option.bind_eq_some_iff.mp hrest
  have hcalled : (graftMachine (.marks Nat) none).Reach (ScansChain notedSizes notedNotes) s₂ := by
    apply Machine.Reach.step (.step (.start _) _ hs₁) _ hs₂
    . exact ⟨⟨_, rfl⟩, rfl, fun _ => rfl, rfl⟩
    . trivial
    . cases hs₁
      apply notedCall_scans
      intro ctx a pool hctx ha
      cases hctx
      cases ha
  apply Machine.reach_of_run hcalled _ hproceed
  intro e he st
  simp only [List.mem_cons, List.not_mem_nil, or_false, or_self] at he
  subst he
  trivial

end Slipstream
