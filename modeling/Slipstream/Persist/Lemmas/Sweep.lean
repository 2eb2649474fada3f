import Slipstream.Persist.Impl.Sweep
import Slipstream.Persist.Lemmas.Mirror
import Slipstream.Persist.Lemmas.Session

/-!
This module contains what the pass-start sweep can do to the wallet for one run, whichever of its
accesses fail, and what it leaves as it was for the runs after it.
-/

namespace Slipstream

variable {H B Shard : Type}

namespace SweepState

variable {s s' : SweepState H B Shard}

structure SameStore (s s' : SweepState H B Shard) : Prop where
  db : s.db = s'.db
  log : s.log = s'.log

theorem SameStore.refl (s : SweepState H B Shard) : SameStore s s := ⟨rfl, rfl⟩

def queued (s : SweepState H B Shard) (rescans : List Span) : SweepState H B Shard :=
  rescans.foldl queueRescan s

theorem queued_trees (s : SweepState H B Shard) (rescans : List Span)
    : (s.queued rescans).db.trees = s.db.trees := by
  induction rescans generalizing s with
  | nil => rfl
  | cons rescan rest ih => exact ih (s.queueRescan rescan)

theorem queued_buffer (s : SweepState H B Shard) (rescans : List Span)
    : (s.queued rescans).db.buffer = s.db.buffer := by
  induction rescans generalizing s with
  | nil => rfl
  | cons rescan rest ih => exact ih (s.queueRescan rescan)

theorem queued_log (s : SweepState H B Shard) (rescans : List Span)
    : (s.queued rescans).log = s.log ++ rescans.map .queueRescan := by
  induction rescans generalizing s with
  | nil => exact (List.append_nil _).symm
  | cons rescan rest ih =>
    rw [queued, List.foldl_cons, ← queued, ih, queueRescan, List.append_assoc]
    rfl

theorem queued_scanned (s : SweepState H B Shard) (rescans : List Span)
    : (s.queued rescans).db.scanned ⊆ s.db.scanned
        ∧ ∀ rescan ∈ rescans, ∀ height, rescan.start ≤ height → height < rescan.stop →
          height ∉ (s.queued rescans).db.scanned := by
  induction rescans generalizing s with
  | nil => exact ⟨Finset.Subset.refl _, by simp⟩
  | cons rescan rest ih =>
    obtain ⟨hsub, hqueued⟩ := ih (s.queueRescan rescan)
    constructor
    . exact hsub.trans Finset.sdiff_subset
    . intro r hr height hlo hhi
      rcases List.mem_cons.mp hr with rfl | hr
      . intro hmem
        have := hsub hmem
        simp [queueRescan, hlo, hhi] at this
      . exact hqueued r hr height hlo hhi

theorem queueAll_spec (faults : RunFaults) (s : SweepState H B Shard) (i : Nat) (rescans : List Span)
    : s.queueAll faults i rescans = (s.queued rescans, .ok ())
        ∨ ∃ n e, s.queueAll faults i rescans = (s.queued (rescans.take n), .error e) := by
  induction rescans generalizing s i with
  | nil => exact .inl rfl
  | cons rescan rest ih =>
    rw [queueAll]
    split
    . next e _ => exact .inr ⟨0, .db e, rfl⟩
    . rcases ih (s.queueRescan rescan) (i + 1) with h | ⟨n, e, h⟩
      . exact .inl h
      . exact .inr ⟨n + 1, e, h⟩

end SweepState

open SweepState

inductive Swept [DecidableEq H] (up : Upstream H B Shard) (policy : Option AnchorRetention)
    (pool : ShieldedPool) (reads : SweepReads H) (job : SweepJob H) (ops : List (DurableOp H Shard))
    (tree : Option (SparseShardStore Shard)) (s : SweepState H B Shard)
    : Option (SparseShardStore Shard) → SweepState H B Shard → Prop where
  | kept (hs : SameStore s' s) : Swept up policy pool reads job ops tree s tree s'
  | queued {rescans : List Span}
      (hrescans : rescansFor reads.treeSizeAt job.target.2 reads.stretches = .ok (some rescans))
      (hops : ops = reads.rescanOps pool job.target.1 job.target.2)
      (hs : SameStore s' (s.queued (rescans.take n)))
      : Swept up policy pool reads job ops tree s tree s'
  | rescanned {rescans : List Span}
      (hrescans : rescansFor reads.treeSizeAt job.target.2 reads.stretches = .ok (some rescans))
      (hops : ops = reads.rescanOps pool job.target.1 job.target.2)
      (hs : SameStore s' ((s.queued rescans).deleteRowsIn pool job.target.1 job.target.2))
      : Swept up policy pool reads job ops tree s tree s'
  | flushed {rows : List (AccRow H)} {before inserted written : SparseShardStore Shard}
      {flushed : SqlTree Shard} (hjob : job = .stranded shard run rows)
      (hcover : rowsCoverRun rows run = true) (htree : tree = some before)
      (hinsert : insertChecked up before pool shard rows check reads.chainTip policy = .ok inserted)
      (hflush : inserted.flush (s.db.trees pool) = .ok (flushed, written))
      (hops : ops = [.flushTree pool rows inserted,
        .buffer pool (.deleteRowsIn shard run.first (run.last + 1))])
      (hs : SameStore s' (s.setTree pool rows inserted flushed))
      : Swept up policy pool reads job ops tree s (some written) s'
  | built {rows : List (AccRow H)} {before inserted written : SparseShardStore Shard}
      {flushed : SqlTree Shard} (hjob : job = .stranded shard run rows)
      (hcover : rowsCoverRun rows run = true) (htree : tree = some before)
      (hinsert : insertChecked up before pool shard rows check reads.chainTip policy = .ok inserted)
      (hflush : inserted.flush (s.db.trees pool) = .ok (flushed, written))
      (hops : ops = [.flushTree pool rows inserted,
        .buffer pool (.deleteRowsIn shard run.first (run.last + 1))])
      (hs : SameStore s' ((s.setTree pool rows inserted flushed).deleteRowsIn pool shard run))
      : Swept up policy pool reads job ops tree s (some written) s'

section

variable [DecidableEq H] {up : Upstream H B Shard} {policy : Option AnchorRetention}
  {faults : RunFaults} {reads : SweepReads H} {pool : ShieldedPool} {job : SweepJob H}
  {ops : List (DurableOp H Shard)} {s : SweepState H B Shard}

theorem rescanRun_swept (tree : Option (SparseShardStore Shard)) (htarget : job.target = (shard, run))
    (hops : ops = (faults.reads reads).rescanOps pool shard run)
    : Swept up policy pool (faults.reads reads) job ops tree s tree
        (s.rescanRun faults reads pool shard run).1 := by
  have htarget' : shard = job.target.1 ∧ run = job.target.2 := by rw [htarget]; exact ⟨rfl, rfl⟩
  obtain ⟨rfl, rfl⟩ := htarget'
  rw [rescanRun, queueRescans]
  cases hrescans : rescansFor (faults.reads reads).treeSizeAt job.target.2 reads.stretches with
  | error e => exact .kept (.refl _)
  | ok placed =>
    cases placed with
    | none => exact .kept (.refl _)
    | some rescans =>
      rcases queueAll_spec faults s 0 rescans with hqueue | ⟨n, e, hqueue⟩
      . simp only [hqueue, deleteRun]
        cases faults.delete with
        | some e =>
          apply Swept.queued hrescans hops
          rw [List.take_length]
          exact ⟨rfl, rfl⟩
        | none => exact .rescanned hrescans hops ⟨rfl, rfl⟩
      . simp only [hqueue]
        exact .queued hrescans hops (.refl _)

theorem sweepRun_swept (up : Upstream H B Shard) (policy : Option AnchorRetention)
    (faults : RunFaults) (pool : ShieldedPool) (run : Run) (rows : List (AccRow H))
    (tree : SparseShardStore Shard) (s : SweepState H B Shard)
    (hroot : reads.storedRoot shard = .ok storedRoot)
    : Swept up policy pool (faults.reads reads) (.stranded shard run rows)
        ((SweepJob.stranded shard run rows).ops up (faults.reads reads) policy pool tree) (some tree) s
        (some (sweepRun up policy faults reads pool shard run rows storedRoot tree s).1)
        (sweepRun up policy faults reads pool shard run rows storedRoot tree s).2.1 := by
  have hroot' : (faults.reads reads).storedRoot shard = .ok storedRoot := hroot
  simp only [sweepRun, SweepJob.ops, hroot']
  cases tree.getShard shard with
  | error e => exact .kept (.refl _)
  | ok content =>
    dsimp only
    generalize hcheck : (if rowsCoverRun rows run = true then endCheck run _ storedRoot else none) = check
    cases check with
    | none => exact rescanRun_swept _ rfl rfl
    | some check =>
      have hcover : rowsCoverRun rows run = true := by
        by_contra hnot
        rw [if_neg hnot] at hcheck
        cases hcheck
      dsimp only [Option.bind_some]
      have htip : (faults.reads reads).chainTip = reads.chainTip := rfl
      rw [htip]
      cases hinsert : insertChecked up tree pool shard rows check reads.chainTip policy with
      | error e => exact rescanRun_swept _ rfl rfl
      | ok inserted =>
        dsimp only [Except.toOption]
        cases faults.flush with
        | some e => exact .kept (.refl _)
        | none =>
          dsimp only [Option.elim]
          cases hflush : inserted.flush (s.db.trees pool) with
          | error e => exact .kept (.refl _)
          | ok result =>
            obtain ⟨flushed, written⟩ := result
            dsimp only [Except.mapError, deleteRun]
            cases faults.delete with
            | some e => exact .flushed rfl hcover rfl hinsert hflush rfl (.refl _)
            | none => exact .built rfl hcover rfl hinsert hflush rfl ⟨rfl, rfl⟩

end

theorem insertChecked_inStep [DecidableEq H] {up : Upstream H B Shard} {policy : Option AnchorRetention}
    {before inserted : SparseShardStore Shard} {t : SqlTree Shard} {rows : List (AccRow H)}
    (hinsert : insertChecked up before pool shard rows check chainTip policy = .ok inserted)
    (h : before.InStep t) : inserted.InStep t := by
  obtain ⟨result, hresult, rfl⟩ := insertChecked_ok hinsert
  cases result with
  | none => exact h
  | some tree => exact (SparseShardStore.inStep_keeps up.toShardTreeApi t).insertDeferredRows hresult h

def SweepJob.Covers (job : SweepJob H) (k : Nat × Nat) : Prop :=
  k.1 = job.target.1 ∧ job.target.2.first ≤ k.2 ∧ k.2 ≤ job.target.2.last

theorem deleteRowsIn_get? (job : SweepJob H) {k : Nat × Nat} (s : SweepState H B Shard)
    (pool p : ShieldedPool) (h : p = pool → ¬job.Covers k)
    : ((s.deleteRowsIn pool job.target.1 job.target.2).db.buffer p).get? k
        =
      (s.db.buffer p).get? k := by
  rw [SweepState.deleteRowsIn]
  dsimp only
  by_cases hp : p = pool
  . rw [hp, Function.update_self]
    apply PoolBuffer.get?_deleteRowsIn
    have := h hp
    unfold SweepJob.Covers at this
    omega
  . rw [Function.update_of_ne hp]

namespace Swept

variable [DecidableEq H] {up : Upstream H B Shard} {policy : Option AnchorRetention}
  {reads : SweepReads H} {pool : ShieldedPool} {job : SweepJob H} {ops : List (DurableOp H Shard)}
  {tree tree' : Option (SparseShardStore Shard)} {s s' : SweepState H B Shard}

theorem log_prefix (h : Swept up policy pool reads job ops tree s tree' s')
    : ∃ taken, s'.log = s.log ++ taken ∧ taken <+: ops := by
  cases h with
  | kept hs => exact ⟨[], by rw [hs.log, List.append_nil], List.nil_prefix⟩
  | @queued _ n rescans hrescans hops hs =>
    refine ⟨(rescans.take n).map .queueRescan, by rw [hs.log, queued_log], ?_⟩
    rw [hops, SweepReads.rescanOps, hrescans]
    exact ((List.take_prefix n rescans).map _).trans (List.prefix_append _ _)
  | rescanned hrescans hops hs =>
    refine ⟨ops, ?_, List.prefix_refl _⟩
    rw [hs.log, deleteRowsIn, queued_log, hops, SweepReads.rescanOps, hrescans, List.append_assoc]
  | flushed _ _ _ _ _ hops hs =>
    refine ⟨[_], hs.log, ?_⟩
    rw [hops]
    exact ⟨_, rfl⟩
  | built _ _ _ _ _ hops hs =>
    refine ⟨ops, ?_, List.prefix_refl _⟩
    rw [hs.log, hops]
    simp [deleteRowsIn, setTree]

theorem frame (h : Swept up policy pool reads job ops tree s tree' s') (p : ShieldedPool)
    {k : Nat × Nat} (hk : p = pool → ¬job.Covers k)
    : (s'.db.buffer p).get? k = (s.db.buffer p).get? k := by
  cases h with
  | kept hs => rw [hs.db]
  | queued _ _ hs => rw [hs.db, queued_buffer]
  | rescanned _ _ hs => rw [hs.db, deleteRowsIn_get? job _ _ _ hk, queued_buffer]
  | flushed _ _ _ _ _ _ hs =>
    rw [hs.db]
    rfl
  | built hjob _ _ _ _ _ hs =>
    subst hjob
    rw [hs.db]
    exact deleteRowsIn_get? (.stranded _ _ _) _ _ _ hk

theorem inSync (h : Swept up policy pool reads job ops tree s tree' s')
    (hbefore : ∀ t, tree = some t → t.Matches (s.db.trees pool))
    : ∀ t, tree' = some t → t.Matches (s'.db.trees pool) := by
  intro t ht
  cases h with
  | kept hs =>
    rw [hs.db]
    exact hbefore t ht
  | queued _ _ hs =>
    rw [hs.db, queued_trees]
    exact hbefore t ht
  | rescanned _ _ hs =>
    rw [hs.db, deleteRowsIn, queued_trees]
    exact hbefore t ht
  | flushed _ _ htree hinsert hflush _ hs =>
    have hinStep := insertChecked_inStep hinsert (hbefore _ htree).toInStep
    cases ht
    rw [hs.db, setTree]
    simpa using hinStep.flush hflush
  | built _ _ htree hinsert hflush _ hs =>
    have hinStep := insertChecked_inStep hinsert (hbefore _ htree).toInStep
    cases ht
    rw [hs.db, deleteRowsIn, setTree]
    simpa using hinStep.flush hflush

end Swept

end Slipstream
