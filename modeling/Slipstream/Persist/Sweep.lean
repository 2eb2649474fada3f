import Slipstream.Graft.Lemmas.Buffer
import Slipstream.Graft.Lemmas.Sweep
import Slipstream.Persist.Lemmas.Sweep

/-!
This module contains what holds after each run of a pass-start sweep, whichever of its accesses fail:
the tree in memory is the one in SQLite, and a run's rows go only once they are built or their blocks
are queued.
-/

namespace Slipstream

variable {H B Shard : Type}

open SweepState

namespace HandledRun

variable (h : HandledRun H B Shard)

def delete : DurableOp H Shard :=
  .buffer h.pool (.deleteRowsIn h.job.target.1 h.job.target.2.first (h.job.target.2.last + 1))

def Rescanned : Prop :=
  ∃ rescans,
    rescansFor h.reads.treeSizeAt h.job.target.2 h.reads.stretches = .ok (some rescans)
      ∧ h.after.log = h.before.log ++ rescans.map .queueRescan ++ [h.delete]
      ∧ ∀ rescan ∈ rescans, ∀ height, rescan.start ≤ height → height < rescan.stop →
          height ∉ h.after.db.scanned

structure Built [DecidableEq H] (up : Upstream H B Shard) (policy : Option AnchorRetention)
    (rows : List (AccRow H)) (check : EndCheck H) (before inserted written : SparseShardStore Shard)
    : Prop where
  job : h.job = .stranded h.job.target.1 h.job.target.2 rows
  cover : rowsCoverRun rows h.job.target.2 = true
  stored : ∀ r ∈ rows, ∃ row,
    (h.before.db.buffer h.pool).get? (h.job.target.1, r.position) = some row
      ∧ PoolBuffer.decodeRow up.ser r.position row = .ok r
  tree : before.Matches (h.before.db.trees h.pool)
  accepted : insertChecked up before h.pool h.job.target.1 rows check h.reads.chainTip policy
    = .ok inserted
  committed : inserted.flush (h.before.db.trees h.pool) = .ok (h.after.db.trees h.pool, written)
  log : h.after.log = h.before.log ++ [.flushTree h.pool rows inserted, h.delete]

def WasBuilt [DecidableEq H] (up : Upstream H B Shard) (policy : Option AnchorRetention) : Prop :=
  ∃ rows check before inserted written, h.Built up policy rows check before inserted written

structure Contract [DecidableEq H] (up : Upstream H B Shard) (policy : Option AnchorRetention) : Prop where
  inSync : ∀ tree, h.tree = some tree →
    tree.shards = (h.after.db.trees h.pool).shards ∧ tree.cap = (h.after.db.trees h.pool).cap
      ∧ tree.checkpoints = (h.after.db.trees h.pool).checkpoints
  deleted : h.after.db.buffer = h.before.db.buffer ∨ h.Rescanned ∨ h.WasBuilt up policy
  unplaced : rescansFor h.reads.treeSizeAt h.job.target.2 h.reads.stretches = .ok none →
    h.after.db.buffer = h.before.db.buffer ∨ h.WasBuilt up policy
  others : ∀ p k, (p = h.pool → ¬h.job.Covers k) →
    (h.after.db.buffer p).get? k = (h.before.db.buffer p).get? k
  steps : ∃ tree taken, tree.Matches (h.before.db.trees h.pool)
    ∧ h.after.log = h.before.log ++ taken ∧ taken <+: h.job.ops up h.reads policy h.pool tree

end HandledRun

def StrandedShard.jobs (e : StrandedShard H) : List (SweepJob H) :=
  e.runs.map fun run =>
    .stranded e.shard run
      ((e.rows.takeWhile (·.position ≤ run.last)).dropWhile (·.position < run.first))

def SweepJob.Stored (ser : HashSer H B) (buffer : PoolBuffer B) : SweepJob H → Prop
  | .undecodable _ _ => True
  | .stranded shard run rows => ∀ r ∈ rows, (run.first ≤ r.position ∧ r.position ≤ run.last) ∧ ∃ row,
      buffer.get? (shard, r.position) = some row ∧ PoolBuffer.decodeRow ser r.position row = .ok r

def SweepJob.isUndecodable : SweepJob H → Bool
  | .undecodable _ _ => true
  | .stranded _ _ _ => false

def jobsLeft (jobs : Nat → List (SweepJob H)) (held : List (SweepJob H)) (shards : List Nat)
    : List (SweepJob H) :=
  (shards.flatMap jobs).filter SweepJob.isUndecodable
    ++ (held ++ (shards.flatMap jobs).filter (!·.isUndecodable))

theorem jobsLeft_cons_sublist (jobs : Nat → List (SweepJob H)) (held : List (SweepJob H)) (shard : Nat)
    (rest : List Nat) : (jobsLeft jobs held rest).Sublist (jobsLeft jobs held (shard :: rest)) := by
  rw [jobsLeft, jobsLeft, List.flatMap_cons, List.filter_append, List.filter_append]
  apply List.Sublist.append (List.sublist_append_right _ _)
  apply List.Sublist.append (List.Sublist.refl _) (List.sublist_append_right _ _)

theorem jobsLeft_cons_undecodable {jobs : Nat → List (SweepJob H)} (held : List (SweepJob H))
    (rest : List Nat) (h : ∀ job ∈ jobs shard, job.isUndecodable = true)
    : jobsLeft jobs held (shard :: rest) = jobs shard ++ jobsLeft jobs held rest := by
  have hundecodable : (jobs shard).filter SweepJob.isUndecodable = jobs shard :=
    List.filter_eq_self.mpr h
  have hstranded : (jobs shard).filter (!·.isUndecodable) = [] := by
    rw [List.filter_eq_nil_iff]
    intro job hjob
    simp [h job hjob]
  rw [jobsLeft, jobsLeft, List.flatMap_cons, List.filter_append, List.filter_append, hundecodable,
    hstranded, List.nil_append, List.append_assoc]

theorem jobsLeft_cons_stranded {jobs : Nat → List (SweepJob H)} (held : List (SweepJob H))
    (rest : List Nat) (h : ∀ job ∈ jobs shard, job.isUndecodable = false)
    : jobsLeft jobs held (shard :: rest) = jobsLeft jobs (held ++ jobs shard) rest := by
  have hundecodable : (jobs shard).filter SweepJob.isUndecodable = [] := by
    rw [List.filter_eq_nil_iff]
    intro job hjob
    simp [h job hjob]
  have hstranded : (jobs shard).filter (!·.isUndecodable) = jobs shard := by
    rw [List.filter_eq_self]
    intro job hjob
    simp [h job hjob]
  rw [jobsLeft, jobsLeft, List.flatMap_cons, List.filter_append, List.filter_append, hundecodable,
    hstranded, List.nil_append, List.append_assoc held]

theorem first_le_of_mem_dropWhile {rows : List (AccRow H)}
    (hsorted : rows.Pairwise fun a b => a.position < b.position)
    (hr : r ∈ rows.dropWhile (·.position < first)) : first ≤ r.position := by
  induction rows with
  | nil => cases hr
  | cons a rest ih =>
    obtain ⟨ha, hrest⟩ := List.pairwise_cons.mp hsorted
    by_cases hlt : a.position < first
    . rw [List.dropWhile_cons_of_pos (by simpa using hlt)] at hr
      exact ih hrest hr
    . rw [List.dropWhile_cons_of_neg (by simpa using hlt)] at hr
      rcases List.mem_cons.mp hr with rfl | hr
      . omega
      . have := ha r hr
        omega

def SweepJob.Apart (a b : SweepJob H) : Prop := ∀ k, a.Covers k → ¬b.Covers k

theorem SweepJob.Apart.symm {a b : SweepJob H} (h : a.Apart b) : b.Apart a :=
  fun k hb ha => h k ha hb

namespace SweepReads

variable {reads : SweepReads H} {ser : HashSer H B} {buffer : PoolBuffer B} {seeders : Nat → Option Nat}

theorem shardJobs_target (h : job ∈ reads.shardJobs ser buffer seeders shard)
    : job.target.1 = shard := by
  unfold shardJobs at h
  split at h
  . cases h
  . obtain ⟨run, -, rfl⟩ := List.mem_map.mp h
    rfl
  . obtain ⟨run, -, rfl⟩ := List.mem_map.mp h
    rfl

theorem shardJobs_apart (reads : SweepReads H) (ser : HashSer H B) (buffer : PoolBuffer B)
    (seeders : Nat → Option Nat) (shard : Nat)
    : (reads.shardJobs ser buffer seeders shard).Pairwise SweepJob.Apart := by
  have hruns : (contiguousRuns (buffer.bufferedPositions shard)).Pairwise fun a b => a.last < b.first :=
    contiguousRuns_ascending (Finset.sortedLT_sort _).pairwise
  have hapart (a b : SweepJob H) (hlt : a.target.2.last < b.target.2.first) : a.Apart b := by
    rintro k ⟨-, -, hle⟩ ⟨-, hge, -⟩
    omega
  unfold shardJobs
  split
  . exact List.Pairwise.nil
  . rw [List.pairwise_map]
    apply List.Pairwise.imp _ (hruns.filter _)
    intro a b hlt
    exact hapart _ _ hlt
  . rw [List.pairwise_map]
    apply List.Pairwise.imp _ hruns
    intro a b hlt
    exact hapart _ _ hlt

theorem shardJobs_stored (h : job ∈ reads.shardJobs ser buffer seeders shard)
    : job.Stored ser buffer := by
  unfold shardJobs at h
  split at h
  . cases h
  . next rows hload =>
    obtain ⟨run, -, rfl⟩ := List.mem_map.mp h
    intro r hr
    have hascending := PoolBuffer.loadShard_ascending hload
    have hfirst := first_le_of_mem_dropWhile (hascending.sublist (List.takeWhile_sublist _)) hr
    have htaken := (List.dropWhile_sublist _).subset hr
    have hlast : r.position ≤ run.last := by
      simpa using List.mem_takeWhile_imp htaken
    have hstored := PoolBuffer.loadShard_stored hload ((List.takeWhile_sublist _).subset htaken)
    exact ⟨⟨hfirst, hlast⟩, hstored⟩
  . obtain ⟨run, -, rfl⟩ := List.mem_map.mp h
    trivial

theorem jobsLeft_apart (reads : SweepReads H) (ser : HashSer H B) (buffer : PoolBuffer B)
    (seeders : Nat → Option Nat) {shards : List Nat} (hnodup : shards.Nodup)
    : (jobsLeft (reads.shardJobs ser buffer seeders) [] shards).Pairwise SweepJob.Apart := by
  have hall : (shards.flatMap (reads.shardJobs ser buffer seeders)).Pairwise SweepJob.Apart := by
    rw [List.pairwise_flatMap]
    refine ⟨fun shard _ => shardJobs_apart reads ser buffer seeders shard, ?_⟩
    apply List.Pairwise.imp _ hnodup
    rintro a b hne ja hja jb hjb k ⟨ha, -⟩ ⟨hb, -⟩
    rw [shardJobs_target hja] at ha
    rw [shardJobs_target hjb] at hb
    exact hne (ha.symm.trans hb)
  rw [jobsLeft, List.nil_append]
  exact (List.Perm.pairwise_iff (fun h => h.symm) (List.filter_append_perm _ _)).mpr hall

end SweepReads

section

variable [DecidableEq H] {up : Upstream H B Shard} {policy : Option AnchorRetention}

theorem Swept.deleted {h : HandledRun H B Shard} {tree : Option (SparseShardStore Shard)}
    (hswept : Swept up policy h.pool h.reads h.job ops tree h.before h.tree h.after)
    (hsync : ∀ t, tree = some t → t.Matches (h.before.db.trees h.pool))
    (hstored : h.job.Stored up.ser (h.before.db.buffer h.pool))
    : h.after.db.buffer = h.before.db.buffer ∨ h.Rescanned ∨ h.WasBuilt up policy := by
  obtain ⟨pool, reads, job, before, after, tree'⟩ := h
  cases hswept with
  | kept hs => exact .inl (by rw [hs.db])
  | queued _ _ hs => exact .inl (by rw [hs.db, queued_buffer])
  | @rescanned _ rescans hrescans _ hs =>
    refine .inr (.inl ⟨rescans, hrescans, ?_, ?_⟩)
    . rw [hs.log, deleteRowsIn, queued_log]
      rfl
    . intro rescan hmem height hlo hhi
      rw [hs.db]
      exact (queued_scanned before rescans).2 rescan hmem height hlo hhi
  | flushed _ _ _ _ _ _ hs =>
    refine .inl ?_
    rw [hs.db]
    rfl
  | @built shard run check _ rows store inserted written flushed hjob hcover htree hinsert hflush _ hs =>
    subst hjob
    refine .inr (.inr ⟨rows, check, store, inserted, written, ?_⟩)
    constructor
    . rfl
    . exact hcover
    . intro r hr
      exact (hstored r hr).2
    . exact hsync store htree
    . exact hinsert
    . have hafter : after.db.trees pool = flushed := by
        rw [hs.db]
        simp [deleteRowsIn, setTree]
      rw [hafter]
      exact hflush
    . rw [hs.log]
      simp [deleteRowsIn, setTree, HandledRun.delete, SweepJob.target]

theorem Swept.contract {h : HandledRun H B Shard} {tree : Option (SparseShardStore Shard)}
    {store : SparseShardStore Shard}
    (hswept : Swept up policy h.pool h.reads h.job ops tree h.before h.tree h.after)
    (hops : ops = h.job.ops up h.reads policy h.pool store)
    (hstore : store.Matches (h.before.db.trees h.pool))
    (hsync : ∀ t, tree = some t → t.Matches (h.before.db.trees h.pool))
    (hstored : h.job.Stored up.ser (h.before.db.buffer h.pool)) : h.Contract up policy := by
  have hdeleted := hswept.deleted hsync hstored
  constructor
  . intro t ht
    have := hswept.inSync hsync t ht
    exact ⟨this.same_shards, this.same_cap, this.same_checkpoints⟩
  . exact hdeleted
  . intro hnone
    rcases hdeleted with h | ⟨rescans, hrescans, -⟩ | h
    . exact .inl h
    . rw [hnone] at hrescans
      cases hrescans
    . exact .inr h
  . intro p k hk
    exact hswept.frame p hk
  . obtain ⟨taken, hlog, hstarts⟩ := hswept.log_prefix
    exact ⟨store, taken, hstore, hlog, hops ▸ hstarts⟩

namespace PoolSweep

variable {pool : ShieldedPool} {start p : PoolSweep H B Shard}

structure Sweeping (up : Upstream H B Shard) (policy : Option AnchorRetention) (pool : ShieldedPool)
    (start p : PoolSweep H B Shard) (more : List (HandledRun H B Shard)) (todo : List (SweepJob H))
    : Prop where
  handled : p.handled = start.handled ++ more
  contract : ∀ h ∈ more, h.Contract up policy
  apart : (more.map HandledRun.job ++ todo).Pairwise SweepJob.Apart
  stored : ∀ job ∈ todo, job.Stored up.ser (start.state.db.buffer pool)
  untouched : ∀ k, (∀ h ∈ more, ¬h.job.Covers k) →
    (p.state.db.buffer pool).get? k = (start.state.db.buffer pool).get? k

theorem Sweeping.skip (h : Sweeping up policy pool start p more todo) (hsub : todo'.Sublist todo)
    : Sweeping up policy pool start p more todo' where
  handled := h.handled
  contract := h.contract
  apart := h.apart.sublist (List.Sublist.append (List.Sublist.refl _) hsub)
  stored job hjob := h.stored job (hsub.subset hjob)
  untouched := h.untouched

theorem Sweeping.next_stored (h : Sweeping up policy pool start p more (job :: todo))
    : job.Stored up.ser (p.state.db.buffer pool) := by
  have hstored := h.stored job List.mem_cons_self
  cases job with
  | undecodable _ _ => trivial
  | stranded shard run rows =>
    intro r hr
    obtain ⟨hrun, row, hrow, hdecode⟩ := hstored r hr
    refine ⟨hrun, row, ?_, hdecode⟩
    rw [h.untouched, hrow]
    intro handled hmem hhandled
    have hapart := (List.pairwise_append.mp h.apart).2.2 handled.job (List.mem_map_of_mem hmem) _
      List.mem_cons_self
    exact hapart _ hhandled ⟨rfl, hrun⟩

theorem Sweeping.handle {s' : SweepState H B Shard} {tree tree' : Option (SparseShardStore Shard)}
    {store : SparseShardStore Shard}
    (h : Sweeping up policy pool start p more (job :: todo))
    (hswept : Swept up policy pool reads job ops tree p.state tree' s')
    (hops : ops = job.ops up reads policy pool store) (hstore : store.Matches (p.state.db.trees pool))
    (hsync : ∀ t, tree = some t → t.Matches (p.state.db.trees pool))
    : Sweeping up policy pool start
        { state := s', handled := p.handled ++ [⟨pool, reads, job, p.state, s', tree'⟩] }
        (more ++ [⟨pool, reads, job, p.state, s', tree'⟩]) todo where
  handled := by rw [h.handled, List.append_assoc]
  contract handled hmem := by
    rcases List.mem_append.mp hmem with hmem | hmem
    . exact h.contract handled hmem
    . rw [List.mem_singleton.mp hmem]
      exact Swept.contract hswept hops hstore hsync h.next_stored
  apart := by simpa using h.apart
  stored other hother := h.stored other (List.mem_cons_of_mem _ hother)
  untouched k hk := by
    rw [hswept.frame pool, h.untouched]
    . intro handled hmem
      exact hk handled (List.mem_append_left _ hmem)
    . intro _
      exact hk ⟨pool, reads, job, p.state, s', tree'⟩ (by simp)

variable {faults : SweepFaults} {reads : SweepReads H}

theorem sweepRuns_sweeping {e : StrandedShard H} {tree : SparseShardStore Shard} {runs : List Run}
    (hroot : reads.storedRoot e.shard = .ok storedRoot)
    (h : Sweeping up policy pool start p more ({ e with runs }.jobs ++ todo))
    (hsync : tree.Matches (p.state.db.trees pool))
    : ∃ more',
        Sweeping up policy pool start
            (runs.foldl (sweepNext up policy faults reads pool e storedRoot) (tree, p)).2 more' todo
          ∧ (runs.foldl (sweepNext up policy faults reads pool e storedRoot) (tree, p)).1.Matches
            ((runs.foldl (sweepNext up policy faults reads pool e storedRoot) (tree, p)).2.state.db.trees
              pool) := by
  induction runs generalizing tree p more with
  | nil => exact ⟨more, h, hsync⟩
  | cons run runs ih =>
    have hsome : ∀ t, some tree = some t → t.Matches (p.state.db.trees pool) := by
      rintro _ ⟨⟩
      exact hsync
    have hswept := sweepRun_swept up policy (faults.run e.shard run) pool run
      ((e.rows.takeWhile (·.position ≤ run.last)).dropWhile (·.position < run.first)) tree p.state hroot
    exact ih (h.handle hswept rfl hsync hsome) (hswept.inSync hsome _ rfl)

theorem sweepShards_sweeping {stranded : List (StrandedShard H)} {tree : SparseShardStore Shard}
    (h : Sweeping up policy pool start p more (stranded.flatMap StrandedShard.jobs))
    (hsync : tree.Matches (p.state.db.trees pool))
    : ∃ more',
        Sweeping up policy pool start
          (stranded.foldl (sweepShard up policy faults reads pool) (tree, p)).2 more' [] := by
  induction stranded generalizing tree p more with
  | nil => exact ⟨more, h⟩
  | cons e rest ih =>
    rw [List.flatMap_cons] at h
    rw [List.foldl_cons, sweepShard]
    cases hroot : reads.storedRoot e.shard with
    | error _ => exact ih (h.skip (List.sublist_append_right _ _)) hsync
    | ok storedRoot =>
      obtain ⟨more', hmore, hsync⟩ := sweepRuns_sweeping hroot h hsync
      exact ih hmore hsync

theorem rescanRuns_sweeping {runs : List Run}
    (h : Sweeping up policy pool start p more (runs.map (.undecodable shard) ++ todo))
    : ∃ new, Sweeping up policy pool start (runs.foldl (rescanNext faults reads pool shard) p)
          (more ++ new) todo
        ∧ ∀ h ∈ new, h.job.target.1 = shard := by
  induction runs generalizing p more with
  | nil => exact ⟨[], by simpa using h, by simp⟩
  | cons run runs ih =>
    have hswept : Swept up policy pool ((faults.run shard run).reads reads) (.undecodable shard run)
        (((faults.run shard run).reads reads).rescanOps pool shard run) none p.state none
        (p.state.rescanRun (faults.run shard run) reads pool shard run).1 :=
      rescanRun_swept none rfl rfl
    have hseed := SparseShardStore.seed_matches (p.state.db.trees pool) policy
    obtain ⟨new, hnew, hshard⟩ := ih (h.handle hswept rfl hseed (by simp))
    rw [List.append_assoc, List.singleton_append] at hnew
    refine ⟨_ :: new, hnew, ?_⟩
    intro h hmem
    rcases List.mem_cons.mp hmem with rfl | hmem
    . rfl
    . exact hshard h hmem

theorem readShards_sweeping (faults : SweepFaults) {shards : List Nat} (hnodup : shards.Nodup)
    (hmore : ∀ h ∈ more, h.job.target.1 ∉ shards)
    (h : Sweeping up policy pool start p more
      (jobsLeft (reads.shardJobs up.ser (start.state.db.buffer pool) seeders) held shards))
    : ∃ more', Sweeping up policy pool start (p.readShards up faults reads pool seeders shards).1 more'
        (held ++ (p.readShards up faults reads pool seeders shards).2.flatMap StrandedShard.jobs) := by
  induction shards generalizing p more held with
  | nil => exact ⟨more, h⟩
  | cons shard rest ih =>
    obtain ⟨hshard, hrest⟩ := List.nodup_cons.mp hnodup
    have hmoreRest : ∀ h ∈ more, h.job.target.1 ∉ rest := by
      intro h hmem hin
      exact hmore h hmem (List.mem_cons_of_mem _ hin)
    -- None of the runs dealt with so far is of this shard.
    have hsame (q : Nat) : (p.state.db.buffer pool).get? (shard, q)
        = (start.state.db.buffer pool).get? (shard, q) := by
      apply h.untouched
      intro handled hmem hcovers
      apply hmore handled hmem
      rw [← hcovers.1]
      exact List.mem_cons_self
    have hskip := h.skip (jobsLeft_cons_sublist _ held shard rest)
    rw [readShards]
    cases faults.positions shard with
    | some _ => exact ih hrest hmoreRest hskip
    | none =>
      dsimp only
      rw [PoolBuffer.bufferedPositions_congr hsame, PoolBuffer.loadShard_congr hsame]
      cases hread : reads.readError shard with
      | some _ => exact ih hrest hmoreRest hskip
      | none =>
        cases hload : (start.state.db.buffer pool).loadShard up.ser shard with
        | error e =>
          have hjobs : reads.shardJobs up.ser (start.state.db.buffer pool) seeders shard
              = (contiguousRuns ((start.state.db.buffer pool).bufferedPositions shard)).map
                  (.undecodable shard) := by
            simp only [SweepReads.shardJobs, hread, hload]
          rw [jobsLeft_cons_undecodable held rest (by simp [hjobs, SweepJob.isUndecodable]), hjobs] at h
          obtain ⟨new, hnew, hnewShard⟩ := rescanRuns_sweeping h
          apply ih hrest _ hnew
          intro handled hmem
          rcases List.mem_append.mp hmem with hmem | hmem
          . exact hmoreRest handled hmem
          . rw [hnewShard handled hmem]
            exact hshard
        | ok rows =>
          let runs := strandedRuns ((start.state.db.buffer pool).bufferedPositions shard) (seeders shard)
          have hjobs : reads.shardJobs up.ser (start.state.db.buffer pool) seeders shard
              = StrandedShard.jobs { shard, runs, rows } := by
            simp only [SweepReads.shardJobs, hread, hload, StrandedShard.jobs, runs]
          rw [jobsLeft_cons_stranded held rest (by simp [hjobs, StrandedShard.jobs, SweepJob.isUndecodable]),
            hjobs] at h
          obtain ⟨more', hmore'⟩ := ih hrest hmoreRest h
          refine ⟨more', ?_⟩
          dsimp only
          split
          . next hempty =>
            rw [List.isEmpty_iff] at hempty
            have hnone : StrandedShard.jobs { shard, runs, rows } = [] := by
              simp [StrandedShard.jobs, runs, hempty]
            simpa [hnone] using hmore'
          . simpa [runs] using hmore'

end PoolSweep

theorem sweepPool_contract (up : Upstream H B Shard) (policy : Option AnchorRetention)
    (faults : SweepFaults) (reads : SweepReads H) (pool : ShieldedPool) (p : PoolSweep H B Shard)
    : ∃ more, (sweepPool up policy faults reads pool p).1.handled = p.handled ++ more
        ∧ ∀ h ∈ more, h.Contract up policy := by
  rw [sweepPool]
  split
  . exact ⟨[], (List.append_nil _).symm, by simp⟩
  . split
    . exact ⟨[], (List.append_nil _).symm, by simp⟩
    . next seeders _ =>
      have hnodup : ((p.state.db.buffer pool).bufferedShards).Nodup := Finset.sort_nodup _ _
      have hstart : PoolSweep.Sweeping up policy pool p p []
          (jobsLeft (reads.shardJobs up.ser (p.state.db.buffer pool) seeders) []
            (p.state.db.buffer pool).bufferedShards) := by
        constructor
        . exact (List.append_nil _).symm
        . simp
        . exact SweepReads.jobsLeft_apart reads up.ser _ seeders hnodup
        . intro job hjob
          have hmem : job ∈ (p.state.db.buffer pool).bufferedShards.flatMap
              (reads.shardJobs up.ser (p.state.db.buffer pool) seeders) :=
            (List.filter_append_perm _ _).subset hjob
          obtain ⟨shard, -, hshard⟩ := List.mem_flatMap.mp hmem
          exact SweepReads.shardJobs_stored hshard
        . intro _ _
          rfl
      obtain ⟨more, hread⟩ := PoolSweep.readShards_sweeping faults hnodup (by simp) hstart
      rw [List.nil_append] at hread
      generalize p.readShards up faults reads pool seeders _ = read at hread ⊢
      obtain ⟨q, stranded⟩ := read
      dsimp only at hread ⊢
      split
      . exact ⟨more, hread.handled, hread.contract⟩
      . exact ⟨more, hread.handled, hread.contract⟩
      . obtain ⟨more', hswept⟩ := PoolSweep.sweepShards_sweeping hread
          (SparseShardStore.seed_matches (q.state.db.trees pool) policy)
        exact ⟨more', hswept.handled, hswept.contract⟩

end

/-- Whatever the wallet holds and whichever accesses fail, after each run the sweep deals with. -/
theorem swept_runs_keep_contract [DecidableEq H] (up : Upstream H B Shard)
    (policy : Option AnchorRetention) (faults : ShieldedPool → SweepFaults) (reads : PassReads H)
    (db : WalletDb B Shard)
    : ∀ h ∈ (sweepStrandedGraftRows up policy faults reads db).handled, h.Contract up policy := by
  rw [sweepStrandedGraftRows]
  dsimp only
  generalize hstart : ({ state := { db, done := _, log := [] }, handled := [] } : PoolSweep H B Shard)
    = start
  obtain ⟨sapling, hsapling, hcontract⟩ :=
    sweepPool_contract up policy (faults .sapling) (reads.pool .sapling) .sapling start
  have hnone : start.handled = [] := by rw [← hstart]
  rw [hnone, List.nil_append] at hsapling
  split
  . rw [hsapling]
    exact hcontract
  . next pending _ =>
    obtain ⟨orchard, horchard, hcontract'⟩ :=
      sweepPool_contract up policy (faults .orchard) { reads.pool .orchard with pending } .orchard
        (sweepPool up policy (faults .sapling) (reads.pool .sapling) .sapling start).1
    rw [horchard, hsapling]
    intro h hmem
    rcases List.mem_append.mp hmem with hmem | hmem
    . exact hcontract h hmem
    . exact hcontract' h hmem

def WalletDb.stranded : WalletDb Nat Unit :=
  { WalletDb.fresh Nat with
    buffer := perPool (OrdMap.empty.insert (0, 5)
      { commitment := 7, retentionKind := 0, checkpointHeight := none, marking := none }) .empty .empty
    scanned := {101} }

def PassReads.placed : PassReads Nat where
  pool _ := {
    pending := []
    chainTip := 101
    birthday := 101
    graftResumes := true
    treeSizeAt := fun h => .ok (if h = 101 then some 6 else none)
    storedRoot := fun _ => .ok none
    readError := fun _ => none }
  requeued := .ok []

def SweepFaults.none : SweepFaults where
  positions _ := .none
  seed := .none
  run _ _ := { treeSize := fun _ => .none, flush := .none, queue := fun _ => .none, delete := .none }

theorem swept_runs_keep_contract_rescanned
    : ∃ h ∈ (sweepStrandedGraftRows (.bare Nat) none (fun _ => .none) .placed
          .stranded).handled,
        h.after.db.scanned = ∅ ∧ (h.after.db.buffer .sapling).keys = ∅
          ∧ h.Contract (.bare Nat) none := by
  have hswept : (sweepStrandedGraftRows (.bare Nat) none (fun _ => .none) .placed
      .stranded).handled.any (fun h =>
        decide (h.after.db.scanned = ∅ ∧ (h.after.db.buffer .sapling).keys = ∅)) = true := by
    decide +kernel
  obtain ⟨h, hmem, hafter⟩ := List.any_eq_true.mp hswept
  obtain ⟨hscanned, hkeys⟩ := of_decide_eq_true hafter
  exact ⟨h, hmem, hscanned, hkeys, swept_runs_keep_contract _ _ _ _ _ h hmem⟩

end Slipstream
