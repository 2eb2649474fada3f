import Slipstream.Graft.Contract
import Slipstream.Persist.Lemmas.Call
import Slipstream.Persist.Lemmas.Plan
import Slipstream.Persist.Lemmas.Valid

/-!
This module contains a grafted range as a whole: however it is cut into calls, each pool's accumulator
takes one stream, and the grafts of the range are verdicts on the shards that stream closed.
-/

namespace Slipstream

variable {H B Shard : Type}

namespace PutBlocks

def grafts [DecidableEq H] (call : PutBlocks H) (up : Upstream H B Shard) (reads : CallReads H)
    (db : WalletDb B Shard) (sparse : SparseTreeState H Shard) (pool : ShieldedPool)
    : List (Nat × H) :=
  match sparse.graft, pool with
  | none, _ | _, .ironwood => []
  | some ctx, _ =>
    match (call.plan up reads sparse.anchorRetention ctx (sparse.seeded db pool) (db.buffer pool)
      pool).plan with
    | .ok plan => plan.grafts
    | .error _ => []

def feed (call : PutBlocks H) (policy : Option AnchorRetention) (pool : ShieldedPool) : Feed H where
  items := call.doomedStream policy pool
  notes := call.notePositions pool

end PutBlocks

structure PutBlocks.Follows (call next : PutBlocks H) : Prop where
  height : next.fromState.blockHeight = call.lastHeight
  size : ∀ pool, (next.frontier pool).treeSize
    = (call.frontier pool).treeSize + (call.stream pool).length

structure RangeCalls (calls : List (PutBlocks H)) : Prop where
  valid : ∀ c ∈ calls, c.Valid
  follows : calls.IsChain PutBlocks.Follows
  notes : ∀ c ∈ calls, ∀ pool, ∀ n ∈ c.notePositions pool, (c.frontier pool).treeSize ≤ n
    ∧ n < (c.frontier pool).treeSize + (c.stream pool).length

section Calls

variable {policy : Option AnchorRetention} {pool : ShieldedPool} {call : PutBlocks H}
  {calls : List (PutBlocks H)}

theorem RangeCalls.tail (h : RangeCalls (call :: calls)) : RangeCalls calls where
  valid c hc := h.valid c (List.mem_cons_of_mem _ hc)
  follows := h.follows.tail
  notes c hc := h.notes c (List.mem_cons_of_mem _ hc)

theorem RangeCalls.next (h : RangeCalls (call :: calls)) (policy : Option AnchorRetention)
    (pool : ShieldedPool) : ∀ c, calls.head? = some c → (c.frontier pool).treeSize
      = (call.frontier pool).treeSize + (call.feed policy pool).items.length := by
  intro c hc
  rw [(h.follows.rel_head? hc).size pool, PutBlocks.feed, PutBlocks.doomedStream_length]

theorem RangeCalls.notesInSpan (h : RangeCalls calls)
    (hstart : ∀ c, calls.head? = some c → (c.frontier pool).treeSize = pos)
    : NotesInSpan pos (calls.map (·.feed policy pool)) := by
  induction calls generalizing pos with
  | nil => trivial
  | cons call calls ih =>
    obtain rfl := hstart call rfl
    refine ⟨?_, ih h.tail (h.next policy pool)⟩
    intro n hn
    dsimp only [PutBlocks.feed]
    rw [PutBlocks.doomedStream_length]
    exact h.notes call List.mem_cons_self pool n hn

theorem RangeCalls.mem_fedRows (h : RangeCalls calls)
    (hstart : ∀ c, calls.head? = some c → (c.frontier pool).treeSize = pos)
    : r ∈ fedRows pos (calls.map (·.feed policy pool))
        ↔
      ∃ c ∈ calls, r ∈ rowsFrom (c.frontier pool).treeSize (c.doomedStream policy pool) := by
  induction calls generalizing pos with
  | nil => simp [fedRows, rowsFrom]
  | cons call calls ih =>
    obtain rfl := hstart call rfl
    have := ih h.tail (h.next policy pool)
    unfold fedRows at this ⊢
    rw [List.map_cons, List.flatMap_cons, rowsFrom_append, List.mem_append, this,
      List.exists_mem_cons_iff]
    rfl

end Calls

inductive PutRange [DecidableEq H] (up : Upstream H B Shard)
    : WalletDb B Shard → SparseTreeState H Shard → List (CallReads H × PutBlocks H) →
      WalletDb B Shard → SparseTreeState H Shard → (ShieldedPool → List (Nat × H)) → Prop where
  | nil : PutRange up db sparse [] db sparse fun _ => []
  | cons {sparse₁ : SparseTreeState H Shard} {steps : List (CallReads H × PutBlocks H)}
      (hcall : sparsePutBlocks up reads db sparse call = ((db₁, sparse₁), .ok ()))
      (hrest : PutRange up db₁ sparse₁ steps db' sparse' grafts)
      : PutRange up db sparse ((reads, call) :: steps) db' sparse' fun pool =>
          call.grafts up reads db sparse pool ++ grafts pool

theorem ShardAccumulator.feedAll_nextPosition (acc : ShardAccumulator H) (feeds : List (Feed H))
    : (acc.feedAll feeds).1.nextPosition
        =
      acc.nextPosition + (feeds.flatMap Feed.items).length := by
  induction feeds generalizing acc with
  | nil => rfl
  | cons f feeds ih =>
    rw [feedAll, List.flatMap_cons, List.length_append]
    dsimp only
    rw [ih]
    simp only [feed, Nat.add_assoc]

theorem ShardAccumulator.mem_feedAll_iff {acc : ShardAccumulator H} {feeds : List (Feed H)}
    {a : FeedAction H}
    : a ∈ (acc.feedAll feeds).2
        ↔
      ∃ before f after, feeds = before ++ f :: after
        ∧ a ∈ ((acc.feedAll before).1.feedAll [f]).2 := by
  induction feeds generalizing acc with
  | nil => simp [feedAll]
  | cons f feeds ih =>
    rw [feedAll, List.mem_append, ih]
    constructor
    . rintro (ha | ⟨before, f', after, rfl, ha⟩)
      . exact ⟨[], f, feeds, rfl, by simpa [feedAll] using ha⟩
      . exact ⟨f :: before, f', after, rfl, ha⟩
    . rintro ⟨before, f', after, heq, ha⟩
      cases before with
      | nil =>
        cases heq
        exact Or.inl (by simpa [feedAll] using ha)
      | cons _ before =>
        cases heq
        exact Or.inr ⟨before, f', after, rfl, ha⟩

section Feed

variable {policy : Option AnchorRetention} {pool : ShieldedPool} {call : PutBlocks H}
  {hasShard : Nat → Bool} {refuses : List (AccRow H) → Option String} {reads : CallReads H}

def Verdict (policy : Option AnchorRetention) (verifySample : Nat) (reads : CallReads H)
    (pool : ShieldedPool) (shard : Nat) (rows : List (AccRow H)) (root : H) : Prop :=
  (∀ r ∈ rows, ∀ id, r.retention.checkpointId = some id → shouldRetainAnchor policy id = false)
    ∧ reads.serverRoot pool shard = .ok (some root)
    ∧ ¬(0 < verifySample ∧ shard % verifySample = 0)

theorem grafts_iff_verdict
    : (call.planInputs policy verifySample pool hasShard refuses (reads.serverRoot pool)
          (reads.readError pool)).Grafts shard rows root
        ↔
      Verdict policy verifySample reads pool shard rows root := by
  unfold PlanInputs.Grafts Verdict PlanInputs.containsAnchor PlanInputs.audits PutBlocks.planInputs
  simp [Option.any_eq_false]

variable [DecidableEq H] {ser : HashSer H B} {buffer : PoolBuffer B} {acc : ShardAccumulator H}

theorem planPool_feed (hnext : acc.nextPosition = (call.frontier pool).treeSize)
    (h : (planPool ser buffer (some acc) (call.planInputs policy verifySample pool hasShard refuses
      (reads.serverRoot pool) (reads.readError pool))).plan = .ok plan)
    : (planPool ser buffer (some acc) (call.planInputs policy verifySample pool hasShard refuses
        (reads.serverRoot pool) (reads.readError pool))).acc
          = some (acc.feedAll [call.feed policy pool]).1
      ∧ ∀ g, g ∈ plan.grafts ↔ ∃ rows,
          .closeCleanShard g.1 rows ∈ (acc.feedAll [call.feed policy pool]).2
          ∧ Verdict policy verifySample reads pool g.1 rows g.2 := by
  obtain ⟨hacc, hplanned⟩ := planPool_next h
  have hfeed : acc.feedAll [call.feed policy pool]
      = acc.feed (call.frontier pool).treeSize (call.doomedStream policy pool)
          (call.notePositions pool) := by
    rw [← hnext]
    simp [ShardAccumulator.feedAll, PutBlocks.feed]
  rw [hfeed]
  refine ⟨hacc, fun g => ?_⟩
  rw [hplanned.grafts]
  simp only [grafts_iff_verdict]
  simp only [PoolPlan.empty, List.not_mem_nil, false_or]
  rfl

structure AccSeed.Blank (seed : AccSeed H) : Prop where
  resume : seed.resume = []
  passthrough : seed.passthrough = false

omit [DecidableEq H] in
theorem PoolBuffer.loadShard_empty (ser : HashSer H B) (shard : Nat)
    : PoolBuffer.loadShard ser (.empty : PoolBuffer B) shard = .ok [] := by
  unfold PoolBuffer.loadShard PoolBuffer.bufferedPositions
  simp [OrdMap.empty]
  rfl

theorem seed_blank {inp : PlanInputs H} {seed : AccSeed H}
    (hnone : ∀ k, inp.storeHasShard k = false)
    (h : inp.seed ser (.empty : PoolBuffer B) = .ok (ops, seed.acc)) : seed.Blank := by
  have hblank : inp.seedAcc [] false = ShardAccumulator.seed inp.startPosition [] false := by
    simp [PlanInputs.seedAcc, resumableRun, hnone]
  unfold PlanInputs.seed at h
  dsimp only at h
  rw [PoolBuffer.loadShard_empty] at h
  cases hread : inp.readError with
  | some e =>
    rw [hread] at h
    cases h
  | none =>
    rw [hread] at h
    simp only [List.any_nil, Bool.false_eq_true, if_false, Except.ok.injEq, Prod.mk.injEq] at h
    have hacc := h.2.symm.trans hblank
    unfold AccSeed.acc ShardAccumulator.seed at hacc
    simp only [ShardAccumulator.mk.injEq, Option.some.injEq, OpenShard.mk.injEq] at hacc
    exact ⟨hacc.2.2.1, hacc.2.2.2⟩

theorem planPool_seed_feed (hfiled : buffer.Filed)
    (h : (planPool ser buffer none (call.planInputs policy verifySample pool hasShard refuses
      (reads.serverRoot pool) (reads.readError pool))).plan = .ok plan)
    : ∃ seed : AccSeed H, seed.start = (call.frontier pool).treeSize
      ∧ (buffer = .empty → (∀ k, hasShard k = false) → seed.Blank)
      ∧ (planPool ser buffer none (call.planInputs policy verifySample pool hasShard refuses
        (reads.serverRoot pool) (reads.readError pool))).acc
          = some (seed.acc.feedAll [call.feed policy pool]).1
      ∧ ∀ g, g ∈ plan.grafts ↔ ∃ rows,
          .closeCleanShard g.1 rows ∈ (seed.acc.feedAll [call.feed policy pool]).2
          ∧ Verdict policy verifySample reads pool g.1 rows g.2 := by
  obtain ⟨ops, acc, hseed, hacc, hplan⟩ := planPool_first h
  obtain ⟨seed, hstart, rfl⟩ := PlanInputs.seed_accSeed hfiled hseed
  refine ⟨seed, hstart, ?_, ?_⟩
  . rintro rfl hnone
    exact seed_blank hnone hseed
  . rw [hacc]
    exact planPool_feed hstart hplan

end Feed

section Range

variable [DecidableEq H] {up : Upstream H B Shard} {db db' : WalletDb B Shard}
  {sparse sparse' : SparseTreeState H Shard} {policy : Option AnchorRetention}
  {verifySample : Nat} {pool : ShieldedPool} {seed : AccSeed H} {call : PutBlocks H}
  {reads : CallReads H}

structure Accumulated (policy : Option AnchorRetention) (verifySample : Nat) (pool : ShieldedPool)
    (seed : AccSeed H) (feeds : List (Feed H)) (sparse : SparseTreeState H Shard) : Prop where
  fixed : sparse.anchorRetention = policy
  fed : ∃ ctx, sparse.graft = some ctx ∧ ctx.verifySample = verifySample
    ∧ ctx.acc pool = some (seed.acc.feedAll feeds).1

def GraftsOf (policy : Option AnchorRetention) (verifySample : Nat) (reads : CallReads H)
    (pool : ShieldedPool) (acts : List (FeedAction H)) (g : Nat × H) : Prop :=
  ∃ rows, .closeCleanShard g.1 rows ∈ acts ∧ Verdict policy verifySample reads pool g.1 rows g.2

theorem plan_of_succeeded {ctx : GraftCtx H} (hgraft : sparse.graft = some ctx)
    (hpool : pool ≠ .ironwood) (hne : call.blocks ≠ [])
    (hrun : sparsePutBlocks up reads db sparse call = ((db', sparse'), .ok ()))
    : ∃ plan ctx', (call.plan up reads sparse.anchorRetention ctx (sparse.seeded db pool)
          (db.buffer pool) pool).plan = .ok plan
      ∧ call.grafts up reads db sparse pool = plan.grafts
      ∧ sparse'.anchorRetention = sparse.anchorRetention
      ∧ sparse'.graft = some ctx' ∧ ctx'.verifySample = ctx.verifySample
      ∧ ctx'.acc pool = (call.plan up reads sparse.anchorRetention ctx (sparse.seeded db pool)
          (db.buffer pool) pool).acc := by
  obtain ⟨plans, hs⟩ := sparsePutBlocks_succeeded hne hrun
  have hplanned := hs.planned
  have hgraft' := hs.graft
  rw [hgraft] at hplanned hgraft'
  obtain ⟨plan, -, hplan⟩ := hplanned pool hpool
  refine ⟨plan, _, hplan, ?_, hs.anchorRetention, hgraft', rfl, ?_⟩
  . unfold PutBlocks.grafts
    rw [hgraft]
    cases pool with
    | sapling => simp [hplan]
    | orchard => simp [hplan]
    | ironwood => exact absurd rfl hpool
  . cases pool with
    | sapling => rfl
    | orchard => rfl
    | ironwood => exact absurd rfl hpool

theorem Accumulated.putBlocks {feeds : List (Feed H)}
    (h : Accumulated policy verifySample pool seed feeds sparse) (hpool : pool ≠ .ironwood)
    (hnext : (seed.acc.feedAll feeds).1.nextPosition = (call.frontier pool).treeSize)
    (hne : call.blocks ≠ [])
    (hrun : sparsePutBlocks up reads db sparse call = ((db', sparse'), .ok ()))
    : Accumulated policy verifySample pool seed (feeds ++ [call.feed policy pool]) sparse'
      ∧ ∀ g, g ∈ call.grafts up reads db sparse pool
        ↔ GraftsOf policy verifySample reads pool
            ((seed.acc.feedAll feeds).1.feedAll [call.feed policy pool]).2 g := by
  obtain ⟨ctx, hgraft, rfl, hacc⟩ := h.fed
  obtain ⟨plan, ctx', hplan, hgrafts, hfixed, hgraft', hsample, hacc'⟩ :=
    plan_of_succeeded hgraft hpool hne hrun
  rw [h.fixed] at hplan hacc' hfixed
  unfold PutBlocks.plan at hplan hacc'
  rw [hacc] at hplan hacc'
  obtain ⟨hfed, hverdicts⟩ := planPool_feed hnext hplan
  rw [hgrafts]
  refine ⟨⟨hfixed, ctx', hgraft', hsample, ?_⟩, fun g => ?_⟩
  . rw [hacc', hfed, ShardAccumulator.feedAll_append]
  . exact hverdicts g

theorem accumulated_first (hfiled : (db.buffer pool).Filed) (hpool : pool ≠ .ironwood)
    (hne : call.blocks ≠ [])
    (hrun : sparsePutBlocks up reads db (.opened policy (some verifySample)) call
      = ((db', sparse'), .ok ()))
    : ∃ seed : AccSeed H, seed.start = (call.frontier pool).treeSize
      ∧ (db.buffer pool = .empty → (∀ k, (SparseShardStore.seed (db.trees pool) policy).shardHasInterior
        up.toShardTreeApi k = false) → seed.Blank)
      ∧ Accumulated policy verifySample pool seed [call.feed policy pool] sparse'
      ∧ ∀ g, g ∈ call.grafts up reads db (.opened policy (some verifySample)) pool
        ↔ GraftsOf policy verifySample reads pool
            (seed.acc.feedAll [call.feed policy pool]).2 g := by
  obtain ⟨plan, ctx', hplan, hgrafts, hfixed, hgraft', hsample, hacc'⟩ :=
    plan_of_succeeded rfl hpool hne hrun
  unfold PutBlocks.plan at hplan hacc'
  obtain ⟨seed, hstart, hblank, hfed, hverdicts⟩ := planPool_seed_feed hfiled hplan
  refine ⟨seed, hstart, hblank, ⟨hfixed, ctx', hgraft', hsample, hacc'.trans hfed⟩, fun g => ?_⟩
  rw [hgrafts]
  exact hverdicts g

end Range

section Steps

variable {policy : Option AnchorRetention} {verifySample : Nat} {pool : ShieldedPool}

def feedsOf (policy : Option AnchorRetention) (pool : ShieldedPool)
    (steps : List (CallReads H × PutBlocks H)) : List (Feed H) :=
  steps.map fun step => step.2.feed policy pool

def GraftsIn (policy : Option AnchorRetention) (verifySample : Nat) (pool : ShieldedPool)
    (acc : ShardAccumulator H) (steps : List (CallReads H × PutBlocks H)) (g : Nat × H) : Prop :=
  ∃ before step after, steps = before ++ step :: after
    ∧ GraftsOf policy verifySample step.1 pool
        ((acc.feedAll (feedsOf policy pool before)).1.feedAll [step.2.feed policy pool]).2 g

theorem graftsIn_cons {acc : ShardAccumulator H} {step : CallReads H × PutBlocks H}
    {steps : List (CallReads H × PutBlocks H)} {g : Nat × H}
    : GraftsIn policy verifySample pool acc (step :: steps) g
        ↔
      GraftsOf policy verifySample step.1 pool (acc.feedAll [step.2.feed policy pool]).2 g
        ∨ GraftsIn policy verifySample pool (acc.feedAll [step.2.feed policy pool]).1 steps g := by
  constructor
  . rintro ⟨before, st, after, heq, hg⟩
    cases before with
    | nil =>
      cases heq
      exact Or.inl hg
    | cons _ before =>
      cases heq
      exact Or.inr ⟨before, st, after, rfl, hg⟩
  . rintro (hg | ⟨before, st, after, rfl, hg⟩)
    . exact ⟨[], step, steps, rfl, hg⟩
    . exact ⟨step :: before, st, after, rfl, hg⟩

end Steps

section Range

variable [DecidableEq H] {up : Upstream H B Shard} {db db' : WalletDb B Shard}
  {sparse sparse' : SparseTreeState H Shard} {policy : Option AnchorRetention}
  {verifySample : Nat} {pool : ShieldedPool} {seed : AccSeed H}
  {steps : List (CallReads H × PutBlocks H)} {grafts : ShieldedPool → List (Nat × H)}

theorem PutRange.mem_grafts {feeds : List (Feed H)}
    (h : PutRange up db sparse steps db' sparse' grafts) (hpool : pool ≠ .ironwood)
    (hne : ∀ step ∈ steps, step.2.blocks ≠ []) (hfollows : (steps.map Prod.snd).IsChain PutBlocks.Follows)
    (hacc : Accumulated policy verifySample pool seed feeds sparse)
    (hnext : ∀ c, (steps.map Prod.snd).head? = some c →
      (seed.acc.feedAll feeds).1.nextPosition = (c.frontier pool).treeSize)
    : ∀ g, g ∈ grafts pool
        ↔ GraftsIn policy verifySample pool (seed.acc.feedAll feeds).1 steps g := by
  induction h generalizing feeds with
  | nil =>
    intro g
    simp [GraftsIn]
  | @cons reads db sparse call db₁ db' sparse' grafts sparse₁ steps hcall hrest ih =>
    intro g
    have hstart := hnext call rfl
    obtain ⟨hacc', hgrafts⟩ := hacc.putBlocks hpool hstart (hne _ List.mem_cons_self) hcall
    rw [List.mem_append, hgrafts, graftsIn_cons]
    apply or_congr_right
    have hlast : (seed.acc.feedAll (feeds ++ [call.feed policy pool])).1
        = ((seed.acc.feedAll feeds).1.feedAll [call.feed policy pool]).1 := by
      rw [ShardAccumulator.feedAll_append]
    rw [← hlast]
    apply ih (fun st hst => hne st (List.mem_cons_of_mem _ hst)) hfollows.tail hacc'
    intro next hnext'
    have hsize : (next.frontier pool).treeSize
        = (call.frontier pool).treeSize + (call.stream pool).length :=
      (hfollows.rel_head? hnext').size pool
    rw [hlast, ShardAccumulator.feedAll_nextPosition, hstart, hsize]
    simp [PutBlocks.feed, PutBlocks.doomedStream_length]

theorem PutRange.seeded (h : PutRange up db (.opened policy (some verifySample)) steps db' sparse' grafts)
    (hcalls : RangeCalls (steps.map Prod.snd)) (hfiled : (db.buffer pool).Filed)
    (hpool : pool ≠ .ironwood) (hfirst : (steps.map Prod.snd).head? = some call)
    : ∃ seed : AccSeed H, seed.start = (call.frontier pool).treeSize
      ∧ (db.buffer pool = .empty → (∀ k, (SparseShardStore.seed (db.trees pool) policy).shardHasInterior
        up.toShardTreeApi k = false) → seed.Blank)
      ∧ ∀ g, g ∈ grafts pool ↔ GraftsIn policy verifySample pool seed.acc steps g := by
  have hne : ∀ step ∈ steps, step.2.blocks ≠ [] :=
    fun step hstep => (hcalls.valid _ (List.mem_map_of_mem hstep)).nonempty
  cases h with
  | nil => cases hfirst
  | cons hcall hrest =>
    cases hfirst
    obtain ⟨seed, hstart, hblank, hacc, hgrafts⟩ :=
      accumulated_first hfiled hpool (hne _ List.mem_cons_self) hcall
    refine ⟨seed, hstart, hblank, fun g => ?_⟩
    rw [List.mem_append, hgrafts, graftsIn_cons]
    apply or_congr_right
    apply hrest.mem_grafts hpool (fun st hst => hne st (List.mem_cons_of_mem _ hst))
      hcalls.follows.tail hacc
    intro next hnext
    rw [ShardAccumulator.feedAll_nextPosition, (hcalls.follows.rel_head? hnext).size pool, ← hstart]
    simp [PutBlocks.feed, PutBlocks.doomedStream_length, AccSeed.acc, ShardAccumulator.seed]

end Range
end Slipstream
