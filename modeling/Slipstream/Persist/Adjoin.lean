import Slipstream.Persist.Lemmas.Accepts
import Slipstream.Persist.Lemmas.Trace

/-!
This module contains which rows a range buffers next to which: a row goes right after a row of the
same range, or after the run that the range's seed resumed, and after no other.
-/

namespace Slipstream

variable {H B Shard : Type}

section Range

variable [DecidableEq H] {up : Upstream H B Shard} {db db' found : WalletDb B Shard}
  {sparse sparse' : SparseTreeState H Shard} {reads : CallReads H} {call : PutBlocks H}
  {ctx : GraftCtx H} {pool : ShieldedPool} {own : Nat × Nat → Prop}

def PutBlocks.trace (call : PutBlocks H) (up : Upstream H B Shard) (reads : CallReads H)
    (db : WalletDb B Shard) (sparse : SparseTreeState H Shard)
    : List (WalletDb B Shard × DurableOp H Shard) :=
  match call.begin up reads db sparse with
  | .ok (sparse, ops) => DurableOp.trace up db sparse ops
  | .error _ => []

def rangeTrace (up : Upstream H B Shard) (db : WalletDb B Shard) (sparse : SparseTreeState H Shard)
    : List (CallReads H × PutBlocks H) → List (WalletDb B Shard × DurableOp H Shard)
  | [] => []
  | (reads, call) :: steps =>
    call.trace up reads db sparse ++
      match sparsePutBlocks up reads db sparse call with
      | ((db, sparse), .ok ()) => rangeTrace up db sparse steps
      | (_, .error _) => []

theorem PutBlocks.append_planned (hgraft : sparse.graft = some ctx)
    (h : call.begin up reads db sparse = .ok (sparse', ops))
    (hop : .buffer pool (.appendRows shard rows) ∈ ops)
    : pool ≠ .ironwood
      ∧ .appendRows shard rows ∈ (call.planned up reads db sparse ctx pool).ops := by
  cases PutBlocks.begin_begins h with
  | empty hblocks => cases hop
  | plain hnone => cases hnone.symm.trans hgraft
  | grafting hgraft' =>
    cases hgraft'.symm.trans hgraft
    rcases mem_planOps.mp hop with ⟨b, hb, heq⟩ | ⟨sp, -, hop⟩ | ⟨e, -, heq⟩
    . cases heq
      exact ⟨by simp, hb⟩
    . rcases mem_planOps.mp hop with ⟨b, hb, heq⟩ | ⟨op, -, hop⟩ | ⟨e, -, heq⟩
      . cases heq
        exact ⟨by simp, hb⟩
      . -- After the commit there are only deletes.
        simp [PoolPlan.cleanup] at hop
      . cases heq
    . cases heq

theorem PutBlocks.planned_traced (hgraft : sparse.graft = some ctx) (hpool : pool ≠ .ironwood)
    (hne : call.blocks ≠ []) (h : sparsePutBlocks up reads db sparse call = ((db', sparse'), .ok ()))
    : (∀ op ∈ (call.planned up reads db sparse ctx pool).ops,
        ∃ found, (found, .buffer pool op) ∈ call.trace up reads db sparse)
      ∧ ∀ k, k ∈ (db'.buffer pool).keys →
        k ∈ (db.buffer pool).keys ∨ AppendedIn (call.trace up reads db sparse) pool k := by
  obtain ⟨sp, -, hsp, -⟩ := plan_of_succeeded hgraft (show ShieldedPool.sapling ≠ .ironwood by simp) hne h
  unfold sparsePutBlocks at h
  split at h
  . next sparse₁ ops hbegin =>
    rw [show call.trace up reads db sparse = DurableOp.trace up db sparse₁ ops by
      rw [PutBlocks.trace, hbegin]]
    obtain ⟨hall, hkeys⟩ := DurableOp.trace_all h
    refine ⟨fun op hop => hall _ ?_, hkeys pool⟩
    cases PutBlocks.begin_begins hbegin with
    | empty hblocks => exact absurd hblocks hne
    | plain hnone => cases hnone.symm.trans hgraft
    | grafting hgraft' =>
      cases hgraft'.symm.trans hgraft
      apply mem_planOps.mpr
      cases pool with
      | sapling => exact Or.inl ⟨op, hop, rfl⟩
      | orchard => exact Or.inr (Or.inl ⟨sp, hsp, mem_planOps.mpr (Or.inl ⟨op, hop, rfl⟩)⟩)
      | ironwood => exact absurd rfl hpool
  . cases h

theorem PutBlocks.trace_adjoins (hgraft : sparse.graft = some ctx)
    (hadjoins : pool ≠ .ironwood →
      (call.planned up reads db sparse ctx pool).Adjoins (db.buffer pool) own)
    (h : call.trace up reads db sparse
      = before ++ (found, .buffer pool (.appendRows shard rows)) :: after)
    (hr : r ∈ rows) (hp : p + 1 = r.position) (hshard : shardOf p = shard)
    (hkey : (shard, p) ∈ (found.buffer pool).keys)
    : (∃ r' ∈ rows, r'.position = p) ∨ AppendedIn before pool (shard, p) ∨ own (shard, p) := by
  unfold PutBlocks.trace at h
  split at h
  . next sparse₁ ops hbegin =>
    obtain ⟨hop, hkeys⟩ := DurableOp.trace_split h
    obtain ⟨hpool, hop⟩ := PutBlocks.append_planned hgraft hbegin hop
    rcases (hadjoins hpool).appends shard rows hop r hr p hp hshard with hsame | hown
    . exact Or.inl hsame
    . rcases hkeys pool _ hkey with hkey | hkey
      . exact Or.inr (Or.inr (hown hkey))
      . exact Or.inr (Or.inl hkey)
  . cases before <;> cases h

theorem planPool_nextPosition {ser : HashSer H B} {t : PoolBuffer B}
    {acc : Option (ShardAccumulator H)} {inp : PlanInputs H} (h : (planPool ser t acc inp).acc = some a)
    : a.nextPosition = inp.startPosition + inp.stream.length := by
  unfold planPool at h
  dsimp only at h
  split at h
  . cases h
  . cases h
    rfl

theorem PutBlocks.next_adjoins {next : PutBlocks H} {reads' : CallReads H}
    (hgraft : sparse.graft = some ctx) (hpool : pool ≠ .ironwood) (hne : call.blocks ≠ [])
    (hfollows : call.Follows next)
    (hadjoins : (call.planned up reads db sparse ctx pool).Adjoins (db.buffer pool) own)
    (h : sparsePutBlocks up reads db sparse call = ((db', sparse'), .ok ()))
    (hgraft' : sparse'.graft = some ctx')
    : (next.planned up reads' db' sparse' ctx' pool).Adjoins (db'.buffer pool)
        fun k => AppendedIn (call.trace up reads db sparse) pool k ∨ own k := by
  obtain ⟨plan, ctx₁, hplan, -, -, hctx, -, hacc⟩ := plan_of_succeeded hgraft hpool hne h
  cases hgraft'.symm.trans hctx
  obtain ⟨a, o, ha, ho, hreaches, hclean⟩ := hadjoins.next plan hplan
  obtain ⟨htraced, hkeys⟩ := PutBlocks.planned_traced hgraft hpool hne h
  have hstart : a.nextPosition = (next.frontier pool).treeSize := by
    rw [planPool_nextPosition ha, hfollows.size pool, ← call.doomedStream_length]
    rfl
  apply planPool_adjoins
  . intro a' ha'
    cases (ha'.symm.trans hacc).trans ha
    rw [hstart] at hreaches
    refine ⟨o, ho, hreaches, fun hpass p hp hshard hkey => ?_⟩
    have hp : p + 1 = a.nextPosition := hp.trans hstart.symm
    rcases hclean hpass p hp hshard with ⟨rows, hrows, hr⟩ | hown
    . obtain ⟨found, hfound⟩ := htraced _ hrows
      exact Or.inl ⟨_, hfound, rows, rfl, hr⟩
    . rcases hkeys _ hkey with hkey | hkey
      . exact Or.inr (hown hkey)
      . exact Or.inl hkey
  . intro hnone
    cases (hnone.symm.trans hacc).trans ha

theorem rangeTrace_adjoins {steps : List (CallReads H × PutBlocks H)}
    (hne : ∀ step ∈ steps, step.2.blocks ≠ [])
    (hfollows : (steps.map Prod.snd).IsChain PutBlocks.Follows) (hgraft : sparse.graft = some ctx)
    (hadjoins : ∀ reads call, steps.head? = some (reads, call) → pool ≠ .ironwood →
      (call.planned up reads db sparse ctx pool).Adjoins (db.buffer pool) own)
    (h : rangeTrace up db sparse steps
      = before ++ (found, .buffer pool (.appendRows shard rows)) :: after)
    (hr : r ∈ rows) (hp : p + 1 = r.position) (hshard : shardOf p = shard)
    (hkey : (shard, p) ∈ (found.buffer pool).keys)
    : (∃ r' ∈ rows, r'.position = p) ∨ AppendedIn before pool (shard, p) ∨ own (shard, p) := by
  induction steps generalizing db sparse ctx own before with
  | nil =>
    rw [rangeTrace] at h
    cases before <;> cases h
  | cons step steps ih =>
    obtain ⟨reads, call⟩ := step
    have hhead := hadjoins reads call rfl
    have hcallne := hne _ List.mem_cons_self
    rw [rangeTrace] at h
    rcases append_eq_append_cons h with ⟨left, hcall⟩ | ⟨done, rfl, hrest⟩
    . exact PutBlocks.trace_adjoins hgraft hhead hcall hr hp hshard hkey
    . -- The append is one of a later call.
      split at hrest
      . next db₁ sparse₁ hrun =>
        obtain ⟨_, ctx₁, -, -, -, hgraft₁, -⟩ :=
          plan_of_succeeded hgraft (show ShieldedPool.sapling ≠ .ironwood by simp) hcallne hrun
        have hnext : ∀ reads' next, steps.head? = some (reads', next) → pool ≠ .ironwood →
            (next.planned up reads' db₁ sparse₁ ctx₁ pool).Adjoins (db₁.buffer pool)
              fun k => AppendedIn (call.trace up reads db sparse) pool k ∨ own k := by
          intro reads' next hnext hpool
          apply PutBlocks.next_adjoins hgraft hpool hcallne _ (hhead hpool) hrun hgraft₁
          apply hfollows.rel_head?
          rw [List.head?_map, hnext]
          rfl
        rcases ih (fun step hstep => hne step (List.mem_cons_of_mem _ hstep)) hfollows.tail hgraft₁
          hnext hrest with hsame | hdone | hdone | hown
        . exact Or.inl hsame
        . exact Or.inr (Or.inl (hdone.mono fun e he => List.mem_append_right _ he))
        . exact Or.inr (Or.inl (hdone.mono fun e he => List.mem_append_left _ he))
        . exact Or.inr (Or.inr hown)
      . cases done <;> cases hrest

end Range

def GraftCtx.unseeded (verifySample : Nat) : GraftCtx H where
  verifySample
  acc _ := none

def PutBlocks.busy (call : PutBlocks H) : Bool := !call.blocks.isEmpty

theorem PutBlocks.Follows.skip {call idle next : PutBlocks H} (h : call.Follows idle)
    (hidle : idle.blocks = []) (hnext : idle.Follows next) : call.Follows next where
  height := by
    rw [hnext.height, lastHeight, hidle, List.length_nil, Nat.add_zero, h.height]
  size pool := by
    rw [hnext.size pool, stream, hidle, List.flatMap_nil, List.length_nil, Nat.add_zero, h.size pool]

theorem isChain_busy {calls : List (PutBlocks H)} (h : (call :: calls).IsChain PutBlocks.Follows)
    : (call :: calls.filter PutBlocks.busy).IsChain PutBlocks.Follows := by
  induction calls generalizing call with
  | nil => exact h
  | cons next calls ih =>
    obtain ⟨hnext, hrest⟩ := List.isChain_cons_cons.mp h
    by_cases hbusy : next.busy = true
    . rw [List.filter_cons_of_pos hbusy]
      exact List.isChain_cons_cons.mpr ⟨hnext, ih hrest⟩
    . rw [List.filter_cons_of_neg hbusy]
      apply ih
      cases calls with
      | nil => exact List.isChain_singleton _
      | cons after calls =>
        obtain ⟨hafter, hrest⟩ := List.isChain_cons_cons.mp hrest
        refine List.isChain_cons_cons.mpr ⟨hnext.skip ?_ hafter, hrest⟩
        simpa [PutBlocks.busy] using hbusy

section Idle

variable [DecidableEq H] {up : Upstream H B Shard} {db : WalletDb B Shard}
  {sparse : SparseTreeState H Shard}

theorem rangeTrace_busy (steps : List (CallReads H × PutBlocks H))
    : rangeTrace up db sparse (steps.filter (·.2.busy)) = rangeTrace up db sparse steps := by
  induction steps generalizing db sparse with
  | nil => rfl
  | cons step steps ih =>
    obtain ⟨reads, call⟩ := step
    by_cases hbusy : call.busy = true
    . have hfilter : ((reads, call) :: steps).filter (·.2.busy)
          = (reads, call) :: steps.filter (·.2.busy) := List.filter_cons_of_pos hbusy
      rw [hfilter, rangeTrace, rangeTrace]
      congr 1
      split
      . exact ih
      . rfl
    . have hblocks : call.blocks = [] := by simpa [PutBlocks.busy] using hbusy
      have hbegin : call.begin up reads db sparse = .ok (sparse, []) := by
        rw [PutBlocks.begin, hblocks]
      have hfilter : ((reads, call) :: steps).filter (·.2.busy) = steps.filter (·.2.busy) :=
        List.filter_cons_of_neg hbusy
      rw [hfilter, ih, rangeTrace, PutBlocks.trace, sparsePutBlocks, hbegin]
      rfl

end Idle

def RangeResumes [DecidableEq H] (up : Upstream H B Shard) (db : WalletDb B Shard)
    (policy : Option AnchorRetention) (verifySample : Nat) (steps : List (CallReads H × PutBlocks H))
    (pool : ShieldedPool) (k : Nat × Nat) : Prop :=
  ∃ reads call, steps.head? = some (reads, call)
    ∧ (call.inputs up reads db (.opened policy (some verifySample)) (.unseeded verifySample)
      pool).Resumes up.ser (db.buffer pool) k.1 k.2

theorem appends_adjoin_own_range [DecidableEq H] {up : Upstream H B Shard} {db found : WalletDb B Shard}
    {policy : Option AnchorRetention} {verifySample : Nat} {steps : List (CallReads H × PutBlocks H)}
    {pool : ShieldedPool} {rows : List (AccRow H)} {r : AccRow H}
    (hfollows : (steps.map Prod.snd).IsChain PutBlocks.Follows)
    (htrace : rangeTrace up db (.opened policy (some verifySample)) steps
      = before ++ (found, .buffer pool (.appendRows shard rows)) :: after)
    (hr : r ∈ rows) (hp : p + 1 = r.position) (hshard : shardOf p = shard)
    (hkey : (shard, p) ∈ (found.buffer pool).keys)
    : (∃ r' ∈ rows, r'.position = p) ∨ AppendedIn before pool (shard, p)
      ∨ RangeResumes up db policy verifySample (steps.filter (·.2.busy)) pool (shard, p) := by
  rw [← rangeTrace_busy] at htrace
  apply rangeTrace_adjoins _ _ rfl _ htrace hr hp hshard hkey
  . intro step hstep
    simpa [PutBlocks.busy] using (List.mem_filter.mp hstep).2
  . have hcalls : (steps.filter (·.2.busy)).map Prod.snd
        = (steps.map Prod.snd).filter PutBlocks.busy := by
      rw [List.filter_map]
      rfl
    rw [hcalls]
    cases hsteps : steps.map Prod.snd with
    | nil => exact List.isChain_nil
    | cons call calls =>
      rw [hsteps] at hfollows
      have hchain := isChain_busy hfollows
      by_cases hbusy : call.busy = true
      . rwa [List.filter_cons_of_pos hbusy]
      . rw [List.filter_cons_of_neg hbusy]
        exact hchain.tail
  . intro reads call hhead _
    apply planPool_adjoins
    . intro a ha
      cases ha
    . intro _ k hk
      exact ⟨reads, call, hhead, hk⟩

def bufferedNext : PutBlocks Nat where
  fromState := {
    blockHeight := 101
    finalTree
      | .sapling => ⟨some { position := 5, leaf := 1, ommers := [] }⟩
      | _ => ⟨none⟩
  }
  blocks := [saplingBlock 102 6 [2]]
  chainTip := some 20000

def bufferedTrace : List (WalletDb Nat Unit × DurableOp Nat Unit) :=
  rangeTrace (.bare Nat) (.fresh Nat) (.opened none (some 0))
    [(.none, bufferedCall), (.none, bufferedNext)]

def appendsNext (e : WalletDb Nat Unit × DurableOp Nat Unit) : Bool :=
  match e.2 with
  | .buffer .sapling (.appendRows 0 rows) =>
    rows.any (fun r => decide (5 + 1 = r.position)) && decide ((0, 5) ∈ (e.1.buffer .sapling).keys)
  | _ => false

theorem appends_adjoin_own_range_bufferedTrace
    : ∃ before found rows after,
        bufferedTrace = before ++ (found, .buffer .sapling (.appendRows 0 rows)) :: after
      ∧ (∃ r ∈ rows, 5 + 1 = r.position) ∧ (0, 5) ∈ (found.buffer .sapling).keys
      ∧ ((∃ r ∈ rows, r.position = 5) ∨ AppendedIn before .sapling (0, 5)
        ∨ RangeResumes (.bare Nat) (.fresh Nat) none 0 [(.none, bufferedCall), (.none, bufferedNext)]
          .sapling (0, 5)) := by
  have hsecond : bufferedTrace[2]?.any appendsNext = true := by
    decide +kernel
  obtain ⟨⟨found, op⟩, hfound, hop⟩ := (Option.any_eq_true _ _).mp hsecond
  obtain ⟨hlt, hget⟩ := List.getElem?_eq_some_iff.mp hfound
  have hsplit : bufferedTrace = bufferedTrace.take 2 ++ (found, op) :: bufferedTrace.drop 3 := by
    rw [← hget, ← List.drop_eq_getElem_cons hlt, List.take_append_drop]
  unfold appendsNext at hop
  dsimp only at hop
  split at hop
  . next rows =>
    rw [Bool.and_eq_true, List.any_eq_true] at hop
    obtain ⟨⟨r, hr, hp⟩, hkey⟩ := hop
    have hp := of_decide_eq_true hp
    have hkey := of_decide_eq_true hkey
    refine ⟨_, found, rows, _, hsplit, ⟨r, hr, hp⟩, hkey, ?_⟩
    apply appends_adjoin_own_range _ hsplit hr hp _ hkey
    . refine List.isChain_cons_cons.mpr ⟨⟨rfl, ?_⟩, List.isChain_singleton _⟩
      intro pool
      cases pool <;> rfl
    . decide
  . cases hop

end Slipstream
