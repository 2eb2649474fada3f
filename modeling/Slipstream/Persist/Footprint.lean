import Slipstream.Persist.Lemmas.Accepts
import Slipstream.Persist.Lemmas.Coverage
import Slipstream.Persist.Lemmas.Trace

/-!
This module contains what one call changes in the graft buffer: the rows its planners write and the
stale ones they drop, and after its commit the rows of what it built or grafted.
-/

namespace Slipstream

variable {H B Shard : Type}

def AccRow.key (r : AccRow H) : Nat × Nat := (shardOf r.position, r.position)

section Writes

variable {ser : HashSer H B} {t t₁ t' : PoolBuffer B} {cleared cleared' : Nat × Nat → Prop}
  {written : AccRow H → Prop}

def BufferOp.applyAll (ser : HashSer H B) (t : PoolBuffer B) (ops : List (BufferOp H))
    : Except String (PoolBuffer B) :=
  ops.foldlM (fun t op => op.apply ser t) t

theorem applyAll_cons {ops : List (BufferOp H)} (h : BufferOp.applyAll ser t (op :: ops) = .ok t')
    : ∃ t₁, op.apply ser t = .ok t₁ ∧ BufferOp.applyAll ser t₁ ops = .ok t' := by
  rw [BufferOp.applyAll, List.foldlM_cons] at h
  exact bind_eq_ok.mp h

theorem applyAll_append {ops ops' : List (BufferOp H)}
    (h : BufferOp.applyAll ser t (ops ++ ops') = .ok t')
    : ∃ t₁, BufferOp.applyAll ser t ops = .ok t₁ ∧ BufferOp.applyAll ser t₁ ops' = .ok t' := by
  rw [BufferOp.applyAll, List.foldlM_append] at h
  exact bind_eq_ok.mp h

def ChangedBy (ser : HashSer H B) (cleared : Nat × Nat → Prop) (written : AccRow H → Prop)
    (t t' : PoolBuffer B) : Prop :=
  ∀ k, t'.get? k = t.get? k ∨ (cleared k ∧ t'.get? k = none)
    ∨ ∃ r v, written r ∧ r.key = k ∧ PoolBuffer.encodeRow ser r = .ok v ∧ t'.get? k = some v

def BufferOp.Within (cleared : Nat × Nat → Prop) (written : AccRow H → Prop) : BufferOp H → Prop
  | .deleteRowsIn shard start stop => ∀ p, start ≤ p → p < stop → cleared (shard, p)
  | .appendRows shard rows => ∀ r ∈ rows, written r ∧ shardOf r.position = shard
  | .deleteFromPosition minPosition => ∀ k : Nat × Nat, minPosition ≤ k.2 → cleared k

theorem BufferOp.Within.mono {op : BufferOp H} {written' : AccRow H → Prop}
    (h : op.Within cleared written) (hcleared : ∀ k, cleared k → cleared' k)
    (hwritten : ∀ r, written r → written' r) : op.Within cleared' written' := by
  cases op with
  | deleteRowsIn shard start stop => exact fun p hlo hhi => hcleared _ (h p hlo hhi)
  | appendRows shard rows => exact fun r hr => ⟨hwritten r (h r hr).1, (h r hr).2⟩
  | deleteFromPosition minPosition => exact fun k hk => hcleared k (h k hk)

theorem ChangedBy.refl : ChangedBy ser cleared written t t := fun _ => Or.inl rfl

theorem ChangedBy.apply (h : ChangedBy ser cleared written t t₁) {op : BufferOp H}
    (hop : op.Within cleared written) (happly : op.apply ser t₁ = .ok t')
    : ChangedBy ser cleared written t t' := by
  intro k
  cases op with
  | deleteRowsIn shard start stop =>
    cases happly
    by_cases hk : k.1 = shard ∧ start ≤ k.2 ∧ k.2 < stop
    . refine Or.inr (Or.inl ⟨?_, ?_⟩)
      . rw [← Prod.eta k, hk.1]
        exact hop k.2 hk.2.1 hk.2.2
      . apply OrdMap.get?_eq_none
        exact fun hmem => (PoolBuffer.mem_keys_deleteRowsIn.mp hmem).2 hk
    . rw [PoolBuffer.get?_deleteRowsIn hk]
      exact h k
  | appendRows shard rows =>
    by_cases hk : ∃ r ∈ rows, (shard, r.position) = k
    . obtain ⟨r, hr, rfl⟩ := hk
      obtain ⟨r', hr', hposition, v, hencode, hv⟩ := PoolBuffer.get?_appendRows happly hr
      obtain ⟨hwritten, hshard⟩ := hop r' hr'
      exact Or.inr (Or.inr ⟨r', v, hwritten, by rw [AccRow.key, hshard, hposition], hencode, hv⟩)
    . rw [PoolBuffer.get?_appendRows_of_not_mem happly fun r hr heq => hk ⟨r, hr, heq⟩]
      exact h k
  | deleteFromPosition minPosition =>
    cases happly
    by_cases hk : k.2 < minPosition
    . rw [PoolBuffer.deleteFromPosition, OrdMap.get?_filter, if_pos (decide_eq_true hk)]
      exact h k
    . refine Or.inr (Or.inl ⟨hop k (Nat.le_of_not_lt hk), ?_⟩)
      apply OrdMap.get?_eq_none
      exact fun hmem => hk (PoolBuffer.mem_keys_deleteFromPosition.mp hmem).2

theorem changedBy_of_applyAll {ops : List (BufferOp H)}
    (hops : ∀ op ∈ ops, op.Within cleared written) (h : BufferOp.applyAll ser t ops = .ok t')
    : ChangedBy ser cleared written t t' := by
  suffices hloop : ∀ t₁, ChangedBy ser cleared written t t₁ → BufferOp.applyAll ser t₁ ops = .ok t' →
      ChangedBy ser cleared written t t' from hloop t .refl h
  clear h
  induction ops with
  | nil =>
    intro t₁ h₁ h
    cases h
    exact h₁
  | cons op ops ih =>
    intro t₁ h₁ h
    obtain ⟨t₂, ht₂, hrest⟩ := applyAll_cons h
    exact ih (fun op hop => hops op (List.mem_cons_of_mem _ hop)) t₂
      (h₁.apply (hops op List.mem_cons_self) ht₂) hrest

theorem ChangedBy.unchanged (h : ChangedBy ser cleared written t t') (hcleared : ¬cleared k)
    (hwritten : ∀ r, written r → r.key ≠ k) : t'.get? k = t.get? k := by
  rcases h k with hsame | ⟨hk, -⟩ | ⟨r, -, hr, hk, -⟩
  . exact hsame
  . exact absurd hk hcleared
  . exact absurd hk (hwritten r hr)

theorem written_of_applyAll {ops : List (BufferOp H)}
    (hops : ∀ op ∈ ops, op.Within (fun _ => False) written)
    (hone : ∀ r r', written r → written r' → r.position = r'.position → r = r')
    (h : BufferOp.applyAll ser t ops = .ok t') (hop : .appendRows shard rows ∈ ops) (hr : r ∈ rows)
    : ∃ v, PoolBuffer.encodeRow ser r = .ok v ∧ t'.get? r.key = some v := by
  induction ops generalizing t with
  | nil => cases hop
  | cons op ops ih =>
    obtain ⟨t₁, ht₁, hrest⟩ := applyAll_cons h
    have hlater := fun op hop => hops op (List.mem_cons_of_mem _ hop)
    rcases List.mem_cons.mp hop with rfl | hop
    . have hwithin := hops _ List.mem_cons_self
      obtain ⟨hwritten, hshard⟩ := hwithin r hr
      obtain ⟨r', hr', hposition, v, hencode, hv⟩ := PoolBuffer.get?_appendRows ht₁ hr
      cases hone r r' hwritten (hwithin r' hr').1 hposition.symm
      -- A later append at this position writes the same row.
      rcases changedBy_of_applyAll hlater hrest r.key with
        hsame | ⟨hfalse, -⟩ | ⟨r₁, v₁, hr₁, hk, hencode₁, hv₁⟩
      . exact ⟨v, hencode, by rw [hsame, AccRow.key, hshard, hv]⟩
      . cases hfalse
      . cases hone r₁ r hr₁ hwritten (congrArg Prod.snd hk)
        exact ⟨v₁, hencode₁, hv₁⟩
    . exact ih hlater hrest hop

theorem cleared_of_applyAll {ops : List (BufferOp H)}
    (hops : ∀ op ∈ ops, op.Within (fun _ => True) (fun _ => False))
    (h : BufferOp.applyAll ser t ops = .ok t') (hop : .deleteRowsIn shard start stop ∈ ops)
    (hlo : start ≤ p) (hhi : p < stop) : t'.get? (shard, p) = none := by
  induction ops generalizing t with
  | nil => cases hop
  | cons op ops ih =>
    obtain ⟨t₁, ht₁, hrest⟩ := applyAll_cons h
    have hlater := fun op hop => hops op (List.mem_cons_of_mem _ hop)
    rcases List.mem_cons.mp hop with rfl | hop
    . cases ht₁
      -- What is gone stays gone.
      rcases changedBy_of_applyAll hlater hrest (shard, p) with hsame | ⟨-, hnone⟩ | ⟨r, -, hfalse, -⟩
      . rw [hsame]
        exact OrdMap.get?_eq_none fun hmem =>
          (PoolBuffer.mem_keys_deleteRowsIn.mp hmem).2 ⟨rfl, hlo, hhi⟩
      . exact hnone
      . cases hfalse
    . exact ih hlater hrest hop

end Writes

section Durable

variable {up : Upstream H B Shard} {db db' : WalletDb B Shard}
  {sparse sparse' : SparseTreeState H Shard} {pool : ShieldedPool}

def DurableOp.bufferOp? (pool : ShieldedPool) : DurableOp H Shard → Option (BufferOp H)
  | .buffer p op => if p = pool then some op else none
  | _ => none

def DurableOp.bufferOps (pool : ShieldedPool) (ops : List (DurableOp H Shard)) : List (BufferOp H) :=
  ops.filterMap (DurableOp.bufferOp? pool)

theorem mem_buffers {ops : List (BufferOp H)}
    : (.buffer pool op : DurableOp H Shard) ∈ ops.map (DurableOp.buffer other)
      ↔ other = pool ∧ op ∈ ops := by
  rw [List.mem_map]
  constructor
  . rintro ⟨op', hop, heq⟩
    cases heq
    exact ⟨rfl, hop⟩
  . rintro ⟨rfl, hop⟩
    exact ⟨op, hop, rfl⟩

theorem bufferOps_buffers (pool other : ShieldedPool) (ops : List (BufferOp H))
    : DurableOp.bufferOps other (ops.map (DurableOp.buffer pool) : List (DurableOp H Shard))
      = if pool = other then ops else [] := by
  unfold DurableOp.bufferOps
  induction ops with
  | nil => exact (ite_self _).symm
  | cons op ops ih =>
    rw [List.map_cons]
    by_cases hpool : pool = other
    . have hop : DurableOp.bufferOp? other (.buffer pool op : DurableOp H Shard) = some op :=
        if_pos hpool
      rw [if_pos hpool] at ih ⊢
      rw [List.filterMap_cons_some hop, ih]
    . have hop : DurableOp.bufferOp? other (.buffer pool op : DurableOp H Shard) = none :=
        if_neg hpool
      rw [if_neg hpool] at ih ⊢
      rw [List.filterMap_cons_none hop, ih]

theorem bufferOps_append (pool : ShieldedPool) (ops ops' : List (DurableOp H Shard))
    : DurableOp.bufferOps pool (ops ++ ops')
      = DurableOp.bufferOps pool ops ++ DurableOp.bufferOps pool ops' :=
  List.filterMap_append

theorem bufferOps_transact (pool : ShieldedPool) (call : PutBlocks H)
    (plans : ShieldedPool → Option (PoolPlan H)) (ops : List (DurableOp H Shard))
    : DurableOp.bufferOps pool (.transact call plans :: ops) = DurableOp.bufferOps pool ops :=
  rfl

theorem mem_bufferOps {ops : List (DurableOp H Shard)}
    : op ∈ DurableOp.bufferOps pool ops ↔ .buffer pool op ∈ ops := by
  unfold DurableOp.bufferOps
  rw [List.mem_filterMap]
  constructor
  . rintro ⟨op', hmem, hop⟩
    cases op' with
    | buffer p op' =>
      rw [DurableOp.bufferOp?] at hop
      split at hop
      . next hpool =>
        cases hpool
        cases hop
        exact hmem
      . cases hop
    | _ => cases hop
  . intro hmem
    exact ⟨_, hmem, if_pos rfl⟩

theorem exec_bufferOps {op : DurableOp H Shard} (h : op.exec up db sparse = .ok (db', sparse'))
    : BufferOp.applyAll up.ser (db.buffer pool) (DurableOp.bufferOps pool [op])
      = .ok (db'.buffer pool) := by
  rcases exec_buffered h pool with ⟨b, rfl, hb⟩ | ⟨hother, hsame⟩
  . rw [← List.map_singleton, bufferOps_buffers, if_pos rfl, ← hb]
    exact bind_pure (b.apply up.ser (db.buffer pool))
  . have hnone : DurableOp.bufferOps pool [op] = [] := by
      apply List.eq_nil_iff_forall_not_mem.mpr
      intro b hb
      exact hother b (List.mem_singleton.mp (mem_bufferOps.mp hb)).symm
    rw [hnone, hsame]
    rfl

theorem execAll_bufferOps {ops : List (DurableOp H Shard)}
    (h : DurableOp.execAll up db sparse ops = ((db', sparse'), .ok ()))
    : BufferOp.applyAll up.ser (db.buffer pool) (DurableOp.bufferOps pool ops)
      = .ok (db'.buffer pool) := by
  induction ops generalizing db sparse with
  | nil =>
    cases h
    rfl
  | cons op ops ih =>
    rw [DurableOp.execAll] at h
    split at h
    . next db₁ sparse₁ hexec =>
      rw [show op :: ops = [op] ++ ops from rfl, bufferOps_append, BufferOp.applyAll,
        List.foldlM_append]
      exact bind_eq_ok.mpr ⟨_, exec_bufferOps hexec, ih h⟩
    . cases h

theorem execAll_taken {ops : List (DurableOp H Shard)} {out : Except PersistError Unit}
    (h : DurableOp.execAll up db sparse ops = ((db', sparse'), out))
    : ∃ done rest, ops = done ++ rest
      ∧ DurableOp.execAll up db sparse done = ((db', sparse'), .ok ()) := by
  induction ops generalizing db sparse with
  | nil =>
    cases h
    exact ⟨[], [], rfl, rfl⟩
  | cons op ops ih =>
    rw [DurableOp.execAll] at h
    split at h
    . next db₁ sparse₁ hexec =>
      obtain ⟨done, rest, rfl, hdone⟩ := ih h
      refine ⟨op :: done, rest, rfl, ?_⟩
      rw [DurableOp.execAll, hexec]
      exact hdone
    . cases h
      exact ⟨[], op :: ops, rfl, rfl⟩

end Durable

section Plan

variable {inp : PlanInputs H} {seedOps : List (BufferOp H)} {acts : List (FeedAction H)}
  {planned : Planned H} {plan : PoolPlan H}

theorem rowsFrom_inj {items : List (H × Retention)} (hr : r ∈ rowsFrom pos items)
    (hr' : r' ∈ rowsFrom pos items) (h : r.position = r'.position) : r = r' := by
  have hnodup : ((rowsFrom pos items).map AccRow.position).Nodup := by
    rw [RunFrom.rowsFrom pos items]
    exact List.nodup_range'
  exact List.inj_on_of_nodup_map hnodup hr hr' h

def FeedAction.Clears (a : FeedAction H) (k : Nat × Nat) : Prop :=
  ∃ first, a.builtRows.head? = some first ∧ k.1 = shardOf first.position
    ∧ ∃ r ∈ a.builtRows, r.position = k.2

theorem clears_iff {a : FeedAction H} (hrun : RunFrom first a.builtRows) (k : Nat × Nat)
    : a.Clears k
        ↔
      ∃ start stop, fedSpan a.builtRows = some (k.1, start, stop) ∧ start ≤ k.2 ∧ k.2 < stop := by
  unfold FeedAction.Clears
  generalize a.builtRows = rows at hrun
  have hposition : (∃ r ∈ rows, r.position = k.2) ↔ first ≤ k.2 ∧ k.2 < first + rows.length := by
    rw [← hrun.mem_iff, List.mem_map]
  cases rows with
  | nil => simp [fedSpan]
  | cons head rest =>
    have hfirst : head.position = first := (List.cons.inj hrun).1
    rw [fedSpan_run hrun (List.cons_ne_nil _ _), ← hfirst]
    rw [← hfirst] at hposition
    constructor
    . rintro ⟨head', hhead, hshard, hk⟩
      cases hhead
      exact ⟨_, _, by rw [hshard], hposition.mp hk⟩
    . rintro ⟨start, stop, hspan, hk⟩
      rw [Option.some.injEq, Prod.mk.injEq, Prod.mk.injEq] at hspan
      obtain ⟨hshard, rfl, rfl⟩ := hspan
      exact ⟨head, rfl, hshard.symm, hposition.mpr hk⟩

structure PlansRuns (inp : PlanInputs H) (seedOps : List (BufferOp H)) (acts : List (FeedAction H))
    (planned : Planned H) : Prop where
  fed : FeedsRuns inp.startPosition inp.stream acts
  acc : ∀ a, planned.acc = some a → EndsRun (inp.startPosition + inp.stream.length) a.openShard
  ops : ∃ appends, planned.ops = seedOps ++ appends
    ∧ ∀ op ∈ appends, op ∈ acts.filterMap PlanInputs.bufferOp?
  plan : ∀ plan, planned.plan = .ok plan → PlanInputs.Planned inp acts .empty plan
    ∧ planned.ops = seedOps ++ acts.filterMap PlanInputs.bufferOp?

theorem planPool_runs [DecidableEq H] (ser : HashSer H B) (buffer : PoolBuffer B)
    (acc : Option (ShardAccumulator H)) (inp : PlanInputs H)
    (hends : ∀ a, acc = some a → EndsRun inp.startPosition a.openShard)
    : ∃ seedOps, PlansRuns inp seedOps (inp.actions ser buffer acc) (planPool ser buffer acc inp)
      ∧ ∀ op ∈ seedOps, acc = none
        ∧ op = .deleteRowsIn (shardOf inp.startPosition) inp.fed.1 inp.fed.2 := by
  have hfeed : ∀ (a : ShardAccumulator H) (seedOps : List (BufferOp H)),
      EndsRun inp.startPosition a.openShard →
      PlansRuns inp seedOps (a.feed inp.startPosition inp.stream inp.notePositions).2
        { ops := seedOps ++ (inp.planActions .empty
            (a.feed inp.startPosition inp.stream inp.notePositions).2).1
          acc := some (a.feed inp.startPosition inp.stream inp.notePositions).1
          plan := (inp.planActions .empty
            (a.feed inp.startPosition inp.stream inp.notePositions).2).2 } := by
    intro a seedOps ha
    obtain ⟨hends, hfed⟩ := ShardAccumulator.feed_runs ha inp.stream inp.notePositions
    obtain ⟨hops, hplan⟩ := planActions_plans inp seedOps
      (a.feed inp.startPosition inp.stream inp.notePositions).2
    exact ⟨hfed, fun a' ha' => Option.some.inj ha' ▸ hends, hops, hplan⟩
  unfold planPool PlanInputs.actions
  cases acc with
  | some a => exact ⟨[], hfeed a [] (hends a rfl), by simp⟩
  | none =>
    cases hseed : inp.seed ser buffer with
    | error e => exact ⟨[], ⟨.nil, by simp, ⟨[], by simp⟩, by simp⟩, by simp⟩
    | ok seeded =>
      obtain ⟨seedOps, a⟩ := seeded
      obtain ⟨o, ho, hopens⟩ := PlanInputs.seed_opens hseed
      have hrun : EndsRun inp.startPosition a.openShard := by
        intro o' ho'
        cases ho.symm.trans ho'
        exact hopens.run
      refine ⟨seedOps, hfeed a seedOps hrun, fun op hop => ⟨rfl, ?_⟩⟩
      rw [hopens.dropped op hop, hopens.index]

theorem bufferOp?_within (hfed : FeedsRuns pos items acts) (ha : a ∈ acts)
    (hop : PlanInputs.bufferOp? a = some op)
    : op.Within cleared (fun r => ∃ a ∈ acts, r ∈ a.bufferRows) := by
  obtain ⟨shard, hshard⟩ := hfed.shard a ha
  cases a with
  | buffer rows =>
    obtain ⟨first, hfirst, rfl⟩ := Option.map_eq_some_iff.mp hop
    intro r hr
    exact ⟨⟨_, ha, hr⟩, by rw [hshard r hr, hshard first (List.mem_of_mem_head? hfirst)]⟩
  | _ => cases hop

theorem appended (ha : a ∈ acts) (hr : r ∈ a.bufferRows)
    : ∃ shard rows, .appendRows shard rows ∈ acts.filterMap PlanInputs.bufferOp? ∧ r ∈ rows := by
  cases a with
  | buffer rows =>
    obtain ⟨first, rest, rfl⟩ := List.exists_cons_of_ne_nil (List.ne_nil_of_mem hr)
    exact ⟨shardOf first.position, first :: rest, List.mem_filterMap.mpr ⟨_, ha, rfl⟩, hr⟩
  | _ => cases hr

theorem PlansRuns.ops_within (h : PlansRuns inp seedOps acts planned)
    {cleared : Nat × Nat → Prop} (hseed : ∀ op ∈ seedOps, op.Within cleared (fun _ => False))
    : ∀ op ∈ planned.ops, op.Within cleared (fun r => ∃ a ∈ acts, r ∈ a.bufferRows) := by
  intro op hop
  obtain ⟨appends, hops, happends⟩ := h.ops
  rw [hops] at hop
  rcases List.mem_append.mp hop with hop | hop
  . exact (hseed op hop).mono (fun _ h => h) (fun _ h => h.elim)
  . obtain ⟨a, ha, hop⟩ := List.mem_filterMap.mp (happends op hop)
    exact bufferOp?_within h.fed ha hop

theorem PlansRuns.cleanup (h : PlansRuns inp seedOps acts planned) (hplan : planned.plan = .ok plan)
    : (∀ op ∈ plan.cleanup, op.Within (fun k => ∃ a ∈ acts, a.Clears k) (fun _ => False))
      ∧ ∀ a ∈ acts, ∀ k, a.Clears k → ∃ start stop, .deleteRowsIn k.1 start stop ∈ plan.cleanup
        ∧ start ≤ k.2 ∧ k.2 < stop := by
  have hspans := (h.plan plan hplan).1.cleanupSpans
  constructor
  . intro op hop
    obtain ⟨⟨index, start, stop⟩, hmem, rfl⟩ := List.mem_map.mp hop
    rw [hspans] at hmem
    obtain ⟨a, ha, hspan⟩ := List.mem_flatMap.mp hmem
    obtain ⟨first, hrun⟩ := h.fed.built a ha
    intro p hlo hhi
    exact ⟨a, ha, (clears_iff hrun _).mpr ⟨start, stop, Option.mem_toList.mp hspan, hlo, hhi⟩⟩
  . intro a ha k hk
    obtain ⟨first, hrun⟩ := h.fed.built a ha
    obtain ⟨start, stop, hspan, hlo, hhi⟩ := (clears_iff hrun k).mp hk
    refine ⟨start, stop, List.mem_map.mpr ⟨(k.1, start, stop), ?_, rfl⟩, hlo, hhi⟩
    rw [hspans]
    exact List.mem_flatMap.mpr ⟨a, ha, Option.mem_toList.mpr hspan⟩

theorem PlansRuns.leaves (h : PlansRuns inp seedOps acts planned) (hplan : planned.plan = .ok plan)
    {ser : HashSer H B} {t t' : PoolBuffer B}
    (happly : BufferOp.applyAll ser t (planned.ops ++ plan.cleanup) = .ok t')
    : ∀ a ∈ acts, (∀ k, a.Clears k → t'.get? k = none)
      ∧ ∀ r ∈ a.bufferRows, (∀ b ∈ acts, ¬b.Clears r.key) →
        ∃ v, PoolBuffer.encodeRow ser r = .ok v ∧ t'.get? r.key = some v := by
  obtain ⟨hwithin, hclears⟩ := h.cleanup hplan
  obtain ⟨t₁, hplanned, hcleaned⟩ := applyAll_append happly
  rw [(h.plan plan hplan).2] at hplanned
  obtain ⟨t₀, -, happended⟩ := applyAll_append hplanned
  intro a ha
  constructor
  . intro k hk
    obtain ⟨start, stop, hop, hlo, hhi⟩ := hclears a ha k hk
    exact cleared_of_applyAll (fun op hop => (hwithin op hop).mono (fun _ _ => trivial) fun _ h => h)
      hcleaned hop hlo hhi
  . intro r hr hspared
    obtain ⟨shard, rows, hop, hmem⟩ := appended ha hr
    have happends : ∀ op ∈ acts.filterMap PlanInputs.bufferOp?,
        op.Within (fun _ => False) (fun r => ∃ a ∈ acts, r ∈ a.bufferRows) := by
      intro op hop
      obtain ⟨a, ha, hop⟩ := List.mem_filterMap.mp hop
      exact bufferOp?_within h.fed ha hop
    have hone : ∀ r r' : AccRow H, (∃ a ∈ acts, r ∈ a.bufferRows) → (∃ a ∈ acts, r' ∈ a.bufferRows) →
        r.position = r'.position → r = r' := by
      rintro r r' ⟨a, ha, hr⟩ ⟨a', ha', hr'⟩ hposition
      exact rowsFrom_inj (h.fed.buffered a ha r hr) (h.fed.buffered a' ha' r' hr') hposition
    obtain ⟨v, hencode, hv⟩ := written_of_applyAll happends hone happended hop hmem
    refine ⟨v, hencode, ?_⟩
    rw [(changedBy_of_applyAll hwithin hcleaned).unchanged _ (fun _ h => h.elim), hv]
    rintro ⟨b, hb, hk⟩
    exact hspared b hb hk

end Plan

section Call

variable [DecidableEq H] {up : Upstream H B Shard} {db db' : WalletDb B Shard}
  {sparse sparse' : SparseTreeState H Shard} {reads : CallReads H} {call : PutBlocks H}
  {ctx : GraftCtx H} {pool : ShieldedPool}

namespace PutBlocks

def actions (call : PutBlocks H) (up : Upstream H B Shard) (reads : CallReads H)
    (db : WalletDb B Shard) (sparse : SparseTreeState H Shard) (ctx : GraftCtx H)
    (pool : ShieldedPool) : List (FeedAction H) :=
  if pool = .ironwood then
    []
  else
    (call.inputs up reads db sparse ctx pool).actions up.ser (db.buffer pool) (ctx.acc pool)

def Feeds (call : PutBlocks H) (pool : ShieldedPool) (p : Nat) : Prop :=
  (call.frontier pool).treeSize ≤ p ∧ p < call.stop pool

def Reseeds (call : PutBlocks H) (ctx : GraftCtx H) (pool : ShieldedPool) (k : Nat × Nat) : Prop :=
  ctx.acc pool = none ∧ k.1 = shardOf (call.frontier pool).treeSize ∧ call.Feeds pool k.2

end PutBlocks

theorem PutBlocks.planned_runs (hpool : pool ≠ .ironwood)
    (hends : ∀ a, ctx.acc pool = some a → EndsRun (call.frontier pool).treeSize a.openShard)
    : ∃ seedOps, PlansRuns (call.inputs up reads db sparse ctx pool) seedOps
        (call.actions up reads db sparse ctx pool) (call.planned up reads db sparse ctx pool)
      ∧ ∀ op ∈ seedOps, op.Within (call.Reseeds ctx pool) (fun _ => False) := by
  rw [PutBlocks.actions, if_neg hpool]
  obtain ⟨seedOps, hruns, hseed⟩ := planPool_runs up.ser (db.buffer pool) (ctx.acc pool)
    (call.inputs up reads db sparse ctx pool) hends
  refine ⟨seedOps, hruns, fun op hop => ?_⟩
  obtain ⟨hnone, rfl⟩ := hseed op hop
  intro p hlo hhi
  refine ⟨hnone, rfl, hlo, ?_⟩
  have hstop := Nat.lt_of_lt_of_le hhi (Nat.min_le_left _ _)
  rw [call.inputs_stream_length] at hstop
  exact hstop

def DurableOp.Commits (ops : List (DurableOp H Shard)) : Prop :=
  ∃ call plans, .transact call plans ∈ ops

theorem PutBlocks.bufferOps_planned (hgraft : sparse.graft = some ctx)
    (hbegin : call.begin up reads db sparse = .ok (sparse', done ++ rest))
    (hop : op ∈ DurableOp.bufferOps pool done)
    : pool ≠ .ironwood
      ∧ (op ∈ (call.planned up reads db sparse ctx pool).ops
        ∨ DurableOp.Commits done
          ∧ ∃ plan, (call.planned up reads db sparse ctx pool).plan = .ok plan ∧ op ∈ plan.cleanup) := by
  rw [mem_bufferOps] at hop
  generalize hops : done ++ rest = ops at hbegin
  have hmem : .buffer pool op ∈ ops := hops ▸ List.mem_append_left _ hop
  cases begin_begins hbegin with
  | empty hblocks => cases hmem
  | plain hplain => cases hgraft.symm.trans hplain
  | grafting hgraft' =>
    cases hgraft.symm.trans hgraft'
    rcases mem_planOps.mp hmem with ⟨b, hb, heq⟩ | ⟨sp, hsp, hmem⟩ | ⟨e, -, heq⟩
    . cases heq
      exact ⟨by simp, Or.inl hb⟩
    . rcases mem_planOps.mp hmem with ⟨b, hb, heq⟩ | ⟨orchard, horchard, hmem⟩ | ⟨e, -, heq⟩
      . cases heq
        exact ⟨by simp, Or.inl hb⟩
      . rw [planOps, hsp] at hops
        dsimp only at hops
        rw [planOps, horchard, ← List.append_assoc] at hops
        rcases append_eq_append_cons hops with ⟨left, hdone⟩ | ⟨left, hbefore, -⟩
        . have hcommits : DurableOp.Commits done := by
            rw [hdone]
            exact ⟨call, _, List.mem_append_right _ List.mem_cons_self⟩
          rcases List.mem_cons.mp hmem with heq | hmem
          . cases heq
          . rcases List.mem_append.mp hmem with hmem | hmem
            . obtain ⟨rfl, hb⟩ := mem_buffers.mp hmem
              exact ⟨by simp, Or.inr ⟨hcommits, sp, hsp, hb⟩⟩
            . obtain ⟨rfl, hb⟩ := mem_buffers.mp hmem
              exact ⟨by simp, Or.inr ⟨hcommits, orchard, horchard, hb⟩⟩
        . -- The steps taken so far are all before the commit.
          have hplanned := List.mem_append_left left hop
          rw [← hbefore] at hplanned
          rcases List.mem_append.mp hplanned with hmem | hmem
          . obtain ⟨rfl, hb⟩ := mem_buffers.mp hmem
            exact ⟨by simp, Or.inl hb⟩
          . obtain ⟨rfl, hb⟩ := mem_buffers.mp hmem
            exact ⟨by simp, Or.inl hb⟩
      . cases heq
    . cases heq

theorem PutBlocks.bufferOps_eq (hgraft : sparse.graft = some ctx) (hpool : pool ≠ .ironwood)
    (hne : call.blocks ≠ []) (hbegin : call.begin up reads db sparse = .ok (sparse', ops))
    (h : DurableOp.execAll up db sparse' ops = (res, .ok ()))
    : ∃ plan, (call.planned up reads db sparse ctx pool).plan = .ok plan
      ∧ DurableOp.bufferOps pool ops
        = (call.planned up reads db sparse ctx pool).ops ++ plan.cleanup := by
  cases begin_begins hbegin with
  | empty hblocks => exact absurd hblocks hne
  | plain hplain => cases hgraft.symm.trans hplain
  | grafting hgraft' =>
    cases hgraft.symm.trans hgraft'
    obtain ⟨sp, _, hsp, h⟩ := execAll_planOps h
    obtain ⟨orchard, _, horchard, -⟩ := execAll_planOps h
    rw [planOps, hsp]
    dsimp only
    rw [planOps, horchard]
    dsimp only
    rw [bufferOps_append, bufferOps_append, bufferOps_transact, bufferOps_append, bufferOps_buffers,
      bufferOps_buffers, bufferOps_buffers, bufferOps_buffers]
    cases pool with
    | sapling => exact ⟨sp, hsp, by simp⟩
    | orchard => exact ⟨orchard, horchard, by simp⟩
    | ironwood => exact absurd rfl hpool

theorem PlanInputs.actions_of_nil {inp : PlanInputs H} (hstream : inp.stream = []) (ser : HashSer H B)
    (buffer : PoolBuffer B) (acc : Option (ShardAccumulator H)) : inp.actions ser buffer acc = [] := by
  unfold PlanInputs.actions ShardAccumulator.feed
  rw [hstream]
  split
  . exact congrArg Prod.snd (ShardAccumulator.go_nil _ _ _ _)
  . exact congrArg Prod.snd (ShardAccumulator.go_nil _ _ _ _)
  . rfl

theorem PutBlocks.actions_of_nil (hblocks : call.blocks = [])
    : call.actions up reads db sparse ctx pool = [] := by
  unfold PutBlocks.actions
  split
  . rfl
  . apply PlanInputs.actions_of_nil
    apply List.eq_nil_of_length_eq_zero
    rw [call.inputs_stream_length, PutBlocks.stream, hblocks]
    rfl

theorem PutBlocks.changedBy (hgraft : sparse.graft = some ctx)
    (hends : ∀ a, ctx.acc pool = some a → EndsRun (call.frontier pool).treeSize a.openShard)
    (hbegin : call.begin up reads db sparse = .ok (sparse₁, done ++ rest))
    (hexec : DurableOp.execAll up db sparse₁ done = ((db', sparse'), .ok ()))
    : ChangedBy up.ser
        (fun k => call.Reseeds ctx pool k
          ∨ DurableOp.Commits done ∧ ∃ a ∈ call.actions up reads db sparse ctx pool, a.Clears k)
        (fun r => ∃ a ∈ call.actions up reads db sparse ctx pool, r ∈ a.bufferRows)
        (db.buffer pool) (db'.buffer pool) := by
  apply changedBy_of_applyAll _ (execAll_bufferOps hexec)
  intro op hop
  obtain ⟨hpool, hop⟩ := bufferOps_planned hgraft hbegin hop
  obtain ⟨seedOps, hruns, hseed⟩ := planned_runs hpool hends
  rcases hop with hop | ⟨hcommits, plan, hplan, hop⟩
  . exact (hruns.ops_within hseed op hop).mono (fun _ h => Or.inl h) fun _ h => h
  . exact ((hruns.cleanup hplan).1 op hop).mono (fun _ h => Or.inr ⟨hcommits, h⟩) fun _ h => h.elim

theorem PutBlocks.actions_fed
    (hends : ∀ a, ctx.acc pool = some a → EndsRun (call.frontier pool).treeSize a.openShard)
    (ha : a ∈ call.actions up reads db sparse ctx pool) (hr : r ∈ a.bufferRows)
    : call.Feeds pool r.position := by
  by_cases hpool : pool = .ironwood
  . rw [PutBlocks.actions, if_pos hpool] at ha
    cases ha
  obtain ⟨seedOps, hruns, -⟩ := planned_runs hpool hends
  have hmem := (RunFrom.rowsFrom _ _).position_mem (hruns.fed.buffered a ha r hr)
  rw [rowsFrom_length, call.inputs_stream_length] at hmem
  exact hmem

theorem sparsePutBlocks_taken {out : Except PersistError Unit}
    (h : sparsePutBlocks up reads db sparse call = ((db', sparse'), out))
    : db' = db ∨ ∃ sparse₁ done rest, call.begin up reads db sparse = .ok (sparse₁, done ++ rest)
      ∧ DurableOp.execAll up db sparse₁ done = ((db', sparse'), .ok ()) := by
  unfold sparsePutBlocks at h
  split at h
  . next sparse₁ ops hbegin =>
    obtain ⟨done, rest, rfl, hdone⟩ := execAll_taken h
    exact Or.inr ⟨sparse₁, done, rest, hbegin, hdone⟩
  . cases h
    exact Or.inl rfl

def SparseTreeState.EndsAt (sparse : SparseTreeState H Shard) (call : PutBlocks H) : Prop :=
  ∀ ctx, sparse.graft = some ctx → ∀ pool a, ctx.acc pool = some a →
    EndsRun (call.frontier pool).treeSize a.openShard

theorem SparseTreeState.EndsAt.putBlocks {next : PutBlocks H} (h : sparse.EndsAt call)
    (hne : call.blocks ≠ []) (hfollows : call.Follows next)
    (hcall : sparsePutBlocks up reads db sparse call = ((db', sparse'), .ok ()))
    : sparse'.EndsAt next := by
  obtain ⟨plans, hs⟩ := sparsePutBlocks_succeeded hne hcall
  intro ctx' hgraft' pool a hacc
  rw [hs.graft, Option.map_eq_some_iff] at hgraft'
  obtain ⟨ctx, hgraft, rfl⟩ := hgraft'
  have hplanned : pool ≠ .ironwood → (call.planned up reads db sparse ctx pool).acc = some a →
      EndsRun (next.frontier pool).treeSize a.openShard := by
    intro hpool ha
    obtain ⟨seedOps, hruns, -⟩ := PutBlocks.planned_runs hpool (h ctx hgraft pool)
    have hrun := hruns.acc a ha
    rw [call.inputs_stream_length] at hrun
    rw [hfollows.size pool]
    exact hrun
  cases pool with
  | sapling => exact hplanned (by simp) hacc
  | orchard => exact hplanned (by simp) hacc
  | ironwood => cases hacc

theorem PutRange.endsAt {steps : List (CallReads H × PutBlocks H)}
    {grafts : ShieldedPool → List (Nat × H)} (h : PutRange up db sparse steps db' sparse' grafts)
    (hcalls : RangeCalls (steps.map Prod.snd ++ [call]))
    (hfirst : ∀ c, (steps.map Prod.snd ++ [call]).head? = some c → sparse.EndsAt c)
    : sparse'.EndsAt call := by
  induction h with
  | nil => exact hfirst call rfl
  | @cons reads db sparse c db₁ db' sparse' grafts sparse₁ steps hcall hrest ih =>
    refine ih hcalls.tail fun next hnext => ?_
    have hfollows : c.Follows next := hcalls.follows.rel_head? hnext
    exact (hfirst c rfl).putBlocks (hcalls.valid c List.mem_cons_self).nonempty hfollows hcall

/-- Every call of a range meets the assertion of `seed` and `feed` on where the accumulators end. -/
theorem PutRange.endsRun {steps : List (CallReads H × PutBlocks H)}
    {grafts : ShieldedPool → List (Nat × H)}
    (h : PutRange up db (.opened policy verifySample) steps db' sparse' grafts)
    (hcalls : RangeCalls (steps.map Prod.snd ++ [call])) (hgraft : sparse'.graft = some ctx)
    : ∀ pool a, ctx.acc pool = some a → EndsRun (call.frontier pool).treeSize a.openShard := by
  refine h.endsAt hcalls (fun c hc ctx₀ hgraft₀ pool a hacc => ?_) ctx hgraft
  obtain ⟨n, -, rfl⟩ := Option.map_eq_some_iff.mp hgraft₀
  cases hacc

/--
What a call changes in the graft buffer, whatever the buffer holds. Its accumulators hold a run that
ends where the call's stream begins, as at every call of a range, `PutRange.endsRun`. A call that
fails or is cut short has taken the first of its steps, `sparsePutBlocks_taken`.
-/
theorem put_blocks_buffer_footprint (hgraft : sparse.graft = some ctx)
    (hends : ∀ pool a, ctx.acc pool = some a → EndsRun (call.frontier pool).treeSize a.openShard)
    (hbegin : call.begin up reads db sparse = .ok (sparse₁, done ++ rest))
    (hexec : DurableOp.execAll up db sparse₁ done = ((db', sparse'), .ok ())) (pool : ShieldedPool)
    : (∀ k, (db'.buffer pool).get? k = (db.buffer pool).get? k
        ∨ (call.Reseeds ctx pool k ∧ (db'.buffer pool).get? k = none)
        ∨ (∃ a ∈ call.actions up reads db sparse ctx pool, ∃ r ∈ a.bufferRows, ∃ v, r.key = k
          ∧ call.Feeds pool r.position ∧ PoolBuffer.encodeRow up.ser r = .ok v
          ∧ (db'.buffer pool).get? k = some v)
        ∨ (DurableOp.Commits done ∧ (∃ a ∈ call.actions up reads db sparse ctx pool, a.Clears k)
          ∧ (db'.buffer pool).get? k = none))
      ∧ (rest = [] → ∀ a ∈ call.actions up reads db sparse ctx pool,
        (∀ k, a.Clears k → (db'.buffer pool).get? k = none)
        ∧ ∀ r ∈ a.bufferRows,
          (∀ b ∈ call.actions up reads db sparse ctx pool, ¬b.Clears r.key) →
          ∃ v, PoolBuffer.encodeRow up.ser r = .ok v ∧ (db'.buffer pool).get? r.key = some v)
      ∧ (¬DurableOp.Commits done → ∀ k, ¬call.Feeds pool k.2 →
        (db'.buffer pool).get? k = (db.buffer pool).get? k) := by
  have hchanged := PutBlocks.changedBy hgraft (hends pool) hbegin hexec
  refine ⟨?_, ?_, ?_⟩
  . intro k
    rcases hchanged k with hsame | ⟨hreseeds | ⟨hcommits, hclears⟩, hnone⟩
        | ⟨r, v, ⟨a, ha, hr⟩, hkey, hencode, hv⟩
    . exact Or.inl hsame
    . exact Or.inr (Or.inl ⟨hreseeds, hnone⟩)
    . exact Or.inr (Or.inr (Or.inr ⟨hcommits, hclears, hnone⟩))
    . have hfeeds := PutBlocks.actions_fed (hends pool) ha hr
      exact Or.inr (Or.inr (Or.inl ⟨a, ha, r, hr, v, hkey, hfeeds, hencode, hv⟩))
  . rintro rfl a ha
    rw [List.append_nil] at hbegin
    by_cases hpool : pool = .ironwood
    . rw [PutBlocks.actions, if_pos hpool] at ha
      cases ha
    by_cases hblocks : call.blocks = []
    . rw [PutBlocks.actions_of_nil hblocks] at ha
      cases ha
    obtain ⟨seedOps, hruns, -⟩ := PutBlocks.planned_runs hpool (hends pool)
    obtain ⟨plan, hplan, hops⟩ := PutBlocks.bufferOps_eq hgraft hpool hblocks hbegin hexec
    have happly : BufferOp.applyAll up.ser (db.buffer pool) (DurableOp.bufferOps pool done)
        = .ok (db'.buffer pool) := execAll_bufferOps hexec
    rw [hops] at happly
    exact hruns.leaves hplan happly a ha
  . intro hbefore k hk
    apply hchanged.unchanged
    . rintro (hreseeds | ⟨hcommits, -⟩)
      . exact hk hreseeds.2.2
      . exact hbefore hcommits
    . rintro r ⟨a, ha, hr⟩ rfl
      exact hk (PutBlocks.actions_fed (hends pool) ha hr)

end Call

def staleWallet : WalletDb Nat Unit :=
  { WalletDb.fresh Nat with
    buffer := perPool (OrdMap.ofList [((0, 5), buffered 7), ((1, 70000), buffered 8)]) .empty .empty }
where
  buffered (commitment : Nat) : StoredRow Nat :=
    { commitment, retentionKind := 0, checkpointHeight := none, marking := none }

theorem put_blocks_buffer_footprint_staleWallet
    : ∃ db' sparse', sparsePutBlocks (.bare Nat) .none staleWallet (.opened none (some 0)) bufferedCall
        = ((db', sparse'), .ok ())
      ∧ (∃ v, PoolBuffer.encodeRow (Upstream.bare Nat).ser ⟨5, 1, .ephemeral⟩ = .ok v
        ∧ (db'.buffer .sapling).get? (0, 5) = some v)
      ∧ (db'.buffer .sapling).get? (1, 70000) = (staleWallet.buffer .sapling).get? (1, 70000) := by
  have hok : (sparsePutBlocks (.bare Nat) .none staleWallet (.opened none (some 0))
      bufferedCall).2.isOk = true := by
    decide +kernel
  have hacts : bufferedCall.actions (.bare Nat) .none staleWallet (.opened none (some 0))
      { verifySample := 0, acc := fun _ => none } .sapling = [.buffer [⟨5, 1, .ephemeral⟩]] := by
    decide +kernel
  generalize hput : sparsePutBlocks (.bare Nat) .none staleWallet (.opened none (some 0))
    bufferedCall = res at hok
  obtain ⟨⟨db', sparse'⟩, out⟩ := res
  cases out with
  | error e => cases hok
  | ok u =>
    refine ⟨db', sparse', rfl, ?_⟩
    unfold sparsePutBlocks at hput
    split at hput
    . next sparse₁ ops hbegin =>
      rw [← List.append_nil ops] at hbegin
      obtain ⟨hframe, hleft, -⟩ := put_blocks_buffer_footprint rfl (by simp) hbegin hput .sapling
      rw [hacts] at hframe hleft
      have hclears : ∀ k, ∀ a ∈ [FeedAction.buffer [(⟨5, 1, .ephemeral⟩ : AccRow Nat)]],
          ¬a.Clears k := by
        simp [FeedAction.Clears, FeedAction.builtRows]
      constructor
      . apply (hleft rfl _ List.mem_cons_self).2 ⟨5, 1, .ephemeral⟩ List.mem_cons_self
        exact hclears _
      . rcases hframe (1, 70000) with hsame | ⟨⟨-, hshard, -⟩, -⟩ | ⟨a, ha, r, hr, v, hkey, -⟩
            | ⟨-, ⟨a, ha, hk⟩, -⟩
        . exact hsame
        . exact absurd hshard (by decide)
        . cases List.mem_singleton.mp ha
          cases List.mem_singleton.mp hr
          exact absurd hkey (by decide)
        . exact absurd hk (hclears _ a ha)
    . cases hput

end Slipstream
