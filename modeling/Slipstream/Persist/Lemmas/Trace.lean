import Slipstream.Persist.Lemmas.Range
import Slipstream.Persist.Lemmas.Steps

/-!
This module contains what a pool's planner appends next to, and the durable steps of a call as a trace
with the wallet each step finds.
-/

namespace Slipstream

variable {H B Shard : Type}

theorem resumableRun_last [DecidableEq H] {rows : List (AccRow H)} {leaf : Option (Nat × H)}
    (h : (resumableRun rows start leaf).1 ≠ [])
    : ∃ r, (resumableRun rows start leaf).1.getLast? = some r ∧ r.position + 1 = start
      ∧ leaf = some (r.position, r.hash) := by
  unfold resumableRun at h ⊢
  dsimp only at h ⊢
  generalize rows.takeWhile (·.position < start) = below at h ⊢
  cases hlast : below.getLast? with
  | none => simp [hlast] at h
  | some r =>
    cases leaf with
    | none => simp [hlast] at h
    | some leaf =>
      rw [hlast] at h
      dsimp only at h ⊢
      split at h
      . exact absurd rfl h
      . next hends =>
        rw [if_neg hends]
        simp only [Bool.not_eq_true', Bool.not_eq_false, Bool.and_eq_true, beq_iff_eq,
          decide_eq_true_eq] at hends
        obtain ⟨⟨hstart, hposition⟩, hhash⟩ := hends
        obtain ⟨front, rfl⟩ := List.getLast?_eq_some_iff.mp hlast
        refine ⟨r, ?_, hstart, by rw [hposition, hhash]⟩
        rw [List.reverse_append, List.reverse_singleton, List.singleton_append]
        dsimp only
        rw [List.getLast?_reverse]
        cases front.reverse with
        | nil => rfl
        | cons prev rest =>
          rw [contiguousFront]
          split <;> rfl

theorem takeWhile_getLast {rows : List (AccRow H)}
    (hascending : rows.Pairwise fun a b => a.position < b.position) (hr : r ∈ rows)
    (hp : r.position + 1 = start)
    : (rows.takeWhile (·.position < start)).getLast?.any (·.position + 1 == start) = true := by
  induction rows with
  | nil => cases hr
  | cons first rest ih =>
    obtain ⟨hfirst, hrest⟩ := List.pairwise_cons.mp hascending
    cases List.mem_cons.mp hr with
    | inl heq =>
      -- Every later row lies at or above the position.
      subst heq
      have hnone : rest.takeWhile (·.position < start) = [] := by
        cases rest with
        | nil => rfl
        | cons next rest =>
          have := hfirst next List.mem_cons_self
          rw [List.takeWhile_cons_of_neg]
          simpa using by omega
      rw [List.takeWhile_cons_of_pos (by simpa using by omega), hnone]
      simpa using hp
    | inr hmem =>
      have hlt := hfirst r hmem
      have hlast := ih hrest hmem
      rw [List.takeWhile_cons_of_pos (by simpa using by omega)]
      cases htail : rest.takeWhile (·.position < start) with
      | nil =>
        rw [htail] at hlast
        cases hlast
      | cons next tail =>
        rw [htail] at hlast
        rwa [List.getLast?_cons_cons]

namespace PlanInputs

variable [DecidableEq H] {inp : PlanInputs H} {ser : HashSer H B} {buffer : PoolBuffer B}

structure Resumes (inp : PlanInputs H) (ser : HashSer H B) (buffer : PoolBuffer B) (shard p : Nat)
    : Prop where
  seedShard : shard = shardOf inp.startPosition
  adjacent : p + 1 = inp.startPosition
  run : ∃ rows run r, buffer.loadShard ser shard = .ok rows
    ∧ run = (resumableRun rows inp.startPosition inp.frontierLeaf).1
    ∧ run.getLast? = some r ∧ inp.frontierLeaf = some (p, r.hash) ∧ inp.treeRefuses run = none

theorem seed_resumes (h : inp.seed ser buffer = .ok (ops, acc))
    : ∃ o, acc.openShard = some o ∧ o.index = shardOf inp.startPosition
      ∧ (o.passthrough = false → ∀ p, p + 1 = inp.startPosition → (o.index, p) ∈ buffer.keys →
        inp.Resumes ser buffer o.index p)
      ∧ ∀ op ∈ ops, ∃ shard start stop, op = .deleteRowsIn shard start stop := by
  unfold seed at h
  dsimp only at h
  cases hread : inp.readError with
  | some e =>
    rw [hread] at h
    cases h
  | none =>
    cases hload : buffer.loadShard ser (shardOf inp.startPosition) with
    | error e =>
      rw [hread, hload] at h
      cases h
      refine ⟨_, rfl, rfl, fun hclean => ?_, by simp⟩
      simp at hclean
    | ok rows =>
      rw [hread, hload] at h
      dsimp only at h
      have hops : acc = inp.seedAcc rows false
          ∧ ∀ op ∈ ops, ∃ shard start stop, op = .deleteRowsIn shard start stop := by
        split at h <;> cases h <;> simp
      obtain ⟨rfl, hops⟩ := hops
      refine ⟨_, rfl, rfl, fun hclean p hp hkey => ?_, hops⟩
      have hmem : p ∈ rows.map AccRow.position := by
        rw [PoolBuffer.loadShard_positions hload, PoolBuffer.mem_bufferedPositions]
        exact hkey
      obtain ⟨r, hr, rfl⟩ := List.mem_map.mp hmem
      have hends := takeWhile_getLast (PoolBuffer.loadShard_ascending hload) hr hp
      dsimp only at hclean
      simp only [hends, Bool.true_and, Bool.or_eq_false_iff] at hclean
      obtain ⟨⟨-, hresume⟩, hrefusal⟩ := hclean
      simp only [hresume] at hrefusal
      obtain ⟨last, hlast, hstart, hleaf⟩ := resumableRun_last (by
        intro hnil
        rw [hnil] at hresume
        cases hresume)
      refine ⟨rfl, hp, rows, _, last, hload, rfl, hlast, ?_, ?_⟩
      . rw [hleaf]
        have : last.position = r.position := by omega
        rw [this]
      . simpa using hrefusal

end PlanInputs

def AppendedIn (trace : List (WalletDb B Shard × DurableOp H Shard)) (pool : ShieldedPool)
    (k : Nat × Nat) : Prop :=
  ∃ e ∈ trace, ∃ rows, e.2 = .buffer pool (.appendRows k.1 rows) ∧ ∃ r ∈ rows, r.position = k.2

structure Planned.Adjoins (planned : Planned H) (t : PoolBuffer B) (own : Nat × Nat → Prop) : Prop where
  appends : ∀ shard rows, .appendRows shard rows ∈ planned.ops → ∀ r ∈ rows, ∀ p, p + 1 = r.position →
    shardOf p = shard → (∃ r' ∈ rows, r'.position = p) ∨ ((shard, p) ∈ t.keys → own (shard, p))
  next : ∀ plan, planned.plan = .ok plan → ∃ a o, planned.acc = some a ∧ a.openShard = some o
    ∧ o.Reaches a.nextPosition
    ∧ (o.passthrough = false → ∀ p, p + 1 = a.nextPosition → shardOf p = o.index →
      (∃ rows, .appendRows o.index rows ∈ planned.ops ∧ ∃ r ∈ rows, r.position = p)
        ∨ ((o.index, p) ∈ t.keys → own (o.index, p)))

theorem appendRows_of_bufferOp? {acts : List (FeedAction H)}
    (h : .appendRows shard rows ∈ acts.filterMap PlanInputs.bufferOp?)
    : .buffer rows ∈ acts ∧ ∃ first, rows.head? = some first ∧ shard = shardOf first.position := by
  obtain ⟨a, ha, hop⟩ := List.mem_filterMap.mp h
  cases a with
  | buffer rows' =>
    obtain ⟨first, hfirst, heq⟩ := Option.map_eq_some_iff.mp hop
    cases heq
    exact ⟨ha, first, hfirst, rfl⟩
  | _ => cases hop

section Plan

variable {inp : PlanInputs H} {ser : HashSer H B} {t : PoolBuffer B} {own : Nat × Nat → Prop}

theorem planned_adjoins {seedOps : List (BufferOp H)} {acc : ShardAccumulator H} {o : OpenShard H}
    (ho : acc.openShard = some o) (hreaches : o.Reaches inp.startPosition)
    (hseed : ∀ op ∈ seedOps, ∃ shard start stop, op = .deleteRowsIn shard start stop)
    (hown : o.passthrough = false → ∀ p, p + 1 = inp.startPosition → shardOf p = o.index →
      (o.index, p) ∈ t.keys → own (o.index, p))
    : Planned.Adjoins
        { ops := seedOps ++ (inp.planActions .empty
            (acc.feed inp.startPosition inp.stream inp.notePositions).2).1
          acc := some (acc.feed inp.startPosition inp.stream inp.notePositions).1
          plan := (inp.planActions .empty
            (acc.feed inp.startPosition inp.stream inp.notePositions).2).2 } t own := by
  obtain ⟨o', hacc, hbuffers⟩ := acc.feed_buffers ho hreaches inp.stream inp.notePositions
  rw [hacc]
  generalize (acc.feed inp.startPosition inp.stream inp.notePositions).2 = acts at hbuffers ⊢
  constructor
  case appends =>
    intro shard rows hop r hr p hp hshard
    rcases List.mem_append.mp hop with hop | hop
    . obtain ⟨_, _, _, heq⟩ := hseed _ hop
      cases heq
    obtain ⟨hbuffer, head, hhead, rfl⟩ := appendRows_of_bufferOp? (PlanInputs.planActions_ops _ hop)
    obtain ⟨first, hrun, hsame, hfirst⟩ := hbuffers.spans rows hbuffer
    rw [hsame head (List.mem_of_mem_head? hhead)] at hshard ⊢
    have hr := hrun.position_mem hr
    by_cases heq : r.position = first
    . apply Or.inr
      have hbelow := (shardOf_eq_iff p _).mp hshard
      rcases hfirst with hfirst | ⟨rfl, hindex, hclean⟩
      . omega
      . rw [← hindex] at hshard ⊢
        exact hown hclean p (by omega) hshard
    . apply Or.inl
      have hmem := (hrun.mem_iff p).mpr ⟨by omega, by omega⟩
      obtain ⟨r', hr', hp'⟩ := List.mem_map.mp hmem
      exact ⟨r', hr', hp'⟩
  case next =>
    intro plan hplan
    refine ⟨_, o', rfl, rfl, hbuffers.reaches, fun hclean p hp hshard => ?_⟩
    dsimp only at hp
    by_cases hnil : inp.stream = []
    . apply Or.inr
      have := (hbuffers.idle hnil).1
      subst this
      rw [hnil, List.length_nil, Nat.add_zero] at hp
      exact hown hclean p hp hshard
    . apply Or.inl
      obtain ⟨rows, hrows, r, hr, hlast⟩ := hbuffers.last hnil hclean
      have hpos : r.position = p := by omega
      obtain ⟨first, -, hsame, -⟩ := hbuffers.spans rows hrows
      have hops : (inp.planActions .empty acts).1 = acts.filterMap PlanInputs.bufferOp? :=
        (PlanInputs.planActions_planned (Prod.ext rfl hplan)).2
      cases hhead : rows.head? with
      | none =>
        rw [List.head?_eq_none_iff.mp hhead] at hr
        cases hr
      | some head =>
        refine ⟨rows, ?_, r, hr, hpos⟩
        apply List.mem_append_right
        rw [hops]
        refine List.mem_filterMap.mpr ⟨_, hrows, ?_⟩
        simp only [PlanInputs.bufferOp?, hhead, Option.map_some]
        rw [hsame head (List.mem_of_mem_head? hhead), ← hsame r hr, hpos, hshard]

theorem planPool_adjoins [DecidableEq H] {acc : Option (ShardAccumulator H)}
    (hsome : ∀ a, acc = some a → ∃ o, a.openShard = some o ∧ o.Reaches inp.startPosition
      ∧ (o.passthrough = false → ∀ p, p + 1 = inp.startPosition → shardOf p = o.index →
        (o.index, p) ∈ t.keys → own (o.index, p)))
    (hnone : acc = none → ∀ k, inp.Resumes ser t k.1 k.2 → own k)
    : (planPool ser t acc inp).Adjoins t own := by
  cases acc with
  | some a =>
    obtain ⟨o, ho, hreaches, hown⟩ := hsome a rfl
    exact planned_adjoins ho hreaches (by simp) hown
  | none =>
    unfold planPool
    cases hseed : inp.seed ser t with
    | error e => exact ⟨by simp, fun plan hplan => by cases hplan⟩
    | ok seeded =>
      obtain ⟨ops, acc⟩ := seeded
      obtain ⟨o, ho, hindex, hresumes, hops⟩ := PlanInputs.seed_resumes hseed
      apply planned_adjoins ho (Or.inl hindex) hops
      intro hclean p hp _ hkey
      exact hnone rfl _ (hresumes hclean p hp hkey)

end Plan

section Trace

variable {up : Upstream H B Shard} {db db' : WalletDb B Shard}
  {sparse sparse' : SparseTreeState H Shard}

def DurableOp.trace (up : Upstream H B Shard) (db : WalletDb B Shard) (sparse : SparseTreeState H Shard)
    : List (DurableOp H Shard) → List (WalletDb B Shard × DurableOp H Shard)
  | [] => []
  | op :: rest =>
    (db, op) ::
      match op.exec up db sparse with
      | .ok (db, sparse) => trace up db sparse rest
      | .error _ => []

theorem exec_buffered {op : DurableOp H Shard} (h : op.exec up db sparse = .ok (db', sparse'))
    (pool : ShieldedPool)
    : (∃ b, op = .buffer pool b ∧ b.apply up.ser (db.buffer pool) = .ok (db'.buffer pool))
      ∨ (∀ b, op ≠ .buffer pool b) ∧ db'.buffer pool = db.buffer pool := by
  cases op with
  | buffer other b =>
    obtain ⟨t, ht, rfl, rfl⟩ := exec_buffer h
    by_cases hpool : pool = other
    . cases hpool
      refine Or.inl ⟨b, rfl, ?_⟩
      rw [ht, WalletDb.setBuffer]
      dsimp only
      rw [Function.update_self]
    . refine Or.inr ⟨?_, Function.update_of_ne hpool _ _⟩
      rintro b' heq
      cases heq
      exact hpool rfl
  | transact call plans =>
    obtain ⟨⟨db₁, trees⟩, htransact, h⟩ := bind_eq_ok.mp h
    cases h
    exact Or.inr ⟨by simp, congrFun (transact_committed htransact).buffer pool⟩
  | finish rows =>
    have hflushed : Flushed _ (fun _ _ _ => True) db db' sparse sparse' :=
      (exec_finish_flushed (fun _ _ _ _ => trivial) h).1
    exact Or.inr ⟨by simp, congrFun hflushed.buffer pool⟩
  | flushTree other rows tree =>
    have hflushed : Flushed _ (fun _ _ _ => True) db db' sparse sparse' :=
      (exec_flushTree_flushed trivial h).1
    exact Or.inr ⟨by simp, congrFun hflushed.buffer pool⟩
  | queueRescan blocks =>
    cases h
    exact Or.inr ⟨by simp, rfl⟩
  | fail detail => cases h

theorem exec_keys {op : DurableOp H Shard} (h : op.exec up db sparse = .ok (db', sparse'))
    (hk : k ∈ (db'.buffer pool).keys)
    : k ∈ (db.buffer pool).keys ∨ AppendedIn [(db, op)] pool k := by
  rcases exec_buffered h pool with ⟨b, rfl, hb⟩ | ⟨-, hsame⟩
  . cases b with
    | deleteRowsIn shard start stop =>
      rw [← Except.ok.inj hb] at hk
      exact Or.inl (PoolBuffer.mem_keys_deleteRowsIn.mp hk).1
    | deleteFromPosition minPosition =>
      rw [← Except.ok.inj hb] at hk
      exact Or.inl (PoolBuffer.mem_keys_deleteFromPosition.mp hk).1
    | appendRows shard rows =>
      rcases (PoolBuffer.mem_keys_appendRows hb).mp hk with hk | ⟨rfl, r, hr, hp⟩
      . exact Or.inl hk
      . exact Or.inr ⟨_, List.mem_singleton_self _, rows, rfl, r, hr, hp⟩
  . rw [hsame] at hk
    exact Or.inl hk

theorem AppendedIn.mono {trace trace' : List (WalletDb B Shard × DurableOp H Shard)}
    (h : AppendedIn trace pool k) (hsub : ∀ e ∈ trace, e ∈ trace') : AppendedIn trace' pool k := by
  obtain ⟨e, he, rows, hop, hr⟩ := h
  exact ⟨e, hsub e he, rows, hop, hr⟩

theorem DurableOp.trace_split {ops : List (DurableOp H Shard)}
    (h : DurableOp.trace up db sparse ops = before ++ (db', op) :: after)
    : op ∈ ops ∧ ∀ pool k, k ∈ (db'.buffer pool).keys →
        k ∈ (db.buffer pool).keys ∨ AppendedIn before pool k := by
  induction ops generalizing db sparse before with
  | nil =>
    rw [trace] at h
    cases before <;> cases h
  | cons first rest ih =>
    rw [trace] at h
    cases before with
    | nil =>
      cases h
      exact ⟨List.mem_cons_self, fun _ _ hk => Or.inl hk⟩
    | cons e before =>
      rw [List.cons_append, List.cons.injEq] at h
      obtain ⟨rfl, h⟩ := h
      split at h
      . next db₁ sparse₁ hexec =>
        obtain ⟨hop, hkeys⟩ := ih h
        refine ⟨List.mem_cons_of_mem _ hop, fun pool k hk => ?_⟩
        rcases hkeys pool k hk with hk | hk
        . rcases exec_keys hexec hk with hk | hk
          . exact Or.inl hk
          . exact Or.inr (hk.mono (by simp))
        . exact Or.inr (hk.mono fun e he => List.mem_cons_of_mem _ he)
      . cases before <;> cases h

theorem DurableOp.trace_all {ops : List (DurableOp H Shard)}
    (h : DurableOp.execAll up db sparse ops = ((db', sparse'), .ok ()))
    : (∀ op ∈ ops, ∃ found, (found, op) ∈ DurableOp.trace up db sparse ops)
      ∧ ∀ pool k, k ∈ (db'.buffer pool).keys →
        k ∈ (db.buffer pool).keys ∨ AppendedIn (DurableOp.trace up db sparse ops) pool k := by
  induction ops generalizing db sparse with
  | nil =>
    cases h
    exact ⟨by simp, fun _ _ hk => Or.inl hk⟩
  | cons first rest ih =>
    rw [DurableOp.execAll] at h
    split at h
    . next db₁ sparse₁ hexec =>
      obtain ⟨hall, hkeys⟩ := ih h
      rw [trace, hexec]
      dsimp only
      constructor
      . intro op hop
        cases List.mem_cons.mp hop with
        | inl heq => exact ⟨db, by simp [heq]⟩
        | inr hop =>
          obtain ⟨found, hfound⟩ := hall op hop
          exact ⟨found, List.mem_cons_of_mem _ hfound⟩
      . intro pool k hk
        rcases hkeys pool k hk with hk | hk
        . rcases exec_keys hexec hk with hk | hk
          . exact Or.inl hk
          . exact Or.inr (hk.mono (by simp))
        . exact Or.inr (hk.mono fun e he => List.mem_cons_of_mem _ he)
    . cases h

theorem PutBlocks.mem_planOps {planned : Planned H} {next : PoolPlan H → List (DurableOp H Shard)}
    : op ∈ planOps pool planned next
        ↔
      (∃ b ∈ planned.ops, op = .buffer pool b) ∨ (∃ plan, planned.plan = .ok plan ∧ op ∈ next plan)
        ∨ ∃ e, planned.plan = .error e ∧ op = .fail e := by
  unfold planOps
  rw [List.mem_append, List.mem_map]
  cases planned.plan <;> simp [eq_comm]

theorem append_eq_append_cons {xs ys before after : List α}
    (h : xs ++ ys = before ++ e :: after)
    : (∃ left, xs = before ++ e :: left) ∨ ∃ done, before = xs ++ done ∧ ys = done ++ e :: after := by
  rcases List.append_eq_append_iff.mp h with ⟨done, hbefore, hys⟩ | ⟨left, hxs, hrest⟩
  . exact Or.inr ⟨done, hbefore, hys⟩
  . cases left with
    | nil => exact Or.inr ⟨[], by simpa using hxs.symm, hrest.symm⟩
    | cons e' left =>
      cases hrest
      exact Or.inl ⟨left, hxs⟩

end Trace

end Slipstream
