import Slipstream.Persist.Lemmas.Mirror

/-!
This module contains what becomes of the positions in the shards of a store: which ones the commitment
tree library keeps and adds, which ones a lane builds, and what its grafts leave of the rest.
-/

namespace Slipstream

variable {H B Shard : Type}

def Held (holds : Shard → Nat → Prop) (shards : OrdMap Nat Shard) (p : Nat) : Prop :=
  ∃ shard, shards.get? (shardOf p) = some shard ∧ holds shard p

structure ShardTreeApi.HoldsRows (api : ShardTreeApi H Shard) (holds : Shard → Nat → Prop)
    (live : Nat → Prop) (takes : Retention → Prop) : Prop where
  frontier : ∀ shards f id puts p, api.insertFrontierNodes shards f id = .ok puts → live p →
    Held holds shards p → Held holds (shards.insertAll puts.shards) p
  subtree : ∀ shards t puts p, api.insertSubtree shards t = .ok puts → live p →
    Held holds shards p → Held holds (shards.insertAll puts.shards) p
  flags : ∀ shards cut puts p, api.clearFlags shards cut = .ok puts → live p →
    Held holds shards p → Held holds (shards.insertAll puts.shards) p
  added : ∀ shards t puts, api.insertSubtree shards t = .ok puts →
    ∀ r ∈ rowsFrom t.start t.rows, takes r.retention → live r.position →
      Held holds (shards.insertAll puts.shards) r.position

/-- Here a shard holds the leaf of a position, so that a root-only shard holds none. -/
structure ShardTreeApi.KeepsLeaves (api : ShardTreeApi H Shard) (holds : Shard → Nat → Prop)
    (live : Nat → Prop) : Prop extends
    ShardTreeApi.HoldsRows api holds live fun retention => retention.isMarked = true where
  interior : ∀ shard p, holds shard p → api.isLeaf shard = false

/-- Here a shard holds a position that one of its hashes covers: its leaf's, or that of a subtree
above it, as pruning leaves it. A root-only shard covers all of its positions. -/
structure ShardTreeApi.Covers (api : ShardTreeApi H Shard) (holds : Shard → Nat → Prop) : Prop extends
    ShardTreeApi.HoldsRows api holds (fun _ => True) (fun _ => True) where
  leaf : ∀ root p, holds (api.leaf root) p

section Marks

theorem downgradeIfDoomed_isMarked (retention : Retention) (cutoff : Nat)
    (policy : Option AnchorRetention)
    : (downgradeIfDoomed retention cutoff policy).1.isMarked = retention.isMarked := by
  unfold downgradeIfDoomed
  split
  . split
    . next marking _ => cases marking <;> rfl
    . rfl
  . rfl

theorem exists_downgradeBelow {rows : List (H × Retention)} {r : AccRow H} (cutoff : Option Nat)
    (policy : Option AnchorRetention) (h : r ∈ rowsFrom start rows)
    : ∃ r' ∈ rowsFrom start (downgradeBelow rows cutoff policy), r'.position = r.position
      ∧ r'.retention.isMarked = r.retention.isMarked := by
  cases cutoff with
  | none => exact ⟨r, h, rfl, rfl⟩
  | some cutoff =>
    obtain ⟨i, c, hc, rfl⟩ := mem_rowsFrom.mp h
    refine ⟨⟨start + i, c.1, (downgradeIfDoomed c.2 cutoff policy).1⟩, mem_rowsFrom.mpr ?_, rfl, ?_⟩
    . refine ⟨i, (c.1, (downgradeIfDoomed c.2 cutoff policy).1), ?_, rfl⟩
      simp [downgradeBelow, downgradeDoomedCheckpoints, hc]
    . apply downgradeIfDoomed_isMarked

end Marks

namespace SparseShardStore

variable {api : ShardTreeApi H Shard} {holds : Shard → Nat → Prop} {live : Nat → Prop}
  {takes : Retention → Prop} {s s' : SparseShardStore Shard}

theorem foldl_putShard_shards (es : List (Nat × Shard)) (s : SparseShardStore Shard)
    : (es.foldl putShard s).shards = s.shards.insertAll es := by
  induction es generalizing s with
  | nil => rfl
  | cons e es ih =>
    rw [List.foldl_cons, ih, OrdMap.insertAll_cons]
    rfl

theorem apply_shards (s : SparseShardStore Shard) (puts : TreePuts Shard)
    : (s.apply puts).shards = s.shards.insertAll puts.shards := by
  unfold apply
  cases puts.cap <;> apply foldl_putShard_shards

theorem held_keeps (hapi : api.HoldsRows holds live takes) (hp : live p)
    : Keeps api (fun s => Held holds s.shards p) where
  side _ _ _ _ h := h
  frontier s f id puts hputs h := by
    rw [apply_shards]
    apply hapi.frontier _ _ _ _ _ hputs hp h
  subtree s t puts hputs h := by
    rw [apply_shards]
    apply hapi.subtree _ _ _ _ hputs hp h
  flags s cut puts hputs h := by
    rw [apply_shards]
    apply hapi.flags _ _ _ _ hputs hp h

theorem insertTree_held (hapi : api.HoldsRows holds live takes) {t : Subtree H}
    (h : s.insertTree api t = .ok s') (hr : r ∈ rowsFrom t.start t.rows)
    (htakes : takes r.retention) (hlive : live r.position)
    : Held holds s'.shards r.position := by
  unfold insertTree at h
  obtain ⟨puts, hputs, h⟩ := bind_eq_ok.mp h
  apply (held_keeps hapi hlive).prune h
  apply (held_keeps hapi hlive).addCheckpoints
  rw [apply_shards]
  apply hapi.added _ _ _ hputs r hr htakes hlive

theorem insertSubtrees_held (hapi : api.HoldsRows holds live takes) {subtrees : List (Subtree H)}
    (h : s.insertSubtrees api policy subtrees = .ok s')
    (hr : r ∈ subtrees.flatMap fun t => rowsFrom t.start t.rows)
    (htakes : takes r.retention) (hlive : live r.position)
    : Held holds s'.shards r.position := by
  unfold insertSubtrees at h
  induction subtrees generalizing s with
  | nil => cases hr
  | cons t rest ih =>
    rw [List.foldlM_cons] at h
    obtain ⟨u, hu, hrest⟩ := bind_eq_ok.mp h
    rw [List.flatMap_cons, List.mem_append] at hr
    cases hr with
    | inl hr =>
      apply (held_keeps hapi hlive).insertSubtrees hrest
      apply insertTree_held hapi hu hr htakes hlive
    | inr hr => exact ih hrest hr

end SparseShardStore

namespace Lane

open SparseShardStore

variable {api : ShardTreeApi H Shard} {holds : Shard → Nat → Prop} {live : Nat → Prop}
  {takes : Retention → Prop} {lane : Lane H} {s s' : SparseShardStore Shard}

def grafted (lane : Lane H) : List Nat :=
  match lane.plan with
  | none => []
  | some plan => plan.grafts.map Prod.fst

theorem graft_shards (api : ShardTreeApi H Shard) (lane : Lane H) (s : SparseShardStore Shard)
    : ∃ es : List (Nat × Shard), (lane.graft api s).shards = s.shards.insertAll es
      ∧ es.map Prod.fst = lane.grafted ∧ ∀ e ∈ es, ∃ root, e.2 = api.leaf root := by
  unfold graft grafted
  cases hplan : lane.plan with
  | none => exact ⟨[], rfl, rfl, by simp⟩
  | some plan =>
    have hfold := foldl_putShard_shards (plan.grafts.map fun g => (g.1, api.leaf g.2)) s
    rw [List.foldl_map] at hfold
    refine ⟨_, hfold, by simp [Function.comp_def], fun e he => ?_⟩
    obtain ⟨g, -, rfl⟩ := List.mem_map.mp he
    exact ⟨g.2, rfl⟩

theorem graft_get? (lane : Lane H) (s : SparseShardStore Shard) (h : k ∉ lane.grafted)
    : (lane.graft api s).shards.get? k = s.shards.get? k := by
  obtain ⟨es, hes, hkeys, -⟩ := lane.graft_shards api s
  rw [hes]
  apply OrdMap.get?_insertAll_of_not_mem
  rwa [hkeys]

theorem run_kept (hapi : api.HoldsRows holds live takes) (h : lane.run api policy s = .ok s')
    (hlive : live p) (hp : Held holds s.shards p) (hgrafted : shardOf p ∉ lane.grafted)
    : Held holds s'.shards p := by
  apply (held_keeps hapi hlive).run h
  unfold Held
  rw [lane.graft_get? s hgrafted]
  exact hp

theorem run_held (hapi : api.HoldsRows holds live takes) (h : lane.run api policy s = .ok s')
    (hseg : seg ∈ lane.segments) (hr : r ∈ rowsFrom seg.1 seg.2)
    (htakes : ∀ retention, retention.isMarked = r.retention.isMarked → takes retention)
    (hlive : live r.position)
    : Held holds s'.shards r.position := by
  unfold run at h
  obtain ⟨u, hu, h⟩ := bind_eq_ok.mp h
  obtain ⟨v, hv, h⟩ := bind_eq_ok.mp h
  obtain ⟨r', hr', hposition, hmark⟩ := exists_downgradeBelow (lane.cutoff s) policy hr
  have hin : r' ∈ (lane.subtrees api policy s).flatMap fun t => rowsFrom t.start t.rows := by
    unfold subtrees
    unfold segments at hseg
    cases hplan : lane.plan with
    | none =>
      rw [hplan] at hseg
      cases List.mem_singleton.mp hseg
      rwa [buildSubtrees_rows]
    | some plan =>
      rw [hplan] at hseg
      dsimp only
      rw [List.flatMap_assoc, List.mem_flatMap]
      refine ⟨seg, hseg, ?_⟩
      rwa [buildSubtrees_rows]
  rw [← hposition] at hlive ⊢
  have hbuilt := insertSubtrees_held hapi (mapError_eq_ok.mp hv) hin (htakes _ hmark) hlive
  unfold Lane.ensure at h
  split at h
  . cases h
  . cases h
    apply (held_keeps hapi hlive).addCheckpoints
    exact hbuilt

theorem run_grafted (hapi : api.Covers holds) (h : lane.run api policy s = .ok s')
    (hgrafted : shardOf p ∈ lane.grafted) : Held holds s'.shards p := by
  apply (held_keeps hapi.toHoldsRows trivial).run h
  obtain ⟨es, hes, hkeys, hleaf⟩ := lane.graft_shards api s
  rw [← hkeys] at hgrafted
  obtain ⟨shard, hshard, hmem⟩ := s.shards.exists_get?_insertAll hgrafted
  obtain ⟨root, hroot⟩ := hleaf _ hmem
  dsimp only at hroot ⊢
  rw [hroot] at hshard
  rw [hes]
  exact ⟨_, hshard, hapi.leaf root p⟩

theorem run_covers (hapi : api.Covers holds) (h : lane.run api policy s = .ok s')
    (hp : Held holds s.shards p) : Held holds s'.shards p := by
  by_cases hgrafted : shardOf p ∈ lane.grafted
  . exact run_grafted hapi h hgrafted
  . exact run_kept hapi.toHoldsRows h trivial hp hgrafted

end Lane

theorem insertDeferredRows_covers {api : ShardTreeApi H Shard} {holds : Shard → Nat → Prop}
    {s s' : SparseShardStore Shard} {rows : List (AccRow H)} (hapi : api.Covers holds)
    (hrun : RunFrom first rows) (h : insertDeferredRows api s rows policy label = .ok (some s'))
    (hr : r ∈ rows) : Held holds s'.shards r.position := by
  unfold insertDeferredRows at h
  split at h
  . cases h
  . next start items hseg =>
    obtain ⟨u, hu, h⟩ := bind_eq_ok.mp h
    cases h
    rw [← rowsFrom_of_segment hrun hseg] at hr
    obtain ⟨r', hr', hposition, -⟩ :=
      exists_downgradeBelow (deferredBuildCutoff s.checkpoints.keys items) policy hr
    rw [← hposition]
    apply SparseShardStore.insertSubtrees_held hapi.toHoldsRows (mapError_eq_ok.mp hu) _ trivial trivial
    rwa [buildSubtrees_rows]

section Ledger

def Subtree.taken (takes : Retention → Bool) (t : Subtree H) : Finset Nat :=
  (((rowsFrom t.start t.rows).filter (takes ·.retention)).map AccRow.position).toFinset

/-- A library whose shards list the positions they took, and say whether they began root-only. -/
def Upstream.ledger (H : Type) (takes : Retention → Bool) : Upstream H H (Bool × Finset Nat) where
  insertFrontierNodes _ _ _ := .ok ⟨[], none⟩
  insertSubtree shards t :=
    let taken := (rowsFrom t.start t.rows).filter (takes ·.retention)
    .ok ⟨taken.map fun r =>
      let shard := (shards.get? (shardOf r.position)).getD (false, ∅)
      (shardOf r.position, (shard.1, shard.2 ∪ t.taken takes)), none⟩
  clearFlags _ _ := .ok ⟨[], none⟩
  leaf _ := (true, ∅)
  isLeaf shard := shard.1 && decide (shard.2 = ∅)
  cut _ rows := [rows]
  cut_flatten := flatten_uncut
  ser := { write := .ok, read := .ok }
  emptyShard _ := (false, ∅)
  insertFrontierInto shard _ _ := some shard
  insertSubtreeInto shard t := .ok (shard.1, shard.2 ∪ t.taken takes)
  leafAt _ _ := none
  contentRoot _ := none
  truncateShards shards _ := shards
  truncateCap cap _ := cap

theorem Upstream.ledger_holdsRows {takes : Retention → Bool} {holds : Bool × Finset Nat → Nat → Prop}
    (hmono : ∀ shard s p, holds shard p → holds (shard.1, shard.2 ∪ s) p)
    (hin : ∀ shard p, p ∈ shard.2 → holds shard p) (live : Nat → Prop)
    : (Upstream.ledger H takes).HoldsRows holds live fun retention => takes retention = true where
  frontier shards f id puts p hputs _ h := by
    cases hputs
    exact h
  flags shards cut puts p hputs _ h := by
    cases hputs
    exact h
  subtree shards t puts p hputs _ h := by
    cases hputs
    obtain ⟨shard, hshard, hp⟩ := h
    dsimp only
    generalize hentries : List.map _ _ = entries
    by_cases hkey : shardOf p ∈ entries.map Prod.fst
    . obtain ⟨content, hcontent, hentry⟩ := shards.exists_get?_insertAll hkey
      refine ⟨content, hcontent, ?_⟩
      rw [← hentries] at hentry
      obtain ⟨r, -, heq⟩ := List.mem_map.mp hentry
      obtain ⟨hindex, rfl⟩ := Prod.mk.inj heq
      rw [hindex, hshard]
      exact hmono shard _ p hp
    . refine ⟨shard, ?_, hp⟩
      rwa [shards.get?_insertAll_of_not_mem hkey]
  added shards t puts hputs r hr htaken _ := by
    cases hputs
    dsimp only
    generalize hentries : List.map _ _ = entries
    have hmem : r ∈ (rowsFrom t.start t.rows).filter (takes ·.retention) :=
      List.mem_filter.mpr ⟨hr, htaken⟩
    have hkey : shardOf r.position ∈ entries.map Prod.fst := by
      rw [← hentries, List.map_map]
      exact List.mem_map_of_mem hmem
    obtain ⟨content, hcontent, hentry⟩ := shards.exists_get?_insertAll hkey
    refine ⟨content, hcontent, ?_⟩
    rw [← hentries] at hentry
    obtain ⟨r', -, heq⟩ := List.mem_map.mp hentry
    obtain ⟨-, rfl⟩ := Prod.mk.inj heq
    apply hin
    apply Finset.mem_union_right
    exact List.mem_toFinset.mpr (List.mem_map_of_mem hmem)

def ledgerWallet (B : Type) : WalletDb B (Bool × Finset Nat) where
  trees _ := { shards := .empty, cap := (false, ∅), checkpoints := .empty, retained := ∅ }
  buffer _ := .empty
  scanned := ∅

end Ledger

end Slipstream
