import Slipstream.Graft.Lemmas.Buffer
import Slipstream.Graft.Lemmas.Feed
import Slipstream.Persist.Lemmas.Stream
import Slipstream.Persist.Lemmas.Store

/-!
This module contains what a pool's planner makes of a call: the shard it starts from, and what each
action of the accumulator adds to the plan.
-/

namespace Slipstream

variable {H B : Type}

namespace PlanInputs

variable {inp : PlanInputs H}

def Grafts (inp : PlanInputs H) (shard : Nat) (rows : List (AccRow H)) (root : H) : Prop :=
  inp.containsAnchor rows = false ∧ inp.serverRoot shard = .ok (some root)
    ∧ inp.audits shard = false

theorem closeShard_cases (h : inp.closeShard plan shard rows = .ok plan')
    : plan'.cleanupSpans = plan.cleanupSpans ++ (fedSpan rows).toList
      ∧ ((∃ root, inp.Grafts shard rows root ∧ plan'.grafts = plan.grafts ++ [(shard, root)]
          ∧ plan'.segments = plan.segments)
        ∨ (∀ root, ¬inp.Grafts shard rows root) ∧ plan'.grafts = plan.grafts
          ∧ plan'.segments = plan.segments ++ (rowsToSegment rows).toList) := by
  unfold closeShard at h
  split at h
  . next hanchor =>
    cases h
    refine ⟨rfl, Or.inr ⟨?_, rfl, rfl⟩⟩
    rintro root ⟨hnone, -, -⟩
    rw [hnone] at hanchor
    cases hanchor
  . next hanchor =>
    obtain ⟨answer, hanswer, h⟩ := bind_eq_ok.mp h
    cases answer with
    | none =>
      cases h
      refine ⟨rfl, Or.inr ⟨?_, rfl, rfl⟩⟩
      rintro root ⟨-, hroot, -⟩
      rw [hanswer] at hroot
      cases hroot
    | some root =>
      dsimp only at h
      split at h
      . next haudit =>
        cases h
        refine ⟨rfl, Or.inr ⟨?_, rfl, rfl⟩⟩
        rintro _ ⟨-, -, hnone⟩
        rw [hnone] at haudit
        cases haudit
      . next haudit =>
        cases h
        refine ⟨rfl, Or.inl ⟨root, ⟨?_, hanswer, ?_⟩, rfl, rfl⟩⟩
        . simpa using hanchor
        . simpa using haudit

def bufferOp? : FeedAction H → Option (BufferOp H)
  | .buffer rows => rows.head?.map fun first => .appendRows (shardOf first.position) rows
  | _ => none

structure Planned (inp : PlanInputs H) (actions : List (FeedAction H)) (plan plan' : PoolPlan H)
    : Prop where
  cleanupSpans : plan'.cleanupSpans
    = plan.cleanupSpans ++ actions.flatMap fun a => (fedSpan a.builtRows).toList
  segments : ∀ seg ∈ plan'.segments, seg ∈ plan.segments
    ∨ ∃ a ∈ actions, rowsToSegment a.builtRows = some seg
  grafts : ∀ g, g ∈ plan'.grafts ↔ g ∈ plan.grafts
    ∨ ∃ rows, .closeCleanShard g.1 rows ∈ actions ∧ inp.Grafts g.1 rows g.2
  kept : ∀ seg ∈ plan.segments, seg ∈ plan'.segments
  built : ∀ a ∈ actions, ∀ seg, rowsToSegment a.builtRows = some seg → seg ∈ plan'.segments
    ∨ ∃ shard rows root, a = .closeCleanShard shard rows ∧ (shard, root) ∈ plan'.grafts

theorem Planned.cons {actions : List (FeedAction H)} {plan mid plan' : PoolPlan H}
    (h : Planned inp actions mid plan')
    (hspans : mid.cleanupSpans = plan.cleanupSpans ++ (fedSpan a.builtRows).toList)
    (hsegments : ∀ seg, seg ∈ mid.segments → seg ∈ plan.segments
      ∨ rowsToSegment a.builtRows = some seg)
    (hgrafts : ∀ g, g ∈ mid.grafts ↔ g ∈ plan.grafts
      ∨ ∃ rows, a = .closeCleanShard g.1 rows ∧ inp.Grafts g.1 rows g.2)
    (hkept : ∀ seg ∈ plan.segments, seg ∈ mid.segments)
    (hbuilt : ∀ seg, rowsToSegment a.builtRows = some seg → seg ∈ mid.segments
      ∨ ∃ shard rows root, a = .closeCleanShard shard rows ∧ (shard, root) ∈ mid.grafts)
    : Planned inp (a :: actions) plan plan' := by
  constructor
  case cleanupSpans => rw [h.cleanupSpans, hspans, List.flatMap_cons, List.append_assoc]
  case segments =>
    intro seg hseg
    rcases h.segments seg hseg with hseg | ⟨b, hb, hseg⟩
    . rcases hsegments seg hseg with hseg | hseg
      . exact Or.inl hseg
      . exact Or.inr ⟨a, List.mem_cons_self, hseg⟩
    . exact Or.inr ⟨b, List.mem_cons_of_mem _ hb, hseg⟩
  case grafts =>
    intro g
    rw [h.grafts, hgrafts, or_assoc]
    apply or_congr_right
    simp only [List.mem_cons, or_and_right, exists_or, eq_comm]
  case kept => exact fun seg hseg => h.kept seg (hkept seg hseg)
  case built =>
    intro b hb seg hseg
    rcases List.mem_cons.mp hb with rfl | hb
    . rcases hbuilt seg hseg with hmid | ⟨shard, rows, root, rfl, hmid⟩
      . exact Or.inl (h.kept seg hmid)
      . exact Or.inr ⟨shard, rows, root, rfl, (h.grafts _).mpr (Or.inl hmid)⟩
    . exact h.built b hb seg hseg

theorem planActions_planned {actions : List (FeedAction H)}
    (h : inp.planActions plan actions = (ops, .ok plan'))
    : Planned inp actions plan plan' ∧ ops = actions.filterMap bufferOp? := by
  induction actions generalizing plan ops with
  | nil =>
    cases h
    exact ⟨⟨by simp, fun _ h => Or.inl h, by simp, fun _ h => h, by simp⟩, rfl⟩
  | cons a rest ih =>
    cases a with
    | build rows =>
      obtain ⟨hplanned, hops⟩ := ih h
      refine ⟨hplanned.cons rfl ?_ ?_ ?_ ?_, hops⟩
      . intro seg hseg
        simpa [addBuild, FeedAction.builtRows, Option.mem_toList, eq_comm] using hseg
      . simp [addBuild]
      . intro seg hseg
        exact List.mem_append_left _ hseg
      . intro seg hseg
        apply Or.inl
        apply List.mem_append_right
        rw [Option.mem_toList]
        exact hseg
    | closeCleanShard shard rows =>
      rw [planActions] at h
      cases hclose : inp.closeShard plan shard rows with
      | error e =>
        rw [hclose] at h
        cases h
      | ok mid =>
        rw [hclose] at h
        obtain ⟨hplanned, hops⟩ := ih h
        obtain ⟨hspans, ⟨root, hgraft, hgrafts, hsegments⟩ | ⟨hnone, hgrafts, hsegments⟩⟩ :=
          closeShard_cases hclose
        . refine ⟨hplanned.cons hspans ?_ ?_ ?_ ?_, hops⟩
          . intro seg hseg
            rw [hsegments] at hseg
            exact Or.inl hseg
          . intro g
            rw [hgrafts, List.mem_append, List.mem_singleton]
            apply or_congr_right
            constructor
            . rintro rfl
              exact ⟨rows, rfl, hgraft⟩
            . rintro ⟨_, heq, hother⟩
              cases heq
              have := hgraft.2.1.symm.trans hother.2.1
              cases this
              rfl
          . intro seg hseg
            rwa [hsegments]
          . intro seg hseg
            refine Or.inr ⟨shard, rows, root, rfl, ?_⟩
            rw [hgrafts]
            simp
        . refine ⟨hplanned.cons hspans ?_ ?_ ?_ ?_, hops⟩
          . intro seg hseg
            rw [hsegments] at hseg
            simpa [FeedAction.builtRows, eq_comm] using hseg
          . intro g
            rw [hgrafts]
            refine ⟨Or.inl, fun hg => hg.resolve_right ?_⟩
            rintro ⟨_, heq, hother⟩
            cases heq
            exact hnone _ hother
          . intro seg hseg
            rw [hsegments]
            exact List.mem_append_left _ hseg
          . intro seg hseg
            apply Or.inl
            rw [hsegments]
            apply List.mem_append_right
            rw [Option.mem_toList]
            exact hseg
    | buffer rows =>
      rw [planActions] at h
      cases hrest : inp.planActions plan rest with
      | mk ops₁ res =>
        rw [hrest] at h
        cases hhead : rows.head? with
        | none =>
          simp only [hhead] at h
          cases h
          obtain ⟨hplanned, hops⟩ := ih hrest
          refine ⟨hplanned.cons ?_ ?_ ?_ ?_ ?_, ?_⟩
          all_goals simp [FeedAction.builtRows, fedSpan, rowsToSegment, bufferOp?, hhead, hops]
        | some first =>
          simp only [hhead] at h
          cases h
          obtain ⟨hplanned, hops⟩ := ih hrest
          refine ⟨hplanned.cons ?_ ?_ ?_ ?_ ?_, ?_⟩
          all_goals simp [FeedAction.builtRows, fedSpan, rowsToSegment, bufferOp?, hhead, hops]

theorem planActions_ops {actions : List (FeedAction H)}
    : ∀ op ∈ (inp.planActions plan actions).1, op ∈ actions.filterMap bufferOp? := by
  induction actions generalizing plan with
  | nil => simp [planActions]
  | cons a rest ih =>
    intro op hop
    cases a with
    | build rows => exact ih op hop
    | closeCleanShard shard rows =>
      rw [planActions] at hop
      split at hop
      . cases hop
      . exact ih op hop
    | buffer rows =>
      rw [planActions] at hop
      cases hhead : rows.head? with
      | none =>
        rw [hhead] at hop
        simpa [bufferOp?, hhead] using ih op hop
      | some first =>
        rw [hhead] at hop
        rcases List.mem_cons.mp hop with rfl | hop
        . simp [bufferOp?, hhead]
        . have := ih op hop
          simp [bufferOp?, hhead, this]

theorem planActions_accepts (hroots : ∀ shard, ∃ root, inp.serverRoot shard = .ok root)
    (plan : PoolPlan H) (actions : List (FeedAction H))
    : ∃ plan', (inp.planActions plan actions).2 = .ok plan' := by
  induction actions generalizing plan with
  | nil => exact ⟨plan, rfl⟩
  | cons a rest ih =>
    cases a with
    | build rows => exact ih _
    | buffer rows =>
      rw [planActions]
      cases rows.head? <;> exact ih plan
    | closeCleanShard shard rows =>
      have hclose : ∃ mid, inp.closeShard plan shard rows = .ok mid := by
        unfold closeShard
        obtain ⟨root, hroot⟩ := hroots shard
        rw [hroot]
        dsimp only
        split
        . exact ⟨_, rfl⟩
        . cases root with
          | none => exact ⟨_, rfl⟩
          | some root =>
            by_cases haudit : inp.audits shard = true
            . exact ⟨_, bind_eq_ok.mpr ⟨_, rfl, if_pos haudit⟩⟩
            . exact ⟨_, bind_eq_ok.mpr ⟨_, rfl, if_neg haudit⟩⟩
      obtain ⟨mid, hmid⟩ := hclose
      rw [planActions, hmid]
      exact ih mid

theorem seedAcc_open [DecidableEq H] (inp : PlanInputs H) (rows : List (AccRow H)) (bad : Bool)
    : ∃ o, (inp.seedAcc rows bad).openShard = some o ∧ o.index = shardOf inp.startPosition
      ∧ (inp.storeHasShard o.index = true → o.passthrough = true)
      ∧ (∃ first, RunFrom first o.rows ∧ first + o.rows.length = inp.startPosition)
      ∧ ∀ r ∈ o.rows, r ∈ rows ∧ r.position < inp.startPosition := by
  obtain ⟨hrun, hmem⟩ := resumableRun_spec rows inp.startPosition inp.frontierLeaf
  unfold seedAcc ShardAccumulator.seed
  dsimp only
  generalize (resumableRun rows inp.startPosition inp.frontierLeaf).1 = resume at hrun hmem
  generalize (if resume.isEmpty then none else inp.treeRefuses resume) = refusal
  refine ⟨_, rfl, rfl, ?_, ?_, ?_⟩
  . intro hhas
    simp only [hhas, Bool.true_or]
  . dsimp only
    split
    . exact ⟨_, RunFrom.nil _, rfl⟩
    . exact hrun
  . dsimp only
    split
    . simp
    . exact hmem

structure Opens (inp : PlanInputs H) (ser : HashSer H B) (buffer : PoolBuffer B)
    (ops : List (BufferOp H)) (o : OpenShard H) : Prop where
  run : ∃ first, RunFrom first o.rows ∧ first + o.rows.length = inp.startPosition
  index : o.index = shardOf inp.startPosition
  probed : inp.storeHasShard o.index = true → o.passthrough = true
  resumed : ∀ r ∈ o.rows, ∃ rows, buffer.loadShard ser o.index = .ok rows ∧ r ∈ rows
    ∧ r.position < inp.startPosition
  dropped : ∀ op ∈ ops, op = .deleteRowsIn o.index inp.fed.1 inp.fed.2

structure Seeded (inp : PlanInputs H) (ser : HashSer H B) (buffer : PoolBuffer B)
    (ops : List (BufferOp H)) (o : OpenShard H) : Prop extends Opens inp ser buffer ops o where
  opened : OpenAt inp.startPosition o

theorem seed_opens [DecidableEq H] {ser : HashSer H B} {buffer : PoolBuffer B}
    (h : inp.seed ser buffer = .ok (ops, acc))
    : ∃ o, acc.openShard = some o ∧ Opens inp ser buffer ops o := by
  unfold seed at h
  dsimp only at h
  -- Whatever was loaded, the accumulator is seeded from it in one way.
  have hopens : ∀ (rows : List (AccRow H)) (bad : Bool),
      (∀ r ∈ rows, ∃ all, buffer.loadShard ser (shardOf inp.startPosition) = .ok all ∧ r ∈ all) →
      (∀ op ∈ ops, op = .deleteRowsIn (shardOf inp.startPosition) inp.fed.1 inp.fed.2) →
      ∃ o, (inp.seedAcc rows bad).openShard = some o ∧ Opens inp ser buffer ops o := by
    intro rows bad hrows hops
    obtain ⟨o, hopen, hindex, hprobed, hrun, hmem⟩ := inp.seedAcc_open rows bad
    refine ⟨o, hopen, hrun, hindex, hprobed, ?_, ?_⟩
    . intro r hr
      obtain ⟨all, hall, hin⟩ := hrows r (hmem r hr).1
      exact ⟨all, hindex ▸ hall, hin, (hmem r hr).2⟩
    . rwa [hindex]
  cases hread : inp.readError with
  | some e =>
    rw [hread] at h
    cases h
  | none =>
    cases hload : buffer.loadShard ser (shardOf inp.startPosition) with
    | ok rows =>
      rw [hread, hload] at h
      dsimp only at h
      have hrows : ∀ r ∈ rows, ∃ all, buffer.loadShard ser (shardOf inp.startPosition) = .ok all
          ∧ r ∈ all := fun r hr => ⟨rows, hload, hr⟩
      split at h
      . cases h
        exact hopens rows false hrows (by simp)
      . cases h
        exact hopens rows false hrows (by simp)
    | error e =>
      rw [hread, hload] at h
      cases h
      exact hopens [] true (by simp) (by simp)

theorem seed_seeded [DecidableEq H] {ser : HashSer H B} {buffer : PoolBuffer B}
    (hfiled : buffer.Filed) (h : inp.seed ser buffer = .ok (ops, acc))
    : ∃ o, acc.openShard = some o ∧ Seeded inp ser buffer ops o := by
  obtain ⟨o, ho, hopens⟩ := seed_opens h
  have hstart := (shardOf_eq_iff inp.startPosition _).mp hopens.index.symm
  refine ⟨o, ho, hopens, hopens.run, ?_, hstart.1, Nat.le_of_lt hstart.2⟩
  intro r hr
  obtain ⟨rows, hload, hmem, -⟩ := hopens.resumed r hr
  exact PoolBuffer.loadShard_shard hfiled hload hmem

theorem seed_next [DecidableEq H] {ser : HashSer H B} {buffer : PoolBuffer B}
    (h : inp.seed ser buffer = .ok (ops, acc)) : acc.nextPosition = inp.startPosition := by
  unfold seed at h
  dsimp only at h
  split at h
  . cases h
  . split at h
    . cases h
      rfl
    . cases h
      rfl
  . cases h
    rfl

theorem seed_accSeed [DecidableEq H] {ser : HashSer H B} {buffer : PoolBuffer B}
    (hfiled : buffer.Filed) (h : inp.seed ser buffer = .ok (ops, acc))
    : ∃ s : AccSeed H, s.start = inp.startPosition ∧ acc = s.acc := by
  obtain ⟨⟨index, rows, passthrough⟩, ho, hseeded⟩ := seed_seeded hfiled h
  have hnext := seed_next h
  obtain ⟨first, hrun, hlen⟩ := hseeded.run
  obtain rfl : index = shardOf inp.startPosition := hseeded.index
  refine ⟨⟨inp.startPosition, rows, passthrough, hlen ▸ Nat.le_add_left _ _, ?_,
    hseeded.opened.shard⟩, rfl, ?_⟩
  . rwa [← hlen, Nat.add_sub_cancel]
  obtain ⟨nextPosition, openShard⟩ := acc
  cases ho
  cases hnext
  rfl

end PlanInputs

theorem planPool_next [DecidableEq H] {ser : HashSer H B} {buffer : PoolBuffer B} {inp : PlanInputs H}
    {acc : ShardAccumulator H} (h : (planPool ser buffer (some acc) inp).plan = .ok plan)
    : (planPool ser buffer (some acc) inp).acc
        = some (acc.feed inp.startPosition inp.stream inp.notePositions).1
      ∧ PlanInputs.Planned inp (acc.feed inp.startPosition inp.stream inp.notePositions).2 .empty
          plan :=
  ⟨rfl, (PlanInputs.planActions_planned (Prod.ext rfl h)).1⟩

theorem planPool_first [DecidableEq H] {ser : HashSer H B} {buffer : PoolBuffer B}
    {inp : PlanInputs H} (h : (planPool ser buffer none inp).plan = .ok plan)
    : ∃ ops acc, inp.seed ser buffer = .ok (ops, acc)
      ∧ (planPool ser buffer none inp).acc = (planPool ser buffer (some acc) inp).acc
      ∧ (planPool ser buffer (some acc) inp).plan = .ok plan := by
  unfold planPool at h ⊢
  cases hseed : inp.seed ser buffer with
  | error e =>
    rw [hseed] at h
    cases h
  | ok seeded =>
    obtain ⟨ops, acc⟩ := seeded
    rw [hseed] at h
    exact ⟨ops, acc, rfl, rfl, h⟩

def PlanInputs.actions [DecidableEq H] (inp : PlanInputs H) (ser : HashSer H B)
    (buffer : PoolBuffer B) (acc : Option (ShardAccumulator H)) : List (FeedAction H) :=
  match acc, inp.seed ser buffer with
  | some acc, _ => (acc.feed inp.startPosition inp.stream inp.notePositions).2
  | none, .ok (_, acc) => (acc.feed inp.startPosition inp.stream inp.notePositions).2
  | none, .error _ => []

structure PlansFrom (inp : PlanInputs H) (seedOps : List (BufferOp H)) (o o' : OpenShard H)
    (acts : List (FeedAction H)) (planned : Planned H) : Prop where
  fed : Fed inp.startPosition inp.stream inp.notePositions o acts o'
  acc : planned.acc
    = some { nextPosition := inp.startPosition + inp.stream.length, openShard := some o' }
  ops : ∃ appends, planned.ops = seedOps ++ appends
    ∧ ∀ op ∈ appends, op ∈ acts.filterMap PlanInputs.bufferOp?
  plan : ∀ plan, planned.plan = .ok plan → PlanInputs.Planned inp acts .empty plan
    ∧ planned.ops = seedOps ++ acts.filterMap PlanInputs.bufferOp?

theorem planActions_plans [DecidableEq H] (inp : PlanInputs H) (seedOps : List (BufferOp H))
    (acts : List (FeedAction H))
    : (∃ appends, seedOps ++ (inp.planActions .empty acts).1 = seedOps ++ appends
        ∧ ∀ op ∈ appends, op ∈ acts.filterMap PlanInputs.bufferOp?)
      ∧ ∀ plan, (inp.planActions .empty acts).2 = .ok plan → PlanInputs.Planned inp acts .empty plan
        ∧ seedOps ++ (inp.planActions .empty acts).1
          = seedOps ++ acts.filterMap PlanInputs.bufferOp? := by
  refine ⟨⟨_, rfl, PlanInputs.planActions_ops⟩, fun plan hplan => ?_⟩
  obtain ⟨hplanned, hops⟩ := PlanInputs.planActions_planned (Prod.ext rfl hplan)
  exact ⟨hplanned, congrArg (seedOps ++ ·) hops⟩

theorem planPool_some [DecidableEq H] (ser : HashSer H B) (buffer : PoolBuffer B)
    {inp : PlanInputs H} {acc : ShardAccumulator H} {o : OpenShard H} (ho : acc.openShard = some o)
    (hat : OpenAt inp.startPosition o)
    : ∃ o', PlansFrom inp [] o o' (inp.actions ser buffer (some acc))
        (planPool ser buffer (some acc) inp) := by
  obtain ⟨o', hacc, hfed⟩ := ShardAccumulator.feed_fed ho hat inp.stream inp.notePositions
  obtain ⟨hops, hplan⟩ := planActions_plans inp [] (inp.actions ser buffer (some acc))
  exact ⟨o', hfed, congrArg some hacc, hops, hplan⟩

theorem planPool_none [DecidableEq H] (ser : HashSer H B) {buffer : PoolBuffer B}
    (inp : PlanInputs H) (hfiled : buffer.Filed)
    : (∃ e, planPool ser buffer none inp = { ops := [], acc := none, plan := .error e })
      ∨ ∃ seedOps o o', PlanInputs.Seeded inp ser buffer seedOps o
        ∧ PlansFrom inp seedOps o o' (inp.actions ser buffer none)
          (planPool ser buffer none inp) := by
  unfold planPool PlanInputs.actions
  cases hseed : inp.seed ser buffer with
  | error e => exact Or.inl ⟨e, rfl⟩
  | ok seeded =>
    obtain ⟨seedOps, acc⟩ := seeded
    obtain ⟨o, ho, hseeded⟩ := PlanInputs.seed_seeded hfiled hseed
    obtain ⟨o', hacc, hfed⟩ :=
      ShardAccumulator.feed_fed ho hseeded.opened inp.stream inp.notePositions
    obtain ⟨hops, hplan⟩ := planActions_plans inp seedOps
      (acc.feed inp.startPosition inp.stream inp.notePositions).2
    exact Or.inr ⟨seedOps, o, o', hseeded, hfed, congrArg some hacc, hops, hplan⟩

theorem planPool_cases [DecidableEq H] (ser : HashSer H B) {buffer : PoolBuffer B}
    (acc : Option (ShardAccumulator H)) (inp : PlanInputs H) (hfiled : buffer.Filed)
    (hopen : ∀ a, acc = some a → ∃ o, a.openShard = some o ∧ OpenAt inp.startPosition o)
    : (acc = none ∧ ∃ e, planPool ser buffer acc inp = { ops := [], acc := none, plan := .error e })
      ∨ ∃ seedOps o o', PlansFrom inp seedOps o o' (inp.actions ser buffer acc)
          (planPool ser buffer acc inp)
        ∧ ((∃ a, acc = some a ∧ a.openShard = some o ∧ seedOps = [])
          ∨ acc = none ∧ PlanInputs.Seeded inp ser buffer seedOps o) := by
  cases acc with
  | some a =>
    obtain ⟨o, ho, hat⟩ := hopen a rfl
    obtain ⟨o', hplans⟩ := planPool_some ser buffer ho hat
    exact Or.inr ⟨[], o, o', hplans, Or.inl ⟨a, rfl, ho, rfl⟩⟩
  | none =>
    rcases planPool_none ser inp hfiled with herror | ⟨seedOps, o, o', hseeded, hplans⟩
    . exact Or.inl ⟨rfl, herror⟩
    . exact Or.inr ⟨seedOps, o, o', hplans, Or.inr ⟨rfl, hseeded⟩⟩

def BufferOp.Files : BufferOp H → Prop
  | .appendRows shard rows => ∀ r ∈ rows, shardOf r.position = shard
  | _ => True

theorem PoolBuffer.Filed.apply {ser : HashSer H B} {t t' : PoolBuffer B} {op : BufferOp H}
    (h : t.Filed) (hop : op.Files) (happly : op.apply ser t = .ok t') : t'.Filed := by
  intro k hk
  cases op with
  | deleteRowsIn shard start stop =>
    cases happly
    apply h k (PoolBuffer.mem_keys_deleteRowsIn.mp hk).1
  | appendRows shard rows =>
    rcases (PoolBuffer.mem_keys_appendRows happly).mp hk with hk | ⟨hshard, r, hr, hp⟩
    . apply h k hk
    . rw [hshard, ← hp]
      apply hop r hr
  | deleteFromPosition minPosition =>
    cases happly
    apply h k (PoolBuffer.mem_keys_deleteFromPosition.mp hk).1

theorem PlanInputs.bufferOp?_files {a : FeedAction H} (hplaced : a.Placed)
    (h : bufferOp? a = some op) : op.Files := by
  cases a with
  | buffer rows =>
    obtain ⟨first, hfirst, rfl⟩ := Option.map_eq_some_iff.mp h
    obtain ⟨_, shard, -, hshard, -⟩ := hplaced
    intro r hr
    rw [hshard r hr, hshard first (List.mem_of_mem_head? hfirst)]
  | _ => cases h

theorem PlansFrom.files {inp : PlanInputs H} {planned : Planned H}
    (h : PlansFrom inp seedOps o o' acts planned)
    (hseed : ∀ op ∈ seedOps, ∃ shard start stop, op = .deleteRowsIn shard start stop)
    : ∀ op ∈ planned.ops, op.Files := by
  intro op hop
  obtain ⟨appends, hops, happends⟩ := h.ops
  rw [hops] at hop
  cases List.mem_append.mp hop with
  | inl hop =>
    obtain ⟨_, _, _, rfl⟩ := hseed op hop
    trivial
  | inr hop =>
    obtain ⟨a, ha, hop⟩ := List.mem_filterMap.mp (happends op hop)
    apply PlanInputs.bufferOp?_files (h.fed.acted a ha).placed hop

theorem planPool_accepts [DecidableEq H] (ser : HashSer H B) (buffer : PoolBuffer B)
    (acc : Option (ShardAccumulator H)) {inp : PlanInputs H} (hread : inp.readError = none)
    (hroots : ∀ shard, ∃ root, inp.serverRoot shard = .ok root)
    : ∃ plan, (planPool ser buffer acc inp).plan = .ok plan := by
  unfold planPool
  cases acc with
  | some acc => exact PlanInputs.planActions_accepts hroots _ _
  | none =>
    have hseed : ∃ res, inp.seed ser buffer = .ok res := by
      unfold PlanInputs.seed
      rw [hread]
      dsimp only
      cases buffer.loadShard ser (shardOf inp.startPosition) with
      | error e => exact ⟨_, rfl⟩
      | ok rows =>
        dsimp only
        split
        . exact ⟨_, rfl⟩
        . exact ⟨_, rfl⟩
    obtain ⟨res, hres⟩ := hseed
    rw [hres]
    exact PlanInputs.planActions_accepts hroots _ _

structure Carries (ser : HashSer H B) (buffer : PoolBuffer B) (acc : Option (ShardAccumulator H))
    (start : Nat) (known : AccRow H → Prop) : Prop where
  stored : acc = none → buffer.Filed ∧ ∀ rows, buffer.loadShard ser (shardOf start) = .ok rows →
    ∀ r ∈ rows, r.position < start → known r
  open_ : ∀ a, acc = some a → ∃ o, a.openShard = some o ∧ OpenAt start o ∧ ∀ r ∈ o.rows, known r

theorem planPool_ok [DecidableEq H] {ser : HashSer H B} {buffer : PoolBuffer B}
    {acc : Option (ShardAccumulator H)} {inp : PlanInputs H}
    (hcarries : Carries ser buffer acc inp.startPosition known)
    (h : (planPool ser buffer acc inp).plan = .ok plan)
    : ∃ o o' acts, (∀ r ∈ o.rows, known r)
      ∧ Fed inp.startPosition inp.stream inp.notePositions o acts o'
      ∧ PlanInputs.Planned inp acts .empty plan := by
  cases hacc : acc with
  | some a =>
    rw [hacc] at h
    obtain ⟨o, ho, hat, hknown⟩ := hcarries.open_ a hacc
    obtain ⟨o', hplans⟩ := planPool_some ser buffer ho hat
    exact ⟨o, o', _, hknown, hplans.fed, (hplans.plan plan h).1⟩
  | none =>
    rw [hacc] at h
    obtain ⟨hfiled, hrows⟩ := hcarries.stored hacc
    rcases planPool_none ser inp hfiled with ⟨e, heq⟩ | ⟨seedOps, o, o', hseeded, hplans⟩
    . rw [heq] at h
      cases h
    . refine ⟨o, o', _, fun r hr => ?_, hplans.fed, (hplans.plan plan h).1⟩
      obtain ⟨rows, hload, hr, hlt⟩ := hseeded.resumed r hr
      exact hrows rows (hseeded.index ▸ hload) r hr hlt

theorem rowsFrom_of_segment {rows : List (AccRow H)} (hrun : RunFrom first rows)
    (h : rowsToSegment rows = some seg) : rowsFrom seg.1 seg.2 = rows := by
  cases rows with
  | nil => cases h
  | cons r rest =>
    cases h
    have hfirst : r.position = first := by
      simp only [RunFrom, List.map_cons, List.length_cons, List.range'_succ, List.cons.injEq] at hrun
      exact hrun.1
    rw [← hfirst] at hrun
    exact rowsFrom_of_run hrun

theorem FeedAction.Placed.built_run {a : FeedAction H} (h : a.Placed)
    : ∃ first, RunFrom first a.builtRows := by
  obtain ⟨first, -, hrun, -⟩ := h
  cases a with
  | build rows => exact ⟨first, hrun⟩
  | closeCleanShard shard rows => exact ⟨first, hrun⟩
  | buffer rows => exact ⟨first, RunFrom.nil _⟩

theorem FeedAction.Placed.built_segment {a : FeedAction H} (h : a.Placed)
    (hseg : rowsToSegment a.builtRows = some seg) : rowsFrom seg.1 seg.2 = a.builtRows := by
  obtain ⟨first, hrun⟩ := h.built_run
  exact rowsFrom_of_segment hrun hseg

theorem PlansFrom.builds_row {inp : PlanInputs H} {planned : Planned H} {plan : PoolPlan H}
    (h : PlansFrom inp seedOps o o' acts planned) (hplan : planned.plan = .ok plan) (ha : a ∈ acts)
    (hr : r ∈ a.builtRows)
    : (∃ seg ∈ plan.segments, r ∈ rowsFrom seg.1 seg.2)
      ∨ ∃ shard rows root, a = .closeCleanShard shard rows ∧ (shard, root) ∈ plan.grafts := by
  obtain ⟨seg, hseg⟩ : ∃ seg, rowsToSegment a.builtRows = some seg := by
    cases hrows : a.builtRows with
    | nil => exact absurd hrows (List.ne_nil_of_mem hr)
    | cons first rest => exact ⟨_, rfl⟩
  rw [← (h.fed.acted a ha).placed.built_segment hseg] at hr
  exact ((h.plan plan hplan).1.built a ha seg hseg).imp_left fun hmem => ⟨seg, hmem, hr⟩

section Subtrees

variable {Shard : Type} {api : ShardTreeApi H Shard} {policy : Option AnchorRetention}

theorem buildSubtrees_rows (api : ShardTreeApi H Shard) (start : Nat) (rows : List (H × Retention))
    : (buildSubtrees api start rows).flatMap (fun t => rowsFrom t.start t.rows)
        =
      rowsFrom start rows := by
  have hgo : ∀ start pieces, (buildSubtrees.go (H := H) start pieces).flatMap
      (fun t => rowsFrom t.start t.rows) = rowsFrom start pieces.flatten := by
    intro start pieces
    induction pieces generalizing start with
    | nil => rfl
    | cons piece rest ih =>
      rw [buildSubtrees.go, List.flatMap_cons, ih, List.flatten_cons, rowsFrom_append]
  unfold buildSubtrees
  split
  . next hnil =>
    rw [List.isEmpty_iff.mp hnil]
    rfl
  . rw [hgo, api.cut_flatten]

theorem buildSubtrees_eq_nil {start : Nat} {rows : List (H × Retention)}
    : buildSubtrees api start rows = [] ↔ rows = [] := by
  constructor
  . intro h
    have hrows := buildSubtrees_rows api start rows
    rw [h] at hrows
    rw [← List.length_eq_zero_iff, ← rowsFrom_length start, ← hrows]
    rfl
  . rintro rfl
    rfl

theorem buildSubtrees_entries (start : Nat) (rows : List (H × Retention))
    : (buildSubtrees api start rows).flatMap Subtree.entries
        =
      (checkpointEntries (rowsFrom start rows)).map fun e => (e.1, .atPosition e.2) := by
  rw [← buildSubtrees_rows, checkpointEntries, List.filterMap_flatMap, List.map_flatMap]
  rfl

def Lane.segments (lane : Lane H) : List (Nat × List (H × Retention)) :=
  match lane.plan with
  | none => [(lane.frontier.treeSize, lane.commitments)]
  | some plan => plan.segments

theorem downgradeBelow_eq_nil {rows : List (H × Retention)} {cutoff : Option Nat}
    : downgradeBelow rows cutoff policy = [] ↔ rows = [] := by
  unfold downgradeBelow
  split
  . rfl
  . exact List.map_eq_nil_iff

theorem Lane.subtrees_eq_nil_iff {lane : Lane H} {s : SparseShardStore Shard}
    : lane.subtrees api policy s = [] ↔ ∀ seg ∈ lane.segments, seg.2 = [] := by
  unfold Lane.subtrees Lane.segments
  cases lane.plan with
  | none => simp [buildSubtrees_eq_nil, downgradeBelow_eq_nil]
  | some plan => simp [buildSubtrees_eq_nil, downgradeBelow_eq_nil]

theorem Lane.subtrees_eq_nil {lane : Lane H} (hplan : lane.plan = none) {s : SparseShardStore Shard}
    : lane.subtrees api policy s = [] ↔ lane.commitments = [] := by
  rw [subtrees_eq_nil_iff, segments, hplan]
  simp

theorem Lane.mem_subtrees_entries {lane : Lane H} {s : SparseShardStore Shard}
    : e ∈ (lane.subtrees api policy s).flatMap Subtree.entries
        ↔
      ∃ seg ∈ lane.segments, ∃ p, (e.1, p) ∈ checkpointEntries (rowsFrom seg.1 seg.2)
        ∧ e.2 = .atPosition p ∧ ∀ c, lane.cutoff s = some c → spares policy c e.1 = true := by
  have hpiece : ∀ start rows, e ∈ (buildSubtrees api start
        (downgradeBelow rows (lane.cutoff s) policy)).flatMap Subtree.entries
      ↔ ∃ p, (e.1, p) ∈ checkpointEntries (rowsFrom start rows) ∧ e.2 = .atPosition p
        ∧ ∀ c, lane.cutoff s = some c → spares policy c e.1 = true := by
    intro start rows
    rw [buildSubtrees_entries, List.mem_map]
    constructor
    . rintro ⟨d, hd, rfl⟩
      rw [mem_entries_downgradeBelow] at hd
      exact ⟨d.2, hd.1, rfl, hd.2⟩
    . rintro ⟨p, hp, hcp, hspared⟩
      refine ⟨(e.1, p), (mem_entries_downgradeBelow policy).mpr ⟨hp, hspared⟩, ?_⟩
      rw [← hcp]
  unfold Lane.subtrees Lane.segments
  cases lane.plan with
  | none => simp [hpiece]
  | some plan =>
    dsimp only
    rw [List.flatMap_assoc, List.mem_flatMap]
    apply exists_congr
    intro seg
    apply and_congr_right
    intro _
    exact hpiece seg.1 seg.2

end Subtrees
end Slipstream
