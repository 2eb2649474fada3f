import Slipstream.Persist.Impl.Session
import Slipstream.Persist.Lemmas.Call

/-!
This module contains the rule for what holds over a wallet's whole life: it must hold at rest, survive
the loss of everything in memory, and hold after each durable step of whatever the engine begins.
-/

namespace Slipstream

variable {H B Shard γ : Type}

structure History (H B Shard γ : Type) where
  took : DurableOp H Shard → WalletDb B Shard → WalletDb B Shard → γ → γ
  rewound : Nat → γ → γ
  imported : Nat → γ → γ := fun birthday => rewound (birthday - 1)

def History.observe (hist : History H B Shard γ) (up : Upstream H B Shard) (s : Session H B Shard)
    (e : SessionEvent H) (s' : Session H B Shard) (g : γ) : γ :=
  match e with
  | .proceed =>
    match s.todo with
    | op :: _ =>
      match op.exec up s.db s.sparse with
      | .ok _ => hist.took op s.db s'.db g
      | .error _ => g
    | [] => g
  | .truncate height _ => hist.rewound height g
  | .importAccount birthday _ => hist.imported birthday g
  | _ => g

def SweepJob.target : SweepJob H → Nat × Run
  | .undecodable shard run | .stranded shard run _ => (shard, run)

theorem insertChecked_ok [DecidableEq H] {up : Upstream H B Shard} {tree tree' : SparseShardStore Shard}
    {policy : Option AnchorRetention}
    (h : insertChecked up tree pool shard rows check chainTip policy = .ok tree')
    : ∃ inserted, insertDeferredRows up.toShardTreeApi tree (doomDeepRows rows chainTip policy) policy
          s!"graft sweep {pool.debug}" = .ok inserted
        ∧ tree' = inserted.getD tree := by
  unfold insertChecked at h
  obtain ⟨inserted, hinserted, h⟩ := bind_eq_ok.mp h
  refine ⟨inserted, hinserted, ?_⟩
  split at h
  . cases h
    rfl
  . dsimp only at h
    split at h
    . split at h
      . cases h
        rfl
      . cases h
    . cases h

theorem SweepJob.ops_cases [DecidableEq H] (up : Upstream H B Shard) (reads : SweepReads H)
    (policy : Option AnchorRetention) (pool : ShieldedPool) (tree : SparseShardStore Shard)
    (job : SweepJob H)
    : job.ops up reads policy pool tree = []
      ∨ job.ops up reads policy pool tree = reads.rescanOps pool job.target.1 job.target.2
      ∨ ∃ shard run rows check tree', job = .stranded shard run rows ∧ rowsCoverRun rows run = true
        ∧ insertChecked up tree pool shard rows check reads.chainTip policy = .ok tree'
        ∧ job.ops up reads policy pool tree
          = [.flushTree pool rows tree', .buffer pool (.deleteRowsIn shard run.first (run.last + 1))] := by
  cases job with
  | undecodable shard run => exact Or.inr (Or.inl rfl)
  | stranded shard run rows =>
    simp only [SweepJob.ops]
    cases reads.storedRoot shard with
    | error e => exact Or.inl rfl
    | ok storedRoot =>
      cases tree.getShard shard with
      | error e => exact Or.inl rfl
      | ok content =>
        apply Or.inr
        dsimp only
        split
        . next tree' hbuilt =>
          obtain ⟨check, hcheck, hchecked⟩ := Option.bind_eq_some_iff.mp hbuilt
          have hcovered : rowsCoverRun rows run = true := by
            by_contra hnot
            rw [if_neg hnot] at hcheck
            cases hcheck
          refine Or.inr ⟨shard, run, rows, check, tree', rfl, hcovered, ?_, rfl⟩
          cases hinsert : insertChecked up tree pool shard rows check reads.chainTip policy with
          | ok t =>
            rw [hinsert] at hchecked
            cases hchecked
            rfl
          | error e =>
            rw [hinsert] at hchecked
            cases hchecked
        . exact Or.inl rfl

namespace Session

inductive Begun [DecidableEq H] (policy : Option AnchorRetention) (up : Upstream H B Shard)
    (s : Session H B Shard) : SessionEvent H → Session H B Shard → Prop where
  | range : Begun policy up s (.beginRange verifySample)
      { s with sparse := .opened policy verifySample, activity := .scanning }
  | call {reads : CallReads H} {call : PutBlocks H} {sparse : SparseTreeState H Shard}
      {ops : List (DurableOp H Shard)} (hactivity : s.activity = .scanning)
      (hbegin : call.begin up reads s.db s.sparse = .ok (sparse, ops))
      : Begun policy up s (.putBlocks reads call) { s with sparse, todo := ops }
  | refused : Begun policy up s (.putBlocks reads call) (s.failed policy)
  | finish {ctx : GraftCtx H} (hactivity : s.activity = .scanning) (hgraft : s.sparse.graft = some ctx)
      : Begun policy up s .finishRange { s with activity := .finishing, todo := finishOps ctx }
  | sweep {pool : ShieldedPool} {reads : SweepReads H} {jobs : List (SweepJob H)}
      (hjobs : reads.jobs up.ser (s.db.buffer pool) = .ok jobs)
      : Begun policy up s (.beginSweep pool reads)
        { s with
          sparse := {
            trees := Function.update (fun _ => none) pool (some (.seed (s.db.trees pool) policy))
            anchorRetention := policy
            graft := none
          }
          activity := .sweeping pool reads jobs }
  | unswept : Begun policy up s (.beginSweep pool reads) (.atRest policy s.db)
  | job {pool : ShieldedPool} {reads : SweepReads H} {job : SweepJob H} {jobs : List (SweepJob H)}
      (hactivity : s.activity = .sweeping pool reads (job :: jobs))
      : Begun policy up s .sweepNext
        { s with
          activity := .sweeping pool reads jobs
          todo := job.ops up reads policy pool (s.sparse.seeded s.db pool) }
  | heal : Begun policy up s .heal
      (.atRest policy { s.db with trees := fun p => (s.db.trees p).heal })
  | truncate : Begun policy up s (.truncate height sizes)
      (.atRest policy (s.db.truncateToHeight up height sizes))
  | importAccount : Begun policy up s (.importAccount birthday sizes)
      { atRest policy (s.db.rewind up (birthday - 1)) with
        todo := [
          .buffer .sapling (.deleteFromPosition (sizes .sapling)),
          .buffer .orchard (.deleteFromPosition (sizes .orchard))
        ] }

variable (hist : History H B Shard γ) (up : Upstream H B Shard)
  (inv : Session H B Shard → γ → Prop)

def SafeFrom (activity : Activity H) : List (DurableOp H Shard) → WalletDb B Shard
    → SparseTreeState H Shard → γ → Prop
  | [], db, sparse, g => inv { db, sparse, activity, todo := [] } g
  | op :: rest, db, sparse, g => inv { db, sparse, activity, todo := [] } g
    ∧ ∀ db' sparse', op.exec up db sparse = .ok (db', sparse') →
      SafeFrom activity rest db' sparse' (hist.took op db db' g)

def Safe (s : Session H B Shard) (g : γ) : Prop :=
  SafeFrom hist up inv s.activity s.todo s.db s.sparse g

variable {hist up inv} {policy : Option AnchorRetention} {s s' : Session H B Shard} {g : γ}

theorem Safe.now (h : Safe hist up inv s g) : inv { s with todo := [] } g := by
  unfold Safe at h
  cases htodo : s.todo with
  | nil =>
    rw [htodo] at h
    exact h
  | cons op rest =>
    rw [htodo] at h
    exact h.1

theorem Safe.idle (htodo : s.todo = []) (h : inv s g) : Safe hist up inv s g := by
  obtain ⟨db, sparse, activity, todo⟩ := s
  cases htodo
  exact h

theorem Safe.failed (hstop : ∀ s g, inv s g → inv (.atRest policy s.db) g)
    (h : inv { s with todo := [] } g) : Safe hist up inv (s.failed policy) g := by
  unfold Session.failed
  split
  . exact .idle rfl h
  . exact .idle rfl (hstop { s with todo := [] } g h)

theorem SafeFrom.append {activity : Activity H} {ops rest : List (DurableOp H Shard)}
    {db : WalletDb B Shard} {sparse : SparseTreeState H Shard}
    {K : WalletDb B Shard → SparseTreeState H Shard → γ → Prop}
    (hinv : ∀ db sparse g, K db sparse g → inv { db, sparse, activity, todo := [] } g)
    (hops : ∀ op ∈ ops, ∀ db sparse g db' sparse', K db sparse g →
      op.exec up db sparse = .ok (db', sparse') → K db' sparse' (hist.took op db db' g))
    (hrest : ∀ db sparse g, K db sparse g → SafeFrom hist up inv activity rest db sparse g)
    (h : K db sparse g) : SafeFrom hist up inv activity (ops ++ rest) db sparse g := by
  induction ops generalizing db sparse g with
  | nil => exact hrest db sparse g h
  | cons op ops ih =>
    refine ⟨hinv db sparse g h, fun db' sparse' hexec => ?_⟩
    apply ih fun op' hop' => hops op' (List.mem_cons_of_mem _ hop')
    exact hops op List.mem_cons_self db sparse g db' sparse' h hexec

section Step

variable [DecidableEq H]

theorem begun_of_step {e : SessionEvent H} (h : step policy up s e = some s')
    : e = .proceed ∨ (e = .fail ∧ s' = s.failed policy) ∨ (e = .stop ∧ s' = .atRest policy s.db)
      ∨ s.todo = [] ∧ Begun policy up s e s' := by
  cases e with
  | proceed => exact Or.inl rfl
  | fail =>
    cases h
    exact Or.inr (Or.inl ⟨rfl, rfl⟩)
  | stop =>
    cases h
    exact Or.inr (Or.inr (Or.inl ⟨rfl, rfl⟩))
  | beginRange verifySample =>
    refine Or.inr (Or.inr (Or.inr ?_))
    simp only [step] at h
    split at h <;> cases h
    exact ⟨‹_›, .range⟩
  | putBlocks reads call =>
    refine Or.inr (Or.inr (Or.inr ?_))
    simp only [step] at h
    split at h
    . next hactivity htodo =>
      split at h <;> cases h
      . exact ⟨htodo, .call hactivity ‹_›⟩
      . exact ⟨htodo, .refused⟩
    . cases h
  | finishRange =>
    refine Or.inr (Or.inr (Or.inr ?_))
    simp only [step] at h
    split at h <;> cases h
    exact ⟨‹_›, .finish ‹_› ‹_›⟩
  | beginSweep pool reads =>
    refine Or.inr (Or.inr (Or.inr ?_))
    simp only [step] at h
    split at h
    . next htodo =>
      split at h <;> cases h
      . exact ⟨htodo, .sweep ‹_›⟩
      . exact ⟨htodo, .unswept⟩
    . cases h
  | sweepNext =>
    refine Or.inr (Or.inr (Or.inr ?_))
    simp only [step] at h
    split at h <;> cases h
    exact ⟨‹_›, .job ‹_›⟩
  | heal =>
    refine Or.inr (Or.inr (Or.inr ?_))
    simp only [step] at h
    split at h <;> cases h
    exact ⟨‹_›, .heal⟩
  | truncate height sizes =>
    refine Or.inr (Or.inr (Or.inr ?_))
    simp only [step] at h
    split at h <;> cases h
    exact ⟨‹_›, .truncate⟩
  | importAccount birthday sizes =>
    refine Or.inr (Or.inr (Or.inr ?_))
    simp only [step] at h
    split at h <;> cases h
    exact ⟨‹_›, .importAccount⟩

theorem Safe.step {e : SessionEvent H} (hstop : ∀ s g, inv s g → inv (.atRest policy s.db) g)
    (hbegin : s.todo = [] → inv s g → Begun policy up s e s' →
      Safe hist up inv s' (hist.observe up s e s' g))
    (h : Safe hist up inv s g) (hstep : Session.step policy up s e = some s')
    : Safe hist up inv s' (hist.observe up s e s' g) := by
  rcases begun_of_step hstep with rfl | ⟨rfl, rfl⟩ | ⟨rfl, rfl⟩ | ⟨htodo, hbegun⟩
  . unfold Session.step at hstep
    unfold History.observe
    cases htodo : s.todo with
    | nil =>
      rw [htodo] at hstep
      cases hstep
    | cons op rest =>
      simp only [htodo] at hstep ⊢
      have hnow := h.now
      unfold Safe at h
      rw [htodo] at h
      cases hexec : op.exec up s.db s.sparse with
      | ok res =>
        rw [hexec] at hstep
        cases hstep
        exact h.2 _ _ hexec
      | error e =>
        rw [hexec] at hstep
        cases hstep
        exact .failed hstop hnow
  . exact .failed hstop h.now
  . exact .idle rfl (hstop { s with todo := [] } g h.now)
  . apply hbegin htodo _ hbegun
    have := h.now
    rwa [← htodo] at this

theorem Safe.of_reach {init : Session H B Shard → γ → Prop}
    {ok : Session H B Shard × γ → SessionEvent H → Prop}
    (hstart : ∀ db g, init (.atRest policy db) g → inv (.atRest policy db) g)
    (hstop : ∀ s g, inv s g → inv (.atRest policy s.db) g)
    (hbegin : ∀ s g e s', s.todo = [] → inv s g → ok (s, g) e → Begun policy up s e s' →
      Safe hist up inv s' (hist.observe up s e s' g))
    {st : Session H B Shard × γ}
    (h : ((sessionMachine up policy).observed init (hist.observe up)).Reach ok st)
    : Safe hist up inv st.1 st.2 := by
  induction h with
  | start hs =>
    obtain ⟨⟨db, hdb⟩, hinit⟩ := hs
    rw [hdb] at hinit ⊢
    exact .idle rfl (hstart db _ hinit)
  | step _ hok hstep ih =>
    obtain ⟨s', hs', rfl⟩ := Option.map_eq_some_iff.mp hstep
    exact ih.step hstop (fun htodo hinv hbegun => hbegin _ _ _ s' htodo hinv hok hbegun) hs'

end Step
end Session
end Slipstream
