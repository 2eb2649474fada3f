import Slipstream.Handle.Impl.Stops

/-!
This module contains what a quiescent report proves: the passes are on record until they have
finished, and a commit is counted from before it can start until it is over.
-/

namespace Slipstream
namespace Handle

inductive EngineTrans (s : Engine) : Engine → Prop where
  | hold {pass : Pass} (hi : s.passes[i]? = some pass) (hrunning : pass.finished = false)
      (hfree : pass.gated = false)
    : EngineTrans s { s.setPass i { pass with gated := true } with
        walletWriters := s.walletWriters + 1 }
  | spawnCommit {pass : Pass} (hi : s.passes[i]? = some pass) (hrunning : pass.finished = false)
      (hgated : pass.gated = true)
    : EngineTrans s { s.setPass i { pass with gated := false } with
        commits := s.commits ++ [{ pass := i, finished := false }] }
  | goesOn : EngineTrans s s
  | finishes {pass : Pass} (hi : s.passes[i]? = some pass) (hfree : pass.gated = false)
    : EngineTrans s (s.setPass i { pass with finished := true })
  | panics {pass : Pass} (hi : s.passes[i]? = some pass)
    : EngineTrans s { s.setPass i { pass with finished := true, gated := false } with
        walletWriters := if pass.gated then s.walletWriters - 1 else s.walletWriters }
  | commitEnds (hi : s.commits[i]? = some commit) (hrunning : commit.finished = false)
    : EngineTrans s { s with
        commits := s.commits.set i { commit with finished := true }
        walletWriters := s.walletWriters - 1 }

theorem Engine.trans_of_step {s s' : Engine} (h : s.step e = some s') : EngineTrans s s' := by
  cases e with
  | hold i =>
    simp only [step] at h
    split at h
    . next pass hi =>
      split at h
      . cases h
      . next hcan =>
        cases h
        simp only [Bool.or_eq_true, not_or, Bool.not_eq_true] at hcan
        exact .hold hi hcan.1 hcan.2
    . cases h
  | spawnCommit i =>
    simp only [step] at h
    split at h
    . next pass hi =>
      split at h
      . cases h
      . next hcan =>
        cases h
        simp only [Bool.or_eq_true, not_or, Bool.not_eq_true, Bool.not_eq_false'] at hcan
        exact .spawnCommit hi hcan.1 hcan.2
    . cases h
  | await i =>
    simp only [step] at h
    split at h
    . next pass hi =>
      split at h
      . cases h
      . next hcan =>
        simp only [Bool.or_eq_true, not_or, Bool.not_eq_true] at hcan
        split at h
        . cases h
          exact .finishes hi hcan.2
        . cases h
          exact .goesOn
    . cases h
  | returns i =>
    simp only [step] at h
    split at h
    . next pass hi =>
      split at h
      . cases h
      . next hcan =>
        cases h
        simp only [Bool.or_eq_true, not_or, Bool.not_eq_true] at hcan
        exact .finishes hi hcan.2
    . cases h
  | panics i =>
    simp only [step] at h
    split at h
    . next pass hi =>
      split at h
      . cases h
      . cases h
        exact .panics hi
    . cases h
  | commitEnds i panicked =>
    simp only [step] at h
    split at h
    . next commit hi =>
      split at h
      . cases h
      . next hrunning =>
        cases h
        exact .commitEnds hi (by simpa using hrunning)
    . cases h

theorem countP_set_add {α : Type} (p : α → Bool) {l : List α} {a : α} (h : l[i]? = some a) (b : α)
    : (l.set i b).countP p + (if p a then 1 else 0) = l.countP p + if p b then 1 else 0 := by
  obtain ⟨hi, rfl⟩ := List.getElem?_eq_some_iff.mp h
  rw [List.countP_set hi]
  have hpos : (if p l[i] then 1 else 0) ≤ l.countP p := by
    split
    . next hp => exact List.countP_pos_iff.mpr ⟨l[i], List.getElem_mem hi, hp⟩
    . exact Nat.zero_le _
  omega

structure EngineInv (s : Engine) : Prop where
  writers : s.walletWriters
    = s.passes.countP Pass.gated + s.commits.countP fun commit => !commit.finished
  gated : ∀ pass ∈ s.passes, pass.gated = true → pass.finished = false

namespace EngineInv

theorem setPass {s : Engine} {pass : Pass} (h : EngineInv s) (hi : s.passes[i]? = some pass)
    (new : Pass) (hgated : new.gated = true → new.finished = false)
    : (∀ x ∈ (s.passes.set i new), x.gated = true → x.finished = false)
      ∧ (s.passes.set i new).countP Pass.gated + (if pass.gated then 1 else 0)
        = s.passes.countP Pass.gated + if new.gated then 1 else 0 := by
  refine ⟨fun x hx => ?_, countP_set_add Pass.gated hi new⟩
  rcases List.mem_or_eq_of_mem_set hx with hx | rfl
  . exact h.gated x hx
  . exact hgated

theorem trans {s s' : Engine} (h : EngineInv s) (ht : EngineTrans s s') : EngineInv s' := by
  have hwriters := h.writers
  cases ht with
  | @hold i pass hi hrunning hfree =>
    obtain ⟨hgated, hcount⟩ := h.setPass hi { pass with gated := true } fun _ => hrunning
    refine ⟨?_, hgated⟩
    simp only [hfree, if_true, Bool.false_eq_true, if_false] at hcount
    simp only [Engine.setPass]
    omega
  | @spawnCommit i pass hi hrunning hgated =>
    obtain ⟨hgated', hcount⟩ := h.setPass hi { pass with gated := false } nofun
    refine ⟨?_, hgated'⟩
    simp only [hgated, if_true, Bool.false_eq_true, if_false] at hcount
    simp only [Engine.setPass, List.countP_append, List.countP_singleton, Bool.not_false, if_true]
    omega
  | goesOn => exact h
  | @finishes i pass hi hfree =>
    obtain ⟨hgated, hcount⟩ := h.setPass hi { pass with finished := true } (by simp [hfree])
    refine ⟨?_, hgated⟩
    simp only [hfree, Bool.false_eq_true, if_false] at hcount
    simp only [Engine.setPass, hfree]
    omega
  | @panics i pass hi =>
    obtain ⟨hgated, hcount⟩ := h.setPass hi { pass with finished := true, gated := false } nofun
    refine ⟨?_, hgated⟩
    simp only [Engine.setPass]
    cases hpass : pass.gated with
    | true =>
      simp only [hpass, if_true, Bool.false_eq_true, if_false] at hcount ⊢
      have hsum : s.walletWriters
          = (s.passes.set i { pass with finished := true, gated := false }).countP Pass.gated
            + s.commits.countP (fun commit => !commit.finished) + 1 := by omega
      rw [hsum, Nat.add_sub_cancel]
    | false =>
      simp only [hpass, Bool.false_eq_true, if_false] at hcount ⊢
      omega
  | @commitEnds i commit hi hrunning =>
    have hcount := countP_set_add (fun c => !c.finished) hi { commit with finished := true }
    refine ⟨?_, h.gated⟩
    simp only [hrunning, Bool.not_false, Bool.not_true, if_true, Bool.false_eq_true, if_false]
      at hcount
    simp only
    omega

theorem commits_finished {s : Engine} (h : EngineInv s) (hwriters : s.walletWriters = 0)
    : ∀ commit ∈ s.commits, commit.finished = true := by
  have hnone : s.commits.countP (fun commit => !commit.finished) = 0 := by
    have := h.writers
    omega
  rw [List.countP_eq_zero] at hnone
  intro commit hcommit
  simpa using hnone commit hcommit

end EngineInv

structure Over (n : Nat) (s : Engine) : Prop where
  spawned : n ≤ s.passes.length
  passes : ∀ i < n, ∀ pass, s.passes[i]? = some pass → pass.finished = true
  commits : ∀ commit ∈ s.commits, commit.pass < n → commit.finished = true

namespace Over

variable {s s' : Engine}

theorem setPass {pass : Pass} (h : Over n s) (new : Pass) (hi : s.passes[i]? = some pass)
    (hover : pass.finished = true → new.finished = true)
    : ∀ j < n, ∀ x, (s.passes.set i new)[j]? = some x → x.finished = true := by
  intro j hj x hx
  rw [List.getElem?_set] at hx
  split at hx
  . next hij =>
    subst hij
    split at hx
    . cases hx
      exact hover (h.passes i hj pass hi)
    . cases hx
  . exact h.passes j hj x hx

theorem trans (h : Over n s) (ht : EngineTrans s s') : Over n s' := by
  have hspawned := h.spawned
  cases ht with
  | @hold i pass hi hrunning hfree =>
    exact ⟨by simpa [Engine.setPass] using hspawned, h.setPass _ hi id, h.commits⟩
  | @spawnCommit i pass hi hrunning hgated =>
    refine ⟨by simpa [Engine.setPass] using hspawned, h.setPass _ hi id, ?_⟩
    intro commit hcommit hpass
    rcases List.mem_append.mp hcommit with hcommit | hcommit
    . exact h.commits commit hcommit hpass
    . rw [List.mem_singleton.mp hcommit] at hpass
      rw [h.passes i hpass pass hi] at hrunning
      cases hrunning
  | goesOn => exact h
  | @finishes i pass hi hfree =>
    exact ⟨by simpa [Engine.setPass] using hspawned, h.setPass _ hi fun _ => rfl, h.commits⟩
  | @panics i pass hi =>
    exact ⟨by simpa [Engine.setPass] using hspawned, h.setPass _ hi fun _ => rfl, h.commits⟩
  | @commitEnds i commit hi hrunning =>
    refine ⟨hspawned, h.passes, ?_⟩
    intro c hc hpass
    rcases List.mem_or_eq_of_mem_set hc with hc | rfl
    . exact h.commits c hc hpass
    . rfl

theorem abort (h : Over n s) (i : Nat) : Over n (s.abort i) := by
  unfold Engine.abort
  split
  . next pass hi =>
    exact ⟨by simpa [Engine.setPass] using h.spawned, h.setPass _ hi id, h.commits⟩
  . exact h

theorem spawn (h : Over n s) : Over n s.spawn := by
  have hspawned := h.spawned
  refine ⟨by simp only [Engine.spawn, List.length_append]; omega, ?_, h.commits⟩
  intro i hi pass hpass
  rw [Engine.spawn, List.getElem?_append_left (by omega)] at hpass
  exact h.passes i hi pass hpass

end Over

theorem EngineInv.abort {s : Engine} (h : EngineInv s) (i : Nat) : EngineInv (s.abort i) := by
  unfold Engine.abort
  split
  . next pass hi =>
    obtain ⟨hgated, hcount⟩ := h.setPass hi { pass with aborted := true }
      (h.gated pass (List.mem_of_getElem? hi))
    have hwriters := h.writers
    refine ⟨?_, hgated⟩
    simp only [Engine.setPass] at hcount ⊢
    omega
  . exact h

theorem EngineInv.spawn {s : Engine} (h : EngineInv s) : EngineInv s.spawn := by
  refine ⟨?_, ?_⟩
  . simpa [Engine.spawn] using h.writers
  . intro pass hpass
    rcases List.mem_append.mp hpass with hpass | hpass
    . exact h.gated pass hpass
    . rw [List.mem_singleton.mp hpass]
      nofun

structure HandleInv (s : HandleState) : Prop where
  engine : EngineInv s.engine
  record : ∀ i pass, s.engine.passes[i]? = some pass → pass.finished = false →
    s.task = some i ∨ i ∈ s.unfinishedPasses
  slot : s.host ≠ .free → s.task = none
  settled : ∀ c, s.host = .draining c true → ∀ pass ∈ s.engine.passes, pass.finished = true

theorem running_of_set {passes : List Pass} {i j : Nat} {pass x : Pass} (new : Pass)
    (hi : passes[i]? = some pass) (hkeeps : new.finished = false → pass.finished = false)
    (hj : (passes.set i new)[j]? = some x) (hx : x.finished = false)
    : ∃ y, passes[j]? = some y ∧ y.finished = false := by
  rw [List.getElem?_set] at hj
  split at hj
  . next hij =>
    subst hij
    split at hj
    . cases hj
      exact ⟨pass, hi, hkeeps hx⟩
    . cases hj
  . exact ⟨x, hj, hx⟩

theorem EngineTrans.running {s s' : Engine} {j : Nat} {x : Pass} (ht : EngineTrans s s')
    (hj : s'.passes[j]? = some x) (hx : x.finished = false)
    : ∃ y, s.passes[j]? = some y ∧ y.finished = false := by
  cases ht with
  | @hold i pass hi => exact running_of_set { pass with gated := true } hi id hj hx
  | @spawnCommit i pass hi => exact running_of_set { pass with gated := false } hi id hj hx
  | goesOn => exact ⟨x, hj, hx⟩
  | @finishes i pass hi => exact running_of_set { pass with finished := true } hi nofun hj hx
  | @panics i pass hi =>
    exact running_of_set { pass with finished := true, gated := false } hi nofun hj hx
  | commitEnds => exact ⟨x, hj, hx⟩

namespace HandleInv

variable {s s' : HandleState}

theorem engineStep (h : HandleInv s) {next : Engine} (ht : EngineTrans s.engine next)
    : HandleInv { s with engine := next } := by
  refine ⟨h.engine.trans ht, ?_, h.slot, ?_⟩
  . intro i pass hi hrunning
    obtain ⟨before, hbefore, hwas⟩ := ht.running hi hrunning
    exact h.record i before hbefore hwas
  . intro c hc pass hpass
    obtain ⟨i, hi⟩ := List.mem_iff_getElem?.mp hpass
    by_contra hrunning
    obtain ⟨before, hbefore, hwas⟩ := ht.running hi (by simpa using hrunning)
    have := h.settled c hc before (List.mem_of_getElem? hbefore)
    rw [this] at hwas
    cases hwas

theorem takeTask (h : HandleInv s) : EngineInv s.takeTask.engine ∧ s.takeTask.task = none
    ∧ ∀ i pass, s.takeTask.engine.passes[i]? = some pass → pass.finished = false →
      i ∈ s.takeTask.unfinishedPasses := by
  unfold HandleState.takeTask
  split
  . next p htask =>
    refine ⟨h.engine.abort p, rfl, ?_⟩
    intro i pass hi hrunning
    have hbefore : ∃ y, s.engine.passes[i]? = some y ∧ y.finished = false := by
      unfold Engine.abort at hi
      split at hi
      . next old hold => exact running_of_set { old with aborted := true } hold id hi hrunning
      . exact ⟨pass, hi, hrunning⟩
    obtain ⟨before, hbefore, hwas⟩ := hbefore
    rw [List.mem_append, List.mem_singleton]
    rcases h.record i before hbefore hwas with hslot | hrecord
    . rw [htask, Option.some.injEq] at hslot
      exact Or.inr hslot.symm
    . exact Or.inl hrecord
  . next htask =>
    refine ⟨h.engine, htask, ?_⟩
    intro i pass hi hrunning
    rcases h.record i pass hi hrunning with hslot | hrecord
    . rw [htask] at hslot
      cases hslot
    . exact hrecord

theorem makeCall (h : HandleInv s) (c : HostCall) : HandleInv (s.makeCall c) := by
  have hrequest : HandleInv
      (if c = .stopForWalletChange then { s with stopRequests := s.stopRequests + 1 } else s) := by
    split
    . exact { h with }
    . exact h
  obtain ⟨hengine, htask, hrecord⟩ := hrequest.takeTask
  exact ⟨hengine, fun i pass hi hrunning => Or.inr (hrecord i pass hi hrunning), fun _ => htask,
    nofun⟩

theorem look (h : HandleInv s) (hi : s.unfinishedPasses[i]? = some p)
    (hfinished : s.engine.isFinished p = true)
    (hsettling : ∀ c, s.host ≠ .draining c true)
    : HandleInv { s with unfinishedPasses := s.unfinishedPasses.eraseIdx i } := by
  refine ⟨h.engine, ?_, h.slot, fun c hc => absurd hc (hsettling c)⟩
  intro j pass hj hrunning
  rcases h.record j pass hj hrunning with hslot | hrecord
  . exact Or.inl hslot
  . right
    obtain ⟨k, hk⟩ := List.mem_iff_getElem?.mp hrecord
    have hne : k ≠ i := by
      rintro rfl
      rw [hi, Option.some.injEq] at hk
      subst hk
      simp only [Engine.isFinished, hj] at hfinished
      rw [hfinished] at hrunning
      cases hrunning
    exact List.mem_eraseIdx_iff_getElem?.mpr ⟨k, hne, hk⟩

theorem report (h : HandleInv s) {passesSettled : Bool}
    (hhost : s.host = .draining c passesSettled) (drained : Bool)
    : HandleInv (s.report c passesSettled drained) := by
  refine ⟨h.engine, h.record, fun _ => h.slot (by simp [hhost]), ?_⟩
  intro c' hc'
  simp only [HandleState.report] at hc'
  split at hc' <;> cases hc'

theorem spawn (h : HandleInv s) (hhost : s.host = .starting)
    : HandleInv {
        s with
        engine := s.engine.spawn
        task := some s.engine.passes.length
        host := .free } := by
  refine ⟨h.engine.spawn, ?_, nofun, nofun⟩
  intro i pass hi hrunning
  rw [Engine.spawn, List.getElem?_append] at hi
  split at hi
  . rcases h.record i pass hi hrunning with hslot | hrecord
    . rw [h.slot (by simp [hhost])] at hslot
      cases hslot
    . exact Or.inr hrecord
  . next hge =>
    have hlt := (List.getElem?_eq_some_iff.mp hi).1
    rw [List.length_singleton] at hlt
    exact Or.inl (congrArg some (by omega))

theorem step (h : HandleInv s) (hstep : s.step e = some s') : HandleInv s' := by
  cases e with
  | engine e =>
    obtain ⟨engine, hengine, rfl⟩ := Option.map_eq_some_iff.mp hstep
    exact h.engineStep (Engine.trans_of_step hengine)
  | call c =>
    simp only [HandleState.step] at hstep
    split at hstep
    . cases hstep
      exact h.makeCall c
    . cases hstep
  | look =>
    simp only [HandleState.step] at hstep
    split at hstep
    . next c i hhost =>
      split at hstep
      . next p hp =>
        split at hstep
        . next hfinished =>
          cases hstep
          exact h.look hp hfinished (by simp [hhost])
        . cases hstep
          exact ⟨h.engine, h.record, fun _ => h.slot (by simp [hhost]), nofun⟩
      . cases hstep
    . cases hstep
  | settlePoll =>
    simp only [HandleState.step] at hstep
    split at hstep
    . next c i hhost =>
      have hslot := h.slot (by simp [hhost])
      split at hstep
      . cases hstep
      . split at hstep
        . next hempty =>
          cases hstep
          refine ⟨h.engine, h.record, fun _ => hslot, ?_⟩
          intro _ _ pass hpass
          -- Neither in the slot nor on record: the pass has finished.
          obtain ⟨j, hj⟩ := List.mem_iff_getElem?.mp hpass
          by_contra hrunning
          rcases h.record j pass hj (by simpa using hrunning) with htask | hrecord
          . rw [hslot] at htask
            cases htask
          . rw [List.isEmpty_iff.mp hempty] at hrecord
            cases hrecord
        . cases hstep
          exact ⟨h.engine, h.record, fun _ => hslot, nofun⟩
    . cases hstep
  | settleExpires =>
    simp only [HandleState.step] at hstep
    split at hstep
    . next c i hhost =>
      split at hstep
      . cases hstep
      . cases hstep
        exact ⟨h.engine, h.record, fun _ => h.slot (by simp [hhost]), nofun⟩
    . cases hstep
  | drainPoll =>
    simp only [HandleState.step] at hstep
    split at hstep
    . next c settled hhost =>
      split at hstep
      . cases hstep
        exact h
      . cases hstep
        exact h.report hhost true
    . cases hstep
  | drainExpires =>
    simp only [HandleState.step] at hstep
    split at hstep
    . next c settled hhost =>
      split at hstep
      . cases hstep
        exact h.report hhost false
      . cases hstep
    . cases hstep
  | spawn =>
    simp only [HandleState.step] at hstep
    split at hstep
    . next hhost =>
      cases hstep
      exact h.spawn hhost
    . cases hstep

end HandleInv

theorem inv_of_reachable (h : machine.Reachable s) : HandleInv s := by
  induction h with
  | start hstart =>
    cases hstart
    exact ⟨⟨rfl, nofun⟩, nofun, fun _ => rfl, nofun⟩
  | step _ _ hstep ih => exact ih.step hstep

theorem engine_of_step {s s' : HandleState} (hstep : s.step e = some s')
    : EngineTrans s.engine s'.engine ∨ (∃ i, s'.engine = s.engine.abort i)
      ∨ s'.engine = s.engine.spawn := by
  have hsame : EngineTrans s.engine s.engine := .goesOn
  cases e with
  | engine e =>
    obtain ⟨engine, hengine, rfl⟩ := Option.map_eq_some_iff.mp hstep
    exact Or.inl (Engine.trans_of_step hengine)
  | call c =>
    simp only [HandleState.step] at hstep
    split at hstep
    . cases hstep
      simp only [HandleState.makeCall, HandleState.takeTask]
      grind
    . cases hstep
  | look => grind [HandleState.step]
  | settlePoll => grind [HandleState.step]
  | settleExpires => grind [HandleState.step]
  | drainPoll => grind [HandleState.step, HandleState.report]
  | drainExpires => grind [HandleState.step, HandleState.report]
  | spawn => grind [HandleState.step]

theorem Over.handleStep {s s' : HandleState} (h : Over n s.engine) (hstep : s.step e = some s')
    : Over n s'.engine := by
  rcases engine_of_step hstep with ht | ⟨i, hi⟩ | hspawn
  . exact h.trans ht
  . rw [hi]
    exact h.abort i
  . rw [hspawn]
    exact h.spawn

theorem Over.run {s t : HandleState} (h : Over n s.engine) (hrun : machine.run s es = some t)
    : Over n t.engine := by
  induction es generalizing s with
  | nil =>
    cases hrun
    exact h
  | cons e es ih =>
    obtain ⟨s', hstep, hrest⟩ := Option.bind_eq_some_iff.mp hrun
    exact ih (h.handleStep hstep) hrest

theorem report_of_step {s s' : HandleState} (hstep : s.step e = some s')
    : s'.reports = s.reports ∨ ∃ c settled drained, s.host = .draining c settled
      ∧ (drained = true → s.engine.walletWriters = 0) ∧ s' = s.report c settled drained := by
  cases e with
  | engine e =>
    obtain ⟨engine, _, rfl⟩ := Option.map_eq_some_iff.mp hstep
    exact Or.inl rfl
  | call c =>
    simp only [HandleState.step] at hstep
    split at hstep
    . cases hstep
      simp only [HandleState.makeCall, HandleState.takeTask]
      grind
    . cases hstep
  | look => grind [HandleState.step]
  | settlePoll => grind [HandleState.step]
  | settleExpires => grind [HandleState.step]
  | drainPoll => grind [HandleState.step]
  | drainExpires => grind [HandleState.step]
  | spawn => grind [HandleState.step]

theorem over_of_quiescent {s s' : HandleState} (h : HandleInv s) (hstep : s.step e = some s')
    (hreport : s'.reports = s.reports ++ [r]) (hquiescent : r.quiescent = true)
    : s'.engine.passes.all Pass.finished = true ∧ s'.engine.commits.all Commit.finished = true
      ∧ Over s'.engine.passes.length s'.engine := by
  rcases report_of_step hstep with hsame | ⟨c, settled, drained, hhost, hwriters, rfl⟩
  . rw [hsame] at hreport
    have := congrArg List.length hreport
    simp at this
  . obtain rfl : { settled, drained } = r := by
      simpa [HandleState.report] using hreport
    simp only [StopReport.quiescent, Bool.and_eq_true] at hquiescent
    obtain ⟨rfl, rfl⟩ := hquiescent
    have hpasses := h.settled c hhost
    have hcommits := h.engine.commits_finished (hwriters rfl)
    exact ⟨List.all_eq_true.mpr hpasses, List.all_eq_true.mpr hcommits, Nat.le_refl _,
      fun i _ pass hi => hpasses pass (List.mem_of_getElem? hi),
      fun commit hcommit _ => hcommits commit hcommit⟩

/-- In every interleaving of the host's calls with passes and commits, a pass that has not finished
is in the task slot or on record, and a quiescent report means that every pass has finished and that
no commit of theirs is running or starts later. -/
theorem quiescent_report (h : machine.Reachable s)
    : (∀ i pass, s.engine.passes[i]? = some pass → pass.finished = false →
        s.task = some i ∨ i ∈ s.unfinishedPasses)
      ∧ ∀ e s' r, s.step e = some s' → s'.reports = s.reports ++ [r] → r.quiescent = true →
        s'.engine.passes.all Pass.finished = true
        ∧ s'.engine.commits.all Commit.finished = true
        ∧ ∀ es t, machine.run s' es = some t → ∀ commit ∈ t.engine.commits,
          commit.pass < s'.engine.passes.length → commit.finished = true := by
  have hinv := inv_of_reachable h
  refine ⟨hinv.record, ?_⟩
  intro e s' r hstep hreport hquiescent
  obtain ⟨hpasses, hcommits, hover⟩ := over_of_quiescent hinv hstep hreport hquiescent
  exact ⟨hpasses, hcommits, fun es t hrun => (hover.run hrun).commits⟩

def stopDuringCommit : List HandleEvent := [
  .call .start, .settlePoll, .drainPoll, .spawn, .engine (.hold 0), .call .stop, .look,
  .engine (.spawnCommit 0), .engine (.await 0), .settlePoll, .look, .settlePoll, .drainPoll,
  .engine (.commitEnds 0 false)]

def drained : HandleState where
  engine := {
    passes := [{ aborted := true, finished := true, gated := false }]
    commits := [{ pass := 0, finished := true }]
    walletWriters := 0 }
  task := none
  unfinishedPasses := []
  stopRequests := 0
  host := .draining .stop true
  reports := [{ settled := true, drained := true }]

theorem quiescent_report_stopDuringCommit
    : machine.run .new stopDuringCommit = some drained
      ∧ ∀ es t, machine.run (drained.report .stop true true) es = some t →
        ∀ commit ∈ t.engine.commits, commit.pass < 1 → commit.finished = true := by
  have hrun : machine.run .new stopDuringCommit = some drained := rfl
  have hreached := Machine.reachable_of_run (Machine.Reach.start rfl) hrun
  obtain ⟨_, hreports⟩ := quiescent_report hreached
  obtain ⟨_, _, hlater⟩ := hreports .drainPoll _ { settled := true, drained := true } rfl rfl rfl
  exact ⟨hrun, hlater⟩

end Handle
end Slipstream
