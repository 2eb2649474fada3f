import Slipstream.Fetch.Lemmas.Steps
import Mathlib.Algebra.Order.BigOperators.Group.List
import Mathlib.Algebra.Order.Group.Nat

/-!
This module contains the accounts of the ahead gate: the permits its semaphore has left and the ones
held by sub-chunks on their way to the queue.
-/

namespace Slipstream

def SubChunk.permits (sub : SubChunk) : Nat := sub.permit.getD 0

def Worker.admitted? : Worker → Option SubChunk
  | .sending _ sub _ => some sub
  | _ => none

namespace Fetch

def unreleased (s : FetchState) : List SubChunk :=
  s.workers.filterMap Worker.admitted? ++ s.channel ++ s.reorder.pending ++ atQueue s.reorder.phase
where
  atQueue : ReleasePhase → List SubChunk
    | .sending sub => [sub]
    | _ => []

def permitsOf (subs : List SubChunk) : Nat := (subs.map SubChunk.permits).sum

structure BudgetInv (plan : FetchPlan) (s : FetchState) : Prop where
  within : s.aheadFree + permitsOf (unreleased s) ≤ aheadPermits plan
  exact : ∀ sub ∈ unreleased s, sub.permit = none ∨ sub.permit = some (aheadNeed plan sub.bytes)

variable {plan : FetchPlan} {s s' : FetchState} {k : Nat} {w w' : Worker} {sub x : SubChunk}

@[simp]
theorem permitsOf_nil : permitsOf [] = 0 := by
  simp [permitsOf]

@[simp]
theorem permitsOf_cons (sub : SubChunk) (subs : List SubChunk)
    : permitsOf (sub :: subs) = sub.permits + permitsOf subs := by
  simp [permitsOf]

@[simp]
theorem permitsOf_append (xs ys : List SubChunk)
    : permitsOf (xs ++ ys) = permitsOf xs + permitsOf ys := by
  simp [permitsOf]

theorem permitsOf_filter_le (p : SubChunk → Bool) (subs : List SubChunk)
    : permitsOf (subs.filter p) ≤ permitsOf subs :=
  (List.filter_sublist.map _).sum_le_sum fun _ _ => Nat.zero_le _

theorem permitsOf_filter_lt {p : SubChunk → Bool} {subs : List SubChunk} (hsub : sub ∈ subs)
    (hp : p sub = false) : permitsOf (subs.filter p) + sub.permits ≤ permitsOf subs := by
  induction subs with
  | nil => cases hsub
  | cons x xs ih =>
    rw [permitsOf_cons]
    rcases List.mem_cons.mp hsub with rfl | hmem
    . have := permitsOf_filter_le p xs
      rw [List.filter_cons_of_neg (by simp [hp])]
      omega
    . have := ih hmem
      rw [List.filter_cons]
      split
      . rw [permitsOf_cons]
        omega
      . omega

theorem permitsOf_workers (ws : List Worker)
    : permitsOf (ws.filterMap Worker.admitted?)
        =
      (ws.map fun w => permitsOf w.admitted?.toList).sum := by
  induction ws with
  | nil => rfl
  | cons w ws ih =>
    cases hw : w.admitted? with
    | none => simp [hw, ih]
    | some sub => simp [hw, ih]

theorem permitsOf_unreleased (s : FetchState)
    : permitsOf (unreleased s)
        =
      (s.workers.map fun w => permitsOf w.admitted?.toList).sum + permitsOf s.channel
        + permitsOf s.reorder.pending + permitsOf (unreleased.atQueue s.reorder.phase) := by
  simp [unreleased, permitsOf_workers, Nat.add_assoc]

theorem mem_unreleased
    : sub ∈ unreleased s
        ↔
      (∃ w ∈ s.workers, w.admitted? = some sub) ∨ sub ∈ s.channel ∨ sub ∈ s.reorder.pending
        ∨ sub ∈ unreleased.atQueue s.reorder.phase := by
  simp [unreleased]

theorem BudgetInv.of_le (h : BudgetInv plan s)
    (hle : s'.aheadFree + permitsOf (unreleased s') ≤ s.aheadFree + permitsOf (unreleased s))
    (hsubs : ∀ sub ∈ unreleased s', sub ∈ unreleased s ∨ sub.permit = none
      ∨ sub.permit = some (aheadNeed plan sub.bytes))
    : BudgetInv plan s' :=
  ⟨hle.trans h.within, fun sub hsub => (hsubs sub hsub).elim (h.exact sub) id⟩

theorem BudgetInv.frame (h : BudgetInv plan s) (hfree : s'.aheadFree = s.aheadFree)
    (hworkers : s'.workers = s.workers) (hchannel : s'.channel = s.channel)
    (hpending : s'.reorder.pending = s.reorder.pending)
    (hqueue : unreleased.atQueue s'.reorder.phase = unreleased.atQueue s.reorder.phase)
    : BudgetInv plan s' := by
  have hsame : unreleased s' = unreleased s := by
    simp only [unreleased, hworkers, hchannel, hpending, hqueue]
  exact ⟨by rw [hfree, hsame]; exact h.within, by rw [hsame]; exact h.exact⟩

theorem mem_unreleased_setWorker (hsub : sub ∈ unreleased (setWorker s k w'))
    : sub ∈ unreleased s ∨ w'.admitted? = some sub := by
  rw [mem_unreleased] at hsub ⊢
  rcases hsub with ⟨x, hx, hadmitted⟩ | hsub
  . rcases List.mem_or_eq_of_mem_set hx with hx | rfl
    . exact Or.inl (Or.inl ⟨x, hx, hadmitted⟩)
    . exact Or.inr hadmitted
  . exact Or.inl (Or.inr hsub)

theorem BudgetInv.setWorker (h : BudgetInv plan s) (hk : s.workers[k]? = some w)
    (hw : w.admitted? = none)
    (hpermit : ∀ sub, w'.admitted? = some sub →
      sub.permit = none ∨ sub.permit = some (aheadNeed plan sub.bytes))
    (hfree : free + permitsOf w'.admitted?.toList ≤ s.aheadFree)
    : BudgetInv plan (Fetch.setWorker { s with aheadFree := free } k w') := by
  have hsum := sum_setWorker (fun w => permitsOf w.admitted?.toList) hk w'
  apply h.of_le
  . rw [permitsOf_unreleased, permitsOf_unreleased]
    simp only [hw, Option.toList_none, permitsOf_nil, Nat.add_zero] at hsum
    dsimp only [Fetch.setWorker] at hsum ⊢
    omega
  . intro sub hsub
    exact (mem_unreleased_setWorker hsub).imp_right (hpermit sub)

theorem BudgetInv.moves (h : BudgetInv plan s) (hk : s.workers[k]? = some w)
    (hw : w.admitted? = none) (hw' : w'.admitted? = none)
    : BudgetInv plan (Fetch.setWorker s k w') :=
  h.setWorker hk hw (by simp [hw']) (by simp [hw'])

theorem BudgetInv.sent (h : BudgetInv plan s) (hk : s.workers[k]? = some (.sending a sub after))
    (hw' : w'.admitted? = none) (hchannel : subs = s.channel ∨ subs = s.channel ++ [sub])
    : BudgetInv plan (Fetch.setWorker { s with channel := subs } k w') := by
  have hsum := sum_setWorker (fun w => permitsOf w.admitted?.toList) hk w'
  apply h.of_le
  . rw [permitsOf_unreleased, permitsOf_unreleased]
    have hw : (Worker.sending a sub after).admitted? = some sub := rfl
    simp only [hw, hw', Option.toList_none, Option.toList_some, permitsOf_nil, permitsOf_cons,
      Nat.add_zero] at hsum
    have hsubs : permitsOf subs ≤ permitsOf s.channel + sub.permits := by
      rcases hchannel with rfl | rfl
      . exact Nat.le_add_right _ _
      . simp
    dsimp only [Fetch.setWorker] at hsum ⊢
    omega
  . intro x hx
    left
    rw [mem_unreleased] at hx ⊢
    rcases hx with ⟨y, hy, hadmitted⟩ | hx | hx
    . rcases List.mem_or_eq_of_mem_set hy with hy | rfl
      . exact Or.inl ⟨y, hy, hadmitted⟩
      . simp [hw'] at hadmitted
    . rcases hchannel with rfl | rfl
      . exact Or.inr (Or.inl hx)
      . rcases List.mem_append.mp hx with hx | hx
        . exact Or.inr (Or.inl hx)
        . rw [List.mem_singleton.mp hx]
          exact Or.inl ⟨_, List.mem_of_getElem? hk, rfl⟩
    . exact Or.inr (Or.inr hx)

theorem retry_admitted (plan : FetchPlan) (c : PlanChunkCursor) (attempt : Nat) (detail : String)
    : (Worker.retry plan c attempt detail).admitted? = none := by
  unfold Worker.retry
  dsimp only
  generalize (if c.emittedThisAttempt = true then 0 else attempt) = n
  split <;> rfl

theorem resume_admitted (plan : FetchPlan) (a : Attempt) (after : AfterEmit)
    : (Worker.resume plan a after).admitted? = none := by
  cases after with
  | fail detail => exact retry_admitted plan a.cursor a.attempt detail
  | _ => rfl

theorem flushThenFail_admitted (plan : FetchPlan) (a : Attempt)
    (tail : Option (List CompactBlock × Nat)) (detail : String)
    : (Worker.flushThenFail plan a tail detail).admitted? = none := by
  unfold Worker.flushThenFail
  repeat' split
  . rfl
  all_goals exact retry_admitted ..

theorem input_admitted (h : w.input plan i = some w') : w.admitted? = none ∧ w'.admitted? = none := by
  unfold Worker.input at h
  split at h
  all_goals cases h
  . exact ⟨rfl, rfl⟩
  . exact ⟨rfl, rfl⟩
  . exact ⟨rfl, rfl⟩
  . exact ⟨rfl, rfl⟩
  . exact ⟨rfl, retry_admitted ..⟩
  . refine ⟨rfl, ?_⟩
    unfold Worker.onBlock
    repeat' split
    all_goals rfl
  . exact ⟨rfl, flushThenFail_admitted ..⟩
  . exact ⟨rfl, flushThenFail_admitted ..⟩
  . refine ⟨rfl, ?_⟩
    unfold Worker.endOfStream
    dsimp only
    repeat' split
    . rfl
    all_goals exact flushThenFail_admitted ..

theorem BudgetInv.worker (h : BudgetInv plan s) (ht : WorkerTrans plan s k e s')
    : BudgetInv plan s' := by
  cases ht with
  | input hk hin => exact h.moves hk (input_admitted hin).1 (input_admitted hin).2
  | claimed hk hlt => exact (h.moves hk rfl rfl).frame rfl rfl rfl rfl rfl
  | exhausted hk hge => exact (h.moves hk rfl rfl).frame rfl rfl rfl rfl rfl
  | passes hk hfloor =>
    apply h.setWorker hk rfl
    . rintro sub ⟨rfl⟩
      exact Or.inl rfl
    . exact Nat.le_refl _
  | waits hk hfloor => exact h.moves hk rfl rfl
  | acquired hk hfree =>
    apply h.setWorker hk rfl
    . rintro sub ⟨rfl⟩
      exact Or.inr rfl
    . simp [Worker.admitted?, SubChunk.permits, Attempt.subChunk, Nat.sub_add_cancel hfree]
  | repolled hk hfloor =>
    apply h.setWorker hk rfl
    . rintro sub ⟨rfl⟩
      exact Or.inl rfl
    . exact Nat.le_refl _
  | waitsOn hk hfloor => exact h
  | sent hk hrunning hroom => exact h.sent hk (resume_admitted ..) (Or.inr rfl)
  | quits hk hover => exact h.sent hk rfl (Or.inl rfl)

theorem BudgetInv.received (h : BudgetInv plan s) (hphase : s.reorder.phase = .receiving)
    (hchannel : s.channel = sub :: subs) (d : Option WireDetector)
    : BudgetInv plan {
        s with
        channel := subs
        reorder := {
          s.reorder with
          phase := .draining
          pending := insertPending s.reorder.pending sub
          detector := d
        }
      } := by
  apply h.of_le
  . have := permitsOf_filter_le
      (fun p => (p.planIndex, p.subIndex) ≠ (sub.planIndex, sub.subIndex)) s.reorder.pending
    rw [permitsOf_unreleased, permitsOf_unreleased]
    simp only [hchannel, hphase, insertPending, unreleased.atQueue, permitsOf_append,
      permitsOf_cons, permitsOf_nil]
    omega
  . intro x hx
    left
    rw [mem_unreleased] at hx ⊢
    rcases hx with hx | hx | hx | hx
    . exact Or.inl hx
    . exact Or.inr (Or.inl (hchannel ▸ List.mem_cons_of_mem _ hx))
    . rcases List.mem_append.mp hx with hx | hx
      . exact Or.inr (Or.inr (Or.inl (List.mem_of_mem_filter hx)))
      . exact Or.inr (Or.inl (by simp [hchannel, List.mem_singleton.mp hx]))
    . cases hx

theorem BudgetInv.taken (h : BudgetInv plan s) (hsub : sub ∈ s.reorder.pending)
    (hkey : (sub.planIndex, sub.subIndex) = s.reorder.next) (c : Continuity)
    (hnext : phase = .draining ∨ phase = .sending sub)
    : BudgetInv plan {
        s with reorder := { s.reorder with pending := rest s, continuity := c, phase }
      } := by
  apply h.of_le
  . have hrest : permitsOf (rest s) + sub.permits ≤ permitsOf s.reorder.pending :=
      permitsOf_filter_lt hsub (by simp [hkey])
    rw [permitsOf_unreleased, permitsOf_unreleased]
    have hqueue : permitsOf (unreleased.atQueue phase) ≤ sub.permits := by
      rcases hnext with rfl | rfl
      . exact Nat.zero_le _
      . simp [unreleased.atQueue]
    dsimp only
    omega
  . intro x hx
    left
    rw [mem_unreleased] at hx ⊢
    rcases hx with hx | hx | hx | hx
    . exact Or.inl hx
    . exact Or.inr (Or.inl hx)
    . exact Or.inr (Or.inr (Or.inl (List.mem_of_mem_filter hx)))
    . rcases hnext with rfl | rfl
      . cases hx
      . rw [List.mem_singleton.mp hx]
        exact Or.inr (Or.inr (Or.inl hsub))

theorem BudgetInv.released (h : BudgetInv plan s) (hphase : s.reorder.phase = .sending sub)
    : BudgetInv plan (afterRelease s sub) := by
  apply h.of_le
  . rw [permitsOf_unreleased, permitsOf_unreleased]
    simp only [afterRelease, hphase, unreleased.atQueue, permitsOf_nil, permitsOf_cons,
      SubChunk.permits]
    omega
  . intro x hx
    left
    rw [mem_unreleased] at hx ⊢
    exact hx.imp_right fun hx => hx.imp_right fun hx => hx.imp_right nofun

theorem BudgetInv.stage (h : BudgetInv plan s) (ht : StageTrans plan s e s')
    : BudgetInv plan s' := by
  cases ht with
  | received hphase hchannel hd => exact h.received hphase hchannel _
  | collapses hphase hchannel hd =>
    apply h.of_le
    . rw [permitsOf_unreleased, permitsOf_unreleased]
      simp only [fail, hchannel, permitsOf_cons]
      omega
    . intro x hx
      left
      rw [mem_unreleased] at hx ⊢
      exact hx.imp_right fun hx => hx.imp_left fun hx => hchannel ▸ List.mem_cons_of_mem _ hx
  | drained hphase hnone =>
    exact h.frame rfl rfl rfl rfl (by rw [hphase]; rfl)
  | rejected hphase hsub hkey hverify =>
    have := h.taken hsub hkey s.reorder.continuity (Or.inl rfl)
    exact this.frame rfl rfl rfl rfl (by simp [fail, hphase])
  | verified hphase hsub hkey hverify => exact h.taken hsub hkey _ (Or.inr rfl)
  | released hphase hreceiver hfree => exact h.released hphase
  | ends hphase hchannel hall => exact h.frame rfl rfl rfl rfl (by rw [hphase]; rfl)
  | joined hk => exact h.moves hk rfl rfl
  | _ => exact h.frame rfl rfl rfl rfl rfl

theorem BudgetInv.step (h : BudgetInv plan s) (hstep : Fetch.step plan s e = some s')
    : BudgetInv plan s' := by
  cases trans_of_step hstep with
  | worker ht => exact h.worker ht
  | stage _ ht => exact h.stage ht
  | scannerReturns => exact h.frame rfl rfl rfl rfl rfl
  | scannerGone => exact h.frame rfl rfl rfl rfl rfl

theorem budget_of_reachable (h : (machine plan budgetBytes).Reachable s) : BudgetInv plan s := by
  apply h.invariant
  . rintro _ rfl
    have hnone : unreleased (init plan budgetBytes) = [] := by
      simp [unreleased, init, unreleased.atQueue, Worker.admitted?]
    refine ⟨?_, by simp [hnone]⟩
    rw [hnone]
    exact Nat.le_refl _
  . exact fun _ _ _ hinv _ hstep => hinv.step hstep

end Fetch
end Slipstream
