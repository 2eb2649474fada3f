import Slipstream.Fetch.Impl.System

/-!
This module contains the transitions of the fetch as a relation: what each event can do, with the
state it needs and the state it leaves.
-/

namespace Slipstream

def Worker.Failed : Worker → Prop
  | .finished (.error _) => True
  | _ => False

def FetchPlan.freshCursor (plan : FetchPlan) (index : Nat) : PlanChunkCursor where
  planIndex := index
  stop := (plan.chunkRange index).2
  resumeFrom := (plan.chunkRange index).1
  nextSubIndex := 0
  emittedThisAttempt := false

namespace Fetch

def rest (s : FetchState) : List SubChunk :=
  s.reorder.pending.filter fun p => (p.planIndex, p.subIndex) ≠ s.reorder.next

def afterRelease (s : FetchState) (sub : SubChunk) : FetchState :=
  let chunk := Chunk.fromBlocks s.reorder.emittedChunks sub.blocks
  { s with
    queue := {
      s.queue with
      sent := s.queue.sent ++ [chunk]
      inFlight := s.queue.inFlight ++ [s.queue.need chunk]
    }
    unreleasedFrom :=
      match sub.blocks.getLast? with
      | some b => b.height + 1
      | none => s.unreleasedFrom
    aheadFree := s.aheadFree + sub.permit.getD 0
    floor := if sub.isLast then sub.planIndex + 1 else s.floor
    reorder := {
      s.reorder with
      phase := .draining
      blocks := s.reorder.blocks + chunk.blocks.length
      bytes := s.reorder.bytes + chunk.estimatedBytes
      emittedChunks := s.reorder.emittedChunks + 1
      plansReleased :=
        if sub.isLast then s.reorder.plansReleased + 1 else s.reorder.plansReleased
      next :=
        if sub.isLast then (sub.planIndex + 1, 0)
        else (s.reorder.next.1, s.reorder.next.2 + 1)
    } }

inductive WorkerTrans (plan : FetchPlan) (s : FetchState) (k : Nat) : FetchEvent → FetchState → Prop
    where
  | input (hk : s.workers[k]? = some w) (hin : w.input plan i = some w')
    : WorkerTrans plan s k (.input k i) (setWorker s k w')
  | claimed (hk : s.workers[k]? = some .claiming) (hlt : s.next < plan.chunkCount)
    : WorkerTrans plan s k (.claim k) (setWorker { s with next := s.next + 1 } k
        (.beginAttempt (plan.freshCursor s.next) 0))
  | exhausted (hk : s.workers[k]? = some .claiming) (hge : plan.chunkCount ≤ s.next)
    : WorkerTrans plan s k (.claim k) (setWorker { s with next := s.next + 1 } k
        (.finished (.ok ())))
  | passes (hk : s.workers[k]? = some (.admitting a blocks bytes isLast after))
      (hfloor : a.cursor.planIndex ≤ s.floor)
    : WorkerTrans plan s k (.gate k) (setWorker s k
        (.sending a (a.subChunk blocks bytes isLast none) after))
  | waits (hk : s.workers[k]? = some (.admitting a blocks bytes isLast after))
      (hfloor : s.floor < a.cursor.planIndex)
    : WorkerTrans plan s k (.gate k) (setWorker s k (.acquiring a blocks bytes isLast after))
  | acquired (hk : s.workers[k]? = some (.acquiring a blocks bytes isLast after))
      (hfree : aheadNeed plan bytes ≤ s.aheadFree)
    : WorkerTrans plan s k (.acquire k)
        (setWorker { s with aheadFree := s.aheadFree - aheadNeed plan bytes } k
          (.sending a (a.subChunk blocks bytes isLast (some (aheadNeed plan bytes))) after))
  | repolled (hk : s.workers[k]? = some (.acquiring a blocks bytes isLast after))
      (hfloor : a.cursor.planIndex ≤ s.floor)
    : WorkerTrans plan s k (.repoll k) (setWorker s k
        (.sending a (a.subChunk blocks bytes isLast none) after))
  | waitsOn (hk : s.workers[k]? = some (.acquiring a blocks bytes isLast after))
      (hfloor : s.floor < a.cursor.planIndex)
    : WorkerTrans plan s k (.repoll k) s
  | sent (hk : s.workers[k]? = some (.sending a sub after)) (hrunning : s.result = none)
      (hroom : s.channel.length < plan.workerCount)
    : WorkerTrans plan s k (.send k) (setWorker { s with channel := s.channel ++ [sub] } k
        (.resume plan { a with cursor := Worker.advance a.cursor sub } after))
  | quits (hk : s.workers[k]? = some (.sending a sub after)) (hover : s.result ≠ none)
    : WorkerTrans plan s k (.send k) (setWorker s k (.finished (.ok ())))

inductive StageTrans (plan : FetchPlan) (s : FetchState) : FetchEvent → FetchState → Prop where
  | ticks (hphase : s.reorder.phase = .receiving) (hchannel : s.channel = [])
      (hd : s.reorder.detector = none → d = none)
    : StageTrans plan s (.starve now) { s with reorder := { s.reorder with detector := d } }
  | stalls (hd : s.reorder.detector = some d)
    : StageTrans plan s (.starve now) (fail s e)
  | received (hphase : s.reorder.phase = .receiving) (hchannel : s.channel = sub :: subs)
      (hd : s.reorder.detector = none → d = none)
    : StageTrans plan s (.recv now) {
        s with
        channel := subs
        reorder := {
          s.reorder with
          phase := .draining
          pending := insertPending s.reorder.pending sub
          detector := d
        }
      }
  | collapses (hphase : s.reorder.phase = .receiving) (hchannel : s.channel = sub :: subs)
      (hd : s.reorder.detector = some d)
    : StageTrans plan s (.recv now) (fail { s with channel := subs } e)
  | drained (hphase : s.reorder.phase = .draining)
      (hnone : ∀ p ∈ s.reorder.pending, (p.planIndex, p.subIndex) ≠ s.reorder.next)
    : StageTrans plan s .drain { s with reorder := { s.reorder with phase := .receiving } }
  | rejected (hphase : s.reorder.phase = .draining) (hsub : sub ∈ s.reorder.pending)
      (hkey : (sub.planIndex, sub.subIndex) = s.reorder.next)
      (hverify : s.reorder.continuity.verifyBlocks sub.blocks = .error e)
    : StageTrans plan s .drain (fail { s with reorder := { s.reorder with pending := rest s } } e)
  | verified (hphase : s.reorder.phase = .draining) (hsub : sub ∈ s.reorder.pending)
      (hkey : (sub.planIndex, sub.subIndex) = s.reorder.next)
      (hverify : s.reorder.continuity.verifyBlocks sub.blocks = .ok c)
    : StageTrans plan s .drain {
        s with
        reorder := { s.reorder with pending := rest s, continuity := c, phase := .sending sub }
      }
  | released (hphase : s.reorder.phase = .sending sub) (hreceiver : s.queue.receiverGone = false)
      (hfree : s.queue.need (Chunk.fromBlocks s.reorder.emittedChunks sub.blocks) ≤ s.queue.free)
    : StageTrans plan s .release (afterRelease s sub)
  | refused (hreceiver : s.queue.receiverGone = true) : StageTrans plan s .release (fail s .stopped)
  | ends (hphase : s.reorder.phase = .receiving) (hchannel : s.channel = [])
      (hall : ∀ w ∈ s.workers, w.isFinished = true)
    : StageTrans plan s .releaseEnds { s with reorder := { s.reorder with phase := .ended } }
  | joined (hk : s.workers[k]? = some (.finished (.ok ())))
    : StageTrans plan s (.join k) (setWorker s k .joined)
  | givenUp (hk : s.workers[k]? = some w) (hfailed : w.Failed)
    : StageTrans plan s (.join k) (fail s e)
  | panicked : StageTrans plan s (.panicked k detail) (fail s e)
  | incomplete (hphase : s.reorder.phase = .ended)
      (hplans : s.reorder.plansReleased ≠ plan.chunkCount)
    : StageTrans plan s .finish (fail s e)
  | completed (hphase : s.reorder.phase = .ended)
      (hplans : s.reorder.plansReleased = plan.chunkCount)
    : StageTrans plan s .finish { s with result := some (.ok stats) }

inductive Trans (plan : FetchPlan) (s : FetchState) : FetchEvent → FetchState → Prop where
  | worker (h : WorkerTrans plan s k e s') : Trans plan s e s'
  | stage (hrunning : s.result = none) (h : StageTrans plan s e s') : Trans plan s e s'
  | scannerReturns : Trans plan s .scannerReturns
      { s with queue := { s.queue with inFlight := s.queue.inFlight.tail } }
  | scannerGone : Trans plan s .scannerGone { s with queue := { s.queue with receiverGone := true } }

variable {plan : FetchPlan} {s s' : FetchState} {k : Nat}

theorem sum_setWorker (f : Worker → Nat) (hk : s.workers[k]? = some w) (w' : Worker)
    : ((setWorker s k w').workers.map f).sum + f w = (s.workers.map f).sum + f w' := by
  unfold setWorker
  dsimp only
  generalize s.workers = ws at hk
  induction ws generalizing k with
  | nil => cases hk
  | cons x ws ih =>
    cases k with
    | zero =>
      cases hk
      simp only [List.set_cons_zero, List.map_cons, List.sum_cons]
      omega
    | succ k =>
      have := ih (by simpa using hk)
      simp only [List.set_cons_succ, List.map_cons, List.sum_cons]
      omega

theorem claimStep_trans (h : claimStep plan s k = some s') : WorkerTrans plan s k (.claim k) s' := by
  unfold claimStep at h
  split at h
  . next hk =>
    cases h
    unfold Worker.claim FetchPlan.claimChunk
    by_cases hcount : s.next ≥ plan.chunkCount
    . rw [if_pos hcount]
      exact .exhausted hk hcount
    . rw [if_neg hcount]
      exact .claimed hk (Nat.lt_of_not_le hcount)
  . cases h

theorem admitStep_trans (h : admitStep s k = some s') : WorkerTrans plan s k (.gate k) s' := by
  unfold admitStep at h
  split at h
  . next hk =>
    split at h
    . next hfloor =>
      cases h
      exact .passes hk hfloor
    . next hfloor =>
      cases h
      exact .waits hk (Nat.lt_of_not_le hfloor)
  . cases h

theorem acquireStep_trans (h : acquireStep plan s k = some s')
    : WorkerTrans plan s k (.acquire k) s' := by
  unfold acquireStep at h
  split at h
  . next hk =>
    dsimp only at h
    split at h
    . next hfree =>
      cases h
      exact .acquired hk hfree
    . cases h
  . cases h

theorem repollStep_trans (h : repollStep s k = some s') : WorkerTrans plan s k (.repoll k) s' := by
  unfold repollStep at h
  split at h
  . next hk =>
    split at h
    . next hfloor =>
      cases h
      exact .repolled hk hfloor
    . next hfloor =>
      cases h
      exact .waitsOn hk (Nat.lt_of_not_le hfloor)
  . cases h

theorem sendStep_trans (h : sendStep plan s k = some s') : WorkerTrans plan s k (.send k) s' := by
  unfold sendStep at h
  split at h
  . next hk =>
    split at h
    . next hover =>
      cases h
      exact .quits hk (Option.isSome_iff_ne_none.mp hover)
    . next hrunning =>
      split at h
      . next hroom =>
        cases h
        exact .sent hk (by simpa using hrunning) hroom
      . cases h
  . cases h

theorem starveStep_trans (h : starveStep s now = some s') : StageTrans plan s (.starve now) s' := by
  unfold starveStep at h
  split at h
  . next d hphase hchannel hd =>
    split at h
    . cases h
      exact .stalls hd
    . cases h
      exact .ticks hphase hchannel (by simp [hd])
  . next hphase hchannel hd =>
    cases h
    exact .ticks hphase hchannel id
  . cases h

theorem recvStep_trans (h : recvStep s now = some s') : StageTrans plan s (.recv now) s' := by
  unfold recvStep at h
  split at h
  . next sub subs hphase hchannel =>
    dsimp only at h
    split at h
    . next hd =>
      cases h
      exact .received hphase hchannel fun _ => rfl
    . next d hd =>
      split at h
      . cases h
        exact .collapses hphase hchannel hd
      . cases h
        exact .received hphase hchannel (by simp [hd])
  . cases h

theorem drainStep_trans (h : drainStep s = some s') : StageTrans plan s .drain s' := by
  unfold drainStep at h
  split at h
  . next hphase =>
    split at h
    . next hfind =>
      cases h
      refine .drained hphase fun p hp => ?_
      simpa using List.find?_eq_none.mp hfind p hp
    . next sub hfind =>
      have hkey : (sub.planIndex, sub.subIndex) = s.reorder.next := by
        simpa using List.find?_some hfind
      have hsub := List.mem_of_find?_eq_some hfind
      dsimp only at h
      split at h
      . next hverify =>
        cases h
        exact .rejected hphase hsub hkey hverify
      . next hverify =>
        cases h
        exact .verified hphase hsub hkey hverify
  . cases h

theorem releaseStep_trans (h : releaseStep s = some s') : StageTrans plan s .release s' := by
  unfold releaseStep at h
  split at h
  . next sub hphase =>
    dsimp only at h
    split at h
    . next hgone =>
      cases h
      exact .refused hgone
    . next hreceiver =>
      split at h
      . next hfree =>
        cases h
        exact .released hphase (by simpa using hreceiver) hfree
      . cases h
  . cases h

theorem releaseEndsStep_trans (h : releaseEndsStep s = some s')
    : StageTrans plan s .releaseEnds s' := by
  unfold releaseEndsStep at h
  split at h
  . next hphase hchannel =>
    split at h
    . next hall =>
      cases h
      exact .ends hphase hchannel (List.all_eq_true.mp hall)
    . cases h
  . cases h

theorem joinStep_trans (h : joinStep plan s k = some s') : StageTrans plan s (.join k) s' := by
  unfold joinStep at h
  split at h
  . next hk =>
    cases h
    exact .joined hk
  . next e hk =>
    split at h
    all_goals
      cases h
      exact .givenUp hk trivial
  . cases h

theorem finishStep_trans (h : finishStep plan s = some s') : StageTrans plan s .finish s' := by
  unfold finishStep at h
  split at h
  . next hphase =>
    split at h
    . dsimp only at h
      split at h
      . next hplans =>
        cases h
        exact .incomplete hphase hplans
      . next hplans =>
        cases h
        exact .completed hphase (of_not_not hplans)
    . cases h
  . cases h

theorem stageStep_trans (h : stageStep plan s e = some s') : StageTrans plan s e s' := by
  cases e with
  | starve now => exact starveStep_trans h
  | recv now => exact recvStep_trans h
  | drain => exact drainStep_trans h
  | release => exact releaseStep_trans h
  | releaseEnds => exact releaseEndsStep_trans h
  | join k => exact joinStep_trans h
  | panicked k detail =>
    cases h
    exact .panicked
  | finish => exact finishStep_trans h
  | _ => cases h

theorem trans_of_step (h : step plan s e = some s') : Trans plan s e s' := by
  have hstage : (if s.result.isSome = true then none else stageStep plan s e) = some s' →
      Trans plan s e s' := by
    intro hstage
    split at hstage
    . cases hstage
    . next hrunning => exact .stage (by simpa using hrunning) (stageStep_trans hstage)
  cases e with
  | input k i =>
    rw [step] at h
    split at h
    . next w hk =>
      rw [Option.map_eq_some_iff] at h
      obtain ⟨w', hin, rfl⟩ := h
      exact .worker (.input hk hin)
    . cases h
  | claim k => exact .worker (claimStep_trans h)
  | gate k => exact .worker (admitStep_trans h)
  | acquire k => exact .worker (acquireStep_trans h)
  | repoll k => exact .worker (repollStep_trans h)
  | send k => exact .worker (sendStep_trans h)
  | scannerReturns =>
    cases h
    exact .scannerReturns
  | scannerGone =>
    cases h
    exact .scannerGone
  | _ => exact hstage h

theorem result_stays (hover : s.result ≠ none) (hstep : step plan s e = some s')
    : s'.result = s.result := by
  cases trans_of_step hstep with
  | worker ht => cases ht <;> rfl
  | stage hrunning => exact absurd hrunning hover
  | scannerReturns => rfl
  | scannerGone => rfl

theorem result_stays_over {budgetBytes : Nat} (hover : s.result ≠ none)
    (h : (machine plan budgetBytes).run s es = some s') : s'.result = s.result := by
  induction es generalizing s with
  | nil =>
    cases h
    rfl
  | cons e es ih =>
    obtain ⟨t, ht, hrun⟩ := Option.bind_eq_some_iff.mp h
    have hstays := result_stays hover ht
    rw [ih (hstays ▸ hover) hrun, hstays]

end Fetch
end Slipstream
