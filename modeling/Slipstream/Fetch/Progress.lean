import Slipstream.Fetch.Lemmas.Budget
import Slipstream.Fetch.Lemmas.Flow
import Slipstream.Fetch.Ordered

/-!
This module contains the liveness of the fetch's plumbing: while a plan chunk is not released the
gate, the channel and the queue never hold each other up, and the ahead budget is never overdrawn.
-/

namespace Slipstream
namespace Fetch

def advances (s : FetchState) : FetchEvent → Bool
  | .input _ .connected => true
  | .input _ .opened => true
  | .input _ (.block _ _) => true
  | .input _ .endOfStream => true
  | .claim _ => true
  | .gate _ => true
  | .repoll k =>
    match s.workers[k]? with
    | some (.acquiring a _ _ _ _) => decide (a.cursor.planIndex ≤ s.floor)
    | _ => false
  | .send _ => true
  | .recv _ => true
  | .drain => true
  | .release => true
  | .scannerReturns => !s.queue.inFlight.isEmpty
  | _ => false

def GoesOn (plan : FetchPlan) (s : FetchState) : Prop :=
  ∃ e, advances s e = true ∧ (step plan s e).isSome = true

variable {plan : FetchPlan} {spec : StreamSpec} {log : Log} {s s' : FetchState} {k : Nat}

theorem release_goesOn (hrunning : s.result = none) (hbudget : 0 < s.queue.budgetBytes)
    (hreceiver : s.queue.receiverGone = false) (hphase : s.reorder.phase = .sending sub)
    : GoesOn plan s := by
  by_cases hfree : s.queue.need (Chunk.fromBlocks s.reorder.emittedChunks sub.blocks) ≤ s.queue.free
  . exact ⟨.release, rfl, by simp [step, hrunning, stageStep, releaseStep, hphase, hreceiver, hfree]⟩
  . refine ⟨.scannerReturns, ?_, rfl⟩
    simp only [advances, Bool.not_eq_true', List.isEmpty_eq_false_iff]
    intro hnil
    apply hfree
    simp only [ChunkQueue.free, hnil, ChunkQueue.need, List.sum_nil]
    omega

theorem stage_goesOn (hrunning : s.result = none) (hbudget : 0 < s.queue.budgetBytes)
    (hreceiver : s.queue.receiverGone = false)
    (hbusy : ¬(s.reorder.phase = .receiving ∧ s.channel = []) ∧ s.reorder.phase ≠ .ended)
    : GoesOn plan s := by
  cases hphase : s.reorder.phase with
  | receiving =>
    cases hchannel : s.channel with
    | nil => exact absurd ⟨hphase, hchannel⟩ hbusy.1
    | cons sub subs =>
      refine ⟨.recv 0.0, rfl, ?_⟩
      simp only [step, hrunning, Option.isSome_none, stageStep, recvStep, hphase, hchannel,
        Bool.false_eq_true, if_false]
      repeat' split
      all_goals rfl
  | draining =>
    refine ⟨.drain, rfl, ?_⟩
    simp only [step, hrunning, Option.isSome_none, stageStep, drainStep, hphase,
      Bool.false_eq_true, if_false]
    repeat' split
    all_goals rfl
  | sending sub => exact release_goesOn hrunning hbudget hreceiver hphase
  | ended => exact absurd hphase hbusy.2

theorem floor_goesOn (hrunning : s.result = none) (hk : s.workers[k]? = some w)
    (hc : w.cursor? = some c) (hfloor : c.planIndex ≤ s.floor)
    (hroom : s.channel.length < plan.workerCount) : GoesOn plan s := by
  cases w with
  | connecting resume =>
    cases resume with
    | none => cases hc
    | some place => exact ⟨.input k .connected, rfl, by simp [step, hk, Worker.input]⟩
  | opening cursor attempt => exact ⟨.input k .opened, rfl, by simp [step, hk, Worker.input]⟩
  | streaming a sp => exact ⟨.input k .endOfStream, rfl, by simp [step, hk, Worker.input]⟩
  | admitting a blocks bytes isLast after =>
    cases hc
    exact ⟨.gate k, rfl, by simp [step, admitStep, hk, hfloor]⟩
  | acquiring a blocks bytes isLast after =>
    cases hc
    exact ⟨.repoll k, by simp [advances, hk, hfloor], by simp [step, repollStep, hk, hfloor]⟩
  | sending a sub after =>
    exact ⟨.send k, rfl, by simp [step, sendStep, hk, hrunning, hroom]⟩
  | _ => cases hc

theorem workerCount_pos (plan : FetchPlan) : 0 < plan.workerCount := by
  have := plan.chunkCount_pos
  unfold FetchPlan.workerCount
  omega

theorem unclaimed_goesOn (hinv : FetchInv plan spec log s) (hflow : FlowInv plan log s)
    (hfine : ¬Broken s) (hleft : s.reorder.next.1 < plan.chunkCount)
    (hnext : s.next ≤ s.reorder.next.1) : GoesOn plan s := by
  have hcrew : 0 < s.workers.length := by
    rw [hflow.crew]
    exact workerCount_pos plan
  have hk : s.workers[0]? = some s.workers[0] := List.getElem?_eq_getElem hcrew
  generalize s.workers[0] = w at hk
  have hmem := List.mem_of_getElem? hk
  cases hc : w.cursor? with
  | some c =>
    -- A plan chunk below the floor is done, so no worker is on one.
    have howns := hinv.workers.owns w hmem c hc
    obtain ⟨sub, hsub, hlast⟩ :=
      hinv.release.done c.planIndex (Nat.lt_of_lt_of_le howns.claimed hnext)
    have := howns.unfinished sub (List.mem_of_getLast? hsub)
    rw [hlast] at this
    cases this
  | none =>
    have hidle : w.isIdle = true → GoesOn plan s := by
      intro hidle
      rcases hflow.idle w hmem hidle with hb | hcount
      . exact absurd hb hfine
      . omega
    cases w with
    | connecting resume =>
      cases resume with
      | none => exact ⟨.input 0 .connected, rfl, by simp [step, hk, Worker.input]⟩
      | some place => cases hc
    | claiming => exact ⟨.claim 0, rfl, by simp [step, claimStep, hk]⟩
    | finished result =>
      cases result with
      | ok => exact hidle rfl
      | error e => exact absurd (Or.inr ⟨_, hmem, trivial⟩) hfine
    | joined => exact hidle rfl
    | _ => cases hc

theorem not_complete (hinv : FetchInv plan spec log s) (hflow : FlowInv plan log s)
    (hrunning : s.result = none) (hchannel : s.channel = [])
    (hphase : s.reorder.phase = .receiving ∨ s.reorder.phase = .ended)
    (hdone : Complete log s.reorder.next.1) : False := by
  obtain ⟨last, hlast, hisLast⟩ := hdone
  have hwithin := hinv.release.within
  have hlength : s.reorder.next.2 < (log s.reorder.next.1).length := by
    rcases Nat.lt_or_eq_of_le hwithin with hlt | heq
    . exact hlt
    . -- The release point would have moved on with the last sub-chunk.
      obtain ⟨front, hfront⟩ := List.getLast?_eq_some_iff.mp hlast
      have hlen : front.length < s.reorder.next.2 := by simp [heq, hfront]
      have := hflow.point front.length last hlen (by simp [hfront])
      rw [hisLast] at this
      cases this
  obtain ⟨sub, hsub⟩ : ∃ sub, (log s.reorder.next.1)[s.reorder.next.2]? = some sub :=
    ⟨_, List.getElem?_eq_getElem hlength⟩
  obtain ⟨hplan, hindex⟩ := hinv.entries.key hsub
  rcases hflow.underway hrunning _ _ sub hsub (Or.inr ⟨rfl, Nat.le_refl _⟩) with hin | hin | hin
  . rw [hchannel] at hin
    cases hin
  . exact hflow.waiting hphase sub hin (by rw [hplan, hindex])
  . rw [hin] at hphase
    rcases hphase with hphase | hphase <;> cases hphase

theorem goesOn_of_inv (hinv : FetchInv plan spec log s) (hflow : FlowInv plan log s)
    (hbudget : 0 < s.queue.budgetBytes) (hrunning : s.result = none)
    (hworkers : ∀ w ∈ s.workers, ¬w.Failed) (hreceiver : s.queue.receiverGone = false)
    (hleft : s.reorder.next.1 < plan.chunkCount) : GoesOn plan s := by
  have hfine : ¬Broken s := by
    rintro (hover | ⟨w, hw, hfailed⟩)
    . exact hover hrunning
    . exact hworkers w hw hfailed
  have hclaimed : s.reorder.next.1 < s.next →
      Owned s s.reorder.next.1 ∨ Complete log s.reorder.next.1 :=
    fun hlt => (hflow.claimed _ hlt hleft).resolve_left hfine
  by_cases hended : s.reorder.phase = .ended
  . obtain ⟨hchannel, hall⟩ := hflow.ended hended
    by_cases hlt : s.reorder.next.1 < s.next
    . rcases hclaimed hlt with ⟨w, hw, c, hc, -⟩ | hdone
      . have := hall w hw
        cases w <;> simp [Worker.isFinished, Worker.cursor?] at this hc
      . exact (not_complete hinv hflow hrunning hchannel (Or.inr hended) hdone).elim
    . exact unclaimed_goesOn hinv hflow hfine hleft (Nat.le_of_not_lt hlt)
  . by_cases hidle : s.reorder.phase = .receiving ∧ s.channel = []
    . obtain ⟨hphase, hchannel⟩ := hidle
      by_cases hlt : s.reorder.next.1 < s.next
      . rcases hclaimed hlt with ⟨w, hw, c, hc, hindex⟩ | hdone
        . obtain ⟨k, hk⟩ := List.mem_iff_getElem?.mp hw
          apply floor_goesOn hrunning hk hc
          . rw [hindex, hflow.floor]
          . rw [hchannel]
            exact workerCount_pos plan
        . exact (not_complete hinv hflow hrunning hchannel (Or.inl hphase) hdone).elim
      . exact unclaimed_goesOn hinv hflow hfine hleft (Nat.le_of_not_lt hlt)
    . exact stage_goesOn hrunning hbudget hreceiver ⟨hidle, hended⟩

theorem budgetBytes_pos {ok : FetchState → FetchEvent → Prop}
    (h : (machine plan budgetBytes).Reach ok s) : 0 < s.queue.budgetBytes := by
  apply h.invariant
  . rintro _ rfl
    exact Nat.lt_of_lt_of_le Nat.zero_lt_one (Nat.le_max_right _ _)
  . intro s e s' hpos _ hstep
    cases trans_of_step hstep with
    | worker ht => cases ht <;> exact hpos
    | stage _ ht => cases ht <;> exact hpos
    | scannerReturns => exact hpos
    | scannerGone => exact hpos

structure GateContract (plan : FetchPlan) (s : FetchState) : Prop where
  within : permitsOf (unreleased s) ≤ aheadCap plan
  counted : ∀ sub ∈ unreleased s, sub.permit = none ∨ sub.permit = some (aheadNeed plan sub.bytes)
  floorFree : ∀ k s', step plan s (.gate k) = some s' ∨ step plan s (.repoll k) = some s' →
    ∀ a sub after, s'.workers[k]? = some (.sending a sub after) →
      sub.planIndex ≤ s.floor ∧ sub.permit = none

theorem look_trans (h : step plan s (.gate k) = some s' ∨ step plan s (.repoll k) = some s')
    (hk : s'.workers[k]? = some (.sending a sub after))
    : sub.planIndex ≤ s.floor ∧ sub.permit = none := by
  have hset : ∀ {w}, (setWorker s k w).workers[k]? = some (.sending a sub after) →
      w = .sending a sub after := by
    intro w hw
    simp only [setWorker, List.getElem?_set_self', Option.map_eq_map, Option.map_eq_some_iff,
      Function.const_apply] at hw
    exact hw.elim fun _ hw => hw.2
  have htrans : WorkerTrans plan s k (.gate k) s' ∨ WorkerTrans plan s k (.repoll k) s' :=
    h.imp admitStep_trans repollStep_trans
  rcases htrans with ht | ht
  . cases ht with
    | passes _ hfloor =>
      cases hset hk
      exact ⟨hfloor, rfl⟩
    | waits => cases hset hk
  . cases ht with
    | repolled _ hfloor =>
      cases hset hk
      exact ⟨hfloor, rfl⟩
    | waitsOn hk' =>
      rw [hk'] at hk
      cases hk

/--
The plumbing of the fetch never gets stuck with a plan chunk unreleased, as the floor's worker needs
no permit. A worker already waiting for permits is given them even if the floor has reached its plan
chunk meanwhile, so it is the look at the floor that decides who holds none.
-/
theorem fetch_never_stuck (h : (machine plan budgetBytes).Reachable s)
    : GateContract plan s
      ∧ (s.result = none → (∀ w ∈ s.workers, ¬w.Failed) → s.queue.receiverGone = false →
        s.reorder.plansReleased < plan.chunkCount → GoesOn plan s) := by
  obtain ⟨log, hinv, hflow⟩ := flow_of_reachable h
  have hbudget := budget_of_reachable h
  refine ⟨⟨?_, hbudget.exact, fun k s' hstep a sub after => look_trans hstep⟩, ?_⟩
  . calc permitsOf (unreleased s)
      _ ≤ s.aheadFree + permitsOf (unreleased s) := Nat.le_add_left _ _
      _ ≤ aheadPermits plan := hbudget.within
      _ ≤ aheadCap plan := Nat.min_le_left _ _
  . intro hrunning hworkers hreceiver hleft
    rw [hinv.release.plans] at hleft
    exact goesOn_of_inv hinv hflow (budgetBytes_pos h) hrunning hworkers hreceiver hleft

def twoChunks : FetchPlan where
  start := 100
  stop := 103
  chunkBlocks := 2
  streams := 2
  retriesPerChunk := 3
  splitBytes := 1
  failover := none
  start_le := by decide
  stop_lt := by decide
  chunkBlocks_pos := by decide

def streamed (worker height : Nat) (h : height < 2 ^ 64) : FetchEvent :=
  .input worker (.block (blockAt height h) false)

def secondWaits : List FetchEvent :=
  [.input 0 .connected, .claim 0, .input 1 .connected, .claim 1, .input 1 .opened,
    streamed 1 102 (by decide), streamed 1 103 (by decide), .gate 1, .acquire 1, .send 1, .recv 0.0,
    .drain, .input 1 .endOfStream, .gate 1]

def firstReleased : List FetchEvent :=
  [.input 0 .opened, streamed 0 100 (by decide), streamed 0 101 (by decide), .gate 0, .send 0,
    .input 0 .endOfStream, .gate 0, .send 0, .recv 0.0, .drain, .release, .drain, .recv 0.0, .drain,
    .release, .drain, .release]

def waitingAtFloor : Option FetchState :=
  (machine twoChunks 1000000).run (init twoChunks 1000000) (secondWaits ++ firstReleased)

theorem fetch_never_stuck_twoChunks
    : ∃ s, waitingAtFloor = some s ∧ s.result = none ∧ s.reorder.plansReleased < twoChunks.chunkCount
      ∧ GateContract twoChunks s ∧ GoesOn twoChunks s := by
  have hrun : ∃ s, waitingAtFloor = some s ∧ s.result = none ∧ (∀ w ∈ s.workers, ¬w.Failed)
      ∧ s.queue.receiverGone = false ∧ s.reorder.plansReleased < twoChunks.chunkCount := by
    refine ⟨_, rfl, rfl, ?_, rfl, by decide⟩
    intro w hw
    rcases List.mem_cons.mp hw with rfl | hw
    . exact id
    . rw [List.mem_singleton.mp hw]
      exact id
  obtain ⟨s, hs, hrunning, hworkers, hreceiver, hleft⟩ := hrun
  have hstuck := fetch_never_stuck (Machine.reachable_of_run (.start rfl) hs)
  exact ⟨s, hs, hrunning, hleft, hstuck.1, hstuck.2 hrunning hworkers hreceiver hleft⟩

/-- The floor has reached the second plan chunk, and its worker is given permits nevertheless. -/
theorem acquired_at_floor
    : ∃ s s' a sub after, (machine twoChunks 1000000).Reachable s
      ∧ step twoChunks s (.acquire 1) = some s' ∧ s'.workers[1]? = some (.sending a sub after)
      ∧ sub.planIndex = s.floor ∧ sub.permit = some 8 := by
  obtain ⟨s, s', a, sub, after, hs, hstep, hk, hfloor, hpermit⟩ : ∃ s s' a sub after,
      waitingAtFloor = some s ∧ step twoChunks s (.acquire 1) = some s'
      ∧ s'.workers[1]? = some (.sending a sub after) ∧ sub.planIndex = s.floor
      ∧ sub.permit = some 8 :=
    ⟨_, _, _, _, _, rfl, rfl, rfl, rfl, rfl⟩
  exact ⟨s, s', a, sub, after, Machine.reachable_of_run (.start rfl) hs, hstep, hk, hfloor, hpermit⟩

end Fetch
end Slipstream
