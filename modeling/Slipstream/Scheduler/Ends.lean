import Slipstream.Scheduler.Range

/-!
This module contains the end of a range: as long as nothing fails, the steps that bring a range on
are bounded by its plan, and with none of them left the range is scanned.
-/

namespace Slipstream

namespace Fetch

variable {plan : FetchPlan} {such : CompactBlock → Prop} {log : Log} {s s' : FetchState}

theorem Sound.length_le (h : Sound plan such log s) (hsub : sub ∈ log i)
    : sub.blocks.length ≤ plan.chunkBlocks := by
  have hchunk := h.subChunks i
  have hpart : sub.blocks.length ≤ (blocksOf (log i)).length := by
    obtain ⟨before, after, hlog⟩ := List.append_of_mem hsub
    rw [hlog, blocksOf_append, List.length_append]
    simp only [blocksOf, List.flatMap_cons, List.length_append]
    omega
  cases hlast : (blocksOf (log i)).getLast? with
  | none =>
    rw [List.getLast?_eq_none_iff.mp hlast] at hpart
    simp only [List.length_nil] at hpart
    omega
  | some b =>
    have := hchunk.heights.last hlast
    have := hchunk.within b (List.mem_of_getLast? hlast)
    have := plan.chunkBlocks_pos
    simp only [FetchPlan.chunkRange] at *
    omega

theorem Sound.sent (h : Sound plan such log s) (hstep : step plan s e = some s')
    : s'.queue.sent = s.queue.sent
      ∨ e = .release ∧ ∃ chunk, s'.queue.sent = s.queue.sent ++ [chunk]
        ∧ chunk.blocks.length ≤ plan.chunkBlocks := by
  cases trans_of_step hstep with
  | worker ht => cases ht <;> exact Or.inl rfl
  | stage hrunning ht =>
    cases ht with
    | @released sub hphase hreceiver hfree =>
      refine Or.inr ⟨rfl, _, rfl, ?_⟩
      exact h.length_le (List.mem_of_getElem? (h.inv.release.sending sub hphase))
    | _ => exact Or.inl rfl
  | scannerReturns => exact Or.inl rfl
  | scannerGone => exact Or.inl rfl

def workLeft (plan : FetchPlan) (s : FetchState) : Nat :=
  if s.result.isNone then rank plan s else 0

theorem workLeft_le (plan : FetchPlan) (s : FetchState) : workLeft plan s ≤ rank plan s := by
  unfold workLeft
  split <;> omega

theorem not_stutters (he : Scheduler.ofFetch e = true)
    (hmoves : advances s e = true ∨ Scheduler.windsUp e = true) : stutters s e = false := by
  cases e with
  | repoll k =>
    simp only [advances, Scheduler.windsUp, Bool.false_eq_true, or_false] at hmoves
    unfold stutters
    split at hmoves
    . next hk => simpa [hk] using hmoves
    . cases hmoves
  | starve now => simp [advances, Scheduler.windsUp] at hmoves
  | scannerReturns => cases he
  | scannerGone => cases he
  | _ => rfl

end Fetch

namespace Scheduler

variable {T F : Type} [DecidableEq F] {plan : FetchPlan} {api : Scan.TreeStateApi T F}
  {cfg : Scan.ScanConfig} {s s' : RangeState T F}

def steady (s : RangeState T F) : Bool :=
  s.fetch.workers.all (fun w =>
    match w with
    | .finished (.error _) => false
    | _ => true)
  && (match s.fetch.result with
    | some (.error _) => false
    | _ => true)
  && (match s.scan.ended with
    | some .panicked => false
    | some (.failed _) => false
    | _ => true)

omit [DecidableEq F] in
theorem steady_cases (h : steady s = true)
    : (∀ w ∈ s.fetch.workers, ¬w.Failed) ∧ (∀ error, s.fetch.result ≠ some (.error error))
      ∧ ¬Scan.Halted s.scan := by
  simp only [steady, Bool.and_eq_true, List.all_eq_true] at h
  obtain ⟨⟨hworkers, hresult⟩, hscan⟩ := h
  refine ⟨?_, ?_, ?_⟩
  . intro w hw hfailed
    have := hworkers w hw
    cases w with
    | finished result =>
      cases result with
      | ok => cases hfailed
      | error e => cases this
    | _ => cases hfailed
  . intro error herror
    simp [herror] at hresult
  . rintro (hended | ⟨e, hended⟩)
    all_goals simp [hended] at hscan

def workLeft (plan : FetchPlan) (s : RangeState T F) : Nat :=
  (plan.chunkBlocks + 3) * Fetch.workLeft plan s.fetch + Scan.workLeft s.scan

def Uses (plan : FetchPlan) (s : RangeState T F) (e : RangeEvent T) (s' : RangeState T F) : Prop :=
  workLeft plan s' + (if movesOn s e then 1 else 0) ≤ workLeft plan s

omit [DecidableEq F] in
theorem workLeft_sent (scan : Scan.ScanState T F) (chunk : Chunk)
    : Scan.workLeft { scan with incoming := scan.incoming ++ [chunk] }
      ≤ Scan.workLeft scan + (chunk.blocks.length + 2) := by
  unfold Scan.workLeft
  dsimp only
  split
  . exact Nat.zero_le _
  . simp only [List.map_append, List.map_cons, List.map_nil, List.sum_append, List.sum_singleton]
    omega

omit [DecidableEq F] in
theorem uses_of_fetch (hsound : Fetch.Sound plan such log s.fetch)
    (hanswers : Fetch.answersRequest s.fetch e = true) (hstep : fetchStep plan s e = some s')
    (hfine : steady s' = true) : Uses plan s (.fetch e) s' := by
  obtain ⟨he, hfetch, hscan⟩ := fetchStep_cases hstep
  unfold Uses workLeft
  cases hrunning : s.fetch.result with
  | some result =>
    -- Workers that go on after the result send nothing and do not count.
    have hover : s.fetch.result ≠ none := by simp [hrunning]
    obtain ⟨more, hsent, -, -, hnone⟩ := Fetch.sent_of_step hfetch he
    have hquiet : s'.scan = s.scan := by simp [hscan, hsent, hnone hover]
    have hstays := Fetch.result_stays hover hfetch
    simp [movesOn, Fetch.workLeft, hstays, hrunning, hquiet]
  | none =>
    obtain ⟨hworkers, hresult, -⟩ := steady_cases hfine
    have hlowers : Fetch.rank plan s'.fetch + (if Fetch.stutters s.fetch e then 0 else 1)
        ≤ Fetch.rank plan s.fetch :=
      Fetch.lowers_of_step hsound.inv hsound.cut hrunning hanswers hfetch hworkers hresult
    have hleft : Fetch.workLeft plan s.fetch = Fetch.rank plan s.fetch := by
      simp [Fetch.workLeft, hrunning]
    have hcost := Nat.mul_le_mul_left (plan.chunkBlocks + 3)
      (Nat.le_trans (Nat.add_le_add_right (Fetch.workLeft_le plan s'.fetch) _) hlowers)
    rw [Nat.mul_add, ← hleft] at hcost
    have hmoves : movesOn s (.fetch e) = true → Fetch.stutters s.fetch e = false := by
      intro hmoves
      simp only [movesOn, Bool.and_eq_true, Bool.or_eq_true] at hmoves
      exact Fetch.not_stutters he hmoves.2
    rcases hsound.sent hfetch with hsent | ⟨rfl, chunk, hsent, hlength⟩
    . have hquiet : s'.scan = s.scan := by simp [hscan, hsent]
      rw [hquiet]
      split
      . next hon =>
        rw [hmoves hon] at hcost
        simp only [Bool.false_eq_true, if_false] at hcost
        omega
      . omega
    . -- The chunk's scan is paid for by the step that sends it.
      have hscan' : s'.scan = { s.scan with incoming := s.scan.incoming ++ [chunk] } := by
        simp [hscan, hsent]
      have hpaid : Scan.workLeft s'.scan ≤ Scan.workLeft s.scan + (chunk.blocks.length + 2) := by
        rw [hscan']
        exact workLeft_sent s.scan chunk
      simp only [Fetch.stutters, Bool.false_eq_true, if_false] at hcost
      split <;> omega

theorem uses_of_scan (hinv : RangeInv s) (hchunks : ChunksFrom first s.fetch.queue.sent)
    (hstep : scanStep api cfg s e = some s') : Uses plan s (.scan e) s' := by
  obtain ⟨-, hscan, hqueue⟩ := scanStep_cases hstep
  have hgoing := Scan.going_of_step hscan
  rcases hinv.calls with hhalted | ⟨done, now, hbatch⟩
  . simp [Scan.Halted, hgoing] at hhalted
  . have hlt := Scan.workLeft_lt hchunks hbatch hscan
    have hflight : (afterScan e s'.scan s.fetch.queue).inFlight.length
        ≤ s.fetch.queue.inFlight.length := by
      cases e <;> simp [afterScan]
    have hfetch : Fetch.workLeft plan s'.fetch ≤ Fetch.workLeft plan s.fetch := by
      rw [hqueue]
      unfold Fetch.workLeft Fetch.rank
      dsimp only
      split <;> omega
    have hcost := Nat.mul_le_mul_left (plan.chunkBlocks + 3) hfetch
    simp only [Uses, workLeft, movesOn, if_true]
    omega

def counted (plan : FetchPlan) (api : Scan.TreeStateApi T F) (cfg : Scan.ScanConfig)
    (budgetBytes : Nat) : Machine (RangeState T F × Nat) (RangeEvent T) :=
  (rangeMachine plan api cfg budgetBytes).observed (fun _ n => n = 0)
    (fun s e _ n => n + if movesOn s e then 1 else 0)

def unhindered (st : RangeState T F × Nat) (e : RangeEvent T) : Bool :=
  streamsAnswer st.1 e && steady st.1

def stepBound (plan : FetchPlan) : Nat :=
  (plan.chunkBlocks + 3)
    * (3 * plan.workerCount + plan.chunkCount * Fetch.claimCost plan + 3) + 2

omit [DecidableEq F] in
theorem workLeft_init (plan : FetchPlan) (budgetBytes : Nat)
    : workLeft plan ({ fetch := Fetch.init plan budgetBytes, scan := Scan.init [] } : RangeState T F)
      = stepBound plan := by
  have hworkers : ((Fetch.init plan budgetBytes).workers.map (Fetch.work plan)).sum
      = 3 * plan.workerCount := by
    simp only [Fetch.init, List.map_replicate, List.sum_replicate_nat, Fetch.work, Fetch.ownWork,
      Nat.mul_comm]
  unfold workLeft Fetch.workLeft Fetch.rank
  rw [hworkers]
  simp [Fetch.init, Fetch.phaseWork, Fetch.resultWork, Scan.workLeft, Scan.init, stepBound,
    ChunkQueue.new]

theorem uses_of_step
    (hs : (rangeMachine plan api cfg budgetBytes).Reach (fun s e => streamsAnswer s e = true) s)
    (hanswers : streamsAnswer s e = true) (hstep : rangeStep plan api cfg s e = some s')
    (hfine : steady s' = true) : Uses plan s e s' := by
  cases e with
  | fetch e =>
    obtain ⟨log, hsound⟩ := sound_of_range hs
    exact uses_of_fetch hsound hanswers hstep hfine
  | scan e =>
    obtain ⟨first, hchunks⟩ := (Fetch.sent_releasable (fetch_reachable hs)).chunksFrom
    exact uses_of_scan (range_inv hs) hchunks hstep

theorem counted_inv {st : RangeState T F × Nat}
    (h : (counted plan api cfg budgetBytes).Reach (fun st e => unhindered st e = true) st)
    : (rangeMachine plan api cfg budgetBytes).Reach (fun s e => streamsAnswer s e = true) st.1
      ∧ (steady st.1 = true → st.2 + workLeft plan st.1 ≤ stepBound plan) := by
  induction h with
  | @start st hstart =>
    obtain ⟨hrange, hzero⟩ := hstart
    refine ⟨.start hrange, fun _ => ?_⟩
    rw [show st.1 = _ from hrange, hzero, workLeft_init, Nat.zero_add]
  | @step st e st' _ hok hstep ih =>
    obtain ⟨hs, hbound⟩ := ih
    obtain ⟨hanswers, hsteady⟩ := (Bool.and_eq_true _ _).mp hok
    obtain ⟨s', hs', rfl⟩ := Option.map_eq_some_iff.mp hstep
    refine ⟨.step hs hanswers hs', fun hfine => ?_⟩
    have huses : workLeft plan s' + (if movesOn st.1 e then 1 else 0) ≤ workLeft plan st.1 :=
      uses_of_step hs hanswers hs' hfine
    have := hbound hsteady
    dsimp only
    omega

theorem range_completes {n : Nat}
    (h : (counted plan api cfg budgetBytes).Reach (fun st e => unhindered st e = true) (s, n))
    (hfine : steady s = true)
    : n ≤ stepBound plan
      ∧ (s.over = true → Scan.Covers plan.start s.scan.calls (plan.stop + 1)) := by
  obtain ⟨hreach, hbound⟩ := counted_inv h
  refine ⟨Nat.le_trans (Nat.le_add_right _ _) (hbound hfine), fun hover => ?_⟩
  obtain ⟨-, hresult, hscan⟩ := steady_cases hfine
  simp only [RangeState.over, Bool.and_eq_true, Option.isSome_iff_exists] at hover
  obtain ⟨⟨result, hfetch⟩, ended, hended⟩ := hover
  -- Neither half is over for another reason than that it is done.
  cases result with
  | error e => exact absurd hfetch (hresult e)
  | ok stats =>
    cases ended with
    | finished => exact covers_of_finished hreach hfetch hended
    | failed e => exact absurd (Or.inr ⟨e, hended⟩) hscan
    | panicked => exact absurd (Or.inl hended) hscan

theorem range_completes_tenBlocks
    : ∃ s, (counted Fetch.tenBlocks Scan.heightsOnly Scan.tenBlocksScan 1000000).Reach
        (fun st e => unhindered st e = true) (s, 29)
      ∧ s.over = true ∧ 29 ≤ stepBound Fetch.tenBlocks ∧ Scan.Covers 100 s.scan.calls 110 := by
  have hrun : ∃ s, (counted Fetch.tenBlocks Scan.heightsOnly Scan.tenBlocksScan 1000000).runChecked
      unhindered ({ fetch := Fetch.init Fetch.tenBlocks 1000000, scan := Scan.init [] }, 0)
      tenBlocksRange = some (s, 29) ∧ steady s = true ∧ s.over = true :=
    ⟨_, rfl, rfl, rfl⟩
  obtain ⟨s, hs, hfine, hover⟩ := hrun
  have hstart : (counted Fetch.tenBlocks Scan.heightsOnly Scan.tenBlocksScan 1000000).start
      ({ fetch := Fetch.init Fetch.tenBlocks 1000000, scan := Scan.init [] }, 0) := ⟨rfl, rfl⟩
  have hreach := Machine.reach_of_runChecked (.start hstart) hs
  obtain ⟨hbound, hcovers⟩ := range_completes hreach hfine
  exact ⟨s, hreach, hover, hbound, hcovers hover⟩

end Scheduler
end Slipstream
