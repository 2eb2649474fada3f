import Slipstream.Fetch.Delivered
import Slipstream.Scheduler.Lemmas.Range

/-!
This module contains what a fetch and a scan that work on one range come to: a range that both of
them finish is scanned block by block without a gap or a repeat, and the two never wait for each
other.
-/

namespace Slipstream

namespace Scan

variable {F : Type} {done : List (Chunk × List (ScanCall F))}

theorem Covers.append {xs ys : List (ScanCall F)} (h : Covers first xs next)
    (h' : Covers next ys last) : Covers first (xs ++ ys) last := by
  induction xs generalizing first with
  | nil =>
    cases h
    exact h'
  | cons call calls ih =>
    obtain ⟨hfrom, hpos, hrest⟩ := h
    exact ⟨hfrom, hpos, ih hrest⟩

theorem covers_of_tiles (hchunks : ChunksFrom first (done.map Prod.fst))
    (htiles : ∀ p ∈ done, Tiles p.1 p.2)
    : Covers first (done.flatMap Prod.snd)
        (first + ((done.map Prod.fst).flatMap Chunk.blocks).length) := by
  induction done generalizing first with
  | nil => exact rfl
  | cons p done ih =>
    obtain ⟨-, start, last, hstart, hlast, hlength⟩ := hchunks.heights List.mem_cons_self
    obtain ⟨hne, hblocks, hrest⟩ := hchunks
    have hfirst : start = first := by
      obtain ⟨b, hb⟩ : ∃ b, p.1.blocks.head? = some b := ⟨_, List.head?_eq_some_head hne⟩
      rw [Chunk.startHeight, hb, Option.map_some, Option.some.injEq] at hstart
      rw [List.head?_eq_getElem?] at hb
      have := hblocks.getElem? hb
      omega
    obtain ⟨last', hlast', ⟨start', hstart', hcovers⟩, -⟩ := htiles p List.mem_cons_self
    rw [hstart, Option.some.injEq] at hstart'
    rw [hlast, Option.some.injEq] at hlast'
    subst hstart' hlast' hfirst
    rw [hlength] at hcovers
    rw [List.flatMap_cons, List.map_cons, List.flatMap_cons, List.length_append, ← Nat.add_assoc]
    apply hcovers.append
    exact ih hrest fun q hq => htiles q (List.mem_cons_of_mem _ hq)

end Scan

namespace Fetch

variable {plan : FetchPlan} {spec : StreamSpec} {log : Log} {s : FetchState} {q : ChunkQueue}

theorem worker_goes_on (hphase : s.reorder.phase = .receiving) (hchannel : s.channel = [])
    (hnone : q.inFlight = []) (h : GoesOn plan { s with queue := q })
    : ∃ e, Scheduler.ofFetch e = true ∧ advances s e = true ∧ (step plan s e).isSome = true := by
  obtain ⟨e, hadvances, hstep⟩ := h
  refine ⟨e, ?_, ?_, ?_⟩
  . cases e <;> first | rfl | simp [advances, hnone] at hadvances
  . cases e with
    | input k i => cases i <;> exact hadvances
    | scannerReturns => simp [advances, hnone] at hadvances
    | _ => exact hadvances
  . cases e with
    | input k i =>
      simp only [step] at hstep ⊢
      cases hk : s.workers[k]? with
      | none => simp [hk] at hstep
      | some w => simpa [hk] using hstep
    | claim k =>
      simp only [step, claimStep] at hstep ⊢
      split at hstep <;> first | rfl | cases hstep
    | gate k =>
      simp only [step, admitStep] at hstep ⊢
      split at hstep
      . split <;> rfl
      . cases hstep
    | repoll k =>
      simp only [step, repollStep] at hstep ⊢
      split at hstep
      . split <;> rfl
      . cases hstep
    | send k =>
      simp only [step, sendStep] at hstep ⊢
      split at hstep
      . split
        . rfl
        . next hrunning =>
          rw [if_neg hrunning] at hstep
          split
          . rfl
          . next hfull => simp [hfull] at hstep
      . cases hstep
    | recv now => simp [step, stageStep, recvStep, hphase, hchannel] at hstep
    | drain => simp [step, stageStep, drainStep, hphase] at hstep
    | release => simp [step, stageStep, releaseStep, hphase] at hstep
    | scannerReturns => rfl
    | _ => cases hadvances

theorem wind_up (hinv : FetchInv plan spec log s) (hrunning : s.result = none)
    (hchannel : s.channel = [])
    (hphase : s.reorder.phase = .receiving) (hall : plan.chunkCount ≤ s.reorder.next.1)
    : ∃ e, Scheduler.ofFetch e = true ∧ (advances s e = true ∨ e = .releaseEnds)
      ∧ (step plan s e).isSome = true := by
  by_cases hfinished : s.workers.all Worker.isFinished = true
  . refine ⟨.releaseEnds, rfl, Or.inr rfl, ?_⟩
    simp [step, hrunning, stageStep, releaseEndsStep, hphase, hchannel, hfinished]
  . obtain ⟨w, hw, hnot⟩ : ∃ w ∈ s.workers, ¬w.isFinished = true := by simpa using hfinished
    obtain ⟨k, hk⟩ := List.mem_iff_getElem?.mp hw
    -- A plan chunk that is done has no worker on it.
    have hfree : w.cursor? = none := by
      cases hc : w.cursor? with
      | none => rfl
      | some c =>
        have howns := hinv.workers.owns w hw c hc
        obtain ⟨sub, hsub, hlast⟩ :=
          hinv.release.done c.planIndex (Nat.lt_of_lt_of_le howns.inPlan hall)
        rw [howns.unfinished sub (List.mem_of_getLast? hsub)] at hlast
        cases hlast
    cases w with
    | connecting resume =>
      cases resume with
      | none => exact ⟨.input k .connected, rfl, Or.inl rfl, by simp [step, hk, Worker.input]⟩
      | some place => cases hfree
    | claiming => exact ⟨.claim k, rfl, Or.inl rfl, by simp [step, claimStep, hk]⟩
    | finished result => exact absurd rfl hnot
    | joined => exact absurd rfl hnot
    | _ => cases hfree

end Fetch

namespace Scheduler

variable {T F : Type} [DecidableEq F] {plan : FetchPlan} {api : Scan.TreeStateApi T F}
  {cfg : Scan.ScanConfig} {s : RangeState T F}

theorem sound_of_range
    (h : (rangeMachine plan api cfg budgetBytes).Reach (fun s e => streamsAnswer s e = true) s)
    : ∃ log, Fetch.Sound plan (fun _ => True) log s.fetch := by
  have hserves : (Fetch.machine plan budgetBytes).Reach (Fetch.Serves fun _ => True) s.fetch := by
    apply fetch_of_range _ _ _ h
    . exact fun s e hanswers => ⟨hanswers, fun _ _ _ _ => trivial⟩
    all_goals exact fun _ => ⟨rfl, fun _ _ _ _ => trivial⟩
  obtain ⟨hist, hlogged⟩ := Fetch.logged_of_reach hserves
  exact ⟨hist.log, Fetch.sound_of_logged hlogged⟩

theorem covers_of_finished
    (h : (rangeMachine plan api cfg budgetBytes).Reach (fun s e => streamsAnswer s e = true) s)
    (hfetch : s.fetch.result = some (.ok stats)) (hscan : s.scan.ended = some .finished)
    : Scan.Covers plan.start s.scan.calls (plan.stop + 1) := by
  obtain ⟨log, hsound⟩ := sound_of_range h
  have hheights := hsound.released_all hfetch
  have hlength : (Fetch.released s.fetch).length = plan.stop + 1 - plan.start := by
    have := congrArg List.length hheights
    simpa using this
  have hall : Consecutive plan.start (Fetch.released s.fetch) := by
    rw [Consecutive, hheights, hlength]
  have hchunks := chunksFrom_of_consecutive hall hsound.inv.release.chunks
  rcases (range_inv h).calls with hhalted | ⟨done, now, hbatch⟩
  . simp [Scan.Halted, hscan] at hhalted
  . obtain ⟨hdone, hnow⟩ := hbatch.finished hscan
    rw [hdone] at hchunks
    have hcovers := Scan.covers_of_tiles hchunks hbatch.tiled
    have hstart := plan.start_le
    rw [← hdone] at hcovers
    rw [hbatch.calls, hnow, List.append_nil]
    have hend : plan.start + (s.fetch.queue.sent.flatMap Chunk.blocks).length = plan.stop + 1 := by
      rw [Fetch.released] at hlength
      omega
    rwa [hend] at hcovers

def windsUp : FetchEvent → Bool
  | .releaseEnds => true
  | .join _ => true
  | .finish => true
  | _ => false

def movesOn (s : RangeState T F) : RangeEvent T → Bool
  | .fetch e => s.fetch.result.isNone && ofFetch e && (Fetch.advances s.fetch e || windsUp e)
  | .scan _ => true

def MovesOn (plan : FetchPlan) (api : Scan.TreeStateApi T F) (cfg : Scan.ScanConfig)
    (s : RangeState T F) : Prop :=
  ∃ e, movesOn s e = true ∧ (rangeStep plan api cfg s e).isSome = true

theorem movesOn_of_fetch (hrunning : s.fetch.result = none) (he : ofFetch e = true)
    (hmoves : Fetch.advances s.fetch e = true ∨ windsUp e = true)
    (hstep : (Fetch.step plan s.fetch e).isSome = true) : MovesOn plan api cfg s :=
  ⟨.fetch e, by simp [movesOn, hrunning, he, hmoves], by simpa [rangeStep, fetchStep, he] using hstep⟩

theorem movesOn_of_scan (hreceives : receivable s.fetch e = true)
    (hstep : (Scan.step api cfg s.scan e).isSome = true) : MovesOn plan api cfg s :=
  ⟨.scan e, rfl, by simpa [rangeStep, scanStep, hreceives] using hstep⟩

theorem scan_movesOn (hinv : RangeInv s) (hchunks : ChunksFrom first s.fetch.queue.sent)
    (hgoing : s.scan.ended = none)
    (hmore : s.fetch.queue.inFlight ≠ [] ∨ s.fetch.result ≠ none) : MovesOn plan api cfg s := by
  rcases hinv.calls with hhalted | ⟨done, now, hbatch⟩
  . simp [Scan.Halted, hgoing] at hhalted
  . by_cases hholds : s.scan.current ≠ none ∨ s.scan.incoming ≠ []
    . have hgoes : ∃ e, (∀ settled, e ≠ .closed settled)
          ∧ (Scan.step api cfg s.scan e).isSome = true := hbatch.goes_on hchunks hgoing hholds
      obtain ⟨e, hopen, hstep⟩ := hgoes
      apply movesOn_of_scan _ hstep
      cases e with
      | closed settled => exact absurd rfl (hopen settled)
      | _ => rfl
    . simp only [not_or, not_not] at hholds
      obtain ⟨hcurrent, hincoming⟩ := hholds
      have hflight := hinv.flight hgoing
      simp only [Scan.holding, hcurrent, hincoming] at hflight
      have hover : s.fetch.result ≠ none := by
        apply hmore.resolve_left
        simpa using hflight
      by_cases hseed : s.scan.nextState = none
      . apply movesOn_of_scan (e := .seed fun _ => .connectFailed .stopped) rfl
        simp [Scan.step, hgoing, hseed]
      . apply movesOn_of_scan (e := .closed fun _ => none) (Option.isSome_iff_ne_none.mpr hover)
        exact Scan.closed_enabled hgoing hcurrent hseed hincoming

theorem failed_movesOn (hrunning : s.fetch.result = none) (hw : w ∈ s.fetch.workers)
    (hfailed : w.Failed) : MovesOn plan api cfg s := by
  obtain ⟨k, hk⟩ := List.mem_iff_getElem?.mp hw
  apply movesOn_of_fetch (e := .join k) hrunning rfl (Or.inr rfl)
  cases w with
  | finished result =>
    cases result with
    | ok => cases hfailed
    | error e =>
      simp only [Fetch.step, hrunning, Option.isSome_none, Fetch.stageStep, Fetch.joinStep, hk,
        Bool.false_eq_true, if_false]
      split <;> rfl
  | _ => cases hfailed

theorem receiving_movesOn (hlog : Fetch.FetchInv plan spec log s.fetch)
    (hflow : Fetch.FlowInv plan log s.fetch) (hbudget : 0 < s.fetch.queue.budgetBytes)
    (hrunning : s.fetch.result = none) (hworkers : ∀ w ∈ s.fetch.workers, ¬w.Failed)
    (hphase : s.fetch.reorder.phase = .receiving) : MovesOn plan api cfg s := by
  cases hchannel : s.fetch.channel with
  | cons sub subs =>
    apply movesOn_of_fetch (e := .recv 0.0) hrunning rfl (Or.inl rfl)
    simp only [Fetch.step, hrunning, Option.isSome_none, Fetch.stageStep, Fetch.recvStep, hphase,
      hchannel, Bool.false_eq_true, if_false]
    repeat' split
    all_goals rfl
  | nil =>
    by_cases hleft : s.fetch.reorder.next.1 < plan.chunkCount
    . -- Neither a full queue nor a scanner that is gone stands in the workers' way.
      let q : ChunkQueue := { s.fetch.queue with inFlight := [], receiverGone := false }
      have hq : Fetch.FetchInv plan spec log { s.fetch with queue := q } :=
        ⟨hlog.entries, hlog.workers.frame rfl rfl, hlog.release.frame rfl rfl rfl fun _ hok => hok⟩
      have hgoes : Fetch.GoesOn plan { s.fetch with queue := q } :=
        Fetch.goesOn_of_inv hq { hflow with } hbudget hrunning hworkers rfl hleft
      obtain ⟨e, he, hadvances, hstep⟩ := Fetch.worker_goes_on hphase hchannel rfl hgoes
      exact movesOn_of_fetch hrunning he (Or.inl hadvances) hstep
    . obtain ⟨e, he, hmoves, hstep⟩ :=
        Fetch.wind_up hlog hrunning hchannel hphase (Nat.le_of_not_lt hleft)
      apply movesOn_of_fetch hrunning he _ hstep
      exact hmoves.imp id fun hends => by rw [hends]; rfl

theorem draining_movesOn (hrunning : s.fetch.result = none)
    (hphase : s.fetch.reorder.phase = .draining) : MovesOn plan api cfg s := by
  apply movesOn_of_fetch (e := .drain) hrunning rfl (Or.inl rfl)
  simp only [Fetch.step, hrunning, Option.isSome_none, Fetch.stageStep, Fetch.drainStep, hphase,
    Bool.false_eq_true, if_false]
  repeat' split
  all_goals rfl

theorem sending_movesOn (hinv : RangeInv s) (hchunks : ChunksFrom first s.fetch.queue.sent)
    (hbudget : 0 < s.fetch.queue.budgetBytes) (hrunning : s.fetch.result = none)
    (hphase : s.fetch.reorder.phase = .sending sub) : MovesOn plan api cfg s := by
  by_cases hgone : s.fetch.queue.receiverGone = true
  . apply movesOn_of_fetch (e := .release) hrunning rfl (Or.inl rfl)
    simp [Fetch.step, hrunning, Fetch.stageStep, Fetch.releaseStep, hphase, hgone]
  . have hgoes : Fetch.GoesOn plan s.fetch :=
      Fetch.release_goesOn hrunning hbudget (by simpa using hgone) hphase
    obtain ⟨e, hadvances, hstep⟩ := hgoes
    by_cases he : ofFetch e = true
    . exact movesOn_of_fetch hrunning he (Or.inl hadvances) hstep
    . have hgoing : s.scan.ended = none := by
        have := hinv.gone
        simpa [hgone] using this.symm
      apply scan_movesOn hinv hchunks hgoing (Or.inl _)
      cases e <;> simp_all [ofFetch, Fetch.advances]

theorem ended_movesOn (hflow : Fetch.FlowInv plan log s.fetch) (hrunning : s.fetch.result = none)
    (hworkers : ∀ w ∈ s.fetch.workers, ¬w.Failed) (hphase : s.fetch.reorder.phase = .ended)
    : MovesOn plan api cfg s := by
  by_cases hjoined : s.fetch.workers.all Worker.isJoined = true
  . apply movesOn_of_fetch (e := .finish) hrunning rfl (Or.inr rfl)
    simp only [Fetch.step, hrunning, Option.isSome_none, Fetch.stageStep, Fetch.finishStep, hphase,
      hjoined, Bool.false_eq_true, if_false, if_true]
    split <;> rfl
  . obtain ⟨w, hw, hnot⟩ : ∃ w ∈ s.fetch.workers, ¬w.isJoined = true := by simpa using hjoined
    obtain ⟨k, hk⟩ := List.mem_iff_getElem?.mp hw
    have hfinished := (hflow.ended hphase).2 w hw
    have hfine := hworkers w hw
    apply movesOn_of_fetch (e := .join k) hrunning rfl (Or.inr rfl)
    cases w with
    | finished result =>
      cases result with
      | ok => simp [Fetch.step, hrunning, Fetch.stageStep, Fetch.joinStep, hk]
      | error e => exact absurd trivial hfine
    | joined => exact absurd rfl hnot
    | _ => cases hfinished

theorem range_never_stuck (h : (rangeMachine plan api cfg budgetBytes).Reachable s)
    : s.over = true ∨ MovesOn plan api cfg s := by
  have hinv := range_inv h
  have hfetch := fetch_reachable h
  obtain ⟨first, hchunks⟩ := (Fetch.sent_releasable hfetch).chunksFrom
  obtain ⟨log, hlog, hflow⟩ := Fetch.flow_of_reachable hfetch
  have hbudget := Fetch.budgetBytes_pos hfetch
  cases hrunning : s.fetch.result with
  | some result =>
    cases hgoing : s.scan.ended with
    | some ended => exact Or.inl (by simp [RangeState.over, hrunning, hgoing])
    | none => exact Or.inr (scan_movesOn hinv hchunks hgoing (Or.inr (by simp [hrunning])))
  | none =>
    right
    by_cases hworkers : ∀ w ∈ s.fetch.workers, ¬w.Failed
    . cases hphase : s.fetch.reorder.phase with
      | receiving => exact receiving_movesOn hlog hflow hbudget hrunning hworkers hphase
      | draining => exact draining_movesOn hrunning hphase
      | sending sub => exact sending_movesOn hinv hchunks hbudget hrunning hphase
      | ended => exact ended_movesOn hflow hrunning hworkers hphase
    . simp only [not_forall, not_not] at hworkers
      obtain ⟨w, hw, hfailed⟩ := hworkers
      exact failed_movesOn hrunning hw hfailed

def tenBlocksRange : List (RangeEvent Unit) :=
  .scan (.seed (Scan.answeredAt 99)) ::
    ((Fetch.oneStream Fetch.tenBlocksAnswer).take 19).map .fetch ++
    [.scan .recv, .fetch .drain,
      .scan (.subBatch {
        scan := .ok ()
        submit := .ok ()
        elapsedMs := 1
        boundary := Scan.answeredAt 109
        settled := fun _ => none
      }),
      .fetch (.claim 0), .fetch .releaseEnds, .scan (.chunkDone (.ok ())), .fetch (.join 0),
      .fetch .finish, .scan (.closed fun _ => none)]

theorem range_never_stuck_tenBlocks
    : ∃ s, (rangeMachine Fetch.tenBlocks Scan.heightsOnly Scan.tenBlocksScan 1000000).Reachable s
      ∧ s.over = false ∧ s.fetch.queue.inFlight ≠ []
      ∧ MovesOn Fetch.tenBlocks Scan.heightsOnly Scan.tenBlocksScan s := by
  have hrun : ∃ s, (rangeMachine Fetch.tenBlocks Scan.heightsOnly Scan.tenBlocksScan 1000000).run
      { fetch := Fetch.init Fetch.tenBlocks 1000000, scan := Scan.init [] }
      (tenBlocksRange.take 20) = some s ∧ s.over = false ∧ s.fetch.queue.inFlight = [1000] :=
    ⟨_, rfl, rfl, rfl⟩
  obtain ⟨s, hs, hover, hflight⟩ := hrun
  have hreach := Machine.reachable_of_run (.start rfl) hs
  refine ⟨s, hreach, hover, by simp [hflight], ?_⟩
  exact (range_never_stuck hreach).resolve_left (by simp [hover])

end Scheduler
end Slipstream
