import Slipstream.Fetch.Lemmas.Ranges

/-!
This module contains a measure of what a fetch still has to do. As long as its streams deliver what
they are asked for and no worker gives up, every step but a mere wait uses up some of it.
-/

namespace Slipstream

namespace Worker

variable {plan : FetchPlan} {a : Attempt} {sp : ChunkSplitter}

theorem onBlock_cases (a : Attempt) (sp : ChunkSplitter) (b : CompactBlock) (deadline : Bool)
    : (∃ sp', onBlock a sp b deadline = .streaming a sp' ∧ sp'.acc = sp.acc ++ [b])
      ∨ ∃ blocks bytes sp', onBlock a sp b deadline = .admitting a blocks bytes false (.stream sp')
        ∧ blocks ≠ [] ∧ blocks ++ sp'.acc = sp.acc ++ [b] := by
  unfold onBlock ChunkSplitter.push
  split
  . next sp' blocks bytes hpush =>
    right
    split at hpush
    . next hover =>
      cases hpush
      refine ⟨_, _, _, rfl, ?_, rfl⟩
      rintro hnil
      simp [hnil] at hover
    . cases hpush
  . next sp' hpush =>
    split at hpush
    . cases hpush
    . cases hpush
      split
      . right
        simp only [ChunkSplitter.takePartial, List.isEmpty_iff, List.append_eq_nil_iff,
          List.cons_ne_nil, and_false, if_false]
        exact ⟨_, _, _, rfl, by simp, by simp⟩
      . exact Or.inl ⟨_, rfl, rfl⟩

theorem flushThenFail_cases (plan : FetchPlan) (a : Attempt) (sp : ChunkSplitter) (detail : String)
    : flushThenFail plan a sp.finish detail = retry plan a.cursor a.attempt detail
      ∨ ∃ bytes, flushThenFail plan a sp.finish detail = .admitting a sp.acc bytes false (.fail detail)
        ∧ sp.acc ≠ [] := by
  unfold flushThenFail ChunkSplitter.finish
  split
  . next blocks bytes hfinish =>
    split at hfinish
    . cases hfinish
    . next hne =>
      cases hfinish
      split
      . exact Or.inr ⟨_, rfl, by simpa using hne⟩
      . exact Or.inl rfl
  . exact Or.inl rfl

theorem endOfStream_cases (plan : FetchPlan) (a : Attempt) (sp : ChunkSplitter)
    : (∃ detail, endOfStream plan a sp = flushThenFail plan a sp.finish detail)
      ∨ ∃ bytes, endOfStream plan a sp = .admitting a sp.acc bytes true .complete ∧ sp.acc ≠ [] := by
  unfold endOfStream
  dsimp only
  split
  . next blocks bytes hfinish =>
    split
    . right
      unfold ChunkSplitter.finish at hfinish
      split at hfinish
      . cases hfinish
      . next hne =>
        cases hfinish
        exact ⟨_, rfl, by simpa using hne⟩
    . exact Or.inl ⟨_, rfl⟩
  . exact Or.inl ⟨_, rfl⟩

end Worker

namespace Fetch

def attemptCost (plan : FetchPlan) : Nat := plan.chunkBlocks + 5

def blockCost (plan : FetchPlan) : Nat := (plan.retriesPerChunk + 1) * attemptCost plan + 10

def attemptWork (plan : FetchPlan) (c : PlanChunkCursor) (n : Nat) : Nat :=
  (c.stop + 1 - c.resumeFrom) * blockCost plan + (plan.retriesPerChunk + 1 - n) * attemptCost plan

def ownWork (plan : FetchPlan) : Worker → Nat
  | .connecting none => 3
  | .connecting (some (c, attempt)) => attemptWork plan c attempt
  | .claiming => 2
  | .opening c attempt => attemptWork plan c attempt + plan.chunkBlocks + 4
  | .streaming a sp =>
    attemptWork plan a.cursor (if a.cursor.emittedThisAttempt then 0 else a.attempt)
      + (a.cursor.stop + 1 - (a.cursor.resumeFrom + sp.acc.length)) + 1
  | .finished (.ok ()) => 1
  | _ => 0

def handed (plan : FetchPlan) (a : Attempt) (sub : SubChunk) (after : AfterEmit) : Worker :=
  .resume plan { a with cursor := Worker.advance a.cursor sub } after

def work (plan : FetchPlan) : Worker → Nat
  | .admitting a blocks bytes isLast after =>
    ownWork plan (handed plan a (a.subChunk blocks bytes isLast none) after) + 9
  | .acquiring a blocks bytes isLast after =>
    ownWork plan (handed plan a (a.subChunk blocks bytes isLast none) after) + 8
  | .sending a sub after => ownWork plan (handed plan a sub after) + 7
  | w => ownWork plan w

structure Placed (plan : FetchPlan) (c : PlanChunkCursor) (held : List CompactBlock) : Prop where
  unfinished : c.resumeFrom ≤ c.stop
  short : c.stop < c.resumeFrom + plan.chunkBlocks
  bound : c.stop < 2 ^ 32
  consecutive : Consecutive c.resumeFrom held
  within : ∀ b ∈ held, b.height ≤ c.stop

variable {plan : FetchPlan} {c c' : PlanChunkCursor} {a : Attempt} {w w' : Worker}
  {blocks held : List CompactBlock} {after : AfterEmit}

theorem attemptWork_advance (plan : FetchPlan) (hstop : c'.stop = c.stop) (hopen : c.resumeFrom ≤ c.stop)
    (hlt : c.resumeFrom < c'.resumeFrom) (n : Nat)
    : attemptWork plan c' 0 + 10 ≤ attemptWork plan c n := by
  have hleft : c'.stop + 1 - c'.resumeFrom + 1 ≤ c.stop + 1 - c.resumeFrom := by omega
  calc attemptWork plan c' 0 + 10
    _ = (c'.stop + 1 - c'.resumeFrom + 1) * blockCost plan := by
      rw [attemptWork, Nat.add_mul, Nat.one_mul, Nat.add_assoc]
      rfl
    _ ≤ (c.stop + 1 - c.resumeFrom) * blockCost plan := Nat.mul_le_mul_right _ hleft
    _ ≤ attemptWork plan c n := Nat.le_add_right _ _

theorem attemptWork_succ (hn : n ≤ plan.retriesPerChunk)
    : attemptWork plan c (n + 1) + plan.chunkBlocks + 5 = attemptWork plan c n := by
  have hsucc : plan.retriesPerChunk + 1 - n = plan.retriesPerChunk + 1 - (n + 1) + 1 := by omega
  rw [attemptWork, attemptWork, hsucc, Nat.add_mul _ 1, Nat.one_mul, attemptCost]
  omega

theorem work_retry (hfine : ¬(Worker.retry plan c n detail).Failed)
    : work plan (Worker.retry plan c n detail)
      = attemptWork plan c (if c.emittedThisAttempt then 0 else n) := by
  unfold Worker.retry at hfine ⊢
  dsimp only at hfine ⊢
  generalize (if c.emittedThisAttempt = true then 0 else n) = m at hfine ⊢
  by_cases hgive : m > plan.retriesPerChunk
  . rw [if_pos hgive] at hfine
    exact absurd trivial hfine
  . rw [if_neg hgive]
    rfl

theorem handed_fail (plan : FetchPlan) (a : Attempt) (sub : SubChunk) (detail : String)
    : handed plan a sub (.fail detail) = .connecting (some (Worker.advance a.cursor sub, 0)) := by
  simp [handed, Worker.resume, Worker.retry, Worker.advance]

theorem work_handed (plan : FetchPlan) (a : Attempt) (sub : SubChunk) (after : AfterEmit)
    : work plan (handed plan a sub after) = ownWork plan (handed plan a sub after) := by
  cases after with
  | stream sp => rfl
  | complete => rfl
  | fail detail =>
    rw [handed_fail]
    rfl

namespace Placed

theorem push (h : Placed plan c held) (hheight : b.height = c.resumeFrom + held.length)
    (hstop : b.height ≤ c.stop) : Placed plan c (held ++ [b]) := by
  refine { h with consecutive := ?_, within := ?_ }
  . apply h.consecutive.append
    simp [Consecutive, hheight]
  . intro x hx
    rcases List.mem_append.mp hx with hx | hx
    . exact h.within x hx
    . rw [List.mem_singleton.mp hx]
      exact hstop

theorem length_le (h : Placed plan c held) : c.resumeFrom + held.length ≤ c.stop + 1 := by
  cases hlast : held.getLast? with
  | none =>
    have := h.unfinished
    simp only [List.getLast?_eq_none_iff.mp hlast, List.length_nil]
    omega
  | some b =>
    have := h.consecutive.last hlast
    have := h.within b (List.mem_of_getLast? hlast)
    omega

theorem advance (h : Placed plan c held) (hsub : sub.blocks <+: held) (hne : sub.blocks ≠ [])
    : (Worker.advance c sub).resumeFrom = c.resumeFrom + sub.blocks.length := by
  have hb := List.getLast?_eq_some_getLast hne
  have hlast := (h.consecutive.shorten hsub).last hb
  have := h.within _ (hsub.subset (List.mem_of_getLast? hb))
  have := h.bound
  simp only [Worker.advance, hb]
  omega

end Placed

theorem work_admitting (h : Placed plan a.cursor (blocks ++ after.held)) (hne : blocks ≠ [])
    (bytes : Nat) (isLast : Bool) (n : Nat)
    : work plan (.admitting a blocks bytes isLast after)
      ≤ attemptWork plan a.cursor n
        + (a.cursor.stop + 1 - (a.cursor.resumeFrom + (blocks ++ after.held).length)) := by
  have hgate : work plan (.admitting a blocks bytes isLast after)
      = ownWork plan (handed plan a (a.subChunk blocks bytes isLast none) after) + 9 := rfl
  rw [hgate]
  generalize hsub : a.subChunk blocks bytes isLast none = sub
  have hblocks : sub.blocks = blocks := hsub ▸ rfl
  have hadvance : (Worker.advance a.cursor sub).resumeFrom = a.cursor.resumeFrom + blocks.length := by
    rw [← hblocks] at h hne ⊢
    exact h.advance (List.prefix_append _ _) hne
  have hpos := List.length_pos_iff.mpr hne
  have hstop : (Worker.advance a.cursor sub).stop = a.cursor.stop := rfl
  have hwork := attemptWork_advance plan hstop h.unfinished (by omega) n
  cases after with
  | stream sp =>
    have hstream : ownWork plan (handed plan a sub (.stream sp))
        = attemptWork plan (Worker.advance a.cursor sub) 0
          + (a.cursor.stop + 1 - ((Worker.advance a.cursor sub).resumeFrom + sp.acc.length)) + 1 := rfl
    rw [hstream, hadvance, AfterEmit.held, List.length_append]
    omega
  | complete =>
    have hclaims : ownWork plan (handed plan a sub .complete) = 2 := rfl
    have hattempts : 0 < (plan.retriesPerChunk + 1 - 0) * attemptCost plan :=
      Nat.mul_pos (Nat.succ_pos _) (Nat.succ_pos _)
    have hleft : 0 < attemptWork plan (Worker.advance a.cursor sub) 0 :=
      Nat.lt_of_lt_of_le hattempts (Nat.le_add_left _ _)
    omega
  | fail detail =>
    have hfails : ownWork plan (handed plan a sub (.fail detail))
        = attemptWork plan (Worker.advance a.cursor sub) 0 := by
      rw [handed_fail]
      rfl
    omega

theorem work_streaming (plan : FetchPlan) (a : Attempt) (sp : ChunkSplitter)
    : work plan (.streaming a sp)
      = attemptWork plan a.cursor (if a.cursor.emittedThisAttempt then 0 else a.attempt)
        + (a.cursor.stop + 1 - (a.cursor.resumeFrom + sp.acc.length)) + 1 := rfl

theorem work_flushThenFail {sp : ChunkSplitter} (h : Placed plan a.cursor sp.acc)
    (hfine : ¬(Worker.flushThenFail plan a sp.finish detail).Failed)
    : work plan (Worker.flushThenFail plan a sp.finish detail) < work plan (.streaming a sp) := by
  rw [work_streaming]
  rcases Worker.flushThenFail_cases plan a sp detail with heq | ⟨bytes, heq, hne⟩
  . rw [heq] at hfine ⊢
    rw [work_retry hfine]
    omega
  . rw [heq]
    have hheld : Placed plan a.cursor (sp.acc ++ (AfterEmit.fail detail).held) := by
      simpa [AfterEmit.held] using h
    have := work_admitting hheld hne bytes false
      (if a.cursor.emittedThisAttempt then 0 else a.attempt)
    simp only [AfterEmit.held, List.append_nil] at this
    omega

theorem work_endOfStream {sp : ChunkSplitter} (h : Placed plan a.cursor sp.acc)
    (hfine : ¬(Worker.endOfStream plan a sp).Failed)
    : work plan (Worker.endOfStream plan a sp) < work plan (.streaming a sp) := by
  rcases Worker.endOfStream_cases plan a sp with ⟨detail, heq⟩ | ⟨bytes, heq, hne⟩
  . rw [heq] at hfine ⊢
    exact work_flushThenFail h hfine
  . rw [heq, work_streaming]
    have hheld : Placed plan a.cursor (sp.acc ++ AfterEmit.complete.held) := by
      simpa [AfterEmit.held] using h
    have := work_admitting hheld hne bytes true
      (if a.cursor.emittedThisAttempt then 0 else a.attempt)
    simp only [AfterEmit.held, List.append_nil] at this
    omega

theorem work_onBlock {sp : ChunkSplitter} (h : Placed plan a.cursor (sp.acc ++ [b]))
    (deadline : Bool)
    : work plan (Worker.onBlock a sp b deadline) < work plan (.streaming a sp) := by
  have hlength := h.length_le
  rw [List.length_append, List.length_singleton] at hlength
  rw [work_streaming]
  rcases Worker.onBlock_cases a sp b deadline with ⟨sp', heq, hacc⟩ | ⟨blocks, bytes, sp', heq, hne, hacc⟩
  . rw [heq, work_streaming, hacc, List.length_append, List.length_singleton]
    omega
  . rw [heq]
    have hheld : Placed plan a.cursor (blocks ++ (AfterEmit.stream sp').held) := hacc ▸ h
    have := work_admitting hheld hne bytes false
      (if a.cursor.emittedThisAttempt then 0 else a.attempt)
    rw [AfterEmit.held, hacc, List.length_append, List.length_singleton] at this
    omega

def Answers (w : Worker) (i : WorkerInput) : Prop :=
  ∀ a sp b deadline, w = .streaming a sp → i = .block b deadline →
    b.height = expectedHeight a.cursor sp ∧ b.height ≤ a.cursor.stop

theorem work_input (hplaced : ∀ c, w.cursor? = some c → Placed plan c w.held) (hcut : w.Cut plan)
    (hin : w.input plan i = some w') (hanswers : Answers w i) (hfine : ¬w'.Failed)
    : work plan w' < work plan w := by
  unfold Worker.input at hin
  split at hin
  all_goals cases hin
  . exact Nat.lt_succ_self 2
  . next c attempt =>
    have hsucc : attemptWork plan c (attempt + 1) + plan.chunkBlocks + 5 = attemptWork plan c attempt :=
      attemptWork_succ hcut
    have hopening : work plan (.beginAttempt c attempt)
        = attemptWork plan c (attempt + 1) + plan.chunkBlocks + 4 := rfl
    have hconnecting : work plan (.connecting (some (c, attempt))) = attemptWork plan c attempt := rfl
    omega
  . exact absurd trivial hfine
  . next c attempt =>
    have hshort := (hplaced c rfl).short
    have hemitted : c.emittedThisAttempt = false := hcut
    have hopening : work plan (.opening c attempt)
        = attemptWork plan c attempt + plan.chunkBlocks + 4 := rfl
    rw [work_streaming, hemitted, hopening]
    simp only [Bool.false_eq_true, if_false, ChunkSplitter.new, List.length_nil]
    omega
  . next c attempt detail =>
    have hemitted : c.emittedThisAttempt = false := hcut
    have hopening : work plan (.opening c attempt)
        = attemptWork plan c attempt + plan.chunkBlocks + 4 := rfl
    rw [work_retry hfine, hemitted, hopening]
    simp only [Bool.false_eq_true, if_false]
    omega
  . next a sp b deadline =>
    have hheld : Placed plan a.cursor sp.acc := hplaced a.cursor rfl
    obtain ⟨hheight, hstop⟩ := hanswers a sp b deadline rfl rfl
    rw [expectedHeight_consecutive hheld.consecutive] at hheight
    exact work_onBlock (hheld.push hheight hstop) deadline
  . next a sp detail => exact work_flushThenFail (hplaced a.cursor rfl) hfine
  . next a sp => exact work_flushThenFail (hplaced a.cursor rfl) hfine
  . next a sp => exact work_endOfStream (hplaced a.cursor rfl) hfine

def phaseWork : ReleasePhase → Nat
  | .receiving => 2
  | .draining => 3
  | .sending _ => 5
  | .ended => 0

def resultWork : Option (Except SlipstreamError FetchStats) → Nat
  | none => 1
  | some _ => 0

def claimCost (plan : FetchPlan) : Nat :=
  plan.chunkBlocks * blockCost plan + (plan.retriesPerChunk + 1) * attemptCost plan

def rank (plan : FetchPlan) (s : FetchState) : Nat :=
  (s.workers.map (work plan)).sum + (plan.chunkCount - s.next) * claimCost plan
    + 5 * s.channel.length + 3 * s.reorder.pending.length + phaseWork s.reorder.phase
    + s.queue.inFlight.length + resultWork s.result

def stutters (s : FetchState) : FetchEvent → Bool
  | .starve _ => true
  | .repoll k =>
    match s.workers[k]? with
    | some (.acquiring a _ _ _ _) => decide (s.floor < a.cursor.planIndex)
    | _ => false
  | .scannerReturns => s.queue.inFlight.isEmpty
  | .scannerGone => true
  | _ => false

variable {s s' : FetchState} {k : Nat}

def Lowers (plan : FetchPlan) (s : FetchState) (e : FetchEvent) (s' : FetchState) : Prop :=
  rank plan s' + (if stutters s e then 0 else 1) ≤ rank plan s

theorem lowers_of_lt (h : rank plan s' < rank plan s) (e : FetchEvent) : Lowers plan s e s' := by
  unfold Lowers
  split
  . exact Nat.le_of_lt h
  . exact h

theorem rank_setWorker (hk : s.workers[k]? = some w) (next free : Nat) (channel : List SubChunk)
    (hless : work plan w' + (plan.chunkCount - next) * claimCost plan + 5 * channel.length
      < work plan w + (plan.chunkCount - s.next) * claimCost plan + 5 * s.channel.length)
    : rank plan (setWorker { s with next, aheadFree := free, channel } k w') < rank plan s := by
  have hsum : ((s.workers.set k w').map (work plan)).sum + work plan w
      = (s.workers.map (work plan)).sum + work plan w' := sum_setWorker (work plan) hk w'
  simp only [rank, setWorker]
  omega

theorem rank_moves (hk : s.workers[k]? = some w) (free : Nat) (hless : work plan w' < work plan w)
    : rank plan (setWorker { s with aheadFree := free } k w') < rank plan s :=
  rank_setWorker hk s.next free s.channel (by omega)

theorem freshCursor_short (plan : FetchPlan) (i : Nat)
    : (plan.freshCursor i).stop + 1 - (plan.freshCursor i).resumeFrom ≤ plan.chunkBlocks := by
  have := plan.chunkBlocks_pos
  simp only [FetchPlan.freshCursor, FetchPlan.chunkRange]
  omega

theorem rank_claimed (hk : s.workers[k]? = some .claiming) (hlt : s.next < plan.chunkCount)
    : rank plan (setWorker { s with next := s.next + 1 } k
        (.beginAttempt (plan.freshCursor s.next) 0)) < rank plan s := by
  have hopening : work plan (.beginAttempt (plan.freshCursor s.next) 0)
      = attemptWork plan (plan.freshCursor s.next) 1 + plan.chunkBlocks + 4 := rfl
  have hsucc : attemptWork plan (plan.freshCursor s.next) 1 + plan.chunkBlocks + 5
      = attemptWork plan (plan.freshCursor s.next) 0 := attemptWork_succ (Nat.zero_le _)
  have hcost : attemptWork plan (plan.freshCursor s.next) 0 ≤ claimCost plan :=
    Nat.add_le_add_right (Nat.mul_le_mul_right _ (freshCursor_short plan s.next)) _
  have hclaims : (plan.chunkCount - s.next) * claimCost plan
      = (plan.chunkCount - (s.next + 1)) * claimCost plan + claimCost plan := by
    rw [← Nat.succ_mul]
    congr 1
    omega
  exact rank_setWorker hk (s.next + 1) s.aheadFree s.channel (by omega)

theorem rank_sent (hk : s.workers[k]? = some (.sending a sub after))
    : rank plan (setWorker { s with channel := s.channel ++ [sub] } k (handed plan a sub after))
      < rank plan s := by
  apply rank_setWorker hk s.next s.aheadFree (s.channel ++ [sub])
  have hsending : work plan (.sending a sub after) = ownWork plan (handed plan a sub after) + 7 := rfl
  rw [work_handed, hsending, List.length_append, List.length_singleton]
  omega

theorem lowers_of_worker (hrunning : s.result = none)
    (hplaced : ∀ w ∈ s.workers, (∀ c, w.cursor? = some c → Placed plan c w.held) ∧ w.Cut plan)
    (hanswers : answersRequest s e = true) (ht : WorkerTrans plan s k e s')
    (hfine : ∀ w ∈ s'.workers, ¬w.Failed) : Lowers plan s e s' := by
  cases ht with
  | @input w i w' hk hin =>
    obtain ⟨hheld, hcut⟩ := hplaced w (List.mem_of_getElem? hk)
    have hlt := (List.getElem?_eq_some_iff.mp hk).1
    have hless : work plan w' < work plan w := by
      apply work_input hheld hcut hin ?_ (hfine w' (List.mem_set hlt w'))
      rintro a sp b deadline rfl rfl
      simpa [answersRequest, hk] using hanswers
    exact lowers_of_lt (rank_moves hk s.aheadFree hless) _
  | claimed hk hlt => exact lowers_of_lt (rank_claimed hk hlt) _
  | exhausted hk hge =>
    have hnone : plan.chunkCount - s.next = 0 := by omega
    have hnone' : plan.chunkCount - (s.next + 1) = 0 := by omega
    refine lowers_of_lt (rank_setWorker hk (s.next + 1) s.aheadFree s.channel ?_) _
    simp [hnone, hnone', work, ownWork]
  | passes hk hfloor =>
    exact lowers_of_lt (rank_moves hk s.aheadFree (Nat.add_lt_add_left (by decide) _)) _
  | waits hk hfloor =>
    exact lowers_of_lt (rank_moves hk s.aheadFree (Nat.add_lt_add_left (by decide) _)) _
  | acquired hk hfree =>
    exact lowers_of_lt (rank_moves hk _ (Nat.add_lt_add_left (by decide) _)) _
  | repolled hk hfloor =>
    exact lowers_of_lt (rank_moves hk s.aheadFree (Nat.add_lt_add_left (by decide) _)) _
  | waitsOn hk hfloor => simp [Lowers, stutters, hk, hfloor]
  | sent hk hrunning hroom => exact lowers_of_lt (rank_sent hk) _
  | quits hk hover => exact absurd hrunning hover

theorem length_insertPending_le (pending : List SubChunk) (sub : SubChunk)
    : (insertPending pending sub).length ≤ pending.length + 1 := by
  rw [insertPending, List.length_append, List.length_singleton]
  exact Nat.succ_le_succ (List.length_filter_le _ _)

theorem length_rest_lt (hsub : sub ∈ s.reorder.pending)
    (hkey : (sub.planIndex, sub.subIndex) = s.reorder.next)
    : (rest s).length < s.reorder.pending.length := by
  apply List.length_filter_lt_length_iff_exists.mpr
  exact ⟨sub, hsub, by simp [hkey]⟩

theorem lowers_of_stage (hrunning : s.result = none) (ht : StageTrans plan s e s')
    (hresult : ∀ error, s'.result ≠ some (.error error)) : Lowers plan s e s' := by
  cases ht with
  | ticks hphase hchannel hd => exact Nat.le_refl _
  | @received sub _ _ _ hphase hchannel hd =>
    apply lowers_of_lt
    have := length_insertPending_le s.reorder.pending sub
    simp only [rank, hphase, hchannel, phaseWork, List.length_cons]
    omega
  | drained hphase hnone =>
    apply lowers_of_lt
    simp only [rank, hphase, phaseWork]
    omega
  | verified hphase hsub hkey hverify =>
    apply lowers_of_lt
    have := length_rest_lt hsub hkey
    simp only [rank, hphase, phaseWork]
    omega
  | released hphase hreceiver hfree =>
    apply lowers_of_lt
    simp only [rank, afterRelease, hphase, phaseWork, List.length_append, List.length_singleton]
    omega
  | ends hphase hchannel hall =>
    apply lowers_of_lt
    simp only [rank, hphase, phaseWork]
    omega
  | joined hk => exact lowers_of_lt (rank_moves hk s.aheadFree (by simp [work, ownWork])) _
  | completed hphase hplans =>
    apply lowers_of_lt
    simp [rank, hrunning, resultWork]
  | _ => exact absurd rfl (hresult _)

variable {such : CompactBlock → Prop} {log : Log}

theorem getLast?_blocksOf (hlog : LogInv plan log) (hb : (blocksOf (log i)).getLast? = some b)
    : ∃ sub ∈ log i, sub.blocks.getLast? = some b := by
  cases hsub : (log i).getLast? with
  | none => simp [List.getLast?_eq_none_iff.mp hsub, blocksOf] at hb
  | some sub =>
    have hmem := List.mem_of_getLast? hsub
    obtain ⟨front, hfront⟩ := List.getLast?_eq_some_iff.mp hsub
    have hne := hlog.nonempty (List.mem_iff_getElem?.mp hmem).choose_spec
    refine ⟨sub, hmem, ?_⟩
    rw [hfront, blocksOf_append, List.getLast?_append] at hb
    simpa [blocksOf, List.getLast?_eq_some_getLast hne] using hb

theorem placed_of_inv (hinv : FetchInv plan (rangeStream plan such) log s) (hcut : CutInv plan log s)
    (hw : w ∈ s.workers) (hc : w.cursor? = some c) : Placed plan c w.held := by
  have howns := hinv.workers.owns w hw c hc
  have hlog : InRange plan such c.planIndex (blocksOf (log c.planIndex)) := hinv.workers.streams _
  have hresume := howns.resumeFrom_eq hlog
  obtain ⟨hheld, hwithin⟩ := hinv.held hw hc
  have hstart := plan.chunkRange_start_le howns.inPlan
  have hpos := plan.chunkBlocks_pos
  have hrange : (plan.chunkRange c.planIndex).1 ≤ (plan.chunkRange c.planIndex).2
      ∧ (plan.chunkRange c.planIndex).2 < (plan.chunkRange c.planIndex).1 + plan.chunkBlocks := by
    simp only [FetchPlan.chunkRange] at hstart ⊢
    omega
  constructor
  case unfinished =>
    cases hlast : (blocksOf (log c.planIndex)).getLast? with
    | none =>
      rw [hresume, howns.stop, List.getLast?_eq_none_iff.mp hlast]
      exact hrange.1
    | some b =>
      have hnext := hlog.heights.last hlast
      have hle := hlog.stops b (List.mem_of_getLast? hlast)
      have hne : b.height ≠ (plan.chunkRange c.planIndex).2 := by
        intro hends
        obtain ⟨sub, hsub, hb⟩ := getLast?_blocksOf hinv.entries hlast
        have hmarked := hcut.marked c.planIndex sub hsub (by rw [hb, Option.map_some, hends])
        rw [howns.unfinished sub hsub] at hmarked
        cases hmarked
      rw [hresume, howns.stop]
      omega
  case short =>
    rw [hresume, howns.stop]
    omega
  case bound =>
    rw [howns.stop]
    exact chunkRange_lt plan c.planIndex
  case consecutive => exact hheld
  case within => exact hwithin

theorem lowers_of_step (hinv : FetchInv plan (rangeStream plan such) log s)
    (hcut : CutInv plan log s) (hrunning : s.result = none) (hanswers : answersRequest s e = true)
    (hstep : step plan s e = some s') (hfine : ∀ w ∈ s'.workers, ¬w.Failed)
    (hresult : ∀ error, s'.result ≠ some (.error error)) : Lowers plan s e s' := by
  cases trans_of_step hstep with
  | worker ht =>
    refine lowers_of_worker hrunning (fun w hw => ⟨fun c hc => ?_, ?_⟩) hanswers ht hfine
    . exact placed_of_inv hinv hcut hw hc
    . exact hcut.workers w hw
  | stage _ ht => exact lowers_of_stage hrunning ht hresult
  | scannerReturns =>
    cases hflight : s.queue.inFlight with
    | nil => simp [Lowers, stutters, rank, hflight]
    | cons need needs =>
      apply lowers_of_lt
      simp [rank, hflight]
  | scannerGone => exact Nat.le_refl _

end Fetch
end Slipstream
