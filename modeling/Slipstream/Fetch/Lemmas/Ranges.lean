import Slipstream.Fetch.Lemmas.System

/-!
This module contains the fetch from streams that deliver what they are asked for: the log of a plan
chunk is its heights one after another, cut into sub-chunks within the split budget, and only the one
with the plan chunk's final height is marked as the last.
-/

namespace Slipstream

def Consecutive (first : Nat) (blocks : List CompactBlock) : Prop :=
  blocks.map CompactBlock.height = List.range' first blocks.length

namespace Consecutive

variable {blocks : List CompactBlock} {first : Nat}

theorem nil (first : Nat) : Consecutive first [] := rfl

theorem getElem? (h : Consecutive first blocks) (hb : blocks[i]? = some b) : b.height = first + i := by
  have hlt := (List.getElem?_eq_some_iff.mp hb).1
  have hi : (blocks.map CompactBlock.height)[i]? = some b.height := by simp [hb]
  rw [h, List.getElem?_range' hlt, Option.some.injEq, Nat.one_mul] at hi
  exact hi.symm

theorem last (h : Consecutive first blocks) (hb : blocks.getLast? = some b)
    : b.height + 1 = first + blocks.length := by
  rw [List.getLast?_eq_getElem?] at hb
  have hpos := (List.getElem?_eq_some_iff.mp hb).1
  have := h.getElem? hb
  omega

theorem append (h : Consecutive first blocks) (h' : Consecutive (first + blocks.length) blocks')
    : Consecutive first (blocks ++ blocks') := by
  unfold Consecutive at h h' ⊢
  rw [List.map_append, h, h', List.length_append, List.range'_append_1]

theorem shorten (h : Consecutive first blocks) (hp : blocks' <+: blocks)
    : Consecutive first blocks' := by
  obtain ⟨more, rfl⟩ := hp
  unfold Consecutive at h ⊢
  rw [List.map_append, List.length_append, ← List.range'_append_1] at h
  exact (List.append_inj h (by simp)).1

theorem right (h : Consecutive first (blocks ++ blocks'))
    : Consecutive (first + blocks.length) blocks' := by
  have hleft := h.shorten (List.prefix_append _ _)
  unfold Consecutive at h hleft ⊢
  rw [List.map_append, List.length_append, ← List.range'_append_1] at h
  exact (List.append_inj h (by simp)).2

theorem linked (h : Consecutive first blocks)
    (hlink : ∀ a ∈ blocks, ∀ b ∈ blocks, b.height = a.height + 1 → Follows a b) : Linked blocks := by
  apply List.isChain_iff_getElem.mpr
  intro i hi
  apply hlink _ (List.getElem_mem _) _ (List.getElem_mem _)
  have ha := h.getElem? (List.getElem?_eq_getElem (Nat.lt_of_succ_lt hi))
  have hb := h.getElem? (List.getElem?_eq_getElem hi)
  omega

end Consecutive

def AfterEmit.Weighed (splitBytes : Nat) : AfterEmit → Prop
  | .stream sp => sp.Weighed splitBytes
  | _ => True

namespace Worker

structure Piece (plan : FetchPlan) (c : PlanChunkCursor) (blocks : List CompactBlock) (bytes : Nat)
    (isLast : Bool) (after : AfterEmit) : Prop where
  fits : Fits plan.splitBytes blocks bytes
  unmarked : isLast = false →
    after.held ≠ [] ∨ blocks.getLast?.map CompactBlock.height ≠ some c.stop
  rest : after.Weighed plan.splitBytes

def Cut (plan : FetchPlan) : Worker → Prop
  | .connecting (some (_, attempt)) => attempt ≤ plan.retriesPerChunk
  | .opening cursor _ => cursor.emittedThisAttempt = false
  | .streaming _ sp => sp.Weighed plan.splitBytes
  | .admitting a blocks bytes isLast after => Piece plan a.cursor blocks bytes isLast after
  | .acquiring a blocks bytes isLast after => Piece plan a.cursor blocks bytes isLast after
  | .sending a sub after => Piece plan a.cursor sub.blocks sub.bytes sub.isLast after
  | _ => True

variable {plan : FetchPlan} {w w' : Worker}

theorem retry_cut (plan : FetchPlan) (c : PlanChunkCursor) (attempt : Nat) (detail : String)
    : (retry plan c attempt detail).Cut plan := by
  unfold retry
  dsimp only
  generalize (if c.emittedThisAttempt = true then 0 else attempt) = n
  split
  . trivial
  . next hle => exact Nat.le_of_not_lt hle

theorem flushThenFail_cut {a : Attempt} {sp : ChunkSplitter} (h : sp.Weighed plan.splitBytes)
    (detail : String) : (flushThenFail plan a sp.finish detail).Cut plan := by
  unfold flushThenFail
  split
  . next blocks bytes hfinish =>
    split
    . next hopen => exact ⟨ChunkSplitter.finish_fits h hfinish, fun _ => Or.inr hopen, trivial⟩
    . exact retry_cut ..
  . exact retry_cut ..

theorem endOfStream_cut {a : Attempt} {sp : ChunkSplitter} (h : sp.Weighed plan.splitBytes)
    : (endOfStream plan a sp).Cut plan := by
  unfold endOfStream
  dsimp only
  split
  . next blocks bytes hfinish =>
    split
    . exact ⟨ChunkSplitter.finish_fits h hfinish, nofun, trivial⟩
    . exact flushThenFail_cut h _
  . exact flushThenFail_cut h _

theorem onBlock_cut {a : Attempt} {sp : ChunkSplitter} (h : sp.Weighed plan.splitBytes)
    (b : CompactBlock) (deadline : Bool) : (onBlock a sp b deadline).Cut plan := by
  unfold onBlock
  split
  . next sp' blocks bytes hpush =>
    obtain ⟨hsp', hfits⟩ := ChunkSplitter.push_weighed h hpush
    refine ⟨hfits blocks bytes rfl, fun _ => Or.inl ?_, hsp'⟩
    unfold ChunkSplitter.push at hpush
    split at hpush
    . cases hpush
      exact List.cons_ne_nil _ _
    . cases hpush
  . next sp' hpush =>
    obtain ⟨hsp', -⟩ := ChunkSplitter.push_weighed h hpush
    split
    . next hflush =>
      have hopen : sp'.lastHeight ≠ some a.cursor.stop := by
        simpa using (Bool.and_eq_true_iff.mp hflush).2
      unfold ChunkSplitter.takePartial
      split
      . next sp'' blocks bytes htake =>
        split at htake
        . cases htake
        . cases htake
          exact ⟨hsp'.fits, fun _ => Or.inr hopen,
            ⟨hsp'.budget, ⟨rfl, Or.inl (Nat.zero_le _)⟩⟩⟩
      . next sp'' htake =>
        split at htake
        . cases htake
          exact hsp'
        . cases htake
    . exact hsp'

theorem input_cut (h : w.Cut plan) (hin : w.input plan i = some w') : w'.Cut plan := by
  unfold input at hin
  split at hin
  all_goals cases hin
  . trivial
  . rfl
  . trivial
  . exact ChunkSplitter.new_weighed plan.splitBytes
  . exact retry_cut ..
  . exact onBlock_cut h _ _
  . exact flushThenFail_cut h _
  . exact flushThenFail_cut h _
  . exact endOfStream_cut h

theorem resume_cut (plan : FetchPlan) (a : Attempt) (h : after.Weighed plan.splitBytes)
    : (resume plan a after).Cut plan := by
  cases after with
  | stream sp => exact h
  | complete => trivial
  | fail detail => exact retry_cut ..

end Worker

namespace Fetch

structure InRange (plan : FetchPlan) (such : CompactBlock → Prop) (i : Nat)
    (blocks : List CompactBlock) : Prop where
  heights : Consecutive (plan.chunkRange i).1 blocks
  stops : ∀ b ∈ blocks, b.height ≤ (plan.chunkRange i).2
  such : ∀ b ∈ blocks, such b

def rangeStream (plan : FetchPlan) (such : CompactBlock → Prop) : StreamSpec where
  good := InRange plan such
  nil i := ⟨Consecutive.nil _, by simp, by simp⟩
  shorten h hp := ⟨h.heights.shorten hp, fun b hb => h.stops b (hp.subset hb),
    fun b hb => h.such b (hp.subset hb)⟩

def answersRequest (s : FetchState) : FetchEvent → Bool
  | .input k (.block b _) =>
    match s.workers[k]? with
    | some (.streaming a sp) =>
      b.height == expectedHeight a.cursor sp && decide (b.height ≤ a.cursor.stop)
    | _ => true
  | _ => true

variable {plan : FetchPlan} {such : CompactBlock → Prop} {log : Log} {s s' : FetchState} {k : Nat}

theorem chunkRange_lt (plan : FetchPlan) (i : Nat) : (plan.chunkRange i).2 < 2 ^ 32 := by
  have := plan.stop_lt
  unfold FetchPlan.chunkRange
  dsimp only
  omega

theorem OwnsChunk.resumeFrom_eq (howns : OwnsChunk plan log next c)
    (hrange : InRange plan such c.planIndex (blocksOf (log c.planIndex)))
    : c.resumeFrom = (plan.chunkRange c.planIndex).1 + (blocksOf (log c.planIndex)).length := by
  rw [howns.resumeFrom, resumePoint]
  cases hlast : (blocksOf (log c.planIndex)).getLast? with
  | none => simp [List.getLast?_eq_none_iff.mp hlast]
  | some b =>
    have := hrange.heights.last hlast
    have := hrange.stops b (List.mem_of_getLast? hlast)
    have := chunkRange_lt plan c.planIndex
    dsimp only
    omega

theorem expectedHeight_consecutive {sp : ChunkSplitter} (h : Consecutive c.resumeFrom sp.acc)
    : expectedHeight c sp = c.resumeFrom + sp.acc.length := by
  unfold expectedHeight ChunkSplitter.lastHeight
  cases hlast : sp.acc.getLast? with
  | none => simp [List.getLast?_eq_none_iff.mp hlast]
  | some b => simpa using h.last hlast

theorem FetchInv.held (h : FetchInv plan (rangeStream plan such) log s) (hw : w ∈ s.workers)
    (hc : w.cursor? = some c)
    : Consecutive c.resumeFrom w.held ∧ ∀ b ∈ w.held, b.height ≤ c.stop := by
  have howns := h.workers.owns w hw c hc
  have hlog : InRange plan such c.planIndex (blocksOf (log c.planIndex)) := h.workers.streams _
  have hheld : InRange plan such c.planIndex (blocksOf (log c.planIndex) ++ w.held) :=
    h.workers.holds w hw c hc
  rw [howns.resumeFrom_eq hlog, howns.stop]
  exact ⟨hheld.heights.right, fun b hb => hheld.stops b (List.mem_append_right _ hb)⟩

theorem delivers_of_answers (h : FetchInv plan (rangeStream plan such) log s)
    (hok : answersRequest s e = true)
    (hsuch : ∀ k b deadline, e = .input k (.block b deadline) → such b)
    : Delivers (rangeStream plan such) log s e := by
  rintro k b deadline a sp rfl hk
  have hmem := List.mem_of_getElem? hk
  have howns := h.workers.owns _ hmem a.cursor rfl
  have hlog : InRange plan such _ (blocksOf (log a.cursor.planIndex)) := h.workers.streams _
  have hheld : InRange plan such _ (blocksOf (log a.cursor.planIndex) ++ sp.acc) :=
    h.workers.holds _ hmem a.cursor rfl
  have hexpected := expectedHeight_consecutive (h.held hmem rfl).1
  simp only [answersRequest, hk, Bool.and_eq_true, beq_iff_eq, decide_eq_true_eq] at hok
  obtain ⟨hheight, hstop⟩ := hok
  rw [← List.append_assoc]
  constructor
  case heights =>
    apply hheld.heights.append
    have hnext : b.height = (plan.chunkRange a.cursor.planIndex).1
        + (blocksOf (log a.cursor.planIndex) ++ sp.acc).length := by
      rw [hheight, hexpected, howns.resumeFrom_eq hlog, List.length_append, Nat.add_assoc]
    simp [Consecutive, hnext]
  case stops =>
    intro x hx
    rcases List.mem_append.mp hx with hx | hx
    . exact hheld.stops x hx
    . rw [List.mem_singleton.mp hx, ← howns.stop]
      exact hstop
  case such =>
    intro x hx
    rcases List.mem_append.mp hx with hx | hx
    . exact hheld.such x hx
    . rw [List.mem_singleton.mp hx]
      exact hsuch k b deadline rfl

structure CutInv (plan : FetchPlan) (log : Log) (s : FetchState) : Prop where
  workers : ∀ w ∈ s.workers, w.Cut plan
  fits : ∀ i, ∀ sub ∈ log i, Fits plan.splitBytes sub.blocks sub.bytes
  marked : ∀ i, ∀ sub ∈ log i,
    sub.blocks.getLast?.map CompactBlock.height = some (plan.chunkRange i).2 → sub.isLast = true

theorem CutInv.update (h : CutInv plan log s) (w' : Worker) (hw : w'.Cut plan)
    (hworkers : s'.workers = s.workers.set k w') : CutInv plan log s' := by
  refine ⟨fun x hx => ?_, h.fits, h.marked⟩
  rw [hworkers] at hx
  rcases List.mem_or_eq_of_mem_set hx with hx | rfl
  . exact h.workers x hx
  . exact hw

theorem Piece.marked (hpiece : Worker.Piece plan c blocks bytes isLast after)
    (hheld : Consecutive first (blocks ++ after.held))
    (hstops : ∀ b ∈ blocks ++ after.held, b.height ≤ c.stop)
    (hends : blocks.getLast?.map CompactBlock.height = some c.stop) : isLast = true := by
  cases isLast with
  | true => rfl
  | false =>
    rcases hpiece.unmarked rfl with hmore | hopen
    . obtain ⟨b, hb, hheight⟩ := Option.map_eq_some_iff.mp hends
      obtain ⟨x, xs, hxs⟩ := List.exists_cons_of_ne_nil hmore
      have hlast := (hheld.shorten (List.prefix_append _ _)).last hb
      have hnext : x.height = first + blocks.length := by
        apply hheld.getElem?
        simp [hxs]
      have := hstops x (by simp [hxs])
      omega
    . exact absurd hends hopen

theorem CutInv.sent (hinv : FetchInv plan (rangeStream plan such) log s) (h : CutInv plan log s)
    (hk : s.workers[k]? = some (.sending a sub after))
    : CutInv plan (extend log sub) (setWorker { s with channel := s.channel ++ [sub] } k
        (.resume plan { a with cursor := Worker.advance a.cursor sub } after)) := by
  have hmem := List.mem_of_getElem? hk
  have hpiece : Worker.Piece plan a.cursor sub.blocks sub.bytes sub.isLast after := h.workers _ hmem
  obtain ⟨-, hplan, -⟩ := hinv.workers.wellFormed _ hmem
  have howns := hinv.workers.owns _ hmem a.cursor rfl
  obtain ⟨hheld, hstops⟩ := hinv.held hmem rfl
  have hset : CutInv plan log (setWorker s k
      (.resume plan { a with cursor := Worker.advance a.cursor sub } after)) :=
    h.update _ (Worker.resume_cut plan { a with cursor := Worker.advance a.cursor sub } hpiece.rest)
      rfl
  have hentries : ∀ i, ∀ x ∈ extend log sub i, x ∈ log i ∨ i = sub.planIndex ∧ x = sub := by
    intro i x hx
    obtain ⟨j, hj⟩ := List.mem_iff_getElem?.mp hx
    rcases extend_getElem?_cases hj with hj | ⟨hi, -, rfl⟩
    . exact Or.inl (List.mem_of_getElem? hj)
    . exact Or.inr ⟨hi, rfl⟩
  refine ⟨hset.workers, fun i x hx => ?_, fun i x hx hends => ?_⟩
  . rcases hentries i x hx with hx | ⟨-, rfl⟩
    . exact h.fits i x hx
    . exact hpiece.fits
  . rcases hentries i x hx with hx | ⟨rfl, rfl⟩
    . exact h.marked i x hx hends
    . rw [hplan, ← howns.stop] at hends
      exact Piece.marked hpiece hheld hstops hends

theorem CutInv.worker (hinv : FetchInv plan (rangeStream plan such) log s) (h : CutInv plan log s)
    (ht : WorkerTrans plan s k e s') : CutInv plan (grow log s e) s' := by
  cases ht with
  | input hk hin =>
    exact h.update _ (Worker.input_cut (h.workers _ (List.mem_of_getElem? hk)) hin) rfl
  | claimed hk hlt => exact h.update (.beginAttempt _ _) rfl rfl
  | exhausted hk hge => exact h.update (.finished _) trivial rfl
  | passes hk hfloor =>
    have hpiece := h.workers _ (List.mem_of_getElem? hk)
    exact h.update (.sending _ (Attempt.subChunk ..) _) hpiece rfl
  | waits hk hfloor =>
    have hpiece := h.workers _ (List.mem_of_getElem? hk)
    exact h.update (.acquiring _ _ _ _ _) hpiece rfl
  | acquired hk hfree =>
    have hpiece := h.workers _ (List.mem_of_getElem? hk)
    exact h.update (.sending _ (Attempt.subChunk ..) _) hpiece rfl
  | repolled hk hfloor =>
    have hpiece := h.workers _ (List.mem_of_getElem? hk)
    exact h.update (.sending _ (Attempt.subChunk ..) _) hpiece rfl
  | waitsOn hk hfloor => exact h
  | sent hk hrunning hroom =>
    rw [grow_sent hk hrunning]
    exact CutInv.sent hinv h hk
  | quits hk hover =>
    rw [grow_quits hover]
    exact h.update (.finished _) trivial rfl

theorem CutInv.step (hinv : FetchInv plan (rangeStream plan such) log s) (h : CutInv plan log s)
    (hstep : Fetch.step plan s e = some s') : CutInv plan (grow log s e) s' := by
  cases trans_of_step hstep with
  | worker ht => exact CutInv.worker hinv h ht
  | stage _ ht =>
    rw [grow_stage ht]
    cases ht with
    | joined hk => exact h.update .joined trivial rfl
    | _ => exact ⟨h.workers, h.fits, h.marked⟩
  | scannerReturns => exact ⟨h.workers, h.fits, h.marked⟩
  | scannerGone => exact ⟨h.workers, h.fits, h.marked⟩

theorem init_cut (plan : FetchPlan) (budgetBytes : Nat)
    : CutInv plan (fun _ => []) (init plan budgetBytes) := by
  refine ⟨?_, by simp, by simp⟩
  intro w hw
  rw [(List.mem_replicate.mp hw).2]
  trivial

end Fetch
end Slipstream
