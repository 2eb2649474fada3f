import Slipstream.Fetch.Impl.Worker

/-!
This module contains what one step of a fetch worker can do: it keeps its plan chunk's place and the
order of the blocks it holds.
-/

namespace Slipstream

def AfterEmit.held : AfterEmit → List CompactBlock
  | .stream splitter => splitter.acc
  | _ => []

namespace Worker

def cursor? : Worker → Option PlanChunkCursor
  | .connecting (some (cursor, _)) => some cursor
  | .opening cursor _ => some cursor
  | .streaming a _ => some a.cursor
  | .admitting a _ _ _ _ => some a.cursor
  | .acquiring a _ _ _ _ => some a.cursor
  | .sending a _ _ => some a.cursor
  | _ => none

def held : Worker → List CompactBlock
  | .streaming _ splitter => splitter.acc
  | .admitting _ blocks _ _ after => blocks ++ after.held
  | .acquiring _ blocks _ _ after => blocks ++ after.held
  | .sending _ sub after => sub.blocks ++ after.held
  | _ => []

structure Handover (cursor : PlanChunkCursor) (blocks : List CompactBlock) (isLast : Bool)
    (after : AfterEmit) : Prop where
  nonempty : blocks ≠ []
  last : isLast = true → blocks.getLast?.map CompactBlock.height = some cursor.stop
  complete : isLast = true ↔ after = .complete

def WellFormed : Worker → Prop
  | .admitting a blocks _ isLast after => Handover a.cursor blocks isLast after
  | .acquiring a blocks _ isLast after => Handover a.cursor blocks isLast after
  | .sending a sub after =>
    Handover a.cursor sub.blocks sub.isLast after
      ∧ sub.planIndex = a.cursor.planIndex ∧ sub.subIndex = a.cursor.nextSubIndex
  | _ => True

structure SamePlace (c c' : PlanChunkCursor) : Prop where
  planIndex : c'.planIndex = c.planIndex
  stop : c'.stop = c.stop
  resumeFrom : c'.resumeFrom = c.resumeFrom
  nextSubIndex : c'.nextSubIndex = c.nextSubIndex

theorem SamePlace.refl (c : PlanChunkCursor) : SamePlace c c := ⟨rfl, rfl, rfl, rfl⟩

def Keeps (c : PlanChunkCursor) (bs : List CompactBlock) (w : Worker) : Prop :=
  w.WellFormed ∧
    ((w.cursor? = none ∧ w.held = [])
      ∨ ∃ c', w.cursor? = some c' ∧ SamePlace c c' ∧ w.held <+: bs)

theorem retry_keeps (plan : FetchPlan) (c : PlanChunkCursor) (attempt : Nat) (detail : String)
    (bs : List CompactBlock) : Keeps c bs (retry plan c attempt detail) := by
  unfold retry
  dsimp only
  generalize (if c.emittedThisAttempt = true then 0 else attempt) = n
  split
  . exact ⟨trivial, Or.inl ⟨rfl, rfl⟩⟩
  . exact ⟨trivial, Or.inr ⟨c, rfl, SamePlace.refl c, List.nil_prefix⟩⟩

theorem flushThenFail_keeps (plan : FetchPlan) (a : Attempt) (sp : ChunkSplitter)
    (detail : String) : Keeps a.cursor sp.acc (flushThenFail plan a sp.finish detail) := by
  unfold flushThenFail ChunkSplitter.finish
  split
  . next blocks bytes hfin =>
    split at hfin
    . cases hfin
    . next hne =>
      cases hfin
      split
      . refine ⟨⟨by simpa using hne, by simp, by simp⟩, Or.inr ?_⟩
        exact ⟨a.cursor, rfl, SamePlace.refl _, by simp [held, AfterEmit.held]⟩
      . exact retry_keeps plan a.cursor a.attempt detail sp.acc
  . exact retry_keeps plan a.cursor a.attempt detail sp.acc

theorem endOfStream_keeps (plan : FetchPlan) (a : Attempt) (sp : ChunkSplitter)
    : Keeps a.cursor sp.acc (endOfStream plan a sp) := by
  unfold endOfStream
  dsimp only
  split
  . next blocks bytes hfin =>
    split
    . next hlast =>
      unfold ChunkSplitter.finish at hfin
      split at hfin
      . cases hfin
      . next hne =>
        cases hfin
        refine ⟨⟨by simpa using hne, fun _ => hlast, by simp⟩, Or.inr ?_⟩
        exact ⟨a.cursor, rfl, SamePlace.refl _, by simp [held, AfterEmit.held]⟩
    . exact flushThenFail_keeps plan a sp _
  . exact flushThenFail_keeps plan a sp _

theorem onBlock_keeps (a : Attempt) (sp : ChunkSplitter) (b : CompactBlock) (deadline : Bool)
    : Keeps a.cursor (sp.acc ++ [b]) (onBlock a sp b deadline) := by
  unfold onBlock ChunkSplitter.push
  split
  . next sp' blocks bytes hpush =>
    split at hpush
    . next hover =>
      cases hpush
      have hne : sp.acc ≠ [] := by
        rintro hnil
        simp [hnil] at hover
      refine ⟨⟨hne, by simp, by simp⟩, Or.inr ?_⟩
      exact ⟨a.cursor, rfl, SamePlace.refl _, List.prefix_refl _⟩
    . cases hpush
  . next sp' hpush =>
    split at hpush
    . cases hpush
    . cases hpush
      split
      . unfold ChunkSplitter.takePartial
        simp only [List.isEmpty_iff, List.append_eq_nil_iff, List.cons_ne_nil, and_false, if_false]
        refine ⟨⟨by simp, by simp, by simp⟩, Or.inr ?_⟩
        exact ⟨a.cursor, rfl, SamePlace.refl _, by simp [held, AfterEmit.held]⟩
      . exact ⟨trivial, Or.inr ⟨a.cursor, rfl, SamePlace.refl _, List.prefix_refl _⟩⟩

def heldWith (w : Worker) (i : WorkerInput) : List CompactBlock :=
  match i with
  | .block b _ => w.held ++ [b]
  | _ => w.held

theorem input_cases {w w' : Worker} (h : w.input plan i = some w')
    : w'.WellFormed ∧
      ((w'.cursor? = none ∧ w'.held = [])
        ∨ ∃ c, w.cursor? = some c ∧ Keeps c (w.heldWith i) w') := by
  unfold input at h
  split at h
  all_goals cases h
  . exact ⟨trivial, Or.inl ⟨rfl, rfl⟩⟩
  . next c attempt =>
    refine ⟨trivial, Or.inr ⟨c, rfl, trivial, Or.inr ?_⟩⟩
    exact ⟨_, rfl, ⟨rfl, rfl, rfl, rfl⟩, List.nil_prefix⟩
  . exact ⟨trivial, Or.inl ⟨rfl, rfl⟩⟩
  . next c attempt =>
    refine ⟨trivial, Or.inr ⟨c, rfl, trivial, Or.inr ?_⟩⟩
    exact ⟨_, rfl, ⟨rfl, rfl, rfl, rfl⟩, List.nil_prefix⟩
  . next c attempt detail =>
    have := retry_keeps plan c attempt
      s!"get_block_range {c.resumeFrom}..{c.stop}: {detail}" []
    exact ⟨this.1, Or.inr ⟨c, rfl, this⟩⟩
  . next a sp b deadline =>
    have := onBlock_keeps a sp b deadline
    exact ⟨this.1, Or.inr ⟨a.cursor, rfl, this⟩⟩
  . next a sp detail =>
    have := flushThenFail_keeps plan a sp s!"{a.ctx}: {detail}"
    exact ⟨this.1, Or.inr ⟨a.cursor, rfl, this⟩⟩
  . next a sp =>
    have := flushThenFail_keeps plan a sp
      s!"{a.ctx}: stream idle timeout ({STREAM_IDLE_TIMEOUT_SECS}s without a message)"
    exact ⟨this.1, Or.inr ⟨a.cursor, rfl, this⟩⟩
  . next a sp =>
    have := endOfStream_keeps plan a sp
    exact ⟨this.1, Or.inr ⟨a.cursor, rfl, this⟩⟩

theorem input_block {w w' : Worker} (h : w.input plan (.block b deadline) = some w')
    : ∃ a sp, w = .streaming a sp := by
  cases w with
  | streaming a sp => exact ⟨a, sp, rfl⟩
  | connecting resume => cases resume <;> simp [input] at h
  | _ => simp [input] at h

end Worker
end Slipstream
