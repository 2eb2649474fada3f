import Slipstream.Fetch.Impl.Stream
import Mathlib.Data.List.Chain

/-!
This module contains what the sequential parts of the fetch guarantee: the continuity check accepts
linked blocks only, the splitter keeps the stream's order, and the plan chunks end where the next
one starts.
-/

namespace Slipstream

def Follows (a b : CompactBlock) : Prop :=
  b.height = a.height + 1 ∧ (b.prevHash ≠ [] → b.prevHash = a.hash)

def Linked (blocks : List CompactBlock) : Prop := blocks.IsChain Follows

namespace Continuity

def IsFrontier (c : Continuity) (blocks : List CompactBlock) : Prop :=
  c.lastHash = blocks.getLast?.map CompactBlock.hash
    ∧ c.lastHeight = blocks.getLast?.map CompactBlock.height

theorem empty_isFrontier : empty.IsFrontier [] := ⟨rfl, rfl⟩

theorem verifyBlock_ok {c : Continuity} (hc : c.IsFrontier blocks)
    (h : c.verifyBlock b = .ok c')
    : b.height < 2 ^ 32 ∧ c'.IsFrontier (blocks ++ [b])
      ∧ ∀ a, blocks.getLast? = some a → Follows a b := by
  obtain ⟨hhash, hheight⟩ := hc
  unfold verifyBlock at h
  split at h
  . cases h
  . next hlt =>
    split at h
    . cases h
    . next hmis =>
      split at h
      . cases h
      . next hprev =>
        cases h
        refine ⟨by omega, ⟨by simp, by simp⟩, ?_⟩
        intro a ha
        simp only [ha, Option.map_some] at hhash hheight
        constructor
        . by_contra hne
          exact hmis (a.height + 1) (by simp [verifyBlock.heightMismatch, hheight, hne])
        . intro hnonempty
          by_contra hne
          exact hprev (by simp [verifyBlock.hashMismatch, hhash, hnonempty, hne])

theorem verifyBlocks_ok {c : Continuity} (hc : c.IsFrontier before) (hlinked : Linked before)
    (h : c.verifyBlocks blocks = .ok c')
    : c'.IsFrontier (before ++ blocks) ∧ Linked (before ++ blocks)
      ∧ ∀ b ∈ blocks, b.height < 2 ^ 32 := by
  induction blocks generalizing c before with
  | nil =>
    cases h
    simpa using ⟨hc, hlinked⟩
  | cons b bs ih =>
    rw [verifyBlocks] at h
    split at h
    . cases h
    . next hb =>
      obtain ⟨hlt, hc', hfollows⟩ := verifyBlock_ok hc hb
      have hlinked' : Linked (before ++ [b]) := by
        apply List.IsChain.append hlinked (List.isChain_singleton b)
        intro x hx y hy
        obtain rfl : b = y := by simpa using hy
        exact hfollows x hx
      obtain ⟨hfront, hchain, hall⟩ := ih hc' hlinked' h
      rw [List.append_assoc] at hfront hchain
      refine ⟨hfront, hchain, ?_⟩
      intro x hx
      rw [List.mem_cons] at hx
      rcases hx with rfl | hx
      . exact hlt
      . exact hall x hx

end Continuity

namespace Continuity

theorem verifyBlock_of_follows {c : Continuity} (hc : c.IsFrontier blocks) (hlt : b.height < 2 ^ 32)
    (h : ∀ a, blocks.getLast? = some a → Follows a b)
    : ∃ c', c.verifyBlock b = .ok c' ∧ c'.IsFrontier (blocks ++ [b]) := by
  obtain ⟨hhash, hheight⟩ := hc
  have hmis : verifyBlock.heightMismatch c b = none := by
    unfold verifyBlock.heightMismatch
    cases ha : blocks.getLast? with
    | none => simp [hheight, ha]
    | some a => simp [hheight, ha, (h a ha).1]
  have hprev : verifyBlock.hashMismatch c b = false := by
    unfold verifyBlock.hashMismatch
    cases ha : blocks.getLast? with
    | none => simp [hhash, ha]
    | some a =>
      have := (h a ha).2
      by_cases hempty : b.prevHash = []
      . simp [hhash, ha, hempty]
      . simp [hhash, ha, this hempty]
  refine ⟨{ lastHash := some b.hash, lastHeight := some b.height }, ?_, by simp [IsFrontier]⟩
  rw [verifyBlock, if_neg (Nat.not_le.mpr hlt), hmis]
  simp [hprev]

theorem verifyBlocks_of_linked {c : Continuity} (hc : c.IsFrontier before)
    (hlinked : Linked (before ++ blocks)) (hlt : ∀ b ∈ blocks, b.height < 2 ^ 32)
    : ∃ c', c.verifyBlocks blocks = .ok c' := by
  induction blocks generalizing c before with
  | nil => exact ⟨c, rfl⟩
  | cons b bs ih =>
    have hfollows : ∀ a, before.getLast? = some a → Follows a b :=
      fun a ha => (List.isChain_append.mp hlinked).2.2 a ha b rfl
    obtain ⟨c', hb, hc'⟩ := verifyBlock_of_follows hc (hlt b List.mem_cons_self) hfollows
    rw [List.append_cons] at hlinked
    obtain ⟨c'', hbs⟩ := ih hc' hlinked fun x hx => hlt x (List.mem_cons_of_mem _ hx)
    exact ⟨c'', by rw [verifyBlocks, hb]; exact hbs⟩

end Continuity

structure Fits (splitBytes : Nat) (blocks : List CompactBlock) (bytes : Nat) : Prop where
  weight : bytes = (blocks.map CompactBlock.encodedLen).sum
  within : bytes ≤ splitBytes ∨ blocks.length ≤ 1

namespace ChunkSplitter

structure Weighed (splitBytes : Nat) (sp : ChunkSplitter) : Prop where
  budget : sp.splitBytes = splitBytes
  fits : Fits splitBytes sp.acc sp.accBytes

variable {splitBytes : Nat} {sp : ChunkSplitter}

theorem new_weighed (splitBytes : Nat) : (new splitBytes).Weighed splitBytes :=
  ⟨rfl, ⟨rfl, Or.inl (Nat.zero_le _)⟩⟩

theorem push_weighed (h : sp.Weighed splitBytes) (hpush : sp.push b = (sp', out))
    : sp'.Weighed splitBytes
      ∧ ∀ blocks bytes, out = some (blocks, bytes) → Fits splitBytes blocks bytes := by
  unfold push at hpush
  split at hpush
  . cases hpush
    refine ⟨⟨h.budget, ⟨by simp, Or.inr (Nat.le_refl _)⟩⟩, ?_⟩
    rintro blocks bytes ⟨rfl⟩
    exact h.fits
  . next hroom =>
    cases hpush
    refine ⟨⟨h.budget, ⟨by simp [h.fits.weight], ?_⟩⟩, nofun⟩
    cases hacc : sp.acc with
    | nil => exact Or.inr (Nat.le_refl _)
    | cons x xs =>
      left
      simpa [hacc, h.budget] using hroom

theorem finish_fits (h : sp.Weighed splitBytes) (hfinish : sp.finish = some (blocks, bytes))
    : Fits splitBytes blocks bytes := by
  unfold finish at hfinish
  split at hfinish
  . cases hfinish
  . cases hfinish
    exact h.fits

end ChunkSplitter

namespace FetchPlan

variable (plan : FetchPlan)

theorem lt_chunkCount_iff (i : Nat)
    : i < plan.chunkCount ↔ i * plan.chunkBlocks < plan.stop - plan.start + 1 := by
  have hpos := plan.chunkBlocks_pos
  unfold chunkCount
  dsimp
  rw [Nat.lt_div_iff_mul_lt hpos]
  omega

theorem chunkRange_stop_iff (hi : i < plan.chunkCount)
    : (plan.chunkRange i).2 = plan.stop ↔ i + 1 = plan.chunkCount := by
  have hle := plan.start_le
  have hpos := plan.chunkBlocks_pos
  have hnext := plan.lt_chunkCount_iff (i + 1)
  rw [Nat.add_mul, Nat.one_mul] at hnext
  have hlt := (plan.lt_chunkCount_iff i).mp hi
  unfold chunkRange
  dsimp
  omega

theorem chunkCount_pos : 0 < plan.chunkCount := by
  rw [plan.lt_chunkCount_iff]
  omega

theorem chunkRange_start_le (hi : i < plan.chunkCount) : (plan.chunkRange i).1 ≤ plan.stop := by
  have hle := plan.start_le
  have hlt := (plan.lt_chunkCount_iff i).mp hi
  unfold chunkRange
  dsimp
  omega

def heights (plan : FetchPlan) (index : Nat) : List Nat :=
  List.range' (plan.chunkRange index).1
    ((plan.chunkRange index).2 + 1 - (plan.chunkRange index).1)

theorem length_heights (hi : i < plan.chunkCount)
    : (plan.heights i).length
      = min plan.chunkBlocks (plan.stop + 1 - plan.start - i * plan.chunkBlocks) := by
  have hpos := plan.chunkBlocks_pos
  have hlt := (plan.lt_chunkCount_iff i).mp hi
  have hle := plan.start_le
  simp only [heights, List.length_range', chunkRange]
  omega

theorem flatMap_heights (hn : n ≤ plan.chunkCount)
    : (List.range n).flatMap plan.heights
        =
      List.range' plan.start (min (n * plan.chunkBlocks) (plan.stop + 1 - plan.start)) := by
  induction n with
  | zero => simp
  | succ n ih =>
    have hlt := (plan.lt_chunkCount_iff n).mp hn
    have hle := plan.start_le
    rw [List.range_succ, List.flatMap_append, ih (Nat.le_of_succ_le hn), List.flatMap_singleton,
      Nat.min_eq_left (by omega)]
    have hsplit : min ((n + 1) * plan.chunkBlocks) (plan.stop + 1 - plan.start)
        = n * plan.chunkBlocks + (plan.heights n).length := by
      rw [plan.length_heights hn, Nat.add_mul, Nat.one_mul]
      omega
    rw [hsplit, ← List.range'_append_1]
    simp [heights, chunkRange]

theorem heights_tile
    : (List.range plan.chunkCount).flatMap plan.heights
        =
      List.range' plan.start (plan.stop + 1 - plan.start) := by
  have hpast := plan.lt_chunkCount_iff plan.chunkCount
  rw [plan.flatMap_heights (Nat.le_refl _), Nat.min_eq_right]
  have := plan.start_le
  omega

end FetchPlan
end Slipstream
