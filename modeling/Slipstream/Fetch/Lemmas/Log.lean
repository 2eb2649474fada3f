import Slipstream.Fetch.Lemmas.Stream
import Slipstream.Fetch.Lemmas.Worker
import Mathlib.Logic.Function.Basic

/-!
This module contains the log of everything each plan chunk's worker has handed over, and how a cursor
says where its plan chunk stands in the log.
-/

namespace Slipstream
namespace Fetch

abbrev Log := Nat → List SubChunk

def blocksOf (subs : List SubChunk) : List CompactBlock := subs.flatMap SubChunk.blocks

def releasedOf (log : Log) (next : Nat × Nat) : List CompactBlock :=
  ((List.range next.1).flatMap fun k => blocksOf (log k)) ++ blocksOf ((log next.1).take next.2)

def resumePoint (plan : FetchPlan) (i : Nat) (subs : List SubChunk) : Nat :=
  match (blocksOf subs).getLast? with
  | some b => (b.height + 1) % 2 ^ 64
  | none => (plan.chunkRange i).1

def expectedHeight (cursor : PlanChunkCursor) (sp : ChunkSplitter) : Nat :=
  match sp.lastHeight with
  | some h => h + 1
  | none => cursor.resumeFrom

structure StreamSpec where
  good : Nat → List CompactBlock → Prop
  nil : ∀ i, good i []
  shorten : ∀ {i blocks blocks'}, good i blocks → blocks' <+: blocks → good i blocks'

structure LogInv (plan : FetchPlan) (log : Log) : Prop where
  key : ∀ {i j : Nat} {sub : SubChunk}, (log i)[j]? = some sub → sub.planIndex = i ∧ sub.subIndex = j
  nonempty : ∀ {i j : Nat} {sub : SubChunk}, (log i)[j]? = some sub → sub.blocks ≠ []
  bounded : ∀ {i}, log i ≠ [] → i < plan.chunkCount
  last : ∀ {i j : Nat} {sub : SubChunk}, (log i)[j]? = some sub → sub.isLast = true →
    j + 1 = (log i).length
      ∧ sub.blocks.getLast?.map CompactBlock.height = some (plan.chunkRange i).2

structure OwnsChunk (plan : FetchPlan) (log : Log) (next : Nat) (c : PlanChunkCursor) : Prop where
  claimed : c.planIndex < next
  inPlan : c.planIndex < plan.chunkCount
  stop : c.stop = (plan.chunkRange c.planIndex).2
  nextSubIndex : c.nextSubIndex = (log c.planIndex).length
  unfinished : ∀ sub ∈ log c.planIndex, sub.isLast = false
  resumeFrom : c.resumeFrom = resumePoint plan c.planIndex (log c.planIndex)

variable {plan : FetchPlan} {log : Log} {i j : Nat} {sub x : SubChunk}

theorem LogInv.lt_length (h : (log i)[j]? = some sub) : j < (log i).length :=
  (List.getElem?_eq_some_iff.mp h).1

theorem blocksOf_append (xs ys : List SubChunk) : blocksOf (xs ++ ys) = blocksOf xs ++ blocksOf ys := by
  simp [blocksOf]

def extend (log : Log) (sub : SubChunk) : Log :=
  Function.update log sub.planIndex (log sub.planIndex ++ [sub])

theorem extend_same (log : Log) (sub : SubChunk)
    : extend log sub sub.planIndex = log sub.planIndex ++ [sub] := by
  simp [extend]

theorem extend_other (log : Log) (h : i ≠ sub.planIndex) : extend log sub i = log i := by
  simp [extend, h]

theorem extend_getElem? (h : (log i)[j]? = some x) : (extend log sub i)[j]? = some x := by
  by_cases hi : i = sub.planIndex
  . subst hi
    rw [extend_same, List.getElem?_append_left (LogInv.lt_length h)]
    exact h
  . rw [extend_other log hi]
    exact h

theorem extend_getElem?_cases (h : (extend log sub i)[j]? = some x)
    : (log i)[j]? = some x ∨ (i = sub.planIndex ∧ j = (log i).length ∧ x = sub) := by
  by_cases hi : i = sub.planIndex
  . subst hi
    rw [extend_same, List.getElem?_append] at h
    split at h
    . exact Or.inl h
    . next hlt =>
      have hj : j = (log sub.planIndex).length := by
        have := (List.getElem?_eq_some_iff.mp h).1
        rw [List.length_singleton] at this
        omega
      subst hj
      right
      simpa using h.symm
  . rw [extend_other log hi] at h
    exact Or.inl h

theorem LogInv.extend (h : LogInv plan log) (hindex : sub.subIndex = (log sub.planIndex).length)
    (hne : sub.blocks ≠ []) (hplan : sub.planIndex < plan.chunkCount)
    (hopen : ∀ x ∈ log sub.planIndex, x.isLast = false)
    (hlast : sub.isLast = true →
      sub.blocks.getLast?.map CompactBlock.height = some (plan.chunkRange sub.planIndex).2)
    : LogInv plan (Fetch.extend log sub) := by
  constructor
  case key =>
    intro i j x hx
    rcases extend_getElem?_cases hx with hx | ⟨rfl, rfl, rfl⟩
    . exact h.key hx
    . exact ⟨rfl, hindex⟩
  case nonempty =>
    intro i j x hx
    rcases extend_getElem?_cases hx with hx | ⟨rfl, rfl, rfl⟩
    . exact h.nonempty hx
    . exact hne
  case bounded =>
    intro i hi
    by_cases heq : i = sub.planIndex
    . exact heq ▸ hplan
    . rw [extend_other log heq] at hi
      exact h.bounded hi
  case last =>
    intro i j x hx hl
    rcases extend_getElem?_cases hx with hx | ⟨rfl, rfl, rfl⟩
    . by_cases heq : i = sub.planIndex
      . subst heq
        have := hopen x (List.mem_of_getElem? hx)
        rw [hl] at this
        cases this
      . rw [extend_other log heq]
        exact h.last hx hl
    . rw [extend_same]
      exact ⟨by simp, hlast hl⟩

theorem blocksOf_eq_nil (hlog : LogInv plan log) (h : blocksOf (log i) = []) : log i = [] := by
  cases hsubs : log i with
  | nil => rfl
  | cons x xs =>
    have hne : x.blocks ≠ [] := hlog.nonempty (i := i) (j := 0) (by rw [hsubs]; rfl)
    rw [hsubs] at h
    simp [blocksOf, hne] at h

theorem OwnsChunk.samePlace (h : OwnsChunk plan log next c) (hsame : Worker.SamePlace c c')
    : OwnsChunk plan log next c' := by
  constructor
  case claimed => rw [hsame.planIndex]; exact h.claimed
  case inPlan => rw [hsame.planIndex]; exact h.inPlan
  case stop => rw [hsame.planIndex, hsame.stop]; exact h.stop
  case nextSubIndex => rw [hsame.planIndex, hsame.nextSubIndex]; exact h.nextSubIndex
  case unfinished => rw [hsame.planIndex]; exact h.unfinished
  case resumeFrom => rw [hsame.planIndex, hsame.resumeFrom]; exact h.resumeFrom

theorem OwnsChunk.extend_other (h : OwnsChunk plan log next c) (hne : c.planIndex ≠ sub.planIndex)
    : OwnsChunk plan (extend log sub) next c := by
  have hsame := Fetch.extend_other log hne
  constructor
  case claimed => exact h.claimed
  case inPlan => exact h.inPlan
  case stop => exact h.stop
  case nextSubIndex => rw [hsame]; exact h.nextSubIndex
  case unfinished => rw [hsame]; exact h.unfinished
  case resumeFrom => rw [hsame]; exact h.resumeFrom

theorem OwnsChunk.advance (h : OwnsChunk plan log next c) (hplan : sub.planIndex = c.planIndex)
    (hne : sub.blocks ≠ []) (hlast : sub.isLast = false)
    : OwnsChunk plan (extend log sub) next (Worker.advance c sub) := by
  have hlog : extend log sub c.planIndex = log c.planIndex ++ [sub] := by
    rw [← hplan, extend_same]
  constructor
  case claimed => exact h.claimed
  case inPlan => exact h.inPlan
  case stop => exact h.stop
  case nextSubIndex =>
    simp only [Worker.advance, hlog, List.length_append, List.length_singleton]
    rw [h.nextSubIndex]
  case unfinished =>
    simp only [Worker.advance, hlog, List.mem_append, List.mem_singleton]
    rintro x (hx | rfl)
    . exact h.unfinished x hx
    . exact hlast
  case resumeFrom =>
    have hb := List.getLast?_eq_some_getLast hne
    simp [Worker.advance, hlog, resumePoint, blocksOf, List.getLast?_append, hb]

end Fetch
end Slipstream
