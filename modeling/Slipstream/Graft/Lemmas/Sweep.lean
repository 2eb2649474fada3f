import Slipstream.Data.Except
import Slipstream.Graft.Impl.Sweep
import Slipstream.Graft.Lemmas.Accumulator

/-!
This module contains what the sweep's first decisions get right: the runs of a shard's rows, and the
stretches that hold exactly the scanned blocks.
-/

namespace Slipstream

variable {H E : Type}

def Span.Mem (b : Nat) (span : Span) : Prop := span.start ≤ b ∧ b < span.stop

theorem rowsCoverRun_run {rows : List (AccRow H)} {run : Run} (h : rowsCoverRun rows run = true)
    : RunFrom run.first rows ∧ rows.length = run.last - run.first + 1 := by
  unfold rowsCoverRun at h
  simp only [Bool.and_eq_true, beq_iff_eq] at h
  obtain ⟨⟨hlength, hhead⟩, hcontiguous⟩ := h
  refine ⟨?_, hlength⟩
  have hrun : ∀ (rest : List (AccRow H)) (first : AccRow H),
      rowsCoverRun.contiguous (first :: rest) = true → RunFrom first.position (first :: rest) := by
    intro rest
    induction rest with
    | nil =>
      intro first _
      rfl
    | cons second rest ih =>
      intro first h
      simp only [rowsCoverRun.contiguous, Bool.and_eq_true, beq_iff_eq] at h
      have := ih second h.2
      unfold RunFrom at this ⊢
      rw [List.map_cons, this, ← h.1, ← List.range'_succ]
      rfl
  cases rows with
  | nil => cases hlength
  | cons first rest =>
    simp only [List.head?_cons, Option.any_some, beq_iff_eq] at hhead
    rw [← hhead]
    apply hrun rest first hcontiguous

section Runs

theorem Run.contains_iff (run : Run) (p : Nat)
    : run.contains p = true ↔ run.first ≤ p ∧ p ≤ run.last := by
  simp [Run.contains]

structure RunsOf (runs : List Run) (positions : List Nat) : Prop where
  apart : runs.Pairwise fun a b => a.last + 1 < b.first
  proper : ∀ run ∈ runs, run.first ≤ run.last
  mem : ∀ p, p ∈ positions ↔ ∃ run ∈ runs, run.contains p = true

theorem runsOf_concat {runs : List Run} {positions : List Nat}
    (hapart : runs.Pairwise fun a b => a.last + 1 < b.first)
    (hproper : ∀ a ∈ runs, a.first ≤ a.last) (hrun : run.first ≤ run.last)
    (hlast : ∀ a ∈ runs, a.last + 1 < run.first)
    (hmem : ∀ p, p ∈ positions ↔ (∃ a ∈ runs, a.contains p = true) ∨ run.contains p = true)
    : RunsOf (runs ++ [run]) positions where
  apart := by
    rw [List.pairwise_append]
    refine ⟨hapart, List.pairwise_singleton _ _, ?_⟩
    intro a ha b hb
    rw [List.mem_singleton.mp hb]
    exact hlast a ha
  proper a ha := by
    cases List.mem_append.mp ha with
    | inl ha => exact hproper a ha
    | inr ha =>
      rw [List.mem_singleton.mp ha]
      exact hrun
  mem p := by
    rw [hmem]
    simp [or_and_right, exists_or]

theorem contiguousRuns.extend_runsOf {runs : List Run} {positions : List Nat}
    (h : RunsOf runs positions) (hp : ∀ q ∈ positions, q < p)
    : RunsOf (contiguousRuns.extend runs p) (positions ++ [p]) := by
  have hlast : ∀ a ∈ runs, a.last < p := by
    intro a ha
    apply hp
    exact (h.mem a.last).mpr ⟨a, ha, (a.contains_iff _).mpr ⟨h.proper a ha, Nat.le_refl _⟩⟩
  have hnew : (∀ a ∈ runs, a.last + 1 < p) → RunsOf (runs ++ [⟨p, p⟩]) (positions ++ [p]) := by
    intro hapart
    apply runsOf_concat h.apart h.proper (Nat.le_refl _) hapart
    intro q
    rw [List.mem_append, h.mem, List.mem_singleton, Run.contains_iff]
    dsimp only
    apply or_congr_right
    omega
  rw [extend]
  rcases List.eq_nil_or_concat runs with rfl | ⟨rest, run, rfl⟩
  . exact hnew (by simp)
  . rw [List.concat_eq_append] at h hlast hnew ⊢
    rw [List.getLast?_concat]
    dsimp only
    obtain ⟨hrest, -, hapart⟩ := List.pairwise_append.mp h.apart
    have hrun := h.proper run (by simp)
    split
    . next hnext =>
      -- The last run grows by this position.
      rw [List.dropLast_concat]
      refine runsOf_concat hrest (fun a ha => h.proper a (List.mem_append_left _ ha)) ?_
        (fun a ha => hapart a ha run (List.mem_singleton_self _)) ?_
      . dsimp only
        omega
      . intro q
        rw [List.mem_append, h.mem, List.mem_singleton]
        simp only [List.mem_append, List.mem_singleton, or_and_right, exists_or, exists_eq_left,
          or_assoc]
        apply or_congr_right
        rw [Run.contains_iff, Run.contains_iff]
        dsimp only
        omega
    . next hnext =>
      apply hnew
      intro a ha
      have hlt := hlast run (by simp)
      cases List.mem_append.mp ha with
      | inl ha =>
        have := hapart a ha run (List.mem_singleton_self _)
        omega
      | inr ha =>
        rw [List.mem_singleton.mp ha]
        omega

theorem contiguousRuns_runsOf {positions : List Nat} (h : positions.Pairwise (· < ·))
    : RunsOf (contiguousRuns positions) positions := by
  induction positions using List.reverseRecOn with
  | nil => exact ⟨.nil, by simp [contiguousRuns], by simp [contiguousRuns]⟩
  | append_singleton ps p ih =>
    obtain ⟨hps, -, hlt⟩ := List.pairwise_append.mp h
    rw [contiguousRuns, List.foldl_append]
    apply contiguousRuns.extend_runsOf (ih hps)
    intro q hq
    exact hlt q hq p (List.mem_singleton_self _)

theorem contiguousRuns_ascending {positions : List Nat} (h : positions.Pairwise (· < ·))
    : (contiguousRuns positions).Pairwise fun a b => a.last < b.first := by
  apply (contiguousRuns_runsOf h).apart.imp
  intro a b hlt
  omega

theorem pairwise_cases {α : Type} {R : α → α → Prop} {l : List α} {a b : α} (h : l.Pairwise R)
    (ha : a ∈ l) (hb : b ∈ l) : a = b ∨ R a b ∨ R b a := by
  induction h with
  | nil => cases ha
  | cons hfirst _ ih =>
    cases List.mem_cons.mp ha with
    | inl ha =>
      cases List.mem_cons.mp hb with
      | inl hb => exact .inl (ha.trans hb.symm)
      | inr hb => exact .inr (.inl (ha ▸ hfirst b hb))
    | inr ha =>
      cases List.mem_cons.mp hb with
      | inl hb => exact .inr (.inr (hb ▸ hfirst a ha))
      | inr hb => exact ih ha hb

theorem RunsOf.unique {runs : List Run} {positions : List Nat} (h : RunsOf runs positions)
    (ha : a ∈ runs) (hb : b ∈ runs) (hap : a.contains p = true) (hbq : b.contains q = true)
    (hpq : p ≤ q + 1) (hqp : q ≤ p + 1) : a = b := by
  rw [Run.contains_iff] at hap hbq
  rcases pairwise_cases h.apart ha hb with heq | hlt | hlt
  . exact heq
  . omega
  . omega

theorem RunsOf.maximal {runs : List Run} {positions : List Nat} (h : RunsOf runs positions)
    (hrun : run ∈ runs) : run.last + 1 ∉ positions ∧ ∀ p, p + 1 = run.first → p ∉ positions := by
  have hproper := h.proper run hrun
  constructor
  . intro hmem
    obtain ⟨next, hnext, hcontains⟩ := (h.mem _).mp hmem
    have hlast := (run.contains_iff run.last).mpr ⟨hproper, Nat.le_refl _⟩
    cases h.unique hrun hnext hlast hcontains (by omega) (by omega)
    rw [Run.contains_iff] at hcontains
    omega
  . intro p hp hmem
    obtain ⟨before, hbefore, hcontains⟩ := (h.mem _).mp hmem
    have hfirst := (run.contains_iff run.first).mpr ⟨Nat.le_refl _, hproper⟩
    cases h.unique hrun hbefore hfirst hcontains (by omega) (by omega)
    rw [Run.contains_iff] at hcontains
    omega

theorem RunsOf.contains_of_range {runs : List Run} {positions : List Nat} (h : RunsOf runs positions)
    (hrun : run ∈ runs) (hlast : run.contains last = true)
    (hall : ∀ q, p ≤ q → q ≤ last → q ∈ positions) (hle : p ≤ last) : run.contains p = true := by
  induction hle using Nat.decreasingInduction with
  | self => exact hlast
  | of_succ q hq ih =>
    have hnext := ih fun k hk => hall k (by omega)
    obtain ⟨before, hbefore, hcontains⟩ := (h.mem q).mp (hall q (Nat.le_refl _) (by omega))
    rwa [h.unique hrun hbefore hnext hcontains (by omega) (by omega)]

end Runs

section Stretches

theorem scannedStretches.go_cover {pending : List Span} (hlo : next ≤ b) (hhi : b < stop)
    (hpending : ∀ range ∈ pending, ¬range.Mem b)
    : ∃ s ∈ scannedStretches.go stop next pending, s.Mem b := by
  induction pending generalizing next with
  | nil =>
    rw [go, if_pos (by omega)]
    exact ⟨_, List.mem_singleton_self _, hlo, hhi⟩
  | cons range rest ih =>
    have hrange := hpending range List.mem_cons_self
    unfold Span.Mem at hrange
    rw [go]
    by_cases hbelow : b < range.start
    . have hmem : (⟨next, min range.start stop⟩ : Span) ∈ [(⟨next, min range.start stop⟩ : Span)] :=
        List.mem_singleton_self _
      refine ⟨⟨next, min range.start stop⟩, ?_, hlo, by simp only; omega⟩
      rw [if_pos (show next < range.start by omega)]
      split
      . exact hmem
      . exact List.mem_append_left _ hmem
    . have hpast : max next range.stop ≤ b := by omega
      obtain ⟨s, hs, hmem⟩ := ih hpast fun r hr => hpending r (List.mem_cons_of_mem _ hr)
      refine ⟨s, ?_, hmem⟩
      rw [if_neg (show ¬stop ≤ max next range.stop by omega)]
      exact List.mem_append_right _ hs

theorem scannedStretches_cover {pending : List Span} (hlo : floor ≤ b) (hhi : b < stop)
    (hpending : ∀ range ∈ pending, ¬range.Mem b)
    : ∃ s ∈ scannedStretches pending floor stop, s.Mem b := by
  have hsorted : ∀ range ∈ pending.insertionSort (·.start ≤ ·.start), ¬range.Mem b := by
    intro range hrange
    apply hpending
    exact (List.perm_insertionSort _ _).mem_iff.mp hrange
  obtain ⟨s, hs, hmem⟩ := scannedStretches.go_cover hlo hhi hsorted
  refine ⟨s, List.mem_filter.mpr ⟨hs, ?_⟩, hmem⟩
  unfold Span.Mem at hmem
  simp only [decide_eq_true_eq]
  omega

theorem scannedStretches.go_start {pending : List Span} (hs : s ∈ scannedStretches.go stop next pending)
    : next ≤ s.start := by
  induction pending generalizing next with
  | nil =>
    rw [go] at hs
    split at hs
    . cases List.mem_singleton.mp hs
      exact Nat.le_refl _
    . cases hs
  | cons range rest ih =>
    have hbelow : s ∈ (if next < range.start then [⟨next, min range.start stop⟩] else []) →
        next ≤ s.start := by
      intro hs
      split at hs
      . cases List.mem_singleton.mp hs
        exact Nat.le_refl _
      . cases hs
    rw [go] at hs
    split at hs
    . exact hbelow hs
    . cases List.mem_append.mp hs with
      | inl hs => exact hbelow hs
      | inr hs =>
        have := ih hs
        omega

theorem scannedStretches.go_ascending {pending : List Span}
    (hpending : ∀ range ∈ pending, range.start ≤ range.stop)
    : (scannedStretches.go stop next pending).Pairwise fun a b => a.stop ≤ b.start := by
  induction pending generalizing next with
  | nil =>
    rw [go]
    split <;> simp
  | cons range rest ih =>
    have hrange := hpending range List.mem_cons_self
    rw [go]
    have hbelow : ∀ s ∈ (if next < range.start then [(⟨next, min range.start stop⟩ : Span)] else []),
        s.stop ≤ max next range.stop := by
      intro s hs
      split at hs
      . cases List.mem_singleton.mp hs
        dsimp only
        omega
      . cases hs
    have hsingle : (if next < range.start then [(⟨next, min range.start stop⟩ : Span)] else []).Pairwise
        fun a b => a.stop ≤ b.start := by
      split <;> simp
    split
    . exact hsingle
    . rw [List.pairwise_append]
      refine ⟨hsingle, ih fun r hr => hpending r (List.mem_cons_of_mem _ hr), ?_⟩
      intro a ha b hb
      have := hbelow a ha
      have := scannedStretches.go_start hb
      omega

theorem scannedStretches_ascending {pending : List Span}
    (hpending : ∀ range ∈ pending, range.start ≤ range.stop) (floor stop : Nat)
    : (scannedStretches pending floor stop).Pairwise (fun a b => a.stop ≤ b.start)
      ∧ ∀ s ∈ scannedStretches pending floor stop, s.start < s.stop := by
  constructor
  . apply List.Pairwise.filter
    apply scannedStretches.go_ascending
    intro range hrange
    apply hpending
    exact (List.perm_insertionSort _ _).mem_iff.mp hrange
  . intro s hs
    simpa using (List.mem_filter.mp hs).2

theorem scannedStretches.go_mem {pending : List Span}
    (hsorted : pending.Pairwise fun a b => a.start ≤ b.start)
    (hs : s ∈ scannedStretches.go stop next pending) (hb : s.Mem b)
    : next ≤ b ∧ b < stop ∧ ∀ range ∈ pending, ¬range.Mem b := by
  have hstart := go_start hs
  refine ⟨Nat.le_trans hstart hb.1, ?_⟩
  induction pending generalizing next with
  | nil =>
    rw [go] at hs
    split at hs
    . cases List.mem_singleton.mp hs
      exact ⟨hb.2, by simp⟩
    . cases hs
  | cons range rest ih =>
    obtain ⟨hfirst, hrest⟩ := List.pairwise_cons.mp hsorted
    have hbelow : s ∈ (if next < range.start then [(⟨next, min range.start stop⟩ : Span)] else []) →
        b < stop ∧ ∀ r ∈ range :: rest, ¬r.Mem b := by
      intro hs
      split at hs
      . cases List.mem_singleton.mp hs
        have hstop := hb.2
        simp only [lt_inf_iff] at hstop
        refine ⟨hstop.2, fun r hr hmem => ?_⟩
        have := hmem.1
        cases List.mem_cons.mp hr with
        | inl hr =>
          cases hr
          omega
        | inr hr =>
          have := hfirst r hr
          omega
      . cases hs
    rw [go] at hs
    split at hs
    . exact hbelow hs
    . cases List.mem_append.mp hs with
      | inl hs => exact hbelow hs
      | inr hs =>
        have habove := go_start hs
        obtain ⟨hstop, hmem⟩ := ih hrest hs habove
        refine ⟨hstop, fun r hr => ?_⟩
        cases List.mem_cons.mp hr with
        | inl hr =>
          cases hr
          rintro ⟨-, hlt⟩
          have := hb.1
          omega
        | inr hr => apply hmem r hr

theorem scannedStretches_mem {pending : List Span} (hs : s ∈ scannedStretches pending floor stop)
    (hb : s.Mem b) : floor ≤ b ∧ b < stop ∧ ∀ range ∈ pending, ¬range.Mem b := by
  obtain ⟨hlo, hhi, hpending⟩ := scannedStretches.go_mem
    (List.pairwise_insertionSort (·.start ≤ ·.start) pending) (List.mem_filter.mp hs).1 hb
  refine ⟨hlo, hhi, fun range hrange => ?_⟩
  apply hpending
  exact (List.perm_insertionSort _ _).mem_iff.mpr hrange

end Stretches

end Slipstream
