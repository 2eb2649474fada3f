import Slipstream.Graft.Lemmas.Buffer
import Slipstream.Graft.Lemmas.Sweep

/-!
This module contains the verification of the sweep's forecast: which range seeds first in a shard, and
that a seed there resumes nothing the sweep takes for stranded.
-/

namespace Slipstream

variable {H : Type}

section Seeders

def SeedsFirst (starts : List (Option Nat)) (shard start : Nat) : Prop :=
  ∃ before after, starts = before ++ some start :: after ∧ shardOf start = shard
    ∧ ∀ x ∈ before, ∃ other, x = some other ∧ shardOf other ≠ shard

theorem seedsFirst_cons_none (starts : List (Option Nat)) (shard start : Nat)
    : ¬SeedsFirst (none :: starts) shard start := by
  rintro ⟨before, after, heq, -, hbefore⟩
  cases before with
  | nil => cases heq
  | cons x before =>
    obtain ⟨other, rfl, -⟩ := hbefore x List.mem_cons_self
    cases heq

theorem seedsFirst_cons_some (starts : List (Option Nat)) (shard start position : Nat)
    : SeedsFirst (some position :: starts) shard start ↔
      if shardOf position = shard then start = position else SeedsFirst starts shard start := by
  constructor
  . rintro ⟨before, after, heq, hstart, hbefore⟩
    cases before with
    | nil =>
      cases heq
      rw [if_pos hstart]
    | cons x before =>
      cases heq
      obtain ⟨other, hother, hne⟩ := hbefore _ List.mem_cons_self
      cases hother
      rw [if_neg hne]
      exact ⟨before, after, rfl, hstart, fun x hx => hbefore x (List.mem_cons_of_mem _ hx)⟩
  . intro h
    split at h
    . next hshard =>
      subst h
      exact ⟨[], starts, rfl, hshard, by simp⟩
    . next hshard =>
      obtain ⟨before, after, rfl, hstart, hbefore⟩ := h
      refine ⟨some position :: before, after, rfl, hstart, ?_⟩
      intro x hx
      cases List.mem_cons.mp hx with
      | inl hx => exact ⟨position, hx, hshard⟩
      | inr hx => exact hbefore x hx

theorem firstSeeders.go_claimed {claimed : OrdMap Nat (Option Nat)} (unknown : Bool)
    (starts : List (Option Nat)) (h : claimed.get? shard = some start)
    : go claimed unknown starts shard = start := by
  induction starts generalizing claimed unknown with
  | nil => simp [go, h]
  | cons x starts ih =>
    cases x with
    | none =>
      rw [go]
      exact ih true h
    | some position =>
      rw [go]
      cases hposition : claimed.get? (shardOf position) with
      | some _ => exact ih unknown h
      | none =>
        have hne : shard ≠ shardOf position := by
          rintro rfl
          rw [hposition] at h
          cases h
        apply ih
        rw [OrdMap.get?_insert_of_ne _ _ hne, h]

theorem firstSeeders.go_iff {claimed : OrdMap Nat (Option Nat)} (unknown : Bool)
    (starts : List (Option Nat)) (h : claimed.get? shard = none) (start : Nat)
    : go claimed unknown starts shard = some start ↔
      unknown = false ∧ SeedsFirst starts shard start := by
  induction starts generalizing claimed unknown with
  | nil =>
    have hempty : ¬SeedsFirst [] shard start := by
      rintro ⟨before, after, heq, -⟩
      simp at heq
    simp [go, h, hempty]
  | cons x starts ih =>
    cases x with
    | none =>
      rw [go, ih true h]
      simp [seedsFirst_cons_none]
    | some position =>
      rw [go, seedsFirst_cons_some]
      by_cases hshard : shardOf position = shard
      . rw [hshard, h, if_pos rfl]
        dsimp only
        rw [go_claimed unknown starts (OrdMap.get?_insert_self _ _ _)]
        cases unknown <;> simp [eq_comm]
      . rw [if_neg hshard]
        cases claimed.get? (shardOf position) with
        | some _ => exact ih unknown h
        | none =>
          apply ih
          rw [OrdMap.get?_insert_of_ne _ _ (Ne.symm hshard), h]

theorem firstSeeders_eq_some_iff (starts : List (Option Nat)) (shard start : Nat)
    : firstSeeders starts shard = some start ↔ SeedsFirst starts shard start := by
  rw [firstSeeders, firstSeeders.go_iff false starts rfl start]
  simp

end Seeders

section Stranded

variable {positions : List Nat}

theorem mem_strandedRuns (positions : List Nat) (start : Nat) (run : Run)
    : run ∈ strandedRuns positions (some start) ↔
      run ∈ contiguousRuns positions ∧ ¬(1 ≤ start ∧ run.contains (start - 1) = true) := by
  rw [strandedRuns, List.mem_filter]
  by_cases hstart : 1 ≤ start
  . simp [hstart]
  . simp [hstart]

theorem strandedRuns_none (positions : List Nat)
    : strandedRuns positions none = contiguousRuns positions := by
  simp [strandedRuns]

theorem resumableRun_range [DecidableEq H] {rows : List (AccRow H)} {start : Nat}
    {leaf : Option (Nat × H)} (hr : r ∈ (resumableRun rows start leaf).1)
    : 1 ≤ start ∧ r.position ≤ start - 1
      ∧ ∀ q, r.position ≤ q → q ≤ start - 1 → q ∈ rows.map AccRow.position := by
  obtain ⟨⟨first, hrun, hlength⟩, hrows⟩ := resumableRun_spec rows start leaf
  have hlt := (hrows r hr).2
  have hfirst : first ≤ r.position := by
    have hmem := List.mem_map_of_mem (f := AccRow.position) hr
    rw [hrun] at hmem
    exact (List.mem_range'_1.mp hmem).1
  refine ⟨by omega, by omega, ?_⟩
  intro q hlo hhi
  have hmem : q ∈ (resumableRun rows start leaf).1.map AccRow.position := by
    rw [hrun, List.mem_range'_1]
    omega
  obtain ⟨row, hrow, rfl⟩ := List.mem_map.mp hmem
  exact List.mem_map_of_mem (hrows row hrow).1

end Stranded

/--
The forecast of the sweep agrees with the seeds of the ranges: what the first seeder of a shard may
resume is all that the sweep leaves, in one run that ends or goes through the position before its
start.
-/
theorem stranded_runs_forecast [DecidableEq H] (rows : List (AccRow H)) (positions : List Nat)
    (hrows : rows.map AccRow.position = positions) (hascending : positions.Pairwise (· < ·))
    (starts : List (Option Nat)) (shard : Nat)
    : ((∀ p ∈ positions, ∃! run, run ∈ contiguousRuns positions ∧ run.contains p = true)
        ∧ ∀ run ∈ contiguousRuns positions, run.first ≤ run.last
          ∧ (∀ p, run.contains p = true → p ∈ positions)
          ∧ run.last + 1 ∉ positions ∧ ∀ p, p + 1 = run.first → p ∉ positions)
      ∧ (∀ start, firstSeeders starts shard = some start ↔ SeedsFirst starts shard start)
      ∧ (∀ start, firstSeeders starts shard = some start →
          (∀ leaf, ∀ row ∈ (resumableRun rows start leaf).1,
            ∀ run ∈ strandedRuns positions (firstSeeders starts shard),
              run.contains row.position = false)
          ∧ ((∀ p ∈ positions, ∃ run ∈ strandedRuns positions (firstSeeders starts shard),
                run.contains p = true)
            ∨ ∃ left ∈ contiguousRuns positions, 1 ≤ start ∧ left.contains (start - 1) = true
                ∧ ∀ p ∈ positions, left.contains p = true ↔
                    ∀ run ∈ strandedRuns positions (firstSeeders starts shard),
                      run.contains p = false))
      ∧ (firstSeeders starts shard = none → ∀ p ∈ positions,
          ∃ run ∈ strandedRuns positions (firstSeeders starts shard), run.contains p = true) := by
  have hruns := contiguousRuns_runsOf hascending
  refine ⟨⟨?_, ?_⟩, firstSeeders_eq_some_iff starts shard, ?_, ?_⟩
  . intro p hp
    obtain ⟨run, hrun, hcontains⟩ := (hruns.mem p).mp hp
    refine ⟨run, ⟨hrun, hcontains⟩, ?_⟩
    rintro other ⟨hother, hcontains'⟩
    exact hruns.unique hother hrun hcontains' hcontains (by omega) (by omega)
  . intro run hrun
    exact ⟨hruns.proper run hrun, fun p hp => (hruns.mem p).mpr ⟨run, hrun, hp⟩,
      hruns.maximal hrun⟩
  . intro start hstart
    rw [hstart]
    constructor
    . intro leaf row hrow run hrun
      obtain ⟨hmem, hnot⟩ := (mem_strandedRuns positions start run).mp hrun
      obtain ⟨hpos, hle, hall⟩ := resumableRun_range hrow
      rw [hrows] at hall
      rw [Bool.eq_false_iff]
      intro hcontains
      obtain ⟨last, hlast, hbefore⟩ := (hruns.mem _).mp (hall _ hle (Nat.le_refl _))
      have hsame := hruns.contains_of_range hlast hbefore hall hle
      cases hruns.unique hmem hlast hcontains hsame (by omega) (by omega)
      exact hnot ⟨hpos, hbefore⟩
    . by_cases hleft : ∃ left ∈ contiguousRuns positions, 1 ≤ start ∧ left.contains (start - 1) = true
      . obtain ⟨left, hleft, hpos, hbefore⟩ := hleft
        refine .inr ⟨left, hleft, hpos, hbefore, ?_⟩
        intro p hp
        constructor
        . intro hcontains run hrun
          obtain ⟨hmem, hnot⟩ := (mem_strandedRuns positions start run).mp hrun
          rw [Bool.eq_false_iff]
          intro hcontains'
          cases hruns.unique hmem hleft hcontains' hcontains (by omega) (by omega)
          exact hnot ⟨hpos, hbefore⟩
        . intro hnone
          obtain ⟨run, hrun, hcontains⟩ := (hruns.mem p).mp hp
          -- Its run is not stranded, so it is the one the seed continues.
          have hkept : 1 ≤ start ∧ run.contains (start - 1) = true := by
            by_contra hnot
            have hstranded := (mem_strandedRuns positions start run).mpr ⟨hrun, hnot⟩
            rw [hnone run hstranded] at hcontains
            cases hcontains
          cases hruns.unique hrun hleft hkept.2 hbefore (by omega) (by omega)
          exact hcontains
      . refine .inl ?_
        intro p hp
        obtain ⟨run, hrun, hcontains⟩ := (hruns.mem p).mp hp
        refine ⟨run, (mem_strandedRuns positions start run).mpr ⟨hrun, ?_⟩, hcontains⟩
        rintro ⟨hpos, hbefore⟩
        exact hleft ⟨run, hrun, hpos, hbefore⟩
  . intro hnone p hp
    rw [hnone, strandedRuns_none]
    exact (hruns.mem p).mp hp

def twoRuns : List (AccRow Nat) := [3, 4, 5, 9].map fun p => ⟨p, p, .ephemeral⟩

theorem stranded_runs_forecast_twoRuns
    : firstSeeders [some 6, none] 0 = some 6
      ∧ (resumableRun twoRuns 6 (some (5, 5))).1.map AccRow.position = [3, 4, 5]
      ∧ ∀ row ∈ (resumableRun twoRuns 6 (some (5, 5))).1,
          ∀ run ∈ strandedRuns [3, 4, 5, 9] (firstSeeders [some 6, none] 0),
            run.contains row.position = false := by
  obtain ⟨-, -, hseeder, -⟩ := stranded_runs_forecast twoRuns [3, 4, 5, 9] rfl (by decide)
    [some 6, none] 0
  exact ⟨rfl, rfl, (hseeder 6 rfl).1 (some (5, 5))⟩

end Slipstream
