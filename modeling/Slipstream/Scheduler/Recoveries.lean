import Slipstream.Scheduler.Lemmas.Pass

/-!
This module contains the reorg recoveries of a pass: between two ranges that are done there are at
most five of them, each with a longer wait than the last, and nothing bounds how many a whole pass
makes.
-/

namespace Slipstream
namespace Scheduler

structure Recovery where
  at_ : Nat
  sleepMs : Nat
  deriving DecidableEq, Repr

structure Recoveries where
  done : List (List Recovery)
  now : List Recovery
  before : Nat
  deriving DecidableEq, Repr

namespace Recoveries

def streaks (r : Recoveries) : List (List Recovery) := r.done ++ [r.now]

def after (r : Recoveries) : PassPhase → PassPhase → Recoveries
  | .truncating _ at_, .sleeping sleepMs => { r with now := r.now ++ [{ at_, sleepMs }] }
  | .joining _ _, .enhancing _ => { r with done := r.done ++ [r.now], now := [] }
  | _, _ => r

theorem after_self (r : Recoveries) (phase : PassPhase) : r.after phase phase = r := by
  cases phase <;> rfl

theorem after_ended (r : Recoveries) (phase : PassPhase) : r.after phase (.ended result) = r := by
  cases phase <;> rfl

end Recoveries

def recoveryMachine : Machine (PassState × Recoveries) PassEvent :=
  passMachine.observed (fun s r => r = { done := [], now := [], before := s.reorgsRecovered })
    (fun s _ s' r => r.after s.phase s'.phase)

structure Paced (streak : List Recovery) : Prop where
  few : streak.length ≤ MAX_CONSECUTIVE_REORGS
  waits : streak.map Recovery.sleepMs = (List.range streak.length).map fun k => 500 * (k + 1)

namespace Paced

theorem nil : Paced [] := ⟨by decide, rfl⟩

theorem concat {streak : List Recovery} (h : Paced streak)
    (hfew : streak.length < MAX_CONSECUTIVE_REORGS) (at_ : Nat)
    : Paced (streak ++ [{ at_, sleepMs := reorgBackoffMs (streak.length + 1) }]) := by
  have hwait : reorgBackoffMs (streak.length + 1) = 500 * (streak.length + 1) := by
    unfold MAX_CONSECUTIVE_REORGS at hfew
    unfold reorgBackoffMs Progress.saturatingMul Progress.U64_MAX
    omega
  constructor
  case few =>
    rw [List.length_append, List.length_singleton]
    exact hfew
  case waits =>
    rw [List.map_append, h.waits, List.length_append, List.length_singleton, List.range_succ,
      List.map_append, hwait]
    rfl

theorem sum_le {streak : List Recovery} (h : Paced streak)
    : (streak.map Recovery.sleepMs).sum ≤ 7500 := by
  have hall : ∀ n ≤ MAX_CONSECUTIVE_REORGS,
      ((List.range n).map fun k => 500 * (k + 1)).sum ≤ 7500 := by decide
  rw [h.waits]
  exact hall _ h.few

end Paced

def Streak (s : PassState) (r : Recoveries) : Prop :=
  match s.phase with
  | .truncating _ _ =>
    s.consecutiveReorgs = r.now.length + 1 ∧ s.consecutiveReorgs ≤ MAX_CONSECUTIVE_REORGS
  | .ended result =>
    s.consecutiveReorgs ≤ MAX_CONSECUTIVE_REORGS
      ∨ (∃ at_, result = .error (.scanContinuity at_)) ∧ r.now.length = MAX_CONSECUTIVE_REORGS
  | _ => s.consecutiveReorgs = r.now.length

structure RecoveryInv (s : PassState) (r : Recoveries) : Prop where
  done : ∀ streak ∈ r.done, Paced streak
  now : Paced r.now
  report : s.report.reorgsRecovered = (r.streaks.map List.length).sum
  counter : s.reorgsRecovered = r.before + s.report.reorgsRecovered
  streak : Streak s r

namespace RecoveryInv

variable {s s' : PassState} {r : Recoveries}

theorem frame (h : RecoveryInv s r) (hreport : s'.report.reorgsRecovered = s.report.reorgsRecovered)
    (hcounter : s'.reorgsRecovered = s.reorgsRecovered) (hstreak : Streak s' r)
    : RecoveryInv s' r :=
  ⟨h.done, h.now, hreport.trans h.report, by rw [hcounter, hreport]; exact h.counter, hstreak⟩

theorem consecutive_le (h : RecoveryInv s r) (hgoing : ∀ result, s.phase ≠ .ended result)
    : s.consecutiveReorgs ≤ MAX_CONSECUTIVE_REORGS := by
  have hstreak := h.streak
  unfold Streak at hstreak
  split at hstreak
  . exact hstreak.2
  . next hphase => exact absurd hphase (hgoing _)
  . rw [hstreak]
    exact h.now.few

theorem stop (h : RecoveryInv s r) (hgoing : ∀ result, s.phase ≠ .ended result)
    (hreport : s'.report = s.report) (hcounter : s'.reorgsRecovered = s.reorgsRecovered)
    (hsame : s'.consecutiveReorgs = s.consecutiveReorgs) (hphase : s'.phase = .ended result)
    : RecoveryInv s' r := by
  apply h.frame (by rw [hreport]) hcounter
  simp only [Streak, hphase, hsame]
  exact Or.inl (h.consecutive_le hgoing)

theorem completed (h : RecoveryInv s r) (hphase : s.phase = .joining range (.ok scan))
    (hdone : s.complete range scan fetch = some s') : RecoveryInv s' (r.after s.phase s'.phase) := by
  obtain ⟨p, -, rfl⟩ := Option.map_eq_some_iff.mp hdone
  rw [hphase]
  constructor
  case done =>
    intro streak hmem
    rcases List.mem_append.mp hmem with hmem | hmem
    . exact h.done streak hmem
    . rw [List.mem_singleton.mp hmem]
      exact h.now
  case now => exact Paced.nil
  case report =>
    have := h.report
    simpa [Recoveries.after, Recoveries.streaks] using this
  case counter => exact h.counter
  case streak => exact rfl

theorem truncated (h : RecoveryInv s r) (hphase : s.phase = .truncating range at_)
    (hdone : s.truncateStep range at_ (.ok ()) = some s')
    : RecoveryInv s' (r.after s.phase s'.phase) := by
  have hstreak := h.streak
  simp only [Streak, hphase] at hstreak
  obtain ⟨hlength, hfew⟩ := hstreak
  obtain ⟨p, -, rfl⟩ := Option.map_eq_some_iff.mp hdone
  rw [hphase]
  constructor
  case done => exact h.done
  case now =>
    dsimp only [Recoveries.after]
    rw [hlength]
    exact h.now.concat (by omega) at_
  case report =>
    have := h.report
    simp only [Recoveries.streaks, List.map_append, List.sum_append] at this
    simp only [Recoveries.after, Recoveries.streaks, List.map_append, List.sum_append, this]
    simp [Nat.add_assoc]
  case counter =>
    have := h.counter
    dsimp only [Recoveries.after]
    omega
  case streak =>
    simp only [Streak, Recoveries.after, List.length_append, List.length_singleton]
    exact hlength

theorem step (h : RecoveryInv s r) (ht : PassTrans s e s')
    : RecoveryInv s' (r.after s.phase s'.phase) := by
  have hstreak := h.streak
  cases ht with
  | progress he hp =>
    rw [Recoveries.after_self]
    exact h.frame rfl rfl hstreak
  | fails hgoing =>
    rw [PassState.stop, Recoveries.after_ended]
    exact h.stop hgoing rfl rfl rfl rfl
  | drained hphase =>
    rw [PassState.stop, Recoveries.after_ended]
    exact h.stop (by simp [hphase]) rfl rfl rfl rfl
  | suggested hphase hp =>
    simp only [Streak, hphase] at hstreak
    rw [hphase]
    exact h.frame rfl rfl hstreak
  | began hphase hlt hround =>
    simp only [Streak, hphase] at hstreak
    rw [hphase]
    exact h.frame rfl rfl hstreak
  | scanned hphase =>
    simp only [Streak, hphase] at hstreak
    rw [hphase]
    exact h.frame rfl rfl hstreak
  | completed hphase hdone => exact h.completed hphase hdone
  | broke hphase hfew =>
    simp only [Streak, hphase] at hstreak
    rw [hphase]
    exact h.frame rfl rfl ⟨congrArg (· + 1) hstreak, hfew⟩
  | gaveUp hphase hmany =>
    simp only [Streak, hphase] at hstreak
    rw [PassState.stop, Recoveries.after_ended]
    have hnow := h.now.few
    exact h.frame rfl rfl (Or.inr ⟨⟨_, rfl⟩, by omega⟩)
  | truncated hphase hdone => exact h.truncated hphase hdone
  | slept hphase =>
    simp only [Streak, hphase] at hstreak
    rw [hphase]
    exact h.frame rfl rfl hstreak
  | enhanced hphase =>
    simp only [Streak, hphase] at hstreak
    rw [hphase]
    exact h.frame rfl rfl hstreak

end RecoveryInv

theorem recoveryInv_of_reachable {st : PassState × Recoveries} (h : recoveryMachine.Reachable st)
    : RecoveryInv st.1 st.2 := by
  apply h.invariant
  . rintro ⟨s, r⟩ ⟨⟨start, hs⟩, hr⟩
    dsimp only at hs hr
    subst hs hr
    exact ⟨nofun, Paced.nil, rfl, rfl, rfl⟩
  . rintro ⟨s, r⟩ e st' hinv - hstep
    obtain ⟨s', hs', rfl⟩ := Option.map_eq_some_iff.mp hstep
    exact hinv.step (trans_of_passStep hs')

theorem recoveries_paced (h : recoveryMachine.Reachable (s, r))
    : (∀ streak ∈ r.streaks, streak.length ≤ MAX_CONSECUTIVE_REORGS
        ∧ streak.map Recovery.sleepMs = (List.range streak.length).map (fun k => 500 * (k + 1))
        ∧ (streak.map Recovery.sleepMs).sum ≤ 7500)
      ∧ s.report.reorgsRecovered = (r.streaks.map List.length).sum
      ∧ s.reorgsRecovered = r.before + s.report.reorgsRecovered
      ∧ (MAX_CONSECUTIVE_REORGS < s.consecutiveReorgs →
          r.now.length = MAX_CONSECUTIVE_REORGS
          ∧ ∃ at_, s.phase = .ended (.error (.scanContinuity at_))) := by
  have hinv := recoveryInv_of_reachable h
  refine ⟨?_, hinv.report, hinv.counter, ?_⟩
  . intro streak hmem
    have hpaced : Paced streak := by
      rcases List.mem_append.mp hmem with hmem | hmem
      . exact hinv.done streak hmem
      . rw [List.mem_singleton.mp hmem]
        exact hinv.now
    exact ⟨hpaced.few, hpaced.waits, hpaced.sum_le⟩
  . intro hmany
    by_cases hgoing : ∀ result, s.phase ≠ .ended result
    . exact absurd (hinv.consecutive_le hgoing) (Nat.not_le_of_lt hmany)
    . simp only [not_forall, not_not] at hgoing
      obtain ⟨result, hphase⟩ := hgoing
      have hstreak := hinv.streak
      simp only [Streak, hphase] at hstreak
      obtain ⟨⟨at_, rfl⟩, hlength⟩ := hstreak.resolve_left (Nat.not_le_of_lt hmany)
      exact ⟨hlength, at_, hphase⟩

section Samples

def tipRange : ScanRange where
  start := 100
  endExclusive := 110
  priority := .chainTip
  end_lt := by decide

def lowRange : ScanRange where
  start := 91
  endExclusive := 100
  priority := .verify
  end_lt := by decide

def rangeWork (range : ScanRange) (scan : Except SlipstreamError ScanStats)
    (fetch : Except SlipstreamError FetchStats) : List PassEvent :=
  .suggested (.ok [range]) none :: List.replicate 4 (.progress .round)
    ++ [.begin, .scanned scan, .joined (.ok fetch)]

def tipFails : List PassEvent :=
  rangeWork tipRange (.error (.scanContinuity 100)) (.error .stopped)

/-- The first block of the tip range does not fit the one below: the truncation takes back the
    range under it, and the wallet suggests that one again. -/
def tipBreaks : List PassEvent :=
  tipFails ++ [.truncated (.ok ()), .slept]

def lowDone : List PassEvent :=
  rangeWork lowRange (.ok ⟨9, 0, 0, ⟨0, 0, 0, 0⟩⟩) (.ok ⟨9, 1000⟩)
    ++ [.enhanced (.ok ⟨0, 0, 0, 0⟩) none]

def freshHandle : PassStart where
  chainTip := 109
  floor := 0
  recovering := false
  rangesCompleted := 0
  reorgsRecovered := 0
  txSetVersion := 0
  txSig := none
  recoverUntil := none
  floor_le := by decide

def pingPong : List PassEvent :=
  tipBreaks ++ lowDone ++ (List.replicate 5 tipBreaks).flatten ++ tipFails

theorem recoveries_paced_pingPong
    : ∃ s r, recoveryMachine.Reachable (s, r) ∧ MAX_CONSECUTIVE_REORGS < s.consecutiveReorgs
      ∧ r.streaks.map List.length = [1, 5] ∧ r.now.length = MAX_CONSECUTIVE_REORGS
      ∧ s.report.reorgsRecovered = 6
      ∧ ∃ at_, s.phase = .ended (.error (.scanContinuity at_)) := by
  have hrun : ∃ s r, recoveryMachine.run (freshHandle.init, ⟨[], [], 0⟩) pingPong = some (s, r)
      ∧ MAX_CONSECUTIVE_REORGS < s.consecutiveReorgs ∧ r.streaks.map List.length = [1, 5] :=
    ⟨_, _, rfl, by decide, rfl⟩
  obtain ⟨s, r, hs, hmany, hlengths⟩ := hrun
  have hstart : recoveryMachine.start (freshHandle.init, ⟨[], [], 0⟩) := ⟨⟨freshHandle, rfl⟩, rfl⟩
  have hreach := Machine.reachable_of_run (.start hstart) hs
  obtain ⟨-, hreport, -, hends⟩ := recoveries_paced hreach
  obtain ⟨hnow, hphase⟩ := hends hmany
  rw [hlengths] at hreport
  exact ⟨s, r, hreach, hmany, hlengths, hnow, hreport, hphase⟩

end Samples

theorem breaks_then_done {s : PassState} (hphase : s.phase = .suggesting)
    (hround : s.progress.round = none) (hfirst : s.consecutiveReorgs = 0)
    : ∃ s', passMachine.run s (tipBreaks ++ lowDone) = some s'
      ∧ s'.phase = .suggesting ∧ s'.progress.round = none ∧ s'.consecutiveReorgs = 0
      ∧ s'.report.reorgsRecovered = s.report.reorgsRecovered + 1 := by
  obtain ⟨⟨blend, scanned, round, polls, rebaselines, reports⟩, recovering, spendable, rangeEnd,
    ranges, reorgs, txSet, recoverUntil, consecutive, report, phase⟩ := s
  cases hphase
  cases hround
  cases hfirst
  exact ⟨_, rfl, rfl, rfl, rfl, rfl⟩

theorem recoveries_unbounded (n : Nat)
    : ∃ s, passMachine.Reachable s ∧ s.phase = .suggesting ∧ s.report.reorgsRecovered = n := by
  -- The counter of recoveries in a row is back at zero whenever the loop comes round.
  have hall : ∃ s, passMachine.Reachable s ∧ s.phase = .suggesting ∧ s.progress.round = none
      ∧ s.consecutiveReorgs = 0 ∧ s.report.reorgsRecovered = n := by
    induction n with
    | zero =>
      have hrun : ∃ s, passMachine.run freshHandle.init lowDone = some s ∧ s.phase = .suggesting
          ∧ s.progress.round = none ∧ s.consecutiveReorgs = 0 ∧ s.report.reorgsRecovered = 0 :=
        ⟨_, rfl, rfl, rfl, rfl, rfl⟩
      obtain ⟨s, hrun, hs⟩ := hrun
      exact ⟨s, Machine.reachable_of_run (.start ⟨freshHandle, rfl⟩) hrun, hs⟩
    | succ n ih =>
      obtain ⟨s, hreach, hphase, hround, hfirst, hcount⟩ := ih
      obtain ⟨s', hrun, hphase', hround', hfirst', hcount'⟩ :=
        breaks_then_done hphase hround hfirst
      refine ⟨s', Machine.reachable_of_run hreach hrun, hphase', hround', hfirst', ?_⟩
      rw [hcount', hcount]
  obtain ⟨s, hreach, hphase, -, -, hcount⟩ := hall
  exact ⟨s, hreach, hphase, hcount⟩

end Scheduler
end Slipstream
