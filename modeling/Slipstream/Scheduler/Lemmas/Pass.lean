import Slipstream.Scheduler.Impl.Pass

/-!
This module contains what one step of a pass can do, with the conditions under which it does it.
-/

namespace Slipstream
namespace Scheduler

def foreign : Progress.PassEvent → Bool
  | .credit _ => false
  | .suggest _ _ => false
  | _ => true

inductive PassTrans (s : PassState) : PassEvent → PassState → Prop where
  | progress (he : foreign e = true) (hp : s.progress.step e = some p)
    : PassTrans s (.progress e) { s with progress := p }
  | fails (hphase : ∀ result, s.phase ≠ .ended result) : PassTrans s e (s.stop (.error error))
  | drained (hphase : s.phase = .suggesting)
    : PassTrans s (.suggested (.ok []) walletBirthday)
        ({ s with recovering := PassState.isRecovering s.recoverUntil [] }.stop (.ok s.report))
  | suggested (hphase : s.phase = .suggesting)
      (hp : s.progress.step (.suggest (PassState.sumRemaining (range :: ranges)) walletBirthday)
        = some p)
    : PassTrans s (.suggested (.ok (range :: ranges)) walletBirthday) {
        s with
        progress := p
        recovering := PassState.isRecovering s.recoverUntil (range :: ranges)
        phase := .publishing range
      }
  | began (hphase : s.phase = .publishing range) (hlt : range.start < range.endExclusive)
      (hround : s.progress.round = none)
    : PassTrans s .begin
        { s with currentRangeEnd := range.endExclusive - 1, phase := .scanning range }
  | scanned (hphase : s.phase = .scanning range)
    : PassTrans s (.scanned result) { s with phase := .joining range result }
  | completed (hphase : s.phase = .joining range (.ok scan))
      (hdone : s.complete range scan fetch = some s')
    : PassTrans s (.joined (.ok (.ok fetch))) s'
  | broke (hphase : s.phase = .joining range (.error (.scanContinuity at_)))
      (hfew : s.consecutiveReorgs < MAX_CONSECUTIVE_REORGS)
    : PassTrans s (.joined (.ok fetch))
        { s with consecutiveReorgs := s.consecutiveReorgs + 1, phase := .truncating range at_ }
  | gaveUp (hphase : s.phase = .joining range (.error (.scanContinuity at_)))
      (hmany : MAX_CONSECUTIVE_REORGS ≤ s.consecutiveReorgs)
    : PassTrans s (.joined (.ok fetch))
        ({ s with consecutiveReorgs := s.consecutiveReorgs + 1 }.stop (.error (.scanContinuity at_)))
  | truncated (hphase : s.phase = .truncating range at_)
      (hdone : s.truncateStep range at_ (.ok ()) = some s')
    : PassTrans s (.truncated (.ok ())) s'
  | slept (hphase : s.phase = .sleeping ms) : PassTrans s .slept { s with phase := .suggesting }
  | enhanced (hphase : s.phase = .enhancing range)
    : PassTrans s (.enhanced result sig) (s.enhanceStep result sig)

variable {s s' : PassState}

theorem trans_of_suggest (hphase : s.phase = .suggesting)
    (h : s.suggestStep answer walletBirthday = some s')
    : PassTrans s (.suggested answer walletBirthday) s' := by
  unfold PassState.suggestStep at h
  split at h
  . cases h
    exact .fails (by simp [hphase])
  . dsimp only at h
    split at h
    . cases h
      exact .drained hphase
    . obtain ⟨p, hp, rfl⟩ := Option.map_eq_some_iff.mp h
      exact .suggested hphase hp

theorem trans_of_join (hphase : s.phase = .joining range scan)
    (h : s.joinStep range scan result = some s') : PassTrans s (.joined result) s' := by
  have hgoing : ∀ result, s.phase ≠ .ended result := by simp [hphase]
  unfold PassState.joinStep at h
  split at h
  . cases h
    exact .fails hgoing
  . split at h
    . next at_ _ =>
      dsimp only at h
      split at h
      . next hmany =>
        cases h
        exact .gaveUp hphase (Nat.le_of_lt_succ hmany)
      . next hfew =>
        cases h
        exact .broke hphase (Nat.lt_of_succ_le (Nat.le_of_not_lt hfew))
    . cases h
      exact .fails hgoing
    . cases h
      exact .fails hgoing
    . exact .completed hphase h

theorem trans_of_truncate (hphase : s.phase = .truncating range at_)
    (h : s.truncateStep range at_ result = some s') : PassTrans s (.truncated result) s' := by
  cases result with
  | error e =>
    cases h
    exact .fails (by simp [hphase])
  | ok => exact .truncated hphase h

theorem trans_of_progress (h : s.progressStep e = some s') : PassTrans s (.progress e) s' := by
  unfold PassState.progressStep at h
  split at h
  . cases h
  . cases h
  . next hcredit hsuggest =>
    obtain ⟨p, hp, rfl⟩ := Option.map_eq_some_iff.mp h
    refine .progress ?_ hp
    unfold foreign
    split
    . exact absurd rfl (hcredit _)
    . exact absurd rfl (hsuggest _ _)
    . rfl

theorem trans_of_passStep (h : s.step e = some s') : PassTrans s e s' := by
  unfold PassState.step at h
  split at h
  . exact trans_of_progress h
  . next hphase => exact trans_of_suggest hphase h
  . next range hphase =>
    split at h
    . cases h
    . next hround =>
      cases h
      unfold PassState.beginStep
      split
      . exact .fails (by simp [hphase])
      . next hlt => exact .began hphase (Nat.lt_of_not_le hlt) (by simpa using hround)
  . next hphase =>
    cases h
    exact .scanned hphase
  . next hphase => exact trans_of_join hphase h
  . next hphase => exact trans_of_truncate hphase h
  . next hphase =>
    cases h
    exact .slept hphase
  . next hphase =>
    cases h
    exact .enhanced hphase
  . cases h

end Scheduler
end Slipstream
