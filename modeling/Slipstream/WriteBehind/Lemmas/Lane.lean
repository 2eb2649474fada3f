import Slipstream.Persist.Lane

/-!
This module contains the lane under a caller that makes its calls one by one: such a lane is one of a
caller that had all its calls from the start.
-/

namespace Slipstream
namespace LaneSystem

variable {J : Type} {depth : Nat} {outcome : Nat → CommitOutcome} {made : List (LaneCall J)}
variable {s s' : LaneSystem J}

def withCalls (s : LaneSystem J) (calls : List (LaneCall J)) : LaneSystem J := { s with calls }

theorem spawn_withCalls (s : LaneSystem J) (calls : List (LaneCall J))
    : (s.withCalls calls).spawn = (s.spawn.1.withCalls calls, s.spawn.2) := by
  unfold spawn withCalls
  rcases s.lane.spawnNext with ⟨lane, e | _ | job⟩ <;> rfl

theorem goOn_withCalls (s : LaneSystem J) (calls : List (LaneCall J)) (call : LaneCall J)
    : (s.withCalls calls).goOn call = (s.goOn call).withCalls calls := by
  unfold goOn
  rw [spawn_withCalls]
  rcases s.spawn with ⟨t, e | _⟩ <;> rfl

theorem poll_withCalls (s : LaneSystem J) (calls : List (LaneCall J)) (call : LaneCall J)
    : (s.withCalls calls).poll call = (s.poll call).map (·.withCalls calls) := by
  unfold poll
  have hallowed : (s.withCalls calls).allowed call = s.allowed call := by
    cases call <;> rfl
  have htasks : (s.withCalls calls).tasks = s.tasks := rfl
  have hlane : (s.withCalls calls).lane = s.lane := rfl
  simp only [hallowed, htasks, hlane]
  by_cases hpending : s.lane.pendingCount ≤ s.allowed call
  . rw [if_pos hpending, if_pos hpending]
    rfl
  . rw [if_neg hpending, if_neg hpending]
    by_cases hflight : s.lane.inFlight = true
    . rw [if_pos hflight, if_pos hflight]
      rcases s.tasks.getLast? with _ | ⟨job, _ | ended⟩
      . rfl
      . rfl
      . rcases hawait : s.lane.awaitInFlight ended with ⟨lane, e | _⟩
        . simp only [hawait]
          rfl
        . simp only [hawait]
          exact congrArg some (goOn_withCalls { s with lane } calls call)
    . rw [if_neg hflight, if_neg hflight]
      exact congrArg some (goOn_withCalls s calls call)

def called (s : LaneSystem J) : LaneCall J → LaneSystem J
  | .submit span job => if s.failed then s else s.submit span job
  | .drain => { s with current := some .drain }

theorem step_call (outcome : Nat → CommitOutcome) (hcurrent : s.current = none) (c : LaneCall J)
    (calls : List (LaneCall J))
    : LaneSystem.step outcome (s.withCalls (c :: calls)) .call
      = some ((s.called c).withCalls calls) := by
  obtain ⟨lane, tasks, old, current, submitted, results⟩ := s
  cases hcurrent
  cases c with
  | drain => rfl
  | submit span job =>
    let s : LaneSystem J := ⟨lane, tasks, old, none, submitted, results⟩
    have hsubmit : (s.withCalls calls).submit span job = (s.submit span job).withCalls calls :=
      goOn_withCalls (s.push span job) calls (.submit span job)
    show some (if s.failed then s.withCalls calls else (s.withCalls calls).submit span job)
      = some ((if s.failed then s else s.submit span job).withCalls calls)
    rw [hsubmit]
    split <;> rfl

inductive Effect (s s' : LaneSystem J) : Prop where
  | waits (hcommitted : s'.committed = s.committed) (hresults : s'.results = s.results)
  | returned (call : LaneCall J) (result : Except SlipstreamError Unit)
      (hcommitted : s'.committed = s.committed) (hresults : s'.results = s.results ++ [(call, result)])
      (hcurrent : s'.current = none)

theorem Effect.committed (h : Effect s s') : s'.committed = s.committed := by
  cases h with
  | waits hcommitted => exact hcommitted
  | returned _ _ hcommitted => exact hcommitted

theorem Effect.failed (h : Effect s s') (hfailed : s.failed = false) (hfailed' : s'.failed = true)
    : s'.current = none ∧ ∃ call e, s'.results.getLast? = some (call, .error e) := by
  unfold LaneSystem.failed at hfailed hfailed'
  cases h with
  | waits _ hresults =>
    rw [hresults, hfailed] at hfailed'
    cases hfailed'
  | returned call result _ hresults hcurrent =>
    refine ⟨hcurrent, call, ?_⟩
    cases result with
    | error e => exact ⟨e, by rw [hresults, List.getLast?_concat]⟩
    | ok _ =>
      rw [hresults, List.any_append, hfailed] at hfailed'
      cases hfailed'

theorem goOn_effect (s : LaneSystem J) (call : LaneCall J) : Effect s (s.goOn call) := by
  unfold goOn spawn
  rcases s.lane.spawnNext with ⟨lane, e | _ | job⟩
  . exact .returned call (.error e) rfl rfl rfl
  . exact .waits rfl rfl
  . exact .waits (by simp [LaneSystem.committed]) rfl

theorem poll_effect (h : s.poll call = some s') : Effect s s' := by
  unfold poll at h
  split at h
  . cases h
    exact .returned call _ rfl rfl rfl
  . split at h
    . split at h
      . next job ended hlast =>
        rcases hawait : s.lane.awaitInFlight ended with ⟨lane, e | _⟩
        . simp only [hawait] at h
          cases h
          exact .returned call _ rfl rfl rfl
        . simp only [hawait] at h
          cases h
          cases goOn_effect { s with lane } call with
          | waits hcommitted hresults => exact .waits hcommitted hresults
          | returned c result hcommitted hresults hcurrent =>
            exact .returned c result hcommitted hresults hcurrent
      . cases h
    . cases h
      exact goOn_effect s call

theorem call_effect (outcome : Nat → CommitOutcome) {c : LaneCall J}
    (h : LaneSystem.step outcome { s with calls := [c] } .call = some s') : Effect s s' := by
  simp only [step] at h
  split at h
  . next span job calls hcurrent hcalls =>
    cases h
    split
    . exact .waits rfl rfl
    . cases goOn_effect (push { s with calls } span job) (.submit span job) with
      | waits hcommitted hresults => exact .waits hcommitted hresults
      | returned c result hcommitted hresults hcurrent =>
        exact .returned c result hcommitted hresults hcurrent
  . cases h
    exact .waits rfl rfl
  . cases h

theorem broken_effect (hout : outcome i ≠ .committed)
    (h : s.step outcome (.taskEnds i) = some s')
    : s'.committed = s.committed ∧ s'.results = s.results ∧ s'.current = s.current := by
  simp only [step] at h
  split at h
  . next job hi =>
    cases h
    obtain ⟨hlt, hget⟩ := List.getElem?_eq_some_iff.mp hi
    refine ⟨?_, rfl, rfl⟩
    simp only [LaneSystem.committed]
    rw [List.set_eq_take_append_cons_drop, if_pos hlt]
    conv_rhs => rw [← List.take_append_drop i s.tasks, List.drop_eq_getElem_cons hlt, hget]
    simp [List.filter_append, hout]
  . cases h

structure Run (depth : Nat) (outcome : Nat → CommitOutcome) (made : List (LaneCall J))
    (s : LaneSystem J) : Prop where
  calls : s.calls = []
  reach : ∀ future, (laneMachine depth outcome (made ++ future)).Reachable (s.withCalls future)

namespace Run

theorem opened (depth : Nat) (outcome : Nat → CommitOutcome)
    : Run depth outcome [] (.opened depth [] : LaneSystem J) :=
  ⟨rfl, fun _ => .start rfl⟩

theorem call {c : LaneCall J} (h : Run depth outcome made s)
    (hstep : LaneSystem.step outcome { s with calls := [c] } .call = some s')
    : Run depth outcome (made ++ [c]) s' := by
  cases hcurrent : s.current with
  | some _ => simp [step, hcurrent] at hstep
  | none =>
    have hcalled (future : List (LaneCall J)) := step_call outcome hcurrent c future
    have hs' : s' = (s.called c).withCalls [] := by
      have hnow := hcalled []
      rw [withCalls, hstep, Option.some.injEq] at hnow
      exact hnow
    refine ⟨by rw [hs']; rfl, fun future => ?_⟩
    have hreach := h.reach (c :: future)
    rw [show made ++ c :: future = made ++ [c] ++ future by simp] at hreach
    rw [hs']
    have hnext : (laneMachine depth outcome (made ++ [c] ++ future)).step
        (s.withCalls (c :: future)) .call = some (((s.called c).withCalls []).withCalls future) :=
      hcalled future
    exact .step hreach trivial hnext

theorem goes (h : Run depth outcome made s) (hcall : e ≠ .call) (hstep : s.step outcome e = some s')
    : Run depth outcome made s' := by
  have hboth : s'.calls = s.calls
      ∧ ∀ future, (s.withCalls future).step outcome e = some (s'.withCalls future) := by
    cases e with
    | call => exact absurd rfl hcall
    | poll =>
      obtain ⟨c, hcurrent, hpoll⟩ := Option.bind_eq_some_iff.mp hstep
      have hfuture (future : List (LaneCall J))
          : (s.withCalls future).step outcome .poll = some (s'.withCalls future) := by
        have hcurrent' : (s.withCalls future).current = some c := hcurrent
        simp only [step, hcurrent', Option.bind_some, poll_withCalls, hpoll, Option.map_some]
      have hsame : s.withCalls s.calls = s := rfl
      have hown := hfuture s.calls
      rw [hsame, hstep, Option.some.injEq] at hown
      exact ⟨by rw [hown]; rfl, hfuture⟩
    | taskEnds i =>
      simp only [step] at hstep
      split at hstep
      . next job hi =>
        cases hstep
        refine ⟨rfl, fun future => ?_⟩
        have hi' : (s.withCalls future).tasks[i]? = some (job, none) := hi
        simp only [step, hi']
        rfl
      . cases hstep
  exact ⟨hboth.1.trans h.calls, fun future => .step (h.reach future) trivial (hboth.2 future)⟩

theorem sound (h : Run depth outcome made s) : Sound depth outcome made s := by
  have hreach := h.reach []
  rw [List.append_nil] at hreach
  have hsame : s.withCalls [] = s := by
    rw [withCalls, ← h.calls]
  rw [hsame] at hreach
  exact sound_of_reachable hreach

theorem failed (h : Run depth outcome made s) (hout : ∀ i, outcome i = .committed)
    : s.failed = false := by
  rcases h.sound.mode with hm | hm | hm
  . exact hm.failed
  . exact hm.failed
  . obtain ⟨done, job, r, htasks, -, hr⟩ := hm.tasks
    have hget : s.tasks[done.length]? = some (job, some r) := by
      rw [htasks, List.getElem?_concat_length]
    exact absurd ((h.sound.outcomes _ _ _ hget).trans (hout _)) hr

theorem committed (h : Run depth outcome made s) (hfailed : s.failed = false)
    (hdrain : made.getLast? = some .drain) (hcurrent : s.current = none)
    : s.committed = jobs made := by
  obtain ⟨done, hfollows⟩ := h.sound.follows
  have hdone : made = done := by
    simpa [hcurrent, h.calls] using hfollows.split
  subst hdone
  obtain ⟨hflight, hqueue⟩ := (pendingCount_eq_zero _).mp (hfollows.drained hcurrent hdrain)
  have hidle := h.sound.idle hfailed hflight
  have hstarted : s.started = jobs made := by
    have hsubmitted := hfollows.submitted hfailed
    rw [h.sound.queued hfailed, hqueue, hcurrent] at hsubmitted
    simpa using hsubmitted
  have hall : s.tasks.filter (fun t => decide (t.2 = some .committed)) = s.tasks := by
    rw [List.filter_eq_self]
    intro t ht
    simpa using hidle.committed t ht
  rw [← hstarted, LaneSystem.committed, hall, started]

theorem committed_le (h : Run depth outcome made s) : s.committed <+: jobs made := by
  obtain ⟨done, rest, hsplit⟩ := h.sound.splits
  rw [(h.sound.committed_take hsplit).1]
  exact List.take_prefix _ _

theorem commits {job : J} (h : Run depth outcome made s) (htask : s.tasks[i]? = some (job, none))
    (hout : outcome i = .committed) (hstep : s.step outcome (.taskEnds i) = some s')
    : (jobs made).drop s.committed.length = job :: (jobs made).drop s'.committed.length := by
  obtain ⟨done, rest, hsplit⟩ := h.sound.splits
  obtain ⟨hi, hlast⟩ := hsplit.index htask (by simp)
  have hrest : rest = [(job, none)] := by
    have hget := htask
    rw [hsplit.tasks, hi, List.getElem?_append_right (Nat.le_refl _), Nat.sub_self] at hget
    have hlength := hsplit.length
    cases rest with
    | nil => cases hget
    | cons t more =>
      obtain rfl : more = [] := by simpa using hlength
      simpa using hget
  have hsnoc : s'.committed = s.committed ++ [job] := by
    simp only [LaneSystem.step, htask] at hstep
    cases hstep
    have hdone : done.filter (fun t => decide (t.2 = some .committed)) = done := by
      rw [List.filter_eq_self]
      intro t ht
      simpa using hsplit.prior t ht
    rw [hsplit.committed]
    simp only [LaneSystem.committed, hsplit.tasks, hrest, hi, List.set_append_right _ _ (Nat.le_refl _),
      Nat.sub_self, List.set_cons_zero, List.filter_append, hdone]
    simp [← hi, hout]
  obtain ⟨left, hleft⟩ := (h.goes (e := .taskEnds i) (by simp) hstep).committed_le
  rw [← hleft, hsnoc]
  simp

end Run

end LaneSystem
end Slipstream
