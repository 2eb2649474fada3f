import Slipstream.Persist.Lemmas.Lane

/-!
This module contains the contract of the write-behind lane: jobs commit one at a time in the order
they were submitted and none runs after a failure, and what has committed once the caller has
drained the lane does not depend on the lane's depth.
-/

namespace Slipstream
namespace LaneSystem

variable {J : Type}

section

variable {depth : Nat} {outcome : Nat → CommitOutcome} {calls : List (LaneCall J)}
variable {s s' : LaneSystem J}

structure Splits (s : LaneSystem J) (done rest : List (J × Option CommitOutcome)) : Prop where
  tasks : s.tasks = done ++ rest
  prior : AllCommitted done
  length : rest.length ≤ 1
  last : ∀ t ∈ rest, t.2 ≠ some .committed

theorem splits_snoc {done : List (J × Option CommitOutcome)} (htasks : s.tasks = done ++ [(job, r)])
    (hdone : AllCommitted done) : ∃ done rest, Splits s done rest := by
  by_cases hr : r = some .committed
  . exact ⟨s.tasks, [], (List.append_nil _).symm, by rw [htasks, hr]; exact hdone.snoc job, by simp,
      by simp⟩
  . exact ⟨done, [(job, r)], htasks, hdone, by simp, by simpa using hr⟩

theorem Sound.splits (h : Sound depth outcome calls s) : ∃ done rest, Splits s done rest := by
  rcases h.mode with hm | hm | hm
  . exact ⟨s.tasks, [], (List.append_nil _).symm, hm.committed, by simp, by simp⟩
  . obtain ⟨done, job, r, htasks, hdone⟩ := hm.tasks
    exact splits_snoc htasks hdone
  . obtain ⟨done, job, r, htasks, hdone, -⟩ := hm.tasks
    exact splits_snoc htasks hdone

theorem Splits.committed (h : Splits s done rest) : s.committed = done.map Prod.fst := by
  have hdone : done.filter (fun t => decide (t.2 = some .committed)) = done := by
    rw [List.filter_eq_self]
    intro t ht
    simpa using h.prior t ht
  have hrest : rest.filter (fun t => decide (t.2 = some .committed)) = [] := by
    rw [List.filter_eq_nil_iff]
    intro t ht
    simpa using h.last t ht
  rw [LaneSystem.committed, h.tasks, List.filter_append, hdone, hrest, List.append_nil]

theorem Splits.index (h : Splits s done rest) (hi : s.tasks[i]? = some t)
    (ht : t.2 ≠ some .committed) : i = done.length ∧ i + 1 = s.tasks.length := by
  rw [h.tasks, List.getElem?_append] at hi
  split at hi
  . exact absurd (h.prior t (List.mem_of_getElem? hi)) ht
  . obtain ⟨hlt, -⟩ := List.getElem?_eq_some_iff.mp hi
    have := h.length
    rw [h.tasks, List.length_append]
    omega

theorem Sound.committed_take (h : Sound depth outcome calls s) (hsplit : Splits s done rest)
    : s.committed = (jobs calls).take done.length ∧ done.length ≤ (jobs calls).length
        ∧ ∀ i < done.length, outcome i = .committed := by
  obtain ⟨made, hmade⟩ := h.follows
  have hstarts : done.map Prod.fst <+: jobs calls := by
    refine List.IsPrefix.trans ?_ (h.order.trans hmade.within)
    rw [started, hsplit.tasks, List.map_append]
    exact List.prefix_append _ _
  refine ⟨?_, by simpa using hstarts.length_le, ?_⟩
  . rw [hsplit.committed, List.prefix_iff_eq_take.mp hstarts, List.length_map]
  . intro i hi
    have hget : s.tasks[i]? = some (done[i].1, some .committed) := by
      rw [hsplit.tasks, List.getElem?_append_left hi, List.getElem?_eq_getElem hi]
      rw [← hsplit.prior _ (List.getElem_mem hi)]
    exact (h.outcomes i _ _ hget).symm

theorem Sound.committed_all (h : Sound depth outcome calls s) (hsplit : Splits s done rest)
    (hdrain : calls.getLast? = some .drain) (hcurrent : s.current = none) (hcalls : s.calls = [])
    : done.length = (jobs calls).length ∨ outcome done.length ≠ .committed := by
  obtain ⟨made, hmade⟩ := h.follows
  have hmadeCalls : calls = made := by
    simpa [hcurrent, hcalls] using hmade.split
  have hpending := hmade.drained hcurrent (hmadeCalls ▸ hdrain)
  rw [pendingCount_eq_zero] at hpending
  rcases h.mode with hm | hm | hm
  . left
    have hsubmitted := hmade.submitted hm.failed
    rw [h.queued hm.failed, hm.queue, started, hsplit.tasks] at hsubmitted
    have hrest : rest = [] := by
      apply List.eq_nil_iff_forall_not_mem.mpr
      intro t ht
      exact hsplit.last t ht (hm.committed t (hsplit.tasks ▸ List.mem_append_right _ ht))
    rw [hcurrent, hrest] at hsubmitted
    rw [hmadeCalls]
    simpa using congrArg List.length hsubmitted
  . rw [hm.inFlight] at hpending
    cases hpending.1
  . right
    obtain ⟨before, job, r, htasks, -, hr⟩ := hm.tasks
    have hget : s.tasks[before.length]? = some (job, some r) := by
      rw [htasks, List.getElem?_concat_length]
    have hindex := (hsplit.index hget (by simpa using hr)).1
    rw [← hindex, ← h.outcomes _ _ _ hget]
    exact hr

theorem goOn_results (s : LaneSystem J) (call : LaneCall J)
    : (s.goOn call).results = s.results
        ∨ ∃ e, (s.goOn call).results = s.results ++ [(call, .error e)] := by
  rcases hspawn : s.lane.spawnNext with ⟨lane, e | _ | job⟩
  . right
    refine ⟨e, ?_⟩
    simp [goOn, spawn, hspawn, returns]
  . left
    simp [goOn, spawn, hspawn]
  . left
    simp [goOn, spawn, hspawn]

theorem goOn_not_ok (s : LaneSystem J) (call call' : LaneCall J)
    : (s.goOn call).results ≠ s.results ++ [(call', .ok ())] := by
  rcases goOn_results s call with h | ⟨e, h⟩
  . simp [h]
  . simp [h]

theorem step_returns_ok (hstep : s.step outcome event = some s')
    (hok : s'.results = s.results ++ [(call, .ok ())])
    : s.current = some call ∧ s.lane.pendingCount ≤ s.allowed call
        ∧ s' = s.returns call (.ok ()) := by
  cases event with
  | call =>
    simp only [step] at hstep
    split at hstep
    . cases hstep
      split at hok
      . simp at hok
      . exact absurd hok (goOn_not_ok _ _ _)
    . cases hstep
      simp at hok
    . cases hstep
  | taskEnds i =>
    simp only [step] at hstep
    split at hstep
    . cases hstep
      simp at hok
    . cases hstep
  | poll =>
    obtain ⟨call', hcurrent, hpoll⟩ := Option.bind_eq_some_iff.mp hstep
    rw [poll] at hpoll
    split at hpoll
    . next hpending =>
      cases hpoll
      have hcall : call' = call := by
        simpa [returns] using hok
      rw [← hcall]
      exact ⟨hcurrent, hpending, rfl⟩
    . split at hpoll
      . split at hpoll
        . split at hpoll
          . cases hpoll
            exact absurd hok (goOn_not_ok _ _ _)
          . cases hpoll
            simp [returns] at hok
        . cases hpoll
      . cases hpoll
        exact absurd hok (goOn_not_ok _ _ _)

theorem Sound.uncommitted_le (h : Sound depth outcome calls s) (hfailed : s.failed = false)
    : s.submitted.length ≤ s.committed.length + s.lane.pendingCount := by
  obtain ⟨done, rest, hsplit⟩ := h.splits
  rw [h.queued hfailed, hsplit.committed, started, hsplit.tasks, PersistLane.pendingCount]
  have hrest : rest.length ≤ if s.lane.inFlight then 1 else 0 := by
    split
    . exact hsplit.length
    . next hflight =>
      have hidle := h.idle hfailed (by simpa using hflight)
      rw [Nat.le_zero, List.length_eq_zero_iff, List.eq_nil_iff_forall_not_mem]
      intro t ht
      exact hsplit.last t ht (hidle.committed t (hsplit.tasks ▸ List.mem_append_right _ ht))
  simp only [List.length_append, List.length_map, List.map_append]
  omega

theorem Sound.committed_le (h : Sound depth outcome calls s) : s.committed <+: s.submitted := by
  obtain ⟨done, rest, hsplit⟩ := h.splits
  refine List.IsPrefix.trans ?_ h.order
  rw [hsplit.committed, started, hsplit.tasks, List.map_append]
  exact List.prefix_append _ _

end

def Final (outcome : Nat → CommitOutcome) (s : LaneSystem J) : Prop :=
  ∀ event, s.step outcome event = none

def Returned (s : LaneSystem J) : Prop := s.current = none ∧ s.calls = []

structure Contract (depth : Nat) (outcome : Nat → CommitOutcome) (calls : List (LaneCall J))
    (s : LaneSystem J) : Prop where
  inOrder : s.started <+: s.submitted
  oneAtATime : ∀ (i j : Nat) a b, s.tasks[i]? = some (a, none) → s.tasks[j]? = some (b, none) → i = j
  noneAfterFailure : ∀ (i : Nat) job r, s.tasks[i]? = some (job, some r) → r ≠ .committed →
    i + 1 = s.tasks.length
  submitReturns : ∀ event s', s.step outcome event = some s' →
    ∀ span job, s'.results = s.results ++ [(.submit span job, .ok ())] →
      s'.submitted.length ≤ s'.committed.length + max depth 1
  drainReturns : ∀ event s', s.step outcome event = some s' →
    s'.results = s.results ++ [(.drain, .ok ())] → s'.failed = false →
      s'.committed = s'.submitted
  anyDepth : ∀ depth' s', (laneMachine depth' outcome calls).Reachable s' →
    (s.committed <+: s'.committed ∨ s'.committed <+: s.committed)
      ∧ (calls.getLast? = some .drain → s.Returned → s'.Returned → s.committed = s'.committed)

end LaneSystem

open LaneSystem

theorem lane_commits_in_order {J : Type} (depth : Nat) (outcome : Nat → CommitOutcome)
    (calls : List (LaneCall J)) (s : LaneSystem J)
    (h : (laneMachine depth outcome calls).Reachable s) : s.Contract depth outcome calls := by
  have hs := sound_of_reachable h
  obtain ⟨done, rest, hsplit⟩ := hs.splits
  constructor
  . exact hs.order
  . intro i j a b hi hj
    rw [(hsplit.index hi (by simp)).1, (hsplit.index hj (by simp)).1]
  . intro i job r hi hr
    exact (hsplit.index hi (by simpa using hr)).2
  . intro event s' hstep span job hok
    obtain ⟨hcurrent, hpending, rfl⟩ := step_returns_ok hstep hok
    have hfailed : s.failed = false := by
      apply Bool.eq_false_iff.mpr
      intro hf
      exact (hs.stopped hf).current span job hcurrent
    rw [allowed, hs.depth] at hpending
    exact (hs.uncommitted_le hfailed).trans (Nat.add_le_add_left hpending _)
  . intro event s' hstep hok hfailed
    obtain ⟨hcurrent, hpending, rfl⟩ := step_returns_ok hstep hok
    rw [failed_returns_ok] at hfailed
    have hle := hs.uncommitted_le hfailed
    rw [Nat.le_zero.mp hpending] at hle
    exact hs.committed_le.eq_of_length_le hle
  . intro depth' s' h'
    have hs' := sound_of_reachable h'
    obtain ⟨done', rest', hsplit'⟩ := hs'.splits
    obtain ⟨heq, hlen, hok⟩ := hs.committed_take hsplit
    obtain ⟨heq', hlen', hok'⟩ := hs'.committed_take hsplit'
    constructor
    . rw [heq, heq']
      rcases Nat.le_total done.length done'.length with hle | hle
      . exact .inl (List.take_prefix_take_left hle)
      . exact .inr (List.take_prefix_take_left hle)
    . intro hdrain hreturned hreturned'
      have hall := hs.committed_all hsplit hdrain hreturned.1 hreturned.2
      have hall' := hs'.committed_all hsplit' hdrain hreturned'.1 hreturned'.2
      -- Both lengths are the index of the first job that fails.
      have hlength : done.length = done'.length := by
        rcases Nat.lt_trichotomy done.length done'.length with hlt | heq | hlt
        . exact absurd (hok' _ hlt) (hall.resolve_left (by omega))
        . exact heq
        . exact absurd (hok _ hlt) (hall'.resolve_left (by omega))
      rw [heq, heq', hlength]

namespace LaneCall

def sample : List (LaneCall Nat) := [.submit (1, 4) 0, .submit (5, 8) 1, .drain]

/-- The second job panics. -/
def sampleOutcome (i : Nat) : CommitOutcome := if i = 1 then .panic "lost" else .committed

def sampleEvents : List LaneEvent :=
  [.call, .poll, .call, .poll, .call, .taskEnds 0, .poll, .taskEnds 1, .poll]

end LaneCall

theorem lane_commits_in_order_panicked
    : ∃ s, (laneMachine 2 LaneCall.sampleOutcome LaneCall.sample).run (.opened 2 LaneCall.sample)
          LaneCall.sampleEvents = some s
        ∧ s.Returned ∧ s.committed = [0]
        ∧ s.Contract 2 LaneCall.sampleOutcome LaneCall.sample := by
  obtain ⟨s, hrun⟩ : ∃ s, (laneMachine 2 LaneCall.sampleOutcome LaneCall.sample).run
      (.opened 2 LaneCall.sample) LaneCall.sampleEvents = some s := ⟨_, rfl⟩
  have hcontract := lane_commits_in_order 2 LaneCall.sampleOutcome LaneCall.sample s
    (Machine.reachable_of_run (.start rfl) hrun)
  refine ⟨s, hrun, ?_, ?_, hcontract⟩
  . cases hrun
    exact ⟨rfl, rfl⟩
  . cases hrun
    rfl

/-- Without a last drain the deeper lane never starts the second job. -/
theorem commits_differ_by_depth
    : ∃ s₁ s₂ : LaneSystem Nat,
        (laneMachine 1 (fun _ => .committed) [.submit (1, 4) 0, .submit (5, 8) 1]).Reachable s₁
          ∧ (laneMachine 2 (fun _ => .committed) [.submit (1, 4) 0, .submit (5, 8) 1]).Reachable s₂
          ∧ s₁.Final (fun _ => .committed) ∧ s₂.Final (fun _ => .committed)
          ∧ s₁.committed = [0, 1] ∧ s₂.committed = [0] := by
  let calls : List (LaneCall Nat) := [.submit (1, 4) 0, .submit (5, 8) 1]
  let events₁ : List LaneEvent :=
    [.call, .poll, .taskEnds 0, .call, .poll, .poll, .taskEnds 1]
  let events₂ : List LaneEvent := [.call, .poll, .taskEnds 0, .call, .poll]
  obtain ⟨s₁, hrun₁⟩ : ∃ s, (laneMachine 1 (fun _ => .committed) calls).run (.opened 1 calls) events₁
      = some s := ⟨_, rfl⟩
  obtain ⟨s₂, hrun₂⟩ : ∃ s, (laneMachine 2 (fun _ => .committed) calls).run (.opened 2 calls) events₂
      = some s := ⟨_, rfl⟩
  refine ⟨s₁, s₂, Machine.reachable_of_run (.start rfl) hrun₁,
    Machine.reachable_of_run (.start rfl) hrun₂, ?_⟩
  cases hrun₁
  cases hrun₂
  refine ⟨?_, ?_, rfl, rfl⟩
  . intro event
    match event with
    | .call | .poll | .taskEnds 0 | .taskEnds 1 | .taskEnds (i + 2) => rfl
  . intro event
    match event with
    | .call | .poll | .taskEnds 0 | .taskEnds (i + 1) => rfl

end Slipstream
