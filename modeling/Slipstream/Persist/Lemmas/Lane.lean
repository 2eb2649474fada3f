import Slipstream.Persist.Impl.Lane
import Mathlib.Data.List.Infix

/-!
This module contains the invariant of the write-behind lane: whether it is idle, working or stopped
by a failure, every task but the last has committed, and the queue holds the jobs that are left.
-/

namespace Slipstream
namespace LaneSystem

variable {J : Type}

theorem goOn_of_inFlight {s : LaneSystem J} (h : s.lane.inFlight = true) (call : LaneCall J)
    : s.goOn call = s := by
  simp [goOn, spawn, PersistLane.spawnNext, h]

theorem goOn_of_empty {s : LaneSystem J} (h : s.lane.inFlight = false) (hqueue : s.lane.queue = [])
    (call : LaneCall J) : s.goOn call = s := by
  simp [goOn, spawn, PersistLane.spawnNext, h, hqueue]

theorem goOn_of_queued {s : LaneSystem J} (h : s.lane.inFlight = false)
    (hconn : s.lane.connection = true) (hqueue : s.lane.queue = (span, job) :: queue)
    (call : LaneCall J)
    : s.goOn call
        =
      { s with
        lane := { s.lane with connection := false, inFlight := true, inFlightSpan := span, queue }
        tasks := s.tasks ++ [(job, none)] } := by
  simp [goOn, spawn, PersistLane.spawnNext, h, hconn, hqueue]

def AllCommitted (tasks : List (J × Option CommitOutcome)) : Prop :=
  ∀ t ∈ tasks, t.2 = some .committed

theorem AllCommitted.snoc {tasks : List (J × Option CommitOutcome)} (h : AllCommitted tasks)
    (job : J) : AllCommitted (tasks ++ [(job, some .committed)]) := by
  intro t ht
  rcases List.mem_append.mp ht with ht | ht
  . exact h t ht
  . rw [List.mem_singleton.mp ht]

structure Idle (s : LaneSystem J) : Prop where
  failed : s.failed = false
  inFlight : s.lane.inFlight = false
  connection : s.lane.connection = true
  queue : s.lane.queue = []
  committed : AllCommitted s.tasks

structure Working (s : LaneSystem J) : Prop where
  failed : s.failed = false
  inFlight : s.lane.inFlight = true
  tasks : ∃ done job r, s.tasks = done ++ [(job, r)] ∧ AllCommitted done

structure Stopped (s : LaneSystem J) : Prop where
  failed : s.failed = true
  inFlight : s.lane.inFlight = false
  queue : s.lane.queue = []
  tasks : ∃ done job r, s.tasks = done ++ [(job, some r)] ∧ AllCommitted done ∧ r ≠ .committed
  current : ∀ span job, s.current ≠ some (.submit span job)

def jobs (calls : List (LaneCall J)) : List J :=
  calls.filterMap fun
    | .submit _ job => some job
    | .drain => none

theorem jobs_append (as bs : List (LaneCall J)) : jobs (as ++ bs) = jobs as ++ jobs bs :=
  List.filterMap_append

structure Follows (calls : List (LaneCall J)) (s : LaneSystem J) (made : List (LaneCall J))
    : Prop where
  split : calls = made ++ s.current.toList ++ s.calls
  submitted : s.failed = false → s.submitted = jobs (made ++ s.current.toList)
  within : s.submitted <+: jobs calls
  drained : s.current = none → made.getLast? = some .drain → s.lane.pendingCount = 0

structure Sound (depth : Nat) (outcome : Nat → CommitOutcome) (calls : List (LaneCall J))
    (s : LaneSystem J) : Prop where
  depth : s.lane.depth = max depth 1
  mode : Idle s ∨ Working s ∨ Stopped s
  outcomes : ∀ i job r, s.tasks[i]? = some (job, some r) → r = outcome i
  queued : s.failed = false → s.submitted = s.started ++ s.lane.queue.map Prod.snd
  order : s.started <+: s.submitted
  follows : ∃ made, Follows calls s made

theorem Sound.opened (depth : Nat) (outcome : Nat → CommitOutcome) (calls : List (LaneCall J))
    : Sound depth outcome calls (.opened depth calls) where
  depth := rfl
  mode := .inl ⟨rfl, rfl, rfl, rfl, by intro t ht; cases ht⟩
  outcomes := by simp [LaneSystem.opened]
  queued _ := rfl
  order := List.prefix_refl _
  follows := ⟨[], rfl, fun _ => rfl, List.nil_prefix, fun _ h => nomatch h⟩

theorem pendingCount_eq_zero (lane : PersistLane J)
    : lane.pendingCount = 0 ↔ lane.inFlight = false ∧ lane.queue = [] := by
  rw [PersistLane.pendingCount]
  cases lane.inFlight <;> simp

theorem failed_returns_ok (s : LaneSystem J) (call : LaneCall J)
    : (s.returns call (.ok ())).failed = s.failed := by
  simp [failed, returns, Except.toBool]

theorem failed_returns_error (s : LaneSystem J) (call : LaneCall J) (e : SlipstreamError)
    : (s.returns call (.error e)).failed = true := by
  simp [failed, returns, Except.toBool]

section

variable {depth : Nat} {outcome : Nat → CommitOutcome} {calls : List (LaneCall J)}
variable {s s' : LaneSystem J}

theorem Sound.idle (h : Sound depth outcome calls s) (hfailed : s.failed = false)
    (hflight : s.lane.inFlight = false) : Idle s := by
  rcases h.mode with hm | hm | hm
  . exact hm
  . rw [hm.inFlight] at hflight
    cases hflight
  . rw [hm.failed] at hfailed
    cases hfailed

theorem Sound.working (h : Sound depth outcome calls s) (hflight : s.lane.inFlight = true)
    : Working s := by
  rcases h.mode with hm | hm | hm
  . rw [hm.inFlight] at hflight
    cases hflight
  . exact hm
  . rw [hm.inFlight] at hflight
    cases hflight

theorem Sound.stopped (h : Sound depth outcome calls s) (hfailed : s.failed = true)
    : Stopped s := by
  rcases h.mode with hm | hm | hm
  . rw [hm.failed] at hfailed
    cases hfailed
  . rw [hm.failed] at hfailed
    cases hfailed
  . exact hm

theorem Follows.of_eq (h : Follows calls s made) (hcalls : s'.calls = s.calls)
    (hcurrent : s'.current = s.current) (hsubmitted : s'.submitted = s.submitted)
    (hfailed : s'.failed = s.failed)
    (hdrained : s.current = none → s.lane.pendingCount = 0 → s'.lane.pendingCount = 0)
    : Follows calls s' made where
  split := by rw [hcalls, hcurrent, h.split]
  submitted hf := by rw [hsubmitted, hcurrent, h.submitted (by rw [← hfailed, hf])]
  within := by rw [hsubmitted]; exact h.within
  drained hc hd := by
    rw [hcurrent] at hc
    exact hdrained hc (h.drained hc hd)

theorem Follows.returned (h : Follows calls s made) (hcurrent : s.current = some call)
    (hcalls : s'.calls = s.calls) (hcurrent' : s'.current = none)
    (hsubmitted : s'.submitted = s.submitted) (hfailed : s'.failed = false → s.failed = false)
    (hdrained : call = .drain → s'.lane.pendingCount = 0)
    : Follows calls s' (made ++ [call]) where
  split := by rw [h.split, hcurrent, hcalls, hcurrent']; simp
  submitted hf := by rw [hsubmitted, h.submitted (hfailed hf), hcurrent, hcurrent']; simp
  within := by rw [hsubmitted]; exact h.within
  drained _ hd := by
    apply hdrained
    simpa using hd

theorem Follows.called (h : Follows calls s made) (hcurrent : s.current = none)
    (hcalls : s.calls = call :: rest) (hcalls' : s'.calls = rest)
    (hcurrent' : s'.current = some call) (hfailed : s'.failed = s.failed)
    (hsubmitted : s'.submitted = s.submitted ++ if s.failed then [] else jobs [call])
    : Follows calls s' made := by
  have hsplit : calls = made ++ [call] ++ rest := by
    rw [h.split, hcurrent, hcalls]
    simp
  have hjobs (hf : s.failed = false) : s'.submitted = jobs (made ++ [call]) := by
    rw [hsubmitted, h.submitted hf, hcurrent, hf]
    simp [jobs_append]
  constructor
  . rw [hsplit, hcalls', hcurrent']
    rfl
  . intro hf
    rw [hcurrent']
    exact hjobs (by rw [← hfailed, hf])
  . cases hf : s.failed with
    | true =>
      rw [hsubmitted, hf]
      simpa using h.within
    | false =>
      rw [hjobs hf, hsplit, jobs_append (made ++ [call])]
      exact List.prefix_append _ _
  . intro hc
    rw [hcurrent'] at hc
    cases hc

theorem outcomes_snoc (h : ∀ i job r, s.tasks[i]? = some (job, some r) → r = outcome i) (new : J)
    : ∀ i job r, (s.tasks ++ [(new, none)])[i]? = some (job, some r) → r = outcome i := by
  intro i job r hi
  rw [List.getElem?_append] at hi
  split at hi
  . exact h i job r hi
  . rw [List.getElem?_singleton] at hi
    split at hi <;> cases hi

theorem Sound.submit (h : Sound depth outcome calls s) (hcurrent : s.current = none)
    (hcalls : s.calls = .submit span job :: rest) (hfailed : s.failed = false)
    : Sound depth outcome calls ({ s with calls := rest }.submit span job) := by
  obtain ⟨made, hmade⟩ := h.follows
  cases hflight : s.lane.inFlight with
  | true =>
    have hworking := h.working hflight
    have hpush : ({ s with calls := rest }.push span job).lane.inFlight = true := hflight
    rw [LaneSystem.submit, goOn_of_inFlight hpush]
    constructor
    . exact h.depth
    . exact .inr (.inl ⟨hfailed, hflight, hworking.tasks⟩)
    . exact h.outcomes
    . intro _
      show s.submitted ++ [job] = s.started ++ (s.lane.queue ++ [(span, job)]).map Prod.snd
      rw [h.queued hfailed]
      simp
    . exact h.order.trans (List.prefix_append _ _)
    . refine ⟨made, hmade.called hcurrent hcalls rfl rfl rfl ?_⟩
      rw [hfailed]
      rfl
  | false =>
    -- The lane is idle, so the job it was just given starts.
    have hidle := h.idle hfailed hflight
    have hpush : ({ s with calls := rest }.push span job).lane.inFlight = false := hflight
    have hqueue : ({ s with calls := rest }.push span job).lane.queue = [(span, job)] := by
      simp [push, hidle.queue]
    rw [LaneSystem.submit, goOn_of_queued hpush hidle.connection hqueue]
    have hstarted : s.submitted = s.started := by
      rw [h.queued hfailed, hidle.queue]
      simp
    constructor
    . exact h.depth
    . exact .inr (.inl ⟨hfailed, rfl, s.tasks, job, none, rfl, hidle.committed⟩)
    . exact outcomes_snoc h.outcomes job
    . intro _
      show s.submitted ++ [job] = (s.tasks ++ [(job, none)]).map Prod.fst ++ []
      rw [hstarted]
      simp [started]
    . show (s.tasks ++ [(job, none)]).map Prod.fst <+: s.submitted ++ [job]
      rw [hstarted]
      simp [started]
    . refine ⟨made, hmade.called hcurrent hcalls rfl rfl rfl ?_⟩
      rw [hfailed]
      rfl

theorem Sound.skip (h : Sound depth outcome calls s) (hcurrent : s.current = none)
    (hcalls : s.calls = .submit span job :: rest) (hfailed : s.failed = true)
    : Sound depth outcome calls { s with calls := rest } := by
  obtain ⟨made, hmade⟩ := h.follows
  have hstopped := h.stopped hfailed
  constructor
  . exact h.depth
  . exact .inr (.inr ⟨hfailed, hstopped.inFlight, hstopped.queue, hstopped.tasks, hstopped.current⟩)
  . exact h.outcomes
  . exact h.queued
  . exact h.order
  . refine ⟨made ++ [.submit span job], ?_, ?_, hmade.within, ?_⟩
    . rw [hmade.split, hcurrent, hcalls]
      simp
    . intro hf
      rw [show ({ s with calls := rest } : LaneSystem J).failed = s.failed from rfl, hfailed] at hf
      cases hf
    . intro _ hd
      simp at hd

theorem Sound.drain (h : Sound depth outcome calls s) (hcurrent : s.current = none)
    (hcalls : s.calls = .drain :: rest)
    : Sound depth outcome calls { s with calls := rest, current := some .drain } := by
  obtain ⟨made, hmade⟩ := h.follows
  constructor
  . exact h.depth
  . rcases h.mode with hm | hm | hm
    . exact .inl ⟨hm.failed, hm.inFlight, hm.connection, hm.queue, hm.committed⟩
    . exact .inr (.inl ⟨hm.failed, hm.inFlight, hm.tasks⟩)
    . exact .inr (.inr ⟨hm.failed, hm.inFlight, hm.queue, hm.tasks, by simp⟩)
  . exact h.outcomes
  . exact h.queued
  . exact h.order
  . refine ⟨made, hmade.called hcurrent hcalls rfl rfl rfl ?_⟩
    simp [jobs]

theorem Sound.returned (h : Sound depth outcome calls s) (hcurrent : s.current = some call)
    (hpending : s.lane.pendingCount ≤ s.allowed call)
    : Sound depth outcome calls (s.returns call (.ok ())) := by
  obtain ⟨made, hmade⟩ := h.follows
  have hfailed := failed_returns_ok s call
  constructor
  . exact h.depth
  . rcases h.mode with hm | hm | hm
    . exact .inl ⟨hfailed.trans hm.failed, hm.inFlight, hm.connection, hm.queue, hm.committed⟩
    . exact .inr (.inl ⟨hfailed.trans hm.failed, hm.inFlight, hm.tasks⟩)
    . exact .inr (.inr ⟨hfailed.trans hm.failed, hm.inFlight, hm.queue, hm.tasks, by simp [returns]⟩)
  . exact h.outcomes
  . intro hf
    exact h.queued (hfailed.symm.trans hf)
  . exact h.order
  . refine ⟨made ++ [call], hmade.returned hcurrent rfl rfl rfl (hfailed.symm.trans ·) ?_⟩
    intro hdrain
    rw [hdrain] at hpending
    exact Nat.le_zero.mp hpending

theorem getLast_tasks (h : Working s) (hlast : s.tasks.getLast? = some (job, r))
    : ∃ done, s.tasks = done ++ [(job, r)] ∧ AllCommitted done := by
  obtain ⟨done, job', r', htasks, hdone⟩ := h.tasks
  rw [htasks, List.getLast?_concat] at hlast
  cases hlast
  exact ⟨done, htasks, hdone⟩

def released (s : LaneSystem J) : LaneSystem J :=
  { s with lane := { s.lane with inFlight := false, connection := true } }

theorem Sound.landed (h : Sound depth outcome calls s) (hcurrent : s.current = some call)
    (hflight : s.lane.inFlight = true) (hlast : s.tasks.getLast? = some (job, some .committed))
    : Sound depth outcome calls (s.released.goOn call) := by
  obtain ⟨made, hmade⟩ := h.follows
  have hworking := h.working hflight
  obtain ⟨done, htasks, hdone⟩ := getLast_tasks hworking hlast
  have hall : AllCommitted s.tasks := htasks ▸ hdone.snoc job
  have hsome : s.current ≠ none := by simp [hcurrent]
  have hfree : s.released.lane.inFlight = false := rfl
  cases hqueue : s.released.lane.queue with
  | nil =>
    rw [goOn_of_empty hfree hqueue]
    constructor
    . exact h.depth
    . exact .inl ⟨hworking.failed, rfl, rfl, hqueue, hall⟩
    . exact h.outcomes
    . exact h.queued
    . exact h.order
    . exact ⟨made, hmade.of_eq rfl rfl rfl rfl fun hc => absurd hc hsome⟩
  | cons head queue =>
    obtain ⟨span, next⟩ := head
    rw [goOn_of_queued hfree rfl hqueue]
    have hsubmitted : s.submitted = (s.tasks ++ [(next, none)]).map Prod.fst ++ queue.map Prod.snd := by
      rw [h.queued hworking.failed, show s.lane.queue = _ from hqueue]
      simp [started]
    constructor
    . exact h.depth
    . exact .inr (.inl ⟨hworking.failed, rfl, s.tasks, next, none, rfl, hall⟩)
    . exact outcomes_snoc h.outcomes next
    . intro _
      exact hsubmitted
    . show (s.tasks ++ [(next, none)]).map Prod.fst <+: s.submitted
      rw [hsubmitted]
      exact List.prefix_append _ _
    . exact ⟨made, hmade.of_eq rfl rfl rfl rfl fun hc => absurd hc hsome⟩

theorem Sound.broke (h : Sound depth outcome calls s) (hcurrent : s.current = some call)
    (hflight : s.lane.inFlight = true) (hlast : s.tasks.getLast? = some (job, some ended))
    (hended : ended ≠ .committed) (connection : Bool) (e : SlipstreamError)
    : Sound depth outcome calls
        ({ s with lane := { s.lane with inFlight := false, connection, queue := [] } }.returns call
          (.error e)) := by
  obtain ⟨made, hmade⟩ := h.follows
  obtain ⟨done, htasks, hdone⟩ := getLast_tasks (h.working hflight) hlast
  have hfailed := failed_returns_error
    { s with lane := { s.lane with inFlight := false, connection, queue := [] } } call e
  constructor
  . exact h.depth
  . refine .inr (.inr ⟨hfailed, rfl, rfl, ⟨done, job, ended, htasks, hdone, hended⟩, ?_⟩)
    intro _ _ hc
    cases hc
  . exact h.outcomes
  . intro hf
    rw [hfailed] at hf
    cases hf
  . exact h.order
  . refine ⟨made ++ [call], hmade.returned hcurrent rfl rfl rfl ?_ ?_⟩
    . intro hf
      rw [hfailed] at hf
      cases hf
    . intro _
      rfl

theorem Sound.poll (h : Sound depth outcome calls s) (hcurrent : s.current = some call)
    (hpoll : s.poll call = some s') : Sound depth outcome calls s' := by
  rw [LaneSystem.poll] at hpoll
  split at hpoll
  . next hpending =>
    cases hpoll
    exact h.returned hcurrent hpending
  . next hpending =>
    split at hpoll
    . next hflight =>
      split at hpoll
      . next job ended hlast =>
        cases ended with
        | committed =>
          cases hpoll
          exact h.landed hcurrent hflight hlast
        | error detail =>
          cases hpoll
          exact h.broke hcurrent hflight hlast (by simp) true _
        | panic detail =>
          cases hpoll
          exact h.broke hcurrent hflight hlast (by simp) s.lane.connection _
      . cases hpoll
    . next hflight =>
      -- Nothing is in flight, so nothing is queued either and the loop has ended.
      have hzero : s.lane.pendingCount = 0 := by
        rw [pendingCount_eq_zero]
        rcases h.mode with hm | hm | hm
        . exact ⟨hm.inFlight, hm.queue⟩
        . exact absurd hm.inFlight hflight
        . exact ⟨hm.inFlight, hm.queue⟩
      omega

theorem getElem?_of_allCommitted {tasks : List (J × Option CommitOutcome)} (h : AllCommitted tasks)
    {i : Nat} : tasks[i]? ≠ some (job, none) := by
  intro hi
  cases h _ (List.mem_of_getElem? hi)

theorem Sound.taskEnds (h : Sound depth outcome calls s) (hi : s.tasks[i]? = some (job, none))
    : Sound depth outcome calls { s with tasks := s.tasks.set i (job, some (outcome i)) } := by
  obtain ⟨made, hmade⟩ := h.follows
  have hlt : i < s.tasks.length := (List.getElem?_eq_some_iff.mp hi).1
  have hstarted : (s.tasks.set i (job, some (outcome i))).map Prod.fst = s.started := by
    apply List.ext_getElem?
    intro k
    rw [started, List.getElem?_map, List.getElem?_map, List.getElem?_set]
    split
    . next heq =>
      rw [← heq, hi]
      rfl
    . rfl
  constructor
  . exact h.depth
  . rcases h.mode with hm | hm | hm
    . exact absurd hi (getElem?_of_allCommitted hm.committed)
    . -- Every earlier task has ended, so it is the last one that ends now.
      obtain ⟨done, last, r, htasks, hdone⟩ := hm.tasks
      refine .inr (.inl ⟨hm.failed, hm.inFlight, done, job, some (outcome i), ?_, hdone⟩)
      have hge : done.length ≤ i := by
        apply Nat.le_of_not_lt
        intro hlt
        rw [htasks, List.getElem?_append_left hlt] at hi
        exact getElem?_of_allCommitted hdone hi
      have heq : i = done.length := by
        rw [htasks, List.length_append, List.length_singleton] at hlt
        omega
      show s.tasks.set i _ = _
      rw [htasks, heq, List.set_append_right _ _ (Nat.le_refl _), Nat.sub_self, List.set_cons_zero]
    . obtain ⟨done, last, r, htasks, hdone, -⟩ := hm.tasks
      rw [htasks] at hi
      rcases List.mem_append.mp (List.mem_of_getElem? hi) with hmem | hmem
      . cases hdone _ hmem
      . cases List.mem_singleton.mp hmem
  . intro k job' r hk
    rw [List.getElem?_set] at hk
    split at hk
    . next heq =>
      cases hk
      rw [heq]
    . exact h.outcomes k job' r hk
  . intro hf
    show s.submitted = (s.tasks.set i (job, some (outcome i))).map Prod.fst ++ _
    rw [hstarted]
    exact h.queued hf
  . show (s.tasks.set i (job, some (outcome i))).map Prod.fst <+: s.submitted
    rw [hstarted]
    exact h.order
  . exact ⟨made, hmade.of_eq rfl rfl rfl rfl fun _ => id⟩

theorem Sound.step (h : Sound depth outcome calls s) (hstep : s.step outcome event = some s')
    : Sound depth outcome calls s' := by
  cases event with
  | call =>
    simp only [LaneSystem.step] at hstep
    split at hstep
    . next span job rest hcurrent hcalls =>
      cases hstep
      cases hfailed : s.failed with
      | true =>
        rw [if_pos (by exact hfailed)]
        exact h.skip hcurrent hcalls hfailed
      | false =>
        rw [if_neg (by exact ne_true_of_eq_false hfailed)]
        exact h.submit hcurrent hcalls hfailed
    . next rest hcurrent hcalls =>
      cases hstep
      exact h.drain hcurrent hcalls
    . cases hstep
  | poll =>
    obtain ⟨call, hcurrent, hpoll⟩ := Option.bind_eq_some_iff.mp hstep
    exact h.poll hcurrent hpoll
  | taskEnds i =>
    simp only [LaneSystem.step] at hstep
    split at hstep
    . next job hi =>
      cases hstep
      exact h.taskEnds hi
    . cases hstep

end

theorem sound_of_reachable {depth : Nat} {outcome : Nat → CommitOutcome} {calls : List (LaneCall J)}
    {s : LaneSystem J} (h : (laneMachine depth outcome calls).Reachable s)
    : Sound depth outcome calls s := by
  apply Machine.Reach.invariant _ _ h
  . rintro _ rfl
    exact .opened depth outcome calls
  . intro s e s' hs _ hstep
    exact hs.step hstep

end LaneSystem
end Slipstream
