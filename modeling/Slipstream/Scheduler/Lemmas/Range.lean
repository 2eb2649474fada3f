import Slipstream.Scan.Lemmas.Moves
import Slipstream.Scheduler.Impl.Range

/-!
This module contains a fetch and a scan that work on one range at the same time: each half does what
it can do on its own, and the scan has received what the fetch has sent.
-/

namespace Slipstream

theorem Linked.consecutive {blocks : List CompactBlock} (h : Linked blocks)
    (hhead : ∀ b, blocks.head? = some b → b.height = first) : Consecutive first blocks := by
  induction blocks generalizing first with
  | nil => exact Consecutive.nil first
  | cons b bs ih =>
    have hb := hhead b rfl
    have hrest : Consecutive (first + 1) bs := by
      cases bs with
      | nil => exact Consecutive.nil _
      | cons c cs =>
        obtain ⟨hfollows, hchain⟩ := List.isChain_cons_cons.mp h
        apply ih hchain
        intro x hx
        cases hx
        rw [hfollows.1, hb]
    unfold Consecutive at hrest ⊢
    rw [List.map_cons, hb, hrest, List.length_cons, List.range'_succ]

theorem chunksFrom_of_consecutive {chunks : List Chunk}
    (h : Consecutive first (chunks.flatMap Chunk.blocks)) (hne : ∀ c ∈ chunks, c.blocks ≠ [])
    : ChunksFrom first chunks := by
  induction chunks generalizing first with
  | nil => trivial
  | cons c chunks ih =>
    rw [List.flatMap_cons] at h
    refine ⟨hne c List.mem_cons_self, h.shorten (List.prefix_append _ _), ih h.right ?_⟩
    exact fun d hd => hne d (List.mem_cons_of_mem _ hd)

theorem Releasable.chunksFrom {chunks : List Chunk} (h : Releasable chunks)
    : ∃ first, ChunksFrom first chunks := by
  refine ⟨((chunks.flatMap Chunk.blocks).head?.map CompactBlock.height).getD 0, ?_⟩
  apply chunksFrom_of_consecutive _ h.nonempty
  apply h.linked.consecutive
  intro b hb
  simp [hb]

namespace Fetch

variable {plan : FetchPlan} {s s' : FetchState}

theorem sent_of_step (hstep : step plan s e = some s') (he : Scheduler.ofFetch e = true)
    : ∃ more, s'.queue.sent = s.queue.sent ++ more
      ∧ s'.queue.inFlight.length = s.queue.inFlight.length + more.length
      ∧ s'.queue.receiverGone = s.queue.receiverGone ∧ (s.result ≠ none → more = []) := by
  have hsame : s'.queue = s.queue → ∃ more, s'.queue.sent = s.queue.sent ++ more
      ∧ s'.queue.inFlight.length = s.queue.inFlight.length + more.length
      ∧ s'.queue.receiverGone = s.queue.receiverGone ∧ (s.result ≠ none → more = []) := by
    intro hqueue
    refine ⟨[], ?_, ?_, ?_, fun _ => rfl⟩
    all_goals simp [hqueue]
  cases trans_of_step hstep with
  | worker ht => cases ht <;> exact hsame rfl
  | stage hrunning ht =>
    cases ht with
    | released hphase hreceiver hfree =>
      refine ⟨[_], rfl, ?_, rfl, fun hover => absurd hrunning hover⟩
      simp [afterRelease]
    | _ => exact hsame rfl
  | scannerReturns => cases he
  | scannerGone => cases he

end Fetch

namespace Scheduler

variable {T F : Type} {plan : FetchPlan} {api : Scan.TreeStateApi T F} {cfg : Scan.ScanConfig}
  {s s' : RangeState T F}

def streamsAnswer (s : RangeState T F) : RangeEvent T → Bool
  | .fetch e => Fetch.answersRequest s.fetch e
  | .scan _ => true

def seenByFetch (e : RangeEvent T) (scan : Scan.ScanState T F) : List FetchEvent :=
  match e with
  | .fetch e => [e]
  | .scan (.chunkDone _) => .scannerReturns :: if scan.ended.isSome then [.scannerGone] else []
  | .scan _ => if scan.ended.isSome then [.scannerGone] else []

theorem fetchStep_cases (h : fetchStep plan s e = some s')
    : ofFetch e = true ∧ Fetch.step plan s.fetch e = some s'.fetch
      ∧ s'.scan = {
          s.scan with
          incoming := s.scan.incoming ++ s'.fetch.queue.sent.drop s.fetch.queue.sent.length
        } := by
  unfold fetchStep at h
  split at h
  . next he =>
    obtain ⟨fetch, hfetch, rfl⟩ := Option.map_eq_some_iff.mp h
    exact ⟨he, hfetch, rfl⟩
  . cases h

variable [DecidableEq F]

theorem scanStep_cases (h : scanStep api cfg s e = some s')
    : receivable s.fetch e = true ∧ Scan.step api cfg s.scan e = some s'.scan
      ∧ s'.fetch = { s.fetch with queue := afterScan e s'.scan s.fetch.queue } := by
  unfold scanStep at h
  split at h
  . next he =>
    obtain ⟨scan, hscan, rfl⟩ := Option.map_eq_some_iff.mp h
    exact ⟨he, hscan, rfl⟩
  . cases h

theorem fetch_run_of_step (hstep : rangeStep plan api cfg s e = some s') (budgetBytes : Nat)
    : (Fetch.machine plan budgetBytes).run s.fetch (seenByFetch e s'.scan) = some s'.fetch := by
  cases e with
  | fetch e =>
    obtain ⟨-, hfetch, -⟩ := fetchStep_cases hstep
    simp [seenByFetch, Machine.run, Fetch.machine, hfetch]
  | scan e =>
    obtain ⟨-, -, hqueue⟩ := scanStep_cases hstep
    rw [hqueue]
    cases hended : s'.scan.ended.isSome
    all_goals
      cases e <;> simp [seenByFetch, Machine.run, Fetch.machine, Fetch.step, afterScan, hended]

theorem fetch_of_range {ok : RangeState T F → RangeEvent T → Prop}
    {okFetch : FetchState → FetchEvent → Prop}
    (hok : ∀ s e, ok s (.fetch e) → okFetch s.fetch e)
    (hreturns : ∀ f, okFetch f .scannerReturns) (hgone : ∀ f, okFetch f .scannerGone)
    (h : (rangeMachine plan api cfg budgetBytes).Reach ok s)
    : (Fetch.machine plan budgetBytes).Reach okFetch s.fetch := by
  induction h with
  | start hstart =>
    cases hstart
    exact .start rfl
  | @step s e s' _ hstepOk hstep ih =>
    have hrun := fetch_run_of_step hstep budgetBytes
    cases e with
    | fetch e =>
      obtain ⟨t, ht, hrest⟩ := Option.bind_eq_some_iff.mp hrun
      cases hrest
      exact .step ih (hok s e hstepOk) ht
    | scan e =>
      apply Machine.reach_of_run ih _ hrun
      intro e' he'
      have hquiet : e' = .scannerReturns ∨ e' = .scannerGone := by
        unfold seenByFetch at he'
        split at he'
        . cases ‹RangeEvent.scan e = RangeEvent.fetch _›
        . split at he'
          . simpa using he'
          . exact Or.inl (List.mem_singleton.mp he')
        . split at he'
          . exact Or.inr (List.mem_singleton.mp he')
          . cases he'
      rcases hquiet with rfl | rfl
      . exact hreturns
      . exact hgone

theorem fetch_reachable {ok : RangeState T F → RangeEvent T → Prop}
    (h : (rangeMachine plan api cfg budgetBytes).Reach ok s)
    : (Fetch.machine plan budgetBytes).Reachable s.fetch :=
  fetch_of_range (fun _ _ _ => trivial) (fun _ => trivial) (fun _ => trivial) h

structure RangeInv (s : RangeState T F) : Prop where
  calls : Scan.Halted s.scan ∨ ∃ done now, Scan.BatchInv s.fetch.queue.sent s.scan done now
  closed : s.scan.ended = some .finished → s.fetch.result ≠ none
  flight : s.scan.ended = none → s.fetch.queue.inFlight.length = Scan.holding s.scan
  gone : s.fetch.queue.receiverGone = s.scan.ended.isSome

omit [DecidableEq F] in
theorem RangeInv.fetch (h : RangeInv s) (hstep : fetchStep plan s e = some s') : RangeInv s' := by
  obtain ⟨he, hfetch, hscan⟩ := fetchStep_cases hstep
  obtain ⟨more, hsent, hflight, hgone, hover⟩ := Fetch.sent_of_step hfetch he
  have hdrop : s'.fetch.queue.sent.drop s.fetch.queue.sent.length = more := by simp [hsent]
  rw [hdrop] at hscan
  have hended : s'.scan.ended = s.scan.ended := by rw [hscan]
  constructor
  case calls =>
    rw [hsent, hscan]
    rcases h.calls with hhalted | ⟨done, now, hbatch⟩
    . exact Or.inl hhalted
    . exact Or.inr ⟨done, now, hbatch.grow fun hended => hover (h.closed hended)⟩
  case closed =>
    rw [hended]
    intro hfinished
    rw [Fetch.result_stays (h.closed hfinished) hfetch]
    exact h.closed hfinished
  case flight =>
    rw [hended]
    intro hgoing
    have := h.flight hgoing
    rw [hscan]
    simp only [Scan.holding, List.length_append] at this ⊢
    omega
  case gone => rw [hgone, hended, h.gone]

theorem RangeInv.scan (hfetch : (Fetch.machine plan budgetBytes).Reachable s.fetch) (h : RangeInv s)
    (hstep : scanStep api cfg s e = some s') : RangeInv s' := by
  obtain ⟨hreceives, hscan, hqueue⟩ := scanStep_cases hstep
  have hgoing := Scan.going_of_step hscan
  obtain ⟨first, hchunks⟩ := (Fetch.sent_releasable hfetch).chunksFrom
  constructor
  case calls =>
    rcases h.calls with hhalted | ⟨done, now, hbatch⟩
    . simp [Scan.Halted, hgoing] at hhalted
    . rw [hqueue]
      exact hbatch.next hchunks hscan
  case closed =>
    intro hended
    obtain ⟨settled, rfl⟩ := Scan.closed_of_finished hscan hended
    rw [hqueue]
    exact Option.isSome_iff_ne_none.mp hreceives
  case flight =>
    intro hnext
    have hflight := h.flight hgoing
    have hholding := Scan.holding_of_step hscan hnext
    rw [hqueue]
    cases e
    all_goals
      simp only [afterScan, List.length_tail, Scan.returned] at hholding ⊢
      omega
  case gone =>
    rw [hqueue]
    simp [afterScan, h.gone, hgoing]

theorem range_inv {ok : RangeState T F → RangeEvent T → Prop}
    (h : (rangeMachine plan api cfg budgetBytes).Reach ok s) : RangeInv s := by
  induction h with
  | start hstart =>
    cases hstart
    refine ⟨Or.inr ⟨[], [], rfl, nofun, ⟨[], rfl, Or.inl rfl⟩, nofun, nofun, ?_, nofun⟩, nofun, ?_, rfl⟩
    . exact fun _ _ => ⟨rfl, rfl⟩
    . exact fun _ => rfl
  | @step s e s' hs _ hstep ih =>
    cases e with
    | fetch e => exact ih.fetch hstep
    | scan e => exact ih.scan (fetch_reachable hs) hstep

end Scheduler
end Slipstream
