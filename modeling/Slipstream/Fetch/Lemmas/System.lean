import Slipstream.Fetch.Lemmas.Release

/-!
This module contains the invariant of the whole fetch, over the log of everything its workers have
handed over.
-/

namespace Slipstream
namespace Fetch

structure FetchInv (plan : FetchPlan) (spec : StreamSpec) (log : Log) (s : FetchState) : Prop where
  entries : LogInv plan log
  workers : WorkersInv plan spec log s
  release : ReleaseInv plan log s

variable {plan : FetchPlan} {spec : StreamSpec} {log : Log} {s s' : FetchState} {k : Nat}

theorem init_inv (plan : FetchPlan) (budgetBytes : Nat) (spec : StreamSpec)
    : FetchInv plan spec (fun _ => []) (init plan budgetBytes) := by
  constructor
  case entries => constructor <;> simp
  case workers =>
    have hworkers : ∀ w ∈ (init plan budgetBytes).workers, w = .connecting none := by
      intro w hw
      exact (List.mem_replicate.mp hw).2
    constructor
    case unclaimed => simp
    case wellFormed =>
      intro w hw
      rw [hworkers w hw]
      trivial
    case owns =>
      intro w hw c hc
      rw [hworkers w hw] at hc
      cases hc
    case distinct =>
      intro k k' w w' c c' hk _ hc
      rw [hworkers w (List.mem_of_getElem? hk)] at hc
      cases hc
    case streams => exact fun i => spec.nil i
    case holds =>
      intro w hw c hc
      rw [hworkers w hw] at hc
      cases hc
  case release =>
    constructor
    case linked => exact List.IsChain.nil
    case frontier => exact Continuity.empty_isFrontier
    all_goals simp [init, Fetch.released, releasedOf, blocksOf, ChunkQueue.new]

theorem FetchInv.sent (h : FetchInv plan spec log s)
    (hk : s.workers[k]? = some (.sending a sub after))
    : LogInv plan (extend log sub)
      ∧ ReleaseInv plan (extend log sub) { s with channel := s.channel ++ [sub] } := by
  have hmem := List.mem_of_getElem? hk
  obtain ⟨hand, hplan, hindex⟩ := h.workers.wellFormed _ hmem
  have howns := h.workers.owns _ hmem a.cursor rfl
  have hopen : ∀ x ∈ log sub.planIndex, x.isLast = false := by
    rw [hplan]
    exact howns.unfinished
  have hlength : sub.subIndex = (log sub.planIndex).length := by
    rw [hindex, howns.nextSubIndex, hplan]
  refine ⟨?_, h.release.extend hopen hlength⟩
  apply h.entries.extend hlength hand.nonempty (hplan ▸ howns.inPlan) hopen
  intro hlast
  rw [hand.last hlast, howns.stop, hplan]

theorem FetchInv.worker (h : FetchInv plan spec log s) (hdelivers : Delivers spec log s e)
    (ht : WorkerTrans plan s k e s') : FetchInv plan spec (grow log s e) s' := by
  have hworkers := h.workers.trans hdelivers ht
  cases ht with
  | sent hk hrunning hroom =>
    rw [grow_sent hk hrunning] at hworkers ⊢
    obtain ⟨hentries, hrelease⟩ := h.sent hk
    exact ⟨hentries, hworkers, hrelease.frame rfl rfl rfl fun _ hok => hok⟩
  | quits hk hover =>
    rw [grow_quits hover] at hworkers ⊢
    exact ⟨h.entries, hworkers, h.release.frame rfl rfl rfl fun _ hok => hok⟩
  | _ => exact ⟨h.entries, hworkers, h.release.frame rfl rfl rfl fun _ hok => hok⟩

theorem StageTrans.workers (ht : StageTrans plan s e s') (h : WorkersInv plan spec log s)
    : WorkersInv plan spec log s' := by
  cases ht with
  | joined hk => exact h.setFree trivial rfl
  | _ => exact h.frame rfl rfl

theorem FetchInv.step (h : FetchInv plan spec log s) (hdelivers : Delivers spec log s e)
    (hstep : Fetch.step plan s e = some s') : FetchInv plan spec (grow log s e) s' := by
  cases trans_of_step hstep with
  | worker ht => exact h.worker hdelivers ht
  | stage hrunning ht =>
    rw [grow_stage ht]
    exact ⟨h.entries, ht.workers h.workers, h.release.trans h.entries hrunning ht⟩
  | scannerReturns =>
    exact ⟨h.entries, h.workers.frame rfl rfl, h.release.frame rfl rfl rfl fun _ hok => hok⟩
  | scannerGone =>
    exact ⟨h.entries, h.workers.frame rfl rfl, h.release.frame rfl rfl rfl fun _ hok => hok⟩

structure History where
  claims : List (Nat × Nat × Nat × Nat)
  log : Log

def claimedBy (plan : FetchPlan) (s : FetchState) : FetchEvent → Option (Nat × Nat × Nat × Nat)
  | .claim k =>
    match s.workers[k]? with
    | some .claiming => (plan.claimChunk s.next).2.map fun chunk => (k, chunk)
    | _ => none
  | _ => none

def logged (plan : FetchPlan) (budgetBytes : Nat) : Machine (FetchState × History) FetchEvent :=
  (machine plan budgetBytes).observed (fun _ hist => hist = ⟨[], fun _ => []⟩) fun s e _ hist =>
    ⟨hist.claims ++ (claimedBy plan s e).toList, grow hist.log s e⟩

theorem logged_step (h : (logged plan budgetBytes).step st e = some st')
    : Fetch.step plan st.1 e = some st'.1 ∧ st'.2.log = grow st.2.log st.1 e
      ∧ st'.2.claims = st.2.claims ++ (claimedBy plan st.1 e).toList := by
  obtain ⟨s', hs', rfl⟩ := Option.map_eq_some_iff.mp h
  exact ⟨hs', rfl, rfl⟩

theorem logged_of_reach {ok : FetchState → FetchEvent → Prop}
    (h : (machine plan budgetBytes).Reach ok s)
    : ∃ hist, (logged plan budgetBytes).Reach (fun st e => ok st.1 e) (s, hist) :=
  h.observed fun _ _ => ⟨_, rfl⟩

theorem logged_invariant {ok : FetchState × History → FetchEvent → Prop}
    (inv : Log → FetchState → Prop)
    (hok : ∀ st e, FetchInv plan spec st.2.log st.1 → ok st e → Delivers spec st.2.log st.1 e)
    (hinit : inv (fun _ => []) (init plan budgetBytes))
    (hstep : ∀ log s e s', FetchInv plan spec log s → inv log s → Fetch.step plan s e = some s' →
      inv (grow log s e) s')
    (h : (logged plan budgetBytes).Reach ok st)
    : FetchInv plan spec st.2.log st.1 ∧ inv st.2.log st.1 := by
  apply h.invariant
  . rintro ⟨s, hist⟩ ⟨rfl, rfl⟩
    exact ⟨init_inv plan budgetBytes spec, hinit⟩
  . rintro st e st' ⟨hinv, hmore⟩ hstepOk hlogged
    obtain ⟨hnext, hlog, -⟩ := logged_step hlogged
    rw [hlog]
    exact ⟨hinv.step (hok st e hinv hstepOk) hnext, hstep _ _ _ _ hinv hmore hnext⟩

theorem inv_of_reach {ok : FetchState → FetchEvent → Prop}
    (hok : ∀ log s e, FetchInv plan spec log s → ok s e → Delivers spec log s e)
    (h : (machine plan budgetBytes).Reach ok s) : ∃ log, FetchInv plan spec log s := by
  obtain ⟨hist, hlogged⟩ := logged_of_reach h
  have hinv := logged_invariant (fun _ _ => True) (fun st e => hok st.2.log st.1 e) trivial
    (fun _ _ _ _ _ _ _ => trivial) hlogged
  exact ⟨hist.log, hinv.1⟩

def anyStream : StreamSpec where
  good _ _ := True
  nil _ := trivial
  shorten _ _ := trivial

theorem inv_of_reachable (h : (machine plan budgetBytes).Reachable s)
    : ∃ log, FetchInv plan anyStream log s :=
  inv_of_reach (fun _ _ _ _ _ _ _ _ _ _ _ _ => trivial) h

end Fetch
end Slipstream
