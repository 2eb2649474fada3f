import Slipstream.Fetch.Lemmas.Measure
import Slipstream.Fetch.Progress
import Slipstream.Machine.Fair

/-!
This module contains what a fetch comes to when its streams deliver what they are asked for: how its
plan chunks are claimed and cut into sub-chunks, and that it succeeds with all of the plan.
-/

namespace Slipstream
namespace Fetch

variable {plan : FetchPlan} {such : CompactBlock → Prop} {log : Log} {s s' : FetchState}
  {st : FetchState × History}

def Serves (such : CompactBlock → Prop) (s : FetchState) (e : FetchEvent) : Prop :=
  answersRequest s e = true ∧ ∀ k b deadline, e = .input k (.block b deadline) → such b

structure Sound (plan : FetchPlan) (such : CompactBlock → Prop) (log : Log) (s : FetchState) : Prop
    where
  inv : FetchInv plan (rangeStream plan such) log s
  cut : CutInv plan log s
  flow : FlowInv plan log s

theorem sound_of_logged (h : (logged plan budgetBytes).Reach (fun st e => Serves such st.1 e) st)
    : Sound plan such st.2.log st.1 := by
  obtain ⟨hinv, hcut, hflow⟩ := logged_invariant
    (fun log s => CutInv plan log s ∧ FlowInv plan log s)
    (fun _ _ hinv hserves => delivers_of_answers hinv hserves.1 hserves.2)
    ⟨init_cut plan budgetBytes, init_flow plan budgetBytes⟩
    (fun _ _ _ _ hinv hmore hstep => ⟨hmore.1.step hinv hstep, hmore.2.step hinv hstep⟩) h
  exact ⟨hinv, hcut, hflow⟩

section Pieces

structure SubChunks (plan : FetchPlan) (i : Nat) (subs : List SubChunk) : Prop where
  nonempty : ∀ sub ∈ subs, sub.blocks ≠ []
  indices : subs.map (fun sub => (sub.planIndex, sub.subIndex)) = (List.range subs.length).map (i, ·)
  heights : Consecutive (plan.chunkRange i).1 (blocksOf subs)
  within : ∀ b ∈ blocksOf subs, b.height ≤ (plan.chunkRange i).2
  fits : ∀ sub ∈ subs, Fits plan.splitBytes sub.blocks sub.bytes
  last : ∀ sub ∈ subs, sub.isLast = true
    ↔ sub.blocks.getLast?.map CompactBlock.height = some (plan.chunkRange i).2

theorem Sound.subChunks (h : Sound plan such log s) (i : Nat) : SubChunks plan i (log i) := by
  have hrange : InRange plan such i (blocksOf (log i)) := h.inv.workers.streams i
  constructor
  case nonempty =>
    intro sub hsub
    obtain ⟨j, hj⟩ := List.mem_iff_getElem?.mp hsub
    exact h.inv.entries.nonempty hj
  case indices =>
    apply List.ext_getElem?
    intro j
    simp only [List.getElem?_map]
    cases hj : (log i)[j]? with
    | none => simp [List.getElem?_eq_none_iff.mp hj]
    | some sub =>
      obtain ⟨hplan, hindex⟩ := h.inv.entries.key hj
      simp [List.getElem?_range (LogInv.lt_length hj), hplan, hindex]
  case heights => exact hrange.heights
  case within => exact hrange.stops
  case fits => exact h.cut.fits i
  case last =>
    intro sub hsub
    obtain ⟨j, hj⟩ := List.mem_iff_getElem?.mp hsub
    exact ⟨fun hlast => (h.inv.entries.last hj hlast).2, h.cut.marked i sub hsub⟩

structure Claims (plan : FetchPlan) (st : FetchState × History) : Prop where
  once : st.2.claims.map Prod.snd
    = (List.range (min st.1.next plan.chunkCount)).map fun i => (i, plan.chunkRange i)
  tile : plan.chunkCount ≤ st.1.next →
    (st.2.claims.flatMap fun (_, _, first, last) => List.range' first (last + 1 - first))
      = List.range' plan.start (plan.stop + 1 - plan.start)
  complete : ∀ stats, st.1.result = some (.ok stats) → plan.chunkCount ≤ st.1.next

theorem claimedBy_step (hstep : step plan s e = some s')
    : (∃ k, claimedBy plan s e = some (k, s.next, plan.chunkRange s.next) ∧ s.next < plan.chunkCount
        ∧ s'.next = s.next + 1)
      ∨ claimedBy plan s e = none ∧ min s'.next plan.chunkCount = min s.next plan.chunkCount := by
  cases trans_of_step hstep with
  | @worker k e s' ht =>
    cases ht with
    | claimed hk hlt =>
      exact Or.inl ⟨k, by simp [claimedBy, hk, FetchPlan.claimChunk, Nat.not_le.mpr hlt], hlt, rfl⟩
    | exhausted hk hge =>
      refine Or.inr ⟨by simp [claimedBy, hk, FetchPlan.claimChunk, hge], ?_⟩
      simp only [setWorker]
      omega
    | _ => exact Or.inr ⟨rfl, rfl⟩
  | stage _ ht => cases ht <;> exact Or.inr ⟨rfl, rfl⟩
  | scannerReturns => exact Or.inr ⟨rfl, rfl⟩
  | scannerGone => exact Or.inr ⟨rfl, rfl⟩

theorem claims_once {ok : FetchState × History → FetchEvent → Prop}
    (h : (logged plan budgetBytes).Reach ok st)
    : st.2.claims.map Prod.snd
      = (List.range (min st.1.next plan.chunkCount)).map fun i => (i, plan.chunkRange i) := by
  apply h.invariant
  . rintro ⟨s, hist⟩ ⟨rfl, rfl⟩
    simp [init]
  . intro st e st' ih _ hlogged
    obtain ⟨hstep, -, hclaims⟩ := logged_step hlogged
    rcases claimedBy_step hstep with ⟨k, hclaim, hlt, hnext⟩ | ⟨hnone, hnext⟩
    . have hmin : min st'.1.next plan.chunkCount = st.1.next + 1 := by omega
      rw [Nat.min_eq_left (Nat.le_of_lt hlt)] at ih
      rw [hclaims, hclaim, hmin, List.range_succ, List.map_append, List.map_append, ih]
      rfl
    . rw [hclaims, hnone, hnext, Option.toList_none, List.append_nil, ih]

theorem Sound.done (h : Sound plan such log s) (hok : s.result = some (.ok stats))
    : s.reorder.next.1 = plan.chunkCount ∧ ∀ i < plan.chunkCount, Complete log i := by
  have hnext : s.reorder.next.1 = plan.chunkCount := by
    rw [← h.inv.release.plans]
    exact h.inv.release.complete stats hok
  exact ⟨hnext, hnext ▸ h.inv.release.done⟩

theorem claims_of_logged (h : (logged plan budgetBytes).Reach (fun st e => Serves such st.1 e) st)
    : Claims plan st := by
  have honce := claims_once h
  have hsound := sound_of_logged h
  constructor
  case once => exact honce
  case tile =>
    intro hall
    rw [Nat.min_eq_right hall] at honce
    rw [← plan.heights_tile]
    calc st.2.claims.flatMap (fun (_, _, first, last) => List.range' first (last + 1 - first))
      _ = (st.2.claims.map Prod.snd).flatMap
            (fun (_, first, last) => List.range' first (last + 1 - first)) := by
        rw [List.flatMap_map]
      _ = (List.range plan.chunkCount).flatMap plan.heights := by
        rw [honce, List.flatMap_map]
        rfl
  case complete =>
    intro stats hok
    obtain ⟨-, hdone⟩ := hsound.done hok
    by_contra hlt
    obtain ⟨sub, hsub, -⟩ := hdone st.1.next (Nat.lt_of_not_le hlt)
    rw [hsound.inv.workers.unclaimed _ (Nat.le_refl _)] at hsub
    cases hsub

end Pieces

section Released

theorem Sound.heights_done (h : Sound plan such log s) (hlast : (log i).getLast? = some sub)
    (hisLast : sub.isLast = true) : (blocksOf (log i)).map CompactBlock.height = plan.heights i := by
  have hrange : InRange plan such i (blocksOf (log i)) := h.inv.workers.streams i
  obtain ⟨b, hb, hheight⟩ := Option.map_eq_some_iff.mp (blocksOf_last h.inv.entries hlast hisLast)
  have := hrange.heights.last hb
  rw [hrange.heights, FetchPlan.heights]
  congr 1
  omega

theorem Sound.heights_range (h : Sound plan such log s) (hn : n ≤ s.reorder.next.1)
    : ((List.range n).flatMap fun k => blocksOf (log k)).map CompactBlock.height
      = (List.range n).flatMap plan.heights := by
  rw [List.map_flatMap]
  apply List.flatMap_congr
  intro i hi
  obtain ⟨sub, hsub, hlast⟩ := h.inv.release.done i (Nat.lt_of_lt_of_le (List.mem_range.mp hi) hn)
  exact h.heights_done hsub hlast

theorem Sound.next_le (h : Sound plan such log s) : s.reorder.next.1 ≤ plan.chunkCount := by
  cases hnext : s.reorder.next.1 with
  | zero => exact Nat.zero_le _
  | succ i =>
    obtain ⟨sub, hsub, -⟩ := h.inv.release.done i (by omega)
    exact h.inv.entries.bounded (List.ne_nil_of_mem (List.mem_of_getLast? hsub))

theorem Sound.consecutive (h : Sound plan such log s) (j : Nat)
    : Consecutive plan.start (releasedOf log (s.reorder.next.1, j)) := by
  have hheights := h.heights_range (Nat.le_refl _)
  rw [plan.flatMap_heights h.next_le] at hheights
  have hrange : InRange plan such _ (blocksOf (log s.reorder.next.1)) := h.inv.workers.streams _
  have htake : blocksOf ((log s.reorder.next.1).take j) <+: blocksOf (log s.reorder.next.1) := by
    rw [← List.take_append_drop j (log s.reorder.next.1), blocksOf_append]
    simp
  unfold releasedOf
  generalize (List.range s.reorder.next.1).flatMap _ = before at hheights ⊢
  have hlength : before.length
      = min (s.reorder.next.1 * plan.chunkBlocks) (plan.stop + 1 - plan.start) := by
    have := congrArg List.length hheights
    simpa using this
  have hbefore : Consecutive plan.start before := by rw [Consecutive, hheights, hlength]
  apply hbefore.append
  cases hlog : log s.reorder.next.1 with
  | nil =>
    simp [blocksOf, Consecutive]
  | cons sub subs =>
    have hlt := (plan.lt_chunkCount_iff _).mp (h.inv.entries.bounded (hlog ▸ List.cons_ne_nil sub subs))
    have hstart : plan.start + before.length = (plan.chunkRange s.reorder.next.1).1 := by
      simp only [hlength, FetchPlan.chunkRange]
      omega
    rw [hstart, ← hlog]
    exact hrange.heights.shorten htake

theorem Sound.such_released (h : Sound plan such log s) (hb : b ∈ releasedOf log next) : such b := by
  have hall : ∀ i, ∀ b ∈ blocksOf (log i), such b := fun i =>
    (show InRange plan such i (blocksOf (log i)) from h.inv.workers.streams i).such
  unfold releasedOf at hb
  rcases List.mem_append.mp hb with hb | hb
  . obtain ⟨i, -, hb⟩ := List.mem_flatMap.mp hb
    exact hall i b hb
  . apply hall next.1 b
    rw [← List.take_append_drop next.2 (log next.1), blocksOf_append]
    exact List.mem_append_left _ hb

theorem Sound.verifies (h : Sound plan such log s)
    (hlink : ∀ a b, such a → such b → b.height = a.height + 1 → Follows a b)
    (hphase : s.reorder.phase = .draining) (hsub : sub ∈ s.reorder.pending)
    (hkey : (sub.planIndex, sub.subIndex) = s.reorder.next)
    : ∃ c, s.reorder.continuity.verifyBlocks sub.blocks = .ok c := by
  have hfrontier := h.inv.release.frontier
  simp only [inHand, hphase, List.append_nil] at hfrontier
  have hlog : (log s.reorder.next.1)[s.reorder.next.2]? = some sub := by
    rw [← hkey]
    exact h.inv.release.pending sub hsub
  have hreleased : released s ++ sub.blocks
      = releasedOf log (s.reorder.next.1, s.reorder.next.2 + 1) := by
    rw [h.inv.release.released, releasedOf_succ hlog]
  apply Continuity.verifyBlocks_of_linked hfrontier
  . rw [hreleased]
    apply (h.consecutive _).linked
    exact fun a ha b hb => hlink a b (h.such_released ha) (h.such_released hb)
  . intro b hb
    have hrange : InRange plan such _ (blocksOf (log s.reorder.next.1)) := h.inv.workers.streams _
    have hmem : b ∈ blocksOf (log s.reorder.next.1) :=
      List.mem_flatMap.mpr ⟨sub, List.mem_of_getElem? hlog, hb⟩
    exact Nat.lt_of_le_of_lt (hrange.stops b hmem) (chunkRange_lt plan _)

theorem Sound.released_all (h : Sound plan such log s) (hok : s.result = some (.ok stats))
    : (released s).map CompactBlock.height
      = List.range' plan.start (plan.stop + 1 - plan.start) := by
  obtain ⟨hnext, -⟩ := h.done hok
  have hnone : log plan.chunkCount = [] := by
    by_contra hne
    exact absurd (h.inv.entries.bounded hne) (Nat.lt_irrefl _)
  have hheights := h.heights_range (Nat.le_refl _)
  rw [h.inv.release.released, releasedOf, hnext, hnone, List.take_nil, blocksOf, List.flatMap_nil,
    List.append_nil, ← plan.heights_tile, ← hnext]
  exact hheights

end Released

section Ends

theorem Sound.ended (h : Sound plan such log s) (hrunning : s.result = none)
    (hworkers : ∀ w ∈ s.workers, ¬w.Failed) (hphase : s.reorder.phase = .ended)
    : s.reorder.next.1 = plan.chunkCount := by
  have hfine : ¬Broken s := by
    rintro (hover | ⟨w, hw, hfailed⟩)
    . exact hover hrunning
    . exact hworkers w hw hfailed
  obtain ⟨hchannel, hall⟩ := h.flow.ended hphase
  by_contra hne
  have hlt : s.reorder.next.1 < plan.chunkCount := Nat.lt_of_le_of_ne h.next_le hne
  have hcrew : 0 < s.workers.length := by
    rw [h.flow.crew]
    exact workerCount_pos plan
  have hmem : s.workers[0] ∈ s.workers := List.getElem_mem hcrew
  have hidle : s.workers[0].isIdle = true := by
    have hfinished := hall _ hmem
    have hfailed := hworkers _ hmem
    cases hw : s.workers[0] with
    | finished result =>
      cases result with
      | ok => rfl
      | error e =>
        rw [hw] at hfailed
        exact absurd trivial hfailed
    | joined => rfl
    | _ =>
      rw [hw] at hfinished
      cases hfinished
  have hclaimed : plan.chunkCount ≤ s.next := (h.flow.idle _ hmem hidle).resolve_left hfine
  rcases (h.flow.claimed _ (Nat.lt_of_lt_of_le hlt hclaimed) hlt).resolve_left hfine with
    ⟨w, hw, c, hc, -⟩ | hdone
  . have := hall w hw
    cases w <;> simp [Worker.isFinished, Worker.cursor?] at this hc
  . exact not_complete h.inv h.flow hrunning hchannel (Or.inr hphase) hdone

theorem Sound.no_error (h : Sound plan such log s)
    (hlink : ∀ a b, such a → such b → b.height = a.height + 1 → Follows a b)
    (hdetector : s.reorder.detector = none) (hreceiver : s.queue.receiverGone = false)
    (hworkers : ∀ w ∈ s.workers, ¬w.Failed) (hrunning : s.result = none)
    (hpanic : ∀ k detail, e ≠ .panicked k detail) (hstep : step plan s e = some s')
    : ∀ error, s'.result ≠ some (.error error) := by
  have hkeeps : s'.result = none → ∀ error, s'.result ≠ some (.error error) := by
    intro hnone error herror
    rw [hnone] at herror
    cases herror
  cases trans_of_step hstep with
  | worker ht => cases ht <;> exact hkeeps hrunning
  | stage _ ht =>
    cases ht with
    | stalls hd =>
      rw [hdetector] at hd
      cases hd
    | collapses hphase hchannel hd =>
      rw [hdetector] at hd
      cases hd
    | rejected hphase hsub hkey hverify =>
      obtain ⟨c, hc⟩ := h.verifies hlink hphase hsub hkey
      rw [hverify] at hc
      cases hc
    | refused hgone =>
      rw [hreceiver] at hgone
      cases hgone
    | givenUp hk hfailed => exact absurd hfailed (hworkers _ (List.mem_of_getElem? hk))
    | panicked => exact absurd rfl (hpanic _ _)
    | incomplete hphase hplans =>
      rw [h.inv.release.plans, h.ended hrunning hworkers hphase] at hplans
      exact absurd rfl hplans
    | completed hphase hplans => exact nofun
    | _ => exact hkeeps hrunning
  | scannerReturns => exact hkeeps hrunning
  | scannerGone => exact hkeeps hrunning

theorem busy_of_advances (h : advances s e = true) : stutters s e = false := by
  cases e with
  | repoll k =>
    simp only [advances] at h
    simp only [stutters]
    split at h
    . next hk => simpa [hk] using h
    . cases h
  | scannerReturns => simpa [advances, stutters] using h
  | starve now => cases h
  | scannerGone => cases h
  | _ => rfl

theorem Sound.winds_up (h : Sound plan such log s) (hbudget : 0 < s.queue.budgetBytes)
    (hrunning : s.result = none) (hworkers : ∀ w ∈ s.workers, ¬w.Failed)
    (hreceiver : s.queue.receiverGone = false) (hall : plan.chunkCount ≤ s.reorder.next.1)
    : ∃ e, stutters s e = false ∧ (step plan s e).isSome = true := by
  have hfree : ∀ w ∈ s.workers, w.cursor? = none := by
    intro w hw
    cases hc : w.cursor? with
    | none => rfl
    | some c =>
      have howns := h.inv.workers.owns w hw c hc
      obtain ⟨sub, hsub, hlast⟩ :=
        h.inv.release.done c.planIndex (Nat.lt_of_lt_of_le howns.inPlan hall)
      have := howns.unfinished sub (List.mem_of_getLast? hsub)
      rw [hlast] at this
      cases this
  by_cases hended : s.reorder.phase = .ended
  . by_cases hjoined : s.workers.all Worker.isJoined = true
    . refine ⟨.finish, rfl, ?_⟩
      simp only [step, hrunning, Option.isSome_none, stageStep, finishStep, hended, hjoined,
        Bool.false_eq_true, if_false, if_true]
      split <;> rfl
    . obtain ⟨w, hw, hnot⟩ : ∃ w ∈ s.workers, ¬w.isJoined = true := by simpa using hjoined
      obtain ⟨k, hk⟩ := List.mem_iff_getElem?.mp hw
      have hfinished := (h.flow.ended hended).2 w hw
      have hfine := hworkers w hw
      cases w with
      | finished result =>
        cases result with
        | ok => exact ⟨.join k, rfl, by simp [step, hrunning, stageStep, joinStep, hk]⟩
        | error e => exact absurd trivial hfine
      | joined => exact absurd rfl hnot
      | _ => cases hfinished
  . by_cases hidle : s.reorder.phase = .receiving ∧ s.channel = []
    . by_cases hfinished : s.workers.all Worker.isFinished = true
      . refine ⟨.releaseEnds, rfl, ?_⟩
        simp [step, hrunning, stageStep, releaseEndsStep, hidle.1, hidle.2, hfinished]
      . obtain ⟨w, hw, hnot⟩ : ∃ w ∈ s.workers, ¬w.isFinished = true := by simpa using hfinished
        obtain ⟨k, hk⟩ := List.mem_iff_getElem?.mp hw
        have hnone := hfree w hw
        cases w with
        | connecting resume =>
          cases resume with
          | none => exact ⟨.input k .connected, rfl, by simp [step, hk, Worker.input]⟩
          | some place => cases hnone
        | claiming => exact ⟨.claim k, rfl, by simp [step, claimStep, hk]⟩
        | finished result => exact absurd rfl hnot
        | joined => exact absurd rfl hnot
        | _ => cases hnone
    . have hgo : GoesOn plan s := stage_goesOn hrunning hbudget hreceiver ⟨hidle, hended⟩
      obtain ⟨e, hadvances, hstep⟩ := hgo
      exact ⟨e, busy_of_advances hadvances, hstep⟩

theorem Sound.goes_on (h : Sound plan such log s) (hbudget : 0 < s.queue.budgetBytes)
    (hrunning : s.result = none) (hworkers : ∀ w ∈ s.workers, ¬w.Failed)
    (hreceiver : s.queue.receiverGone = false)
    : ∃ e, stutters s e = false ∧ (step plan s e).isSome = true := by
  by_cases hleft : s.reorder.next.1 < plan.chunkCount
  . obtain ⟨e, hadvances, hstep⟩ :=
      goesOn_of_inv h.inv h.flow hbudget hrunning hworkers hreceiver hleft
    exact ⟨e, busy_of_advances hadvances, hstep⟩
  . exact h.winds_up hbudget hrunning hworkers hreceiver (Nat.le_of_not_lt hleft)

end Ends

section Executions

variable {budgetBytes : Nat} {r : (machine plan budgetBytes).Execution}

def Arrives (r : (machine plan budgetBytes).Execution) (b : CompactBlock) : Prop :=
  ∃ n k deadline, r.event n = .input k (.block b deadline)

structure Undisturbed (r : (machine plan budgetBytes).Execution) : Prop where
  answers : ∀ n, answersRequest (r.state n) (r.event n) = true
  keepsOn : ∀ n, ∀ w ∈ (r.state n).workers, ¬w.Failed
  noPanic : ∀ n k detail, r.event n ≠ .panicked k detail
  receives : ∀ n, r.event n ≠ .scannerGone

def OneChain (r : (machine plan budgetBytes).Execution) : Prop :=
  ∀ a b, Arrives r a → Arrives r b → b.height = a.height + 1 → Follows a b

def Prompt (r : (machine plan budgetBytes).Execution) : Prop :=
  r.Fair fun s e => stutters s e = false

theorem Undisturbed.quiet (h : Undisturbed r) (hfailover : plan.failover = none) (n : Nat)
    : (r.state n).reorder.detector = none ∧ (r.state n).queue.receiverGone = false := by
  induction n with
  | zero =>
    have hstart : r.state 0 = init plan budgetBytes := r.start
    simp [hstart, init, hfailover, ChunkQueue.new]
  | succ n ih =>
    have hstep : step plan (r.state n) (r.event n) = some (r.state (n + 1)) := r.step n
    have hstays := h.receives n
    generalize r.state (n + 1) = s' at hstep ⊢
    generalize r.event n = e at hstep hstays
    cases trans_of_step hstep with
    | worker ht => cases ht <;> exact ih
    | stage _ ht =>
      cases ht with
      | ticks hphase hchannel hd => exact ⟨hd ih.1, ih.2⟩
      | received hphase hchannel hd => exact ⟨hd ih.1, ih.2⟩
      | _ => exact ih
    | scannerReturns => exact ih
    | scannerGone => exact absurd rfl hstays

theorem Undisturbed.sound (h : Undisturbed r) (n : Nat)
    : ∃ log, Sound plan (Arrives r) log (r.state n) := by
  have hserves : ∀ n, Serves (Arrives r) (r.state n) (r.event n) :=
    fun n => ⟨h.answers n, fun k b deadline hevent => ⟨n, k, deadline, hevent⟩⟩
  obtain ⟨hist, hlogged⟩ := logged_of_reach (r.reach hserves n)
  exact ⟨hist.log, sound_of_logged hlogged⟩

theorem Undisturbed.no_error (h : Undisturbed r) (hfailover : plan.failover = none)
    (hchain : OneChain r) (n : Nat) : ∀ error, (r.state n).result ≠ some (.error error) := by
  induction n with
  | zero =>
    have hstart : r.state 0 = init plan budgetBytes := r.start
    simp [hstart, init]
  | succ n ih =>
    have hstep : step plan (r.state n) (r.event n) = some (r.state (n + 1)) := r.step n
    obtain ⟨log, hsound⟩ := h.sound n
    obtain ⟨hdetector, hreceiver⟩ := h.quiet hfailover n
    by_cases hrunning : (r.state n).result = none
    . exact hsound.no_error hchain hdetector hreceiver (h.keepsOn n) hrunning (h.noPanic n) hstep
    . rw [result_stays hrunning hstep]
      exact ih

theorem Undisturbed.returns (h : Undisturbed r) (hfailover : plan.failover = none)
    (hchain : OneChain r) (hprompt : Prompt r) : ∃ n, (r.state n).result ≠ none := by
  by_contra hnone
  have hrunning : ∀ n, (r.state n).result = none := by simpa using hnone
  apply hnone
  have hlowers : ∀ n, Lowers plan (r.state n) (r.event n) (r.state (n + 1)) := by
    intro n
    obtain ⟨log, hsound⟩ := h.sound n
    exact lowers_of_step hsound.inv hsound.cut (hrunning n) (h.answers n) (r.step n)
      (h.keepsOn (n + 1)) (h.no_error hfailover hchain (n + 1))
  apply r.eventually (fun s => s.result ≠ none) hprompt (rank plan)
  case hrank => exact fun n => Nat.le_trans (Nat.le_add_right _ _) (hlowers n)
  case hbusy =>
    intro n hbusy
    have := hlowers n
    simp only [Lowers, hbusy, Bool.false_eq_true, if_false] at this
    exact this
  case hgo =>
    intro n _
    obtain ⟨log, hsound⟩ := h.sound n
    obtain ⟨-, hreceiver⟩ := h.quiet hfailover n
    have hreach : (machine plan budgetBytes).Reachable (r.state n) := r.reach (fun _ => trivial) n
    exact hsound.goes_on (budgetBytes_pos hreach) (hrunning n) (h.keepsOn n) hreceiver

end Executions

/--
What a fetch does with streams that deliver the heights they are asked for and may be cut anywhere.
The release also checks each block's previous hash, so to succeed the blocks must be of one chain.
-/
theorem fetch_delivers (plan : FetchPlan) (budgetBytes : Nat) (hfailover : plan.failover = none)
    : (∀ st, (logged plan budgetBytes).Reach (fun st e => answersRequest st.1 e = true) st →
        Claims plan st ∧ ∀ i, SubChunks plan i (st.2.log i))
      ∧ ∀ r : (machine plan budgetBytes).Execution, Undisturbed r → OneChain r → Prompt r →
        ∃ n stats, (r.state n).result = some (.ok stats)
          ∧ (released (r.state n)).map CompactBlock.height
            = List.range' plan.start (plan.stop + 1 - plan.start) := by
  constructor
  . intro st hreach
    have hserves : (logged plan budgetBytes).Reach (fun st e => Serves (fun _ => True) st.1 e) st :=
      hreach.mono fun st e hanswers => ⟨hanswers, fun _ _ _ _ => trivial⟩
    exact ⟨claims_of_logged hserves, (sound_of_logged hserves).subChunks⟩
  . intro r hundisturbed hchain hprompt
    obtain ⟨n, hn⟩ := hundisturbed.returns hfailover hchain hprompt
    obtain ⟨log, hsound⟩ := hundisturbed.sound n
    cases hresult : (r.state n).result with
    | none => exact absurd hresult hn
    | some result =>
      cases result with
      | error error => exact absurd hresult (hundisturbed.no_error hfailover hchain n error)
      | ok stats => exact ⟨n, stats, hresult, hsound.released_all hresult⟩

section Samples

def calm (s : FetchState) (e : FetchEvent) : Bool :=
  answersRequest s e && s.workers.all keepsOn &&
    match e with
    | .panicked _ _ => false
    | .scannerGone => false
    | _ => true
where
  keepsOn : Worker → Bool
    | .finished (.error _) => false
    | _ => true

theorem undisturbed_of_calm {r : (machine plan budgetBytes).Execution}
    (h : ∀ n, calm (r.state n) (r.event n) = true) : Undisturbed r := by
  have hcalm : ∀ n, (answersRequest (r.state n) (r.event n) = true
      ∧ ∀ w ∈ (r.state n).workers, calm.keepsOn w = true)
      ∧ (∀ k detail, r.event n ≠ .panicked k detail) ∧ r.event n ≠ .scannerGone := by
    intro n
    have hn := h n
    simp only [calm, Bool.and_eq_true, List.all_eq_true] at hn
    refine ⟨hn.1, fun k detail hevent => ?_, fun hevent => ?_⟩
    . simp [hevent] at hn
    . simp [hevent] at hn
  constructor
  case answers => exact fun n => (hcalm n).1.1
  case keepsOn =>
    intro n w hw hfailed
    have hkeeps := (hcalm n).1.2 w hw
    cases w with
    | finished result =>
      cases result with
      | ok => exact hfailed
      | error e => cases hkeeps
    | _ => exact hfailed
  case noPanic => exact fun n => (hcalm n).2.1
  case receives => exact fun n => (hcalm n).2.2

theorem stutters_of_over (hover : s.result ≠ none) (hworkers : ∀ w ∈ s.workers, w.isFinished = true)
    (hflight : s.queue.inFlight = []) (hstep : step plan s e = some s') : stutters s e = true := by
  have hnone : ∀ {k : Nat} {w : Worker}, s.workers[k]? = some w → w.isFinished = false →
      stutters s e = true := by
    intro k w hk hbusy
    have := hworkers w (List.mem_of_getElem? hk)
    rw [hbusy] at this
    cases this
  cases trans_of_step hstep with
  | worker ht =>
    cases ht with
    | input hk hin => exact hnone hk (input_busy hin)
    | claimed hk => exact hnone hk rfl
    | exhausted hk => exact hnone hk rfl
    | passes hk => exact hnone hk rfl
    | waits hk => exact hnone hk rfl
    | acquired hk => exact hnone hk rfl
    | repolled hk => exact hnone hk rfl
    | waitsOn hk => exact hnone hk rfl
    | sent hk => exact hnone hk rfl
    | quits hk => exact hnone hk rfl
  | stage hrunning => exact absurd hrunning hover
  | scannerReturns => simp [stutters, hflight]
  | scannerGone => rfl

theorem exists_undisturbed {ok : FetchState → FetchEvent → Bool} {es : List FetchEvent}
    {last : FetchEvent} (hok : ∀ s e, ok s e = true → calm s e = true)
    (hrun : (machine plan budgetBytes).runChecked ok (init plan budgetBytes) (es ++ [last]) = some s)
    (hlast : ∀ s, stutters s last = false) (hend : ok s .scannerReturns = true)
    (hover : s.result ≠ none) (hworkers : ∀ w ∈ s.workers, w.isFinished = true)
    (hflight : s.queue.inFlight = [])
    : ∃ r : (machine plan budgetBytes).Execution, Undisturbed r ∧ Prompt r
      ∧ (∀ n, ok (r.state n) (r.event n) = true) ∧ ∃ n, r.state n = s := by
  have hloop : (machine plan budgetBytes).step s .scannerReturns = some s := by
    have hsame : { s with queue := { s.queue with inFlight := s.queue.inFlight.tail } } = s := by
      rw [hflight, List.tail_nil, ← hflight]
    exact congrArg some hsame
  obtain ⟨r, hall, hrest, hevent⟩ := Machine.exists_execution rfl hrun hloop hend
  rw [List.length_append, List.length_singleton] at hrest
  refine ⟨r, undisturbed_of_calm fun n => hok _ _ (hall n), ?_, hall, _, hrest _ (Nat.le_refl _)⟩
  apply r.fair_of_rest es.length
  . rw [hevent es.length last (by simp)]
    exact hlast _
  . intro n hn e s' hstep hbusy
    rw [hrest n hn] at hstep hbusy
    rw [stutters_of_over hover hworkers hflight hstep] at hbusy
    cases hbusy

def unhashed : FetchEvent → Bool
  | .input _ (.block b _) => b.prevHash.isEmpty
  | _ => true

theorem oneChain_of_unhashed {r : (machine plan budgetBytes).Execution}
    (h : ∀ n, unhashed (r.event n) = true) : OneChain r := by
  rintro a b - ⟨n, k, deadline, hevent⟩ hheight
  have hn := h n
  rw [hevent] at hn
  exact ⟨hheight, fun hne => absurd (List.isEmpty_iff.mp hn) hne⟩

def answered (blocks : List CompactBlock) : List FetchEvent :=
  blocks.map fun b => .input 0 (.block b false)

def cutStream : List FetchEvent :=
  [.input 0 .connected, .claim 0, .input 0 .opened] ++ answered (tenBlocksAnswer.take 5)
    ++ [.input 0 (.status "reset"), .gate 0, .send 0, .input 0 .connected, .input 0 .opened]
    ++ answered (tenBlocksAnswer.drop 5)
    ++ [.input 0 .endOfStream, .gate 0, .recv 0.0, .drain, .release, .drain, .send 0, .recv 0.0,
      .drain, .release, .drain, .claim 0, .releaseEnds, .join 0, .scannerReturns, .scannerReturns]

theorem fetch_delivers_tenBlocks
    : (∃ st, (logged tenBlocks 1000000).Reach (fun st e => answersRequest st.1 e = true) st
        ∧ succeeded st.1 = true ∧ Claims tenBlocks st ∧ SubChunks tenBlocks 0 (st.2.log 0))
      ∧ ∃ r : (machine tenBlocks 1000000).Execution, Undisturbed r ∧ OneChain r ∧ Prompt r
        ∧ ∃ n stats, (r.state n).result = some (.ok stats)
          ∧ (released (r.state n)).map CompactBlock.height = List.range' 100 10 := by
  obtain ⟨hpieces, hdelivers⟩ := fetch_delivers tenBlocks 1000000 rfl
  constructor
  . have hrun : ∃ s, (machine tenBlocks 1000000).runChecked answersRequest (init tenBlocks 1000000)
        (cutStream ++ [.finish]) = some s ∧ succeeded s = true := ⟨_, rfl, rfl⟩
    obtain ⟨s, hs, hok⟩ := hrun
    obtain ⟨hist, hreach⟩ := logged_of_reach (Machine.reach_of_runChecked (.start rfl) hs)
    obtain ⟨hclaims, hsubs⟩ := hpieces (s, hist) hreach
    exact ⟨(s, hist), hreach, hok, hclaims, hsubs 0⟩
  . have hrun : ∃ s, (machine tenBlocks 1000000).runChecked (fun s e => calm s e && unhashed e)
        (init tenBlocks 1000000) (cutStream ++ [.finish]) = some s
        ∧ (calm s .scannerReturns && unhashed .scannerReturns) = true ∧ s.result.isSome = true
        ∧ s.workers.all Worker.isFinished = true ∧ s.queue.inFlight = [] :=
      ⟨_, rfl, rfl, rfl, rfl, rfl⟩
    obtain ⟨s, hs, hend, hover, hworkers, hflight⟩ := hrun
    obtain ⟨r, hundisturbed, hprompt, hall, -⟩ := exists_undisturbed
      (fun s e hok => (Bool.and_eq_true_iff.mp hok).1) hs (fun _ => rfl) hend
      (Option.isSome_iff_ne_none.mp hover) (List.all_eq_true.mp hworkers) hflight
    have hchain : OneChain r := oneChain_of_unhashed fun n => (Bool.and_eq_true_iff.mp (hall n)).2
    exact ⟨r, hundisturbed, hchain, hprompt, hdelivers r hundisturbed hchain hprompt⟩

theorem result_stays_on (r : (machine plan budgetBytes).Execution)
    (h : (r.state n).result = some result) (hle : n ≤ m) : (r.state m).result = some result := by
  induction hle with
  | refl => exact h
  | @step m _ ih =>
    have hstep : step plan (r.state m) (r.event m) = some (r.state (m + 1)) := r.step m
    rw [result_stays (by simp [ih]) hstep]
    exact ih

def forked : List CompactBlock :=
  [{ height := 700, hash := [1], prevHash := [], encodedLen := 100, height_lt := by decide },
    { height := 701, hash := [3], prevHash := [2], encodedLen := 100, height_lt := by decide }]

def twoBlocks : FetchPlan where
  start := 700
  stop := 701
  chunkBlocks := 16
  streams := 1
  retriesPerChunk := 3
  splitBytes := 1048576
  failover := none
  start_le := by decide
  stop_lt := by decide
  chunkBlocks_pos := by decide

/-- Streams that deliver the heights they are asked for do not make a fetch succeed. -/
theorem forked_never_delivered
    : ∃ r : (machine twoBlocks 1000000).Execution, Undisturbed r ∧ Prompt r
      ∧ twoBlocks.failover = none ∧ ∀ n stats, (r.state n).result ≠ some (.ok stats) := by
  have hrun : ∃ s e, (machine twoBlocks 1000000).runChecked calm (init twoBlocks 1000000)
      ([.input 0 .connected, .claim 0, .input 0 .opened] ++ answered forked
        ++ [.input 0 .endOfStream, .gate 0, .send 0, .claim 0, .recv 0.0] ++ [.drain]) = some s
      ∧ calm s .scannerReturns = true ∧ s.result = some (.error e)
      ∧ s.workers.all Worker.isFinished = true ∧ s.queue.inFlight = [] :=
    ⟨_, _, rfl, rfl, rfl, rfl, rfl⟩
  obtain ⟨s, error, hs, hend, hresult, hworkers, hflight⟩ := hrun
  obtain ⟨r, hundisturbed, hprompt, -, m, hm⟩ := exists_undisturbed (fun _ _ hok => hok) hs
    (fun _ => rfl) hend (by simp [hresult]) (List.all_eq_true.mp hworkers) hflight
  refine ⟨r, hundisturbed, hprompt, rfl, fun n stats hok => ?_⟩
  rw [← hm] at hresult
  -- Whichever comes first would stay.
  have hlater := result_stays_on r hok (Nat.le_max_left n m)
  rw [result_stays_on r hresult (Nat.le_max_right n m)] at hlater
  cases hlater

end Samples

end Fetch
end Slipstream
