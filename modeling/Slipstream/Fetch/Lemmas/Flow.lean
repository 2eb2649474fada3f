import Slipstream.Fetch.Lemmas.System

/-!
This module contains what keeps the fetch going: a plan chunk that was claimed has a worker on it
until all of it is handed over, and what is handed over is in the channel, in the reorder buffer or
at the queue until it is released.
-/

namespace Slipstream

namespace Worker

variable {plan : FetchPlan} {w w' : Worker}

def StaysOn (i : Nat) (w : Worker) : Prop :=
  w.Failed ∨ ∃ c, w.cursor? = some c ∧ c.planIndex = i

def isIdle : Worker → Bool
  | .finished (.ok ()) => true
  | .joined => true
  | _ => false

theorem retry_staysOn (plan : FetchPlan) (c : PlanChunkCursor) (attempt : Nat) (detail : String)
    : (retry plan c attempt detail).StaysOn c.planIndex
      ∧ (retry plan c attempt detail).isIdle = false := by
  unfold retry
  dsimp only
  generalize (if c.emittedThisAttempt = true then 0 else attempt) = n
  split
  . exact ⟨Or.inl trivial, rfl⟩
  . exact ⟨Or.inr ⟨c, rfl, rfl⟩, rfl⟩

theorem flushThenFail_staysOn (plan : FetchPlan) (a : Attempt)
    (tail : Option (List CompactBlock × Nat)) (detail : String)
    : (flushThenFail plan a tail detail).StaysOn a.cursor.planIndex
      ∧ (flushThenFail plan a tail detail).isIdle = false := by
  unfold flushThenFail
  repeat' split
  . exact ⟨Or.inr ⟨a.cursor, rfl, rfl⟩, rfl⟩
  all_goals exact retry_staysOn ..

theorem input_staysOn (h : w.input plan i = some w')
    : (∀ c, w.cursor? = some c → w'.StaysOn c.planIndex) ∧ w'.isIdle = false := by
  unfold input at h
  split at h
  all_goals cases h
  . exact ⟨nofun, rfl⟩
  . refine ⟨?_, rfl⟩
    rintro c ⟨rfl⟩
    exact Or.inr ⟨_, rfl, rfl⟩
  . exact ⟨fun _ _ => Or.inl trivial, rfl⟩
  . refine ⟨?_, rfl⟩
    rintro c ⟨rfl⟩
    exact Or.inr ⟨_, rfl, rfl⟩
  . obtain ⟨hstays, hidle⟩ := retry_staysOn plan _ _ _
    refine ⟨?_, hidle⟩
    rintro c ⟨rfl⟩
    exact hstays
  . next a sp b deadline =>
    unfold onBlock
    constructor
    . rintro c ⟨rfl⟩
      repeat' split
      all_goals exact Or.inr ⟨_, rfl, rfl⟩
    . repeat' split
      all_goals rfl
  . obtain ⟨hstays, hidle⟩ := flushThenFail_staysOn plan _ _ _
    refine ⟨?_, hidle⟩
    rintro c ⟨rfl⟩
    exact hstays
  . obtain ⟨hstays, hidle⟩ := flushThenFail_staysOn plan _ _ _
    refine ⟨?_, hidle⟩
    rintro c ⟨rfl⟩
    exact hstays
  . next a sp =>
    have hflush := fun tail detail => flushThenFail_staysOn plan a tail detail
    unfold endOfStream
    dsimp only
    constructor
    . rintro c ⟨rfl⟩
      repeat' split
      . exact Or.inr ⟨_, rfl, rfl⟩
      all_goals exact (hflush _ _).1
    . repeat' split
      . rfl
      all_goals exact (hflush _ _).2

end Worker

namespace Fetch

def Owned (s : FetchState) (i : Nat) : Prop :=
  ∃ w ∈ s.workers, ∃ c, w.cursor? = some c ∧ c.planIndex = i

def Complete (log : Log) (i : Nat) : Prop := ∃ sub, (log i).getLast? = some sub ∧ sub.isLast = true

def Broken (s : FetchState) : Prop := s.result ≠ none ∨ ∃ w ∈ s.workers, w.Failed

def Underway (s : FetchState) (sub : SubChunk) : Prop :=
  sub ∈ s.channel ∨ sub ∈ s.reorder.pending ∨ s.reorder.phase = .sending sub

structure FlowInv (plan : FetchPlan) (log : Log) (s : FetchState) : Prop where
  floor : s.floor = s.reorder.next.1
  crew : s.workers.length = plan.workerCount
  claimed : ∀ i < s.next, i < plan.chunkCount → Broken s ∨ Owned s i ∨ Complete log i
  idle : ∀ w ∈ s.workers, w.isIdle = true → Broken s ∨ plan.chunkCount ≤ s.next
  waiting : s.reorder.phase = .receiving ∨ s.reorder.phase = .ended →
    ∀ p ∈ s.reorder.pending, (p.planIndex, p.subIndex) ≠ s.reorder.next
  ended : s.reorder.phase = .ended → s.channel = [] ∧ ∀ w ∈ s.workers, w.isFinished = true
  point : ∀ (j : Nat) sub, j < s.reorder.next.2 → (log s.reorder.next.1)[j]? = some sub →
    sub.isLast = false
  underway : s.result = none → ∀ (i j : Nat) sub, (log i)[j]? = some sub →
    s.reorder.next.1 < i ∨ s.reorder.next.1 = i ∧ s.reorder.next.2 ≤ j → Underway s sub

variable {plan : FetchPlan} {spec : StreamSpec} {log log' : Log} {s s' : FetchState} {k : Nat}
  {w w' : Worker} {sub : SubChunk}

theorem Worker.not_failed (hbusy : w.isFinished = false) : ¬w.Failed := by
  cases w <;> simp [Worker.isFinished, Worker.Failed] at hbusy ⊢

theorem Broken.set (h : Broken s) (hk : s.workers[k]? = some w) (hfine : ¬w.Failed)
    (hworkers : s'.workers = s.workers.set k w') (hresult : s'.result = s.result) : Broken s' := by
  rcases h with hover | ⟨x, hx, hfailed⟩
  . exact Or.inl (hresult ▸ hover)
  . right
    obtain ⟨k', hk'⟩ := List.mem_iff_getElem?.mp hx
    have hne : k ≠ k' := by
      rintro rfl
      obtain rfl : w = x := Option.some.inj (hk.symm.trans hk')
      exact hfine hfailed
    refine ⟨x, List.mem_of_getElem? (i := k') ?_, hfailed⟩
    rw [hworkers, List.getElem?_set_ne hne]
    exact hk'

theorem mem_set_self {ws : List Worker} (hk : ws[k]? = some w) : w' ∈ ws.set k w' := by
  obtain ⟨hlt, -⟩ := List.getElem?_eq_some_iff.mp hk
  exact List.mem_set hlt w'

theorem Owned.set (h : Owned s i) (hk : s.workers[k]? = some w)
    (hworkers : s'.workers = s.workers.set k w')
    (hw : ∀ c, w.cursor? = some c → c.planIndex = i → w'.StaysOn i ∨ Complete log i)
    : Broken s' ∨ Owned s' i ∨ Complete log i := by
  obtain ⟨x, hx, c, hc, rfl⟩ := h
  obtain ⟨k', hk'⟩ := List.mem_iff_getElem?.mp hx
  by_cases hne : k = k'
  . subst hne
    obtain rfl : w = x := Option.some.inj (hk.symm.trans hk')
    have hmem : w' ∈ s'.workers := hworkers ▸ mem_set_self hk
    rcases hw c hc rfl with (hfailed | ⟨c', hc', hindex⟩) | hcomplete
    . exact Or.inl (Or.inr ⟨w', hmem, hfailed⟩)
    . exact Or.inr (Or.inl ⟨w', hmem, c', hc', hindex⟩)
    . exact Or.inr (Or.inr hcomplete)
  . refine Or.inr (Or.inl ⟨x, List.mem_of_getElem? (i := k') ?_, c, hc, rfl⟩)
    rw [hworkers, List.getElem?_set_ne hne]
    exact hk'

theorem FlowInv.of_over (hover : s.result ≠ none) (hfloor : s.floor = s.reorder.next.1)
    (hcrew : s.workers.length = plan.workerCount)
    (hwaiting : s.reorder.phase = .receiving ∨ s.reorder.phase = .ended →
      ∀ p ∈ s.reorder.pending, (p.planIndex, p.subIndex) ≠ s.reorder.next)
    (hended : s.reorder.phase = .ended → s.channel = [] ∧ ∀ w ∈ s.workers, w.isFinished = true)
    (hpoint : ∀ (j : Nat) sub, j < s.reorder.next.2 → (log s.reorder.next.1)[j]? = some sub →
      sub.isLast = false)
    : FlowInv plan log s where
  floor := hfloor
  crew := hcrew
  claimed _ _ _ := Or.inl (Or.inl hover)
  idle _ _ _ := Or.inl (Or.inl hover)
  waiting := hwaiting
  ended := hended
  point := hpoint
  underway hrunning := absurd hrunning hover

theorem FlowInv.moves (h : FlowInv plan log s) (hk : s.workers[k]? = some w)
    (hbusy : w.isFinished = false) (hworkers : s'.workers = s.workers.set k w')
    (hfloor : s'.floor = s.floor) (hreorder : s'.reorder = s.reorder)
    (hresult : s'.result = s.result) (hnext : s.next ≤ s'.next)
    (hchannel : ∀ sub ∈ s.channel, sub ∈ s'.channel)
    (hfresh : ∀ i, s.next ≤ i → i < s'.next → i < plan.chunkCount → Owned s' i)
    (hcomplete : ∀ i, Complete log i → Complete log' i)
    (hstays : ∀ c, w.cursor? = some c → w'.StaysOn c.planIndex ∨ Complete log' c.planIndex)
    (hidle : w'.isIdle = true → Broken s' ∨ plan.chunkCount ≤ s'.next)
    (hpoint : ∀ (j : Nat) sub, j < s.reorder.next.2 → (log' s.reorder.next.1)[j]? = some sub →
      sub.isLast = false)
    (hlog : ∀ (i j : Nat) sub, (log' i)[j]? = some sub → (log i)[j]? = some sub ∨ sub ∈ s'.channel)
    : FlowInv plan log' s' := by
  have hbroken : Broken s → Broken s' := fun hb =>
    hb.set hk (Worker.not_failed hbusy) hworkers hresult
  constructor
  case floor => rw [hfloor, hreorder, h.floor]
  case crew => rw [hworkers, List.length_set, h.crew]
  case claimed =>
    intro i hi hcount
    by_cases hnew : s.next ≤ i
    . exact Or.inr (Or.inl (hfresh i hnew hi hcount))
    . rcases h.claimed i (Nat.lt_of_not_le hnew) hcount with hb | howned | hdone
      . exact Or.inl (hbroken hb)
      . exact howned.set hk hworkers fun c hc hindex => hindex ▸ hstays c hc
      . exact Or.inr (Or.inr (hcomplete i hdone))
  case idle =>
    intro x hx hxidle
    rw [hworkers] at hx
    rcases List.mem_or_eq_of_mem_set hx with hx | rfl
    . exact (h.idle x hx hxidle).imp hbroken (Nat.le_trans · hnext)
    . exact hidle hxidle
  case waiting => rw [hreorder]; exact h.waiting
  case ended =>
    rw [hreorder]
    intro hphase
    -- With all workers finished there is none to take this step.
    have := (h.ended hphase).2 w (List.mem_of_getElem? hk)
    rw [hbusy] at this
    cases this
  case point => rw [hreorder]; exact hpoint
  case underway =>
    rw [hresult, hreorder]
    intro hrunning i j sub hsub hpast
    rcases hlog i j sub hsub with hold | hin
    . rcases h.underway hrunning i j sub hold hpast with hin | hin | hin
      . exact Or.inl (hchannel sub hin)
      . exact Or.inr (Or.inl (hreorder ▸ hin))
      . exact Or.inr (Or.inr (hreorder ▸ hin))
    . exact Or.inl hin

theorem FlowInv.stays (h : FlowInv plan log s) (hk : s.workers[k]? = some w)
    (hbusy : w.isFinished = false) (free : Nat)
    (hstays : ∀ c, w.cursor? = some c → w'.StaysOn c.planIndex) (hidle : w'.isIdle = false)
    : FlowInv plan log (setWorker { s with aheadFree := free } k w') := by
  apply h.moves hk hbusy rfl
  case hfresh => exact fun i hle hlt => absurd hlt (Nat.not_lt.mpr hle)
  case hidle => simp [hidle]
  case hstays => exact fun c hc => Or.inl (hstays c hc)
  case hpoint => exact h.point
  case hlog => exact fun i j sub hsub => Or.inl hsub
  all_goals first | rfl | exact Nat.le_refl _ | exact fun _ hx => hx

theorem input_busy (h : w.input plan i = some w') : w.isFinished = false := by
  unfold Worker.input at h
  split at h
  all_goals first | rfl | cases h

theorem Complete.extend (h : Complete log i) (hopen : ∀ x ∈ log sub.planIndex, x.isLast = false)
    : Complete (Fetch.extend log sub) i := by
  obtain ⟨x, hx, hlast⟩ := h
  have hne : i ≠ sub.planIndex := by
    rintro rfl
    have := hopen x (List.mem_of_getLast? hx)
    rw [hlast] at this
    cases this
  refine ⟨x, ?_, hlast⟩
  rw [extend_other log hne]
  exact hx

theorem FlowInv.sent (hinv : FetchInv plan spec log s) (h : FlowInv plan log s)
    (hk : s.workers[k]? = some (.sending a sub after))
    : FlowInv plan (Fetch.extend log sub) (setWorker { s with channel := s.channel ++ [sub] } k
        (.resume plan { a with cursor := Worker.advance a.cursor sub } after)) := by
  have hmem := List.mem_of_getElem? hk
  obtain ⟨hand, hplan, -⟩ := hinv.workers.wellFormed _ hmem
  have howns := hinv.workers.owns _ hmem a.cursor rfl
  have hresume : ∀ after', after' ≠ .complete →
      (Worker.resume plan { a with cursor := Worker.advance a.cursor sub } after').StaysOn
        a.cursor.planIndex
      ∧ (Worker.resume plan { a with cursor := Worker.advance a.cursor sub } after').isIdle
        = false := by
    intro after' hafter
    cases after' with
    | stream sp => exact ⟨Or.inr ⟨_, rfl, rfl⟩, rfl⟩
    | complete => exact absurd rfl hafter
    | fail detail => exact Worker.retry_staysOn plan (Worker.advance a.cursor sub) a.attempt detail
  apply h.moves hk rfl rfl
  case hchannel => exact fun x hx => List.mem_append_left _ hx
  case hfresh => exact fun i hle hlt => absurd hlt (Nat.not_lt.mpr hle)
  case hcomplete =>
    intro i hdone
    exact hdone.extend (by rw [hplan]; exact howns.unfinished)
  case hstays =>
    rintro c ⟨rfl⟩
    by_cases hafter : after = .complete
    . right
      refine ⟨sub, ?_, hand.complete.mpr hafter⟩
      rw [← hplan, extend_same, List.getLast?_concat]
    . exact Or.inl (hresume after hafter).1
  case hidle =>
    intro hidle
    by_cases hafter : after = .complete
    . subst hafter
      cases hidle
    . rw [(hresume after hafter).2] at hidle
      cases hidle
  case hpoint =>
    intro j x hj hx
    rcases extend_getElem?_cases hx with hx | ⟨-, rfl, -⟩
    . exact h.point j x hj hx
    . exact absurd hj (Nat.not_lt.mpr hinv.release.within)
  case hlog =>
    intro i j x hx
    rcases extend_getElem?_cases hx with hx | ⟨-, -, rfl⟩
    . exact Or.inl hx
    . exact Or.inr (List.mem_append_right _ (List.mem_singleton_self _))
  all_goals rfl

theorem FlowInv.worker (hinv : FetchInv plan spec log s) (h : FlowInv plan log s)
    (ht : WorkerTrans plan s k e s') : FlowInv plan (grow log s e) s' := by
  cases ht with
  | input hk hin =>
    obtain ⟨hstays, hidle⟩ := Worker.input_staysOn hin
    exact h.stays hk (input_busy hin) s.aheadFree hstays hidle
  | claimed hk hlt =>
    apply h.moves hk rfl rfl
    case hnext => exact Nat.le_succ _
    case hfresh =>
      intro i hle hi hcount
      obtain rfl : i = s.next := by
        dsimp only [setWorker] at hi
        omega
      exact ⟨_, mem_set_self hk, _, rfl, rfl⟩
    case hstays => exact nofun
    case hidle => exact nofun
    case hpoint => exact h.point
    case hlog => exact fun i j sub hsub => Or.inl hsub
    all_goals first | rfl | exact fun _ hx => hx
  | exhausted hk hge =>
    apply h.moves hk rfl rfl
    case hnext => exact Nat.le_succ _
    case hfresh => exact fun i hle _ hcount => absurd hcount (Nat.not_lt.mpr (hge.trans hle))
    case hstays => exact nofun
    case hidle => exact fun _ => Or.inr (hge.trans (Nat.le_succ _))
    case hpoint => exact h.point
    case hlog => exact fun i j sub hsub => Or.inl hsub
    all_goals first | rfl | exact fun _ hx => hx
  | passes hk hfloor =>
    exact h.stays hk rfl s.aheadFree (fun c hc => Or.inr ⟨c, hc, rfl⟩) rfl
  | waits hk hfloor => exact h.stays hk rfl s.aheadFree (fun c hc => Or.inr ⟨c, hc, rfl⟩) rfl
  | acquired hk hfree => exact h.stays hk rfl _ (fun c hc => Or.inr ⟨c, hc, rfl⟩) rfl
  | repolled hk hfloor =>
    exact h.stays hk rfl s.aheadFree (fun c hc => Or.inr ⟨c, hc, rfl⟩) rfl
  | waitsOn hk hfloor => exact h
  | sent hk hrunning hroom =>
    rw [grow_sent hk hrunning]
    exact h.sent hinv hk
  | quits hk hover =>
    rw [grow_quits hover]
    apply FlowInv.of_over
    case hover => exact hover
    case hfloor => exact h.floor
    case hcrew => rw [setWorker, List.length_set, h.crew]
    case hwaiting => exact h.waiting
    case hended =>
      intro hphase
      have := (h.ended hphase).2 _ (List.mem_of_getElem? hk)
      cases this
    case hpoint => exact h.point

theorem FlowInv.fail {subs buffer : List SubChunk} (h : FlowInv plan log s) (e : SlipstreamError)
    (hchannel : ∀ sub ∈ subs, sub ∈ s.channel) (hpending : ∀ sub ∈ buffer, sub ∈ s.reorder.pending)
    : FlowInv plan log (Fetch.fail {
        s with channel := subs, reorder := { s.reorder with pending := buffer } } e) := by
  apply FlowInv.of_over
  case hover => exact nofun
  case hfloor => exact h.floor
  case hcrew => exact h.crew
  case hwaiting => exact fun hphase p hp => h.waiting hphase p (hpending p hp)
  case hended =>
    intro hphase
    obtain ⟨hnil, hall⟩ := h.ended hphase
    refine ⟨List.eq_nil_iff_forall_not_mem.mpr fun x hx => ?_, hall⟩
    have := hchannel x hx
    rw [hnil] at this
    cases this
  case hpoint => exact h.point

theorem FlowInv.phase {subs buffer : List SubChunk} (h : FlowInv plan log s) (p : ReleasePhase)
    (d : Option WireDetector)
    (hwaiting : p = .receiving ∨ p = .ended →
      ∀ x ∈ buffer, (x.planIndex, x.subIndex) ≠ s.reorder.next)
    (hended : p = .ended → subs = [] ∧ ∀ w ∈ s.workers, w.isFinished = true)
    (hunderway : ∀ sub, Underway s sub → sub ∈ subs ∨ sub ∈ buffer ∨ p = .sending sub)
    : FlowInv plan log {
        s with
        channel := subs
        reorder := { s.reorder with phase := p, continuity := c, pending := buffer, detector := d }
      } := by
  constructor
  case floor => exact h.floor
  case crew => exact h.crew
  case claimed => exact h.claimed
  case idle => exact h.idle
  case waiting => exact hwaiting
  case ended => exact hended
  case point => exact h.point
  case underway =>
    exact fun hrunning i j sub hsub hpast =>
      hunderway sub (h.underway hrunning i j sub hsub hpast)

theorem ReleaseInv.mem_insertPending (h : ReleaseInv plan log s) (hx : x ∈ s.reorder.pending)
    (hsub : sub ∈ s.channel) : x ∈ insertPending s.reorder.pending sub := by
  rw [insertPending, List.mem_append, List.mem_filter, List.mem_singleton]
  by_cases hkey : (x.planIndex, x.subIndex) = (sub.planIndex, sub.subIndex)
  . right
    have hlogx := h.pending x hx
    have hlogsub := h.channel sub hsub
    obtain ⟨hplan, hindex⟩ := Prod.mk.inj hkey
    rw [hplan, hindex, hlogsub] at hlogx
    exact (Option.some.inj hlogx).symm
  . exact Or.inl ⟨hx, decide_eq_true hkey⟩

theorem FlowInv.received (hinv : FetchInv plan spec log s) (h : FlowInv plan log s)
    (hphase : s.reorder.phase = .receiving) (hchannel : s.channel = sub :: subs)
    (d : Option WireDetector)
    : FlowInv plan log {
        s with
        channel := subs
        reorder := {
          s.reorder with
          phase := .draining
          pending := insertPending s.reorder.pending sub
          detector := d
        }
      } := by
  apply h.phase .draining d nofun nofun
  rintro x (hx | hx | hx)
  . rw [hchannel] at hx
    rcases List.mem_cons.mp hx with rfl | hx
    . exact Or.inr (Or.inl (by simp [insertPending]))
    . exact Or.inl hx
  . exact Or.inr (Or.inl (hinv.release.mem_insertPending hx (by simp [hchannel])))
  . simp [hphase] at hx

theorem FlowInv.verified (hinv : FetchInv plan spec log s) (h : FlowInv plan log s)
    (hphase : s.reorder.phase = .draining) (hsub : sub ∈ s.reorder.pending)
    (hkey : (sub.planIndex, sub.subIndex) = s.reorder.next) (c : Continuity)
    : FlowInv plan log {
        s with
        reorder := { s.reorder with pending := rest s, continuity := c, phase := .sending sub }
      } := by
  apply h.phase (.sending sub) s.reorder.detector nofun nofun
  rintro x (hx | hx | hx)
  . exact Or.inl hx
  . by_cases hxkey : (x.planIndex, x.subIndex) = s.reorder.next
    . have hlogx := hinv.release.pending x hx
      have hlogsub := hinv.release.pending sub hsub
      obtain ⟨hplan, hindex⟩ := Prod.mk.inj (hxkey.trans hkey.symm)
      rw [hplan, hindex, hlogsub] at hlogx
      exact Or.inr (Or.inr (congrArg _ (Option.some.inj hlogx)))
    . exact Or.inr (Or.inl (List.mem_filter.mpr ⟨hx, decide_eq_true hxkey⟩))
  . simp [hphase] at hx

theorem FlowInv.released (hinv : FetchInv plan spec log s) (h : FlowInv plan log s)
    (hphase : s.reorder.phase = .sending sub) : FlowInv plan log (afterRelease s sub) := by
  have hsub := hinv.release.sending sub hphase
  obtain ⟨hplan, hindex⟩ := hinv.entries.key hsub
  constructor
  case floor =>
    simp only [afterRelease]
    split
    . rfl
    . exact h.floor
  case crew => exact h.crew
  case claimed => exact h.claimed
  case idle => exact h.idle
  case waiting => exact nofun
  case ended => exact nofun
  case point =>
    intro j x hj hx
    simp only [afterRelease] at hj hx
    split at hj
    . cases hj
    . next hlast =>
      rw [if_neg hlast] at hx
      rcases Nat.lt_succ_iff_lt_or_eq.mp hj with hj | rfl
      . exact h.point j x hj hx
      . rw [hsub] at hx
        cases hx
        simpa using hlast
  case underway =>
    intro hrunning i j x hx hpast
    simp only [afterRelease] at hpast
    have hold : s.reorder.next.1 < i ∨ s.reorder.next.1 = i ∧ s.reorder.next.2 < j := by
      split at hpast
      . dsimp only at hpast
        omega
      . dsimp only at hpast
        omega
    rcases h.underway hrunning i j x hx (by omega) with hin | hin | hin
    . exact Or.inl hin
    . exact Or.inr (Or.inl hin)
    . -- The sub-chunk at the queue is the one at the release point, which the point moves past.
      rw [hphase] at hin
      cases hin
      obtain ⟨hplan', hindex'⟩ := hinv.entries.key hx
      omega

theorem FlowInv.joined (h : FlowInv plan log s) (hk : s.workers[k]? = some (.finished (.ok ())))
    : FlowInv plan log (setWorker s k .joined) := by
  have hbroken : Broken s → Broken (setWorker s k .joined) := by
    intro hb
    exact hb.set hk (by simp [Worker.Failed]) rfl rfl
  constructor
  case floor => exact h.floor
  case crew => rw [setWorker, List.length_set, h.crew]
  case claimed =>
    intro i hi hcount
    rcases h.claimed i hi hcount with hb | howned | hdone
    . exact Or.inl (hbroken hb)
    . exact howned.set hk rfl (by simp [Worker.cursor?])
    . exact Or.inr (Or.inr hdone)
  case idle =>
    intro x hx hxidle
    apply Or.imp_left hbroken
    rcases List.mem_or_eq_of_mem_set hx with hx | rfl
    . exact h.idle x hx hxidle
    . exact h.idle _ (List.mem_of_getElem? hk) rfl
  case waiting => exact h.waiting
  case ended =>
    intro hphase
    refine ⟨(h.ended hphase).1, fun x hx => ?_⟩
    rcases List.mem_or_eq_of_mem_set hx with hx | rfl
    . exact (h.ended hphase).2 x hx
    . rfl
  case point => exact h.point
  case underway => exact h.underway

theorem FlowInv.stage (hinv : FetchInv plan spec log s) (h : FlowInv plan log s)
    (ht : StageTrans plan s e s') : FlowInv plan log s' := by
  have hunder : ∀ sub, Underway s sub → sub ∈ s.channel ∨ sub ∈ s.reorder.pending
      ∨ s.reorder.phase = .sending sub := fun _ hsub => hsub
  have hfail : ∀ e, FlowInv plan log (Fetch.fail s e) :=
    fun e => h.fail e (fun _ hx => hx) (fun _ hx => hx)
  cases ht with
  | ticks hphase hchannel hd => exact h.phase _ _ h.waiting h.ended hunder
  | stalls hd => exact hfail _
  | received hphase hchannel hd => exact h.received hinv hphase hchannel _
  | collapses hphase hchannel hd =>
    exact h.fail _ (fun x hx => hchannel ▸ List.mem_cons_of_mem _ hx) (fun _ hx => hx)
  | drained hphase hnone =>
    apply h.phase .receiving s.reorder.detector (fun _ => hnone) nofun
    rintro x (hx | hx | hx)
    . exact Or.inl hx
    . exact Or.inr (Or.inl hx)
    . simp [hphase] at hx
  | rejected hphase hsub hkey hverify =>
    exact h.fail _ (fun _ hx => hx) (fun _ hx => mem_rest hx)
  | verified hphase hsub hkey hverify => exact h.verified hinv hphase hsub hkey _
  | released hphase hreceiver hfree => exact h.released hinv hphase
  | refused hreceiver => exact hfail _
  | ends hphase hchannel hall =>
    apply h.phase .ended s.reorder.detector (fun _ => h.waiting (Or.inl hphase))
      (fun _ => ⟨hchannel, hall⟩)
    rintro x (hx | hx | hx)
    . exact Or.inl hx
    . exact Or.inr (Or.inl hx)
    . simp [hphase] at hx
  | joined hk => exact h.joined hk
  | givenUp hk hfailed => exact hfail _
  | panicked => exact hfail _
  | incomplete hphase hplans => exact hfail _
  | completed hphase hplans =>
    apply FlowInv.of_over
    case hover => exact nofun
    case hfloor => exact h.floor
    case hcrew => exact h.crew
    case hwaiting => exact h.waiting
    case hended => exact h.ended
    case hpoint => exact h.point

theorem FlowInv.step (hinv : FetchInv plan spec log s) (h : FlowInv plan log s)
    (hstep : Fetch.step plan s e = some s') : FlowInv plan (grow log s e) s' := by
  cases trans_of_step hstep with
  | worker ht => exact h.worker hinv ht
  | stage _ ht =>
    rw [grow_stage ht]
    exact h.stage hinv ht
  | scannerReturns => exact { h with }
  | scannerGone => exact { h with }

theorem init_flow (plan : FetchPlan) (budgetBytes : Nat)
    : FlowInv plan (fun _ => []) (init plan budgetBytes) := by
  have hworkers : ∀ w ∈ (init plan budgetBytes).workers, w = .connecting none :=
    fun w hw => (List.mem_replicate.mp hw).2
  constructor
  case crew => exact List.length_replicate
  case idle =>
    intro w hw hidle
    rw [hworkers w hw] at hidle
    cases hidle
  all_goals simp [init]

theorem flow_of_logged {ok : FetchState × History → FetchEvent → Prop}
    (hok : ∀ st e, FetchInv plan spec st.2.log st.1 → ok st e → Delivers spec st.2.log st.1 e)
    (h : (logged plan budgetBytes).Reach ok st)
    : FetchInv plan spec st.2.log st.1 ∧ FlowInv plan st.2.log st.1 :=
  logged_invariant _ hok (init_flow plan budgetBytes)
    (fun _ _ _ _ hinv hflow hstep => hflow.step hinv hstep) h

theorem flow_of_reachable (h : (machine plan budgetBytes).Reachable s)
    : ∃ log, FetchInv plan anyStream log s ∧ FlowInv plan log s := by
  obtain ⟨hist, hlogged⟩ := logged_of_reach h
  exact ⟨hist.log, flow_of_logged (fun _ _ _ _ _ _ _ _ _ _ _ => trivial) hlogged⟩

end Fetch
end Slipstream
