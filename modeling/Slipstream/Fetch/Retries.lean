import Slipstream.Fetch.Delivered

/-!
This module contains the attempts that a worker makes at its plan chunk: what each of them asks for,
how many there are, and when the worker gives up.
-/

namespace Slipstream
namespace Fetch

inductive Exchange where
  | request (first last : Nat)
  | emitted (sub : SubChunk)

namespace Exchange

def isRequest : Exchange → Bool
  | .request _ _ => true
  | .emitted _ => false

def sub? : Exchange → Option SubChunk
  | .request _ _ => none
  | .emitted sub => some sub

end Exchange

def requests (xs : List Exchange) : Nat := xs.countP Exchange.isRequest

def subsOf (xs : List Exchange) : List SubChunk := xs.filterMap Exchange.sub?

def fruitless (xs : List Exchange) : Nat := (xs.reverse.takeWhile Exchange.isRequest).length

section Exchanges

variable {xs : List Exchange}

theorem requests_request (xs : List Exchange) (first last : Nat)
    : requests (xs ++ [.request first last]) = requests xs + 1 := by
  simp [requests, Exchange.isRequest]

theorem requests_emitted (xs : List Exchange) (sub : SubChunk)
    : requests (xs ++ [.emitted sub]) = requests xs := by
  simp [requests, Exchange.isRequest]

theorem subsOf_request (xs : List Exchange) (first last : Nat)
    : subsOf (xs ++ [.request first last]) = subsOf xs := by
  simp [subsOf, Exchange.sub?]

theorem subsOf_emitted (xs : List Exchange) (sub : SubChunk)
    : subsOf (xs ++ [.emitted sub]) = subsOf xs ++ [sub] := by
  simp [subsOf, Exchange.sub?]

theorem fruitless_request (xs : List Exchange) (first last : Nat)
    : fruitless (xs ++ [.request first last]) = fruitless xs + 1 := by
  rw [fruitless, List.reverse_concat, List.takeWhile_cons_of_pos rfl]
  rfl

theorem fruitless_emitted (xs : List Exchange) (sub : SubChunk)
    : fruitless (xs ++ [.emitted sub]) = 0 := by
  rw [fruitless, List.reverse_concat, List.takeWhile_cons_of_neg (by simp [Exchange.isRequest])]
  rfl

structure Attempted (plan : FetchPlan) (i : Nat) (subs : List SubChunk) (xs : List Exchange) : Prop
    where
  emits : subsOf xs = subs
  fruitless_le : fruitless xs ≤ plan.retriesPerChunk + 1
  counted : requests xs ≤ subs.length * (plan.retriesPerChunk + 1) + fruitless xs
  asks : ∀ before first last, before ++ [.request first last] <+: xs →
    first = (plan.chunkRange i).1 + (blocksOf (subsOf before)).length ∧ last = (plan.chunkRange i).2

theorem Attempted.nil (plan : FetchPlan) (i : Nat) : Attempted plan i [] [] := by
  constructor <;> simp [subsOf, fruitless, requests]

theorem Attempted.request (h : Attempted plan i subs xs) (hle : fruitless xs ≤ plan.retriesPerChunk)
    (hfirst : first = (plan.chunkRange i).1 + (blocksOf subs).length)
    (hlast : last = (plan.chunkRange i).2)
    : Attempted plan i subs (xs ++ [.request first last]) := by
  constructor
  case emits => rw [subsOf_request, h.emits]
  case fruitless_le =>
    rw [fruitless_request]
    exact Nat.succ_le_succ hle
  case counted =>
    rw [requests_request, fruitless_request]
    exact Nat.succ_le_succ h.counted
  case asks =>
    intro before first' last' hstarts
    rcases List.prefix_concat_iff.mp hstarts with heq | hstarts
    . obtain ⟨rfl, hrequest⟩ := List.append_inj' heq rfl
      cases hrequest
      rw [h.emits]
      exact ⟨hfirst, hlast⟩
    . exact h.asks before first' last' hstarts

theorem Attempted.emitted (h : Attempted plan i subs xs) (sub : SubChunk)
    : Attempted plan i (subs ++ [sub]) (xs ++ [.emitted sub]) := by
  constructor
  case emits => rw [subsOf_emitted, h.emits]
  case fruitless_le =>
    rw [fruitless_emitted]
    exact Nat.zero_le _
  case counted =>
    rw [requests_emitted, fruitless_emitted, List.length_append, List.length_singleton, Nat.succ_mul]
    exact Nat.le_trans h.counted (Nat.add_le_add_left h.fruitless_le _)
  case asks =>
    intro before first last hstarts
    rcases List.prefix_concat_iff.mp hstarts with heq | hstarts
    . obtain ⟨-, hrequest⟩ := List.append_inj' heq rfl
      cases hrequest
    . exact h.asks before first last hstarts

end Exchanges
end Fetch

namespace Worker

open Fetch (fruitless Exchange)

structure Attempting (plan : FetchPlan) (c : PlanChunkCursor) (n : Nat) (xs : List Exchange) : Prop
    where
  le : n ≤ plan.retriesPerChunk + 1
  counts : (if c.emittedThisAttempt then 0 else n) = fruitless xs

def Counts (plan : FetchPlan) (xs : List Exchange) : Worker → Prop
  | .connecting (some (_, n)) => n = fruitless xs
  | .opening c n => Attempting plan c n xs
  | .streaming a _ => Attempting plan a.cursor a.attempt xs
  | .admitting a _ _ _ _ => Attempting plan a.cursor a.attempt xs
  | .acquiring a _ _ _ _ => Attempting plan a.cursor a.attempt xs
  | .sending a _ _ => Attempting plan a.cursor a.attempt xs
  | _ => True

def attempts : Worker → Nat
  | .connecting (some (_, n)) => n
  | .opening _ n => n
  | .streaming a _ => a.attempt
  | .admitting a _ _ _ _ => a.attempt
  | .acquiring a _ _ _ _ => a.attempt
  | .sending a _ _ => a.attempt
  | _ => 0

variable {plan : FetchPlan} {w w' : Worker} {xs : List Exchange}

theorem retry_counts (h : Attempting plan c n xs) (detail : String)
    : (retry plan c n detail).Counts plan xs
      ∧ ((retry plan c n detail).Failed → plan.retriesPerChunk < fruitless xs) := by
  unfold retry
  dsimp only
  rw [h.counts]
  split
  . next hgive => exact ⟨trivial, fun _ => hgive⟩
  . exact ⟨rfl, fun hfailed => hfailed.elim⟩

theorem flushThenFail_counts {a : Attempt} (h : Attempting plan a.cursor a.attempt xs)
    (sp : ChunkSplitter) (detail : String)
    : (flushThenFail plan a sp.finish detail).Counts plan xs
      ∧ ((flushThenFail plan a sp.finish detail).Failed → plan.retriesPerChunk < fruitless xs) := by
  rcases flushThenFail_cases plan a sp detail with heq | ⟨bytes, heq, -⟩
  . rw [heq]
    exact retry_counts h detail
  . rw [heq]
    exact ⟨h, fun hfailed => hfailed.elim⟩

theorem endOfStream_counts {a : Attempt} (h : Attempting plan a.cursor a.attempt xs)
    (sp : ChunkSplitter)
    : (endOfStream plan a sp).Counts plan xs
      ∧ ((endOfStream plan a sp).Failed → plan.retriesPerChunk < fruitless xs) := by
  rcases endOfStream_cases plan a sp with ⟨detail, heq⟩ | ⟨bytes, heq, -⟩
  . rw [heq]
    exact flushThenFail_counts h sp detail
  . rw [heq]
    exact ⟨h, fun hfailed => hfailed.elim⟩

theorem onBlock_counts {a : Attempt} (h : Attempting plan a.cursor a.attempt xs)
    (sp : ChunkSplitter) (b : CompactBlock) (deadline : Bool)
    : (onBlock a sp b deadline).Counts plan xs ∧ ¬(onBlock a sp b deadline).Failed := by
  rcases onBlock_cases a sp b deadline with ⟨sp', heq, -⟩ | ⟨blocks, bytes, sp', heq, -⟩
  . rw [heq]
    exact ⟨h, id⟩
  . rw [heq]
    exact ⟨h, id⟩

theorem resume_cursor {a : Attempt} (h : (resume plan a after).cursor? = some c) : c = a.cursor := by
  cases after with
  | stream sp =>
    cases h
    rfl
  | complete => cases h
  | fail detail =>
    rw [resume, retry] at h
    dsimp only at h
    generalize (if a.cursor.emittedThisAttempt = true then 0 else a.attempt) = n at h
    split at h
    . cases h
    . cases h
      rfl

theorem input_counts (h : w.Counts plan xs) (hin : w.input plan i = some w')
    (hconnected : i ≠ .connected)
    : w'.Counts plan xs
      ∧ (w'.Failed → (∃ error, i = .connectFailed error) ∨ plan.retriesPerChunk < fruitless xs) := by
  unfold input at hin
  split at hin
  all_goals cases hin
  . exact absurd rfl hconnected
  . exact absurd rfl hconnected
  . exact ⟨trivial, fun _ => Or.inl ⟨_, rfl⟩⟩
  . exact ⟨h, fun hfailed => hfailed.elim⟩
  . obtain ⟨hcounts, hgives⟩ := retry_counts h _
    exact ⟨hcounts, fun hfailed => Or.inr (hgives hfailed)⟩
  . next a sp b deadline =>
    obtain ⟨hcounts, hfine⟩ := onBlock_counts h sp b deadline
    exact ⟨hcounts, fun hfailed => absurd hfailed hfine⟩
  . obtain ⟨hcounts, hgives⟩ := flushThenFail_counts h _ _
    exact ⟨hcounts, fun hfailed => Or.inr (hgives hfailed)⟩
  . obtain ⟨hcounts, hgives⟩ := flushThenFail_counts h _ _
    exact ⟨hcounts, fun hfailed => Or.inr (hgives hfailed)⟩
  . obtain ⟨hcounts, hgives⟩ := endOfStream_counts h _
    exact ⟨hcounts, fun hfailed => Or.inr (hgives hfailed)⟩

theorem beginAttempt_counts (hle : n ≤ plan.retriesPerChunk) (h : n = fruitless xs)
    (c : PlanChunkCursor) (first last : Nat)
    : (beginAttempt c n).Counts plan (xs ++ [.request first last]) := by
  refine ⟨Nat.succ_le_succ hle, ?_⟩
  rw [Fetch.fruitless_request, ← h]
  rfl

theorem resume_counts {a : Attempt} (h : Attempting plan a.cursor a.attempt xs) (sub : SubChunk)
    (after : AfterEmit)
    : (resume plan { a with cursor := advance a.cursor sub } after).Counts plan (xs ++ [.emitted sub])
      := by
  have hnext : Attempting plan (advance a.cursor sub) a.attempt (xs ++ [.emitted sub]) :=
    ⟨h.le, by rw [Fetch.fruitless_emitted]; rfl⟩
  cases after with
  | stream sp => exact hnext
  | complete => trivial
  | fail detail => exact (retry_counts hnext detail).1

end Worker

namespace Fetch

abbrev Transcript := Nat → List Exchange

def requested : Worker → Option (Nat × Exchange)
  | .opening c _ => some (c.planIndex, .request c.resumeFrom c.stop)
  | _ => none

def exchanged (s : FetchState) (e : FetchEvent) (s' : FetchState) : Option (Nat × Exchange) :=
  match e with
  | .claim k => s'.workers[k]?.bind requested
  | .input k .connected => s'.workers[k]?.bind requested
  | e => (handedOver s e).map fun sub => (sub.planIndex, .emitted sub)

def note (tr : Transcript) : Option (Nat × Exchange) → Transcript
  | some (i, x) => Function.update tr i (tr i ++ [x])
  | none => tr

def transcribed (plan : FetchPlan) (budgetBytes : Nat)
    : Machine ((FetchState × History) × Transcript) FetchEvent :=
  (logged plan budgetBytes).observed (fun _ tr => tr = fun _ => []) fun st e st' tr =>
    note tr (exchanged st.1 e st'.1)

variable {plan : FetchPlan} {such : CompactBlock → Prop} {log : Log} {tr : Transcript}
  {s s' : FetchState} {k : Nat}

structure TranscriptInv (plan : FetchPlan) (log : Log) (s : FetchState) (tr : Transcript) : Prop where
  attempted : ∀ i, Attempted plan i (log i) (tr i)
  unclaimed : ∀ i, s.next ≤ i → tr i = []
  counts : ∀ w ∈ s.workers, ∀ c, w.cursor? = some c → w.Counts plan (tr c.planIndex)

theorem note_same (tr : Transcript) (i : Nat) (x : Exchange)
    : note tr (some (i, x)) i = tr i ++ [x] := by
  simp [note]

theorem note_other (tr : Transcript) (x : Exchange) (h : j ≠ i) : note tr (some (i, x)) j = tr j := by
  simp [note, h]

theorem TranscriptInv.update (h : TranscriptInv plan log s tr) (w' : Worker)
    (hw : ∀ c, w'.cursor? = some c → w'.Counts plan (tr c.planIndex)) (hnext : s.next ≤ s'.next)
    (hworkers : s'.workers = s.workers.set k w') : TranscriptInv plan log s' tr := by
  refine ⟨h.attempted, fun i hi => h.unclaimed i (Nat.le_trans hnext hi), fun x hx => ?_⟩
  rw [hworkers] at hx
  rcases List.mem_or_eq_of_mem_set hx with hx | rfl
  . exact h.counts x hx
  . exact hw

theorem TranscriptInv.exchange (h : TranscriptInv plan log s tr) {log' : Log} {w' : Worker}
    (hattempted : Attempted plan i (log' i) (tr i ++ [x])) (hlog : ∀ j, j ≠ i → log' j = log j)
    (hw : ∀ c, w'.cursor? = some c → c.planIndex = i ∧ w'.Counts plan (tr i ++ [x]))
    (halone : ∀ k' y c', k' ≠ k → s.workers[k']? = some y → y.cursor? = some c' → c'.planIndex ≠ i)
    (hclaimed : i < s'.next) (hnext : s.next ≤ s'.next)
    (hworkers : s'.workers = s.workers.set k w')
    : TranscriptInv plan log' s' (note tr (some (i, x))) := by
  constructor
  case attempted =>
    intro j
    by_cases hj : j = i
    . rw [hj, note_same]
      exact hattempted
    . rw [note_other tr x hj, hlog j hj]
      exact h.attempted j
  case unclaimed =>
    intro j hj
    rw [note_other tr x (by omega)]
    exact h.unclaimed j (Nat.le_trans hnext hj)
  case counts =>
    intro y hy c hc
    rw [hworkers] at hy
    obtain ⟨k', hk'⟩ := List.mem_iff_getElem?.mp hy
    rw [List.getElem?_set] at hk'
    split at hk'
    . split at hk'
      . cases hk'
        obtain ⟨rfl, hcounts⟩ := hw c hc
        rwa [note_same]
      . cases hk'
    . next hne =>
      rw [note_other tr x (halone k' y c (Ne.symm hne) hk' hc)]
      exact h.counts y (List.mem_of_getElem? hk') c hc

theorem requested_set (hk : s.workers[k]? = some w) (hworkers : s'.workers = s.workers.set k w')
    : s'.workers[k]?.bind requested = requested w' := by
  have hlt := (List.getElem?_eq_some_iff.mp hk).1
  simp [hworkers, hlt]

theorem exchanged_input (h : i ≠ .connected) : exchanged s (.input k i) s' = none := by
  cases i with
  | connected => exact absurd rfl h
  | _ => rfl

theorem exchanged_send : exchanged s (.send k) s'
    = (handedOver s (.send k)).map fun sub => (sub.planIndex, .emitted sub) := rfl

theorem exchanged_stage (h : StageTrans plan s e s') : exchanged s e s' = none := by
  cases h <;> rfl

theorem Sound.alone (h : Sound plan such log s) (hk : s.workers[k]? = some w)
    (hc : w.cursor? = some c) : ∀ k' y c', k' ≠ k → s.workers[k']? = some y → y.cursor? = some c' →
      c'.planIndex ≠ c.planIndex := by
  intro k' y c' hne hy hc' heq
  exact hne (h.inv.workers.distinct k' k y w c' c hy hk hc' hc heq)

theorem TranscriptInv.reconnect (hsound : Sound plan such log s) (h : TranscriptInv plan log s tr)
    (hk : s.workers[k]? = some (.connecting (some (c, n))))
    : TranscriptInv plan log (setWorker s k (.beginAttempt c n))
        (note tr (some (c.planIndex, .request c.resumeFrom c.stop))) := by
  have hmem := List.mem_of_getElem? hk
  have howns := hsound.inv.workers.owns _ hmem c rfl
  have hcounts : n = fruitless (tr c.planIndex) := h.counts _ hmem c rfl
  have hle : n ≤ plan.retriesPerChunk := hsound.cut.workers _ hmem
  apply h.exchange
  case hworkers => exact rfl
  case hattempted =>
    apply (h.attempted c.planIndex).request (hcounts ▸ hle) _ howns.stop
    exact howns.resumeFrom_eq (hsound.inv.workers.streams _)
  case hlog => exact fun _ _ => rfl
  case hw =>
    intro c' hc'
    cases hc'
    exact ⟨rfl, Worker.beginAttempt_counts hle hcounts c _ _⟩
  case halone => exact hsound.alone hk rfl
  case hclaimed => exact howns.claimed
  case hnext => exact Nat.le_refl _

theorem TranscriptInv.claim (hsound : Sound plan such log s) (h : TranscriptInv plan log s tr)
    : TranscriptInv plan log (setWorker { s with next := s.next + 1 } k
        (.beginAttempt (plan.freshCursor s.next) 0))
        (note tr (some (s.next, .request (plan.chunkRange s.next).1 (plan.chunkRange s.next).2))) := by
  have hempty := h.unclaimed s.next (Nat.le_refl _)
  have hlog := hsound.inv.workers.unclaimed s.next (Nat.le_refl _)
  have hfruitless : 0 = fruitless (tr s.next) := by
    rw [hempty]
    rfl
  apply h.exchange
  case hworkers => exact rfl
  case hattempted =>
    apply (h.attempted s.next).request (hfruitless ▸ Nat.zero_le _) _ rfl
    rw [hlog]
    rfl
  case hlog => exact fun _ _ => rfl
  case hw =>
    intro c hc
    cases hc
    exact ⟨rfl, Worker.beginAttempt_counts (Nat.zero_le _) hfruitless _ _ _⟩
  case halone =>
    intro k' y c' _ hy hc' heq
    have := (hsound.inv.workers.owns y (List.mem_of_getElem? hy) c' hc').claimed
    omega
  case hclaimed => exact Nat.lt_succ_self s.next
  case hnext => exact Nat.le_succ s.next

theorem TranscriptInv.send (hsound : Sound plan such log s) (h : TranscriptInv plan log s tr)
    (hk : s.workers[k]? = some (.sending a sub after))
    : TranscriptInv plan (extend log sub) (setWorker { s with channel := s.channel ++ [sub] } k
        (.resume plan { a with cursor := Worker.advance a.cursor sub } after))
        (note tr (some (sub.planIndex, .emitted sub))) := by
  have hmem := List.mem_of_getElem? hk
  obtain ⟨-, hplan, -⟩ := hsound.inv.workers.wellFormed _ hmem
  have howns := hsound.inv.workers.owns _ hmem a.cursor rfl
  have hcounts : Worker.Attempting plan a.cursor a.attempt (tr a.cursor.planIndex) :=
    h.counts _ hmem a.cursor rfl
  rw [hplan]
  apply h.exchange
  case hworkers => exact rfl
  case hattempted =>
    rw [← hplan, extend_same]
    exact (h.attempted _).emitted sub
  case hlog => exact fun j hj => extend_other log (hplan ▸ hj)
  case hw =>
    intro c hc
    obtain rfl := Worker.resume_cursor hc
    exact ⟨rfl, Worker.resume_counts hcounts sub after⟩
  case halone => exact hsound.alone hk rfl
  case hclaimed => exact howns.claimed
  case hnext => exact Nat.le_refl _

theorem TranscriptInv.worker (hsound : Sound plan such log s) (h : TranscriptInv plan log s tr)
    (ht : WorkerTrans plan s k e s')
    : TranscriptInv plan (grow log s e) s' (note tr (exchanged s e s')) := by
  cases ht with
  | @input w i w' hk hin =>
    have hmem := List.mem_of_getElem? hk
    by_cases hconnected : i = .connected
    . subst hconnected
      rw [exchanged, requested_set hk rfl]
      cases w with
      | connecting resume =>
        cases resume with
        | none =>
          cases hin
          exact h.update .claiming (by simp [Worker.cursor?]) (Nat.le_refl _) rfl
        | some resume =>
          cases hin
          exact h.reconnect hsound hk
      | _ => cases hin
    . rw [exchanged_input hconnected]
      refine h.update w' (fun c' hc' => ?_) (Nat.le_refl _) rfl
      obtain ⟨-, ⟨hnone, -⟩ | ⟨c, hc, -, hkeeps⟩⟩ := Worker.input_cases hin
      . rw [hnone] at hc'
        cases hc'
      . rcases hkeeps with ⟨hnone, -⟩ | ⟨c'', hc'', hsame, -⟩
        . rw [hnone] at hc'
          cases hc'
        . cases hc'.symm.trans hc''
          rw [hsame.planIndex]
          exact (Worker.input_counts (h.counts w hmem c hc) hin hconnected).1
  | claimed hk hlt =>
    rw [exchanged, requested_set hk rfl]
    exact h.claim hsound
  | exhausted hk hge =>
    rw [exchanged, requested_set hk rfl]
    exact h.update (.finished _) (by simp [Worker.cursor?]) (Nat.le_succ _) rfl
  | passes hk hfloor =>
    have hcounts := h.counts _ (List.mem_of_getElem? hk)
    exact h.update (.sending _ (Attempt.subChunk ..) _) hcounts (Nat.le_refl _) rfl
  | waits hk hfloor =>
    have hcounts := h.counts _ (List.mem_of_getElem? hk)
    exact h.update (.acquiring _ _ _ _ _) hcounts (Nat.le_refl _) rfl
  | acquired hk hfree =>
    have hcounts := h.counts _ (List.mem_of_getElem? hk)
    exact h.update (.sending _ (Attempt.subChunk ..) _) hcounts (Nat.le_refl _) rfl
  | repolled hk hfloor =>
    have hcounts := h.counts _ (List.mem_of_getElem? hk)
    exact h.update (.sending _ (Attempt.subChunk ..) _) hcounts (Nat.le_refl _) rfl
  | waitsOn hk hfloor => exact h
  | sent hk hrunning hroom =>
    rw [grow_sent hk hrunning, exchanged_send, handedOver_sent hk hrunning]
    exact h.send hsound hk
  | quits hk hover =>
    rw [grow_quits hover, exchanged_send, handedOver_quits hover]
    exact h.update (.finished _) (by simp [Worker.cursor?]) (Nat.le_refl _) rfl

theorem TranscriptInv.step (hsound : Sound plan such log s) (h : TranscriptInv plan log s tr)
    (hstep : Fetch.step plan s e = some s')
    : TranscriptInv plan (grow log s e) s' (note tr (exchanged s e s')) := by
  cases trans_of_step hstep with
  | worker ht => exact h.worker hsound ht
  | stage _ ht =>
    rw [grow_stage ht, exchanged_stage ht]
    cases ht with
    | joined hk => exact h.update .joined (by simp [Worker.cursor?]) (Nat.le_refl _) rfl
    | _ => exact ⟨h.attempted, h.unclaimed, h.counts⟩
  | scannerReturns => exact ⟨h.attempted, h.unclaimed, h.counts⟩
  | scannerGone => exact ⟨h.attempted, h.unclaimed, h.counts⟩

theorem init_transcript (plan : FetchPlan) (budgetBytes : Nat)
    : TranscriptInv plan (fun _ => []) (init plan budgetBytes) fun _ => [] := by
  refine ⟨Attempted.nil plan, by simp, ?_⟩
  intro w hw c hc
  rw [(List.mem_replicate.mp hw).2] at hc
  cases hc

variable {st st' : (FetchState × History) × Transcript}

theorem transcribed_step (h : (transcribed plan budgetBytes).step st e = some st')
    : (logged plan budgetBytes).step st.1 e = some st'.1
      ∧ st'.2 = note st.2 (exchanged st.1.1 e st'.1.1) := by
  obtain ⟨s', hs', rfl⟩ := Option.map_eq_some_iff.mp h
  exact ⟨hs', rfl⟩

theorem transcript_of_reach
    (h : (transcribed plan budgetBytes).Reach (fun st e => answersRequest st.1.1 e = true) st)
    : Sound plan (fun _ => True) st.1.2.log st.1.1 ∧ TranscriptInv plan st.1.2.log st.1.1 st.2 := by
  suffices hinv : (logged plan budgetBytes).Reach (fun st e => Serves (fun _ => True) st.1 e) st.1
      ∧ TranscriptInv plan st.1.2.log st.1.1 st.2 from ⟨sound_of_logged hinv.1, hinv.2⟩
  apply h.invariant
  . rintro ⟨⟨s, hist⟩, tr⟩ ⟨⟨rfl, rfl⟩, rfl⟩
    exact ⟨.start ⟨rfl, rfl⟩, init_transcript plan budgetBytes⟩
  . rintro st e st' ⟨hreach, htranscript⟩ hanswers hstep
    obtain ⟨hlogged, hnote⟩ := transcribed_step hstep
    obtain ⟨hnext, hlog, -⟩ := logged_step hlogged
    refine ⟨.step hreach ⟨hanswers, fun _ _ _ _ => trivial⟩ hlogged, ?_⟩
    rw [hnote, hlog]
    exact htranscript.step (sound_of_logged hreach) hnext

theorem length_le_blocksOf {subs : List SubChunk} (h : ∀ sub ∈ subs, sub.blocks ≠ [])
    : subs.length ≤ (blocksOf subs).length := by
  induction subs with
  | nil => exact Nat.le_refl 0
  | cons sub subs ih =>
    have hpos := List.length_pos_of_ne_nil (h sub List.mem_cons_self)
    have hrest := ih fun x hx => h x (List.mem_cons_of_mem _ hx)
    simp only [blocksOf, List.flatMap_cons, List.length_append, List.length_cons] at hrest ⊢
    omega

theorem SubChunks.length_le (h : SubChunks plan i subs)
    : (blocksOf subs).length ≤ (plan.heights i).length := by
  rw [FetchPlan.heights, List.length_range']
  cases hlast : (blocksOf subs).getLast? with
  | none => simp [List.getLast?_eq_none_iff.mp hlast]
  | some b =>
    have := h.heights.last hlast
    have := h.within b (List.mem_of_getLast? hlast)
    omega

theorem Attempted.asks_rest (h : Attempted plan i subs xs) (hsubs : SubChunks plan i subs)
    (hstarts : before ++ [.request first last] <+: xs)
    : (blocksOf (subsOf before)).map CompactBlock.height ++ List.range' first (last + 1 - first)
      = plan.heights i := by
  obtain ⟨rfl, rfl⟩ := h.asks before first last hstarts
  obtain ⟨after, hxs⟩ := (List.prefix_append before _).trans hstarts
  have hsplit : blocksOf subs = blocksOf (subsOf before) ++ blocksOf (subsOf after) := by
    rw [← h.emits, ← hxs, subsOf, List.filterMap_append, blocksOf_append]
    rfl
  have hconsecutive := hsubs.heights.shorten ⟨_, hsplit.symm⟩
  have hle := hsubs.length_le
  rw [hsplit, List.length_append, FetchPlan.heights, List.length_range'] at hle
  rw [hconsecutive, List.range'_append_1, FetchPlan.heights]
  congr 1
  omega

theorem not_failed_of_cursor (hc : w.cursor? = some c) : ¬Worker.Failed w := by
  intro hfailed
  cases w with
  | finished result => cases hc
  | _ => exact hfailed

theorem not_failed_handed (plan : FetchPlan) (a : Attempt) (sub : SubChunk) (after : AfterEmit)
    : ¬(Worker.resume plan { a with cursor := Worker.advance a.cursor sub } after).Failed := by
  cases after with
  | stream sp => exact id
  | complete => exact id
  | fail detail =>
    have hretries := handed_fail plan a sub detail
    unfold handed at hretries
    rw [hretries]
    exact id

theorem TranscriptInv.gives_up (h : TranscriptInv plan log s tr) (hk : s.workers[k]? = some w)
    (hc : w.cursor? = some c) (ht : Trans plan s e s') (hk' : s'.workers[k]? = some w')
    (hfailed : w'.Failed)
    : (∃ error, e = .input k (.connectFailed error))
      ∨ plan.retriesPerChunk < fruitless (tr c.planIndex) := by
  have hsame : s'.workers[k]? ≠ s.workers[k]? := by
    intro heq
    rw [heq, hk] at hk'
    cases hk'
    exact not_failed_of_cursor hc hfailed
  cases ht with
  | @worker k₁ _ _ ht =>
    have hk₁ : k₁ = k := by
      by_contra hne
      apply hsame
      cases ht <;> simp [setWorker, List.getElem?_set_ne hne]
    subst hk₁
    have hset : ∀ w'', s'.workers = s.workers.set k₁ w'' → w'' = w' := by
      intro w'' hworkers
      have hlt := (List.getElem?_eq_some_iff.mp hk).1
      rw [hworkers, List.getElem?_set_self hlt] at hk'
      exact Option.some.inj hk'
    cases ht with
    | @input _ i _ hk₁ hin =>
      cases hk.symm.trans hk₁
      cases hset _ rfl
      by_cases hconnected : i = .connected
      . subst hconnected
        cases w with
        | connecting resume => cases resume <;> cases hin <;> exact hfailed.elim
        | _ => cases hin
      . have hcounts := h.counts w (List.mem_of_getElem? hk) c hc
        rcases (Worker.input_counts hcounts hin hconnected).2 hfailed with ⟨error, rfl⟩ | hused
        . exact Or.inl ⟨error, rfl⟩
        . exact Or.inr hused
    | claimed hk₁ hlt =>
      cases hk.symm.trans hk₁
      cases hc
    | exhausted hk₁ hge =>
      cases hk.symm.trans hk₁
      cases hc
    | waitsOn hk₁ hfloor => exact absurd rfl hsame
    | sent hk₁ hrunning hroom =>
      cases hset _ rfl
      exact (not_failed_handed _ _ _ _ hfailed).elim
    | _ =>
      -- At the gate and at a quiet end no worker fails.
      cases hset _ rfl
      exact hfailed.elim
  | stage _ ht =>
    cases ht with
    | @joined k₁ hk₁ =>
      by_cases heq : k₁ = k
      . subst heq
        cases hk.symm.trans hk₁
        cases hc
      . exact absurd (List.getElem?_set_ne heq) hsame
    | _ => exact absurd rfl hsame
  | scannerReturns => exact absurd rfl hsame
  | scannerGone => exact absurd rfl hsame

/-- The counter fits in 32 bits for every retry budget but the largest. -/
theorem attempts_le
    (h : (transcribed plan budgetBytes).Reach (fun st e => answersRequest st.1.1 e = true) st)
    (hw : w ∈ st.1.1.workers) : w.attempts ≤ plan.retriesPerChunk + 1 := by
  obtain ⟨-, htranscript⟩ := transcript_of_reach h
  have hcounts := htranscript.counts w hw
  cases w with
  | connecting resume =>
    cases resume with
    | none => exact Nat.zero_le _
    | some resume =>
      have hn : resume.2 = fruitless (st.2 resume.1.planIndex) := hcounts _ rfl
      rw [Worker.attempts, hn]
      exact (htranscript.attempted _).fruitless_le
  | opening c n => exact (hcounts c rfl).le
  | streaming a sp => exact (hcounts a.cursor rfl).le
  | admitting a blocks bytes isLast after => exact (hcounts a.cursor rfl).le
  | acquiring a blocks bytes isLast after => exact (hcounts a.cursor rfl).le
  | sending a sub after => exact (hcounts a.cursor rfl).le
  | _ => exact Nat.zero_le _

/--
The attempts at a plan chunk, against streams that deliver the heights they are asked for and may be
cut anywhere: how many there are, what each asks for, and what makes the worker give up.
-/
theorem attempts_bounded
    (h : (transcribed plan budgetBytes).Reach (fun st e => answersRequest st.1.1 e = true) st)
    (i : Nat)
    : subsOf (st.2 i) = st.1.2.log i
      ∧ requests (st.2 i) ≤ ((plan.heights i).length + 1) * (plan.retriesPerChunk + 1)
      ∧ (∀ before first last, before ++ [.request first last] <+: st.2 i →
        (blocksOf (subsOf before)).map CompactBlock.height ++ List.range' first (last + 1 - first)
          = plan.heights i)
      ∧ ∀ k w c e st', st.1.1.workers[k]? = some w → w.cursor? = some c → c.planIndex = i →
        (transcribed plan budgetBytes).step st e = some st' →
        (∃ w', st'.1.1.workers[k]? = some w' ∧ w'.Failed) →
        (∃ error, e = .input k (.connectFailed error))
          ∨ fruitless (st.2 i) = plan.retriesPerChunk + 1 := by
  obtain ⟨hsound, htranscript⟩ := transcript_of_reach h
  have hattempted := htranscript.attempted i
  have hsubs := hsound.subChunks i
  refine ⟨hattempted.emits, ?_, ?_, ?_⟩
  . calc requests (st.2 i)
      _ ≤ (st.1.2.log i).length * (plan.retriesPerChunk + 1) + fruitless (st.2 i) := hattempted.counted
      _ ≤ (plan.heights i).length * (plan.retriesPerChunk + 1) + (plan.retriesPerChunk + 1) :=
        Nat.add_le_add (Nat.mul_le_mul_right _ (Nat.le_trans (length_le_blocksOf hsubs.nonempty)
          hsubs.length_le)) hattempted.fruitless_le
      _ = ((plan.heights i).length + 1) * (plan.retriesPerChunk + 1) := (Nat.succ_mul _ _).symm
  . exact fun before first last hstarts => hattempted.asks_rest hsubs hstarts
  . rintro k w c e st' hk hc rfl hstep ⟨w', hk', hfailed⟩
    obtain ⟨hlogged, -⟩ := transcribed_step hstep
    obtain ⟨hnext, -⟩ := logged_step hlogged
    rcases htranscript.gives_up hk hc (trans_of_step hnext) hk' hfailed with hconnect | hused
    . exact Or.inl hconnect
    . exact Or.inr (Nat.le_antisymm hattempted.fruitless_le hused)

section Samples

def transcript (plan : FetchPlan) (ok : FetchState → FetchEvent → Bool) (es : List FetchEvent)
    : Option ((FetchState × History) × Transcript) :=
  (transcribed plan 1000000).runChecked (fun st e => ok st.1.1 e)
    ((init plan 1000000, ⟨[], fun _ => []⟩), fun _ => []) es

theorem reach_of_transcript {ok : FetchState → FetchEvent → Bool} (h : transcript plan ok es = some st)
    : (transcribed plan 1000000).Reach (fun st e => ok st.1.1 e = true) st := by
  apply Machine.reach_of_runChecked _ h
  exact .start ⟨⟨rfl, rfl⟩, rfl⟩

def halfDelivered : List FetchEvent :=
  [.input 0 .connected, .claim 0, .input 0 .opened] ++ answered (forked.take 1)
    ++ [.input 0 (.status "reset"), .gate 0, .send 0, .input 0 .connected]

def unanswered : List FetchEvent :=
  [.input 0 .connected, .claim 0]
    ++ (List.replicate 3 [.input 0 (.openFailed "down"), .input 0 .connected]).flatten

theorem attempts_bounded_twoBlocks
    : (∃ st before, transcript twoBlocks answersRequest halfDelivered = some st
        ∧ before ++ [.request 701 701] <+: st.2 0 ∧ requests (st.2 0) ≤ (2 + 1) * (3 + 1)
        ∧ (blocksOf (subsOf before)).map CompactBlock.height ++ [701] = [700, 701])
      ∧ ∃ st, transcript twoBlocks answersRequest unanswered = some st
        ∧ fruitless (st.2 0) = 3 + 1 := by
  constructor
  . have hrun : ∃ st sub, transcript twoBlocks answersRequest halfDelivered = some st
        ∧ st.2 0 = [.request 700 701, .emitted sub] ++ [.request 701 701] := ⟨_, _, rfl, rfl⟩
    obtain ⟨st, sub, hst, htr⟩ := hrun
    obtain ⟨-, hcount, hasks, -⟩ := attempts_bounded (reach_of_transcript hst) 0
    have hstarts : [.request 700 701, .emitted sub] ++ [.request 701 701] <+: st.2 0 :=
      ⟨[], by rw [List.append_nil, htr]⟩
    exact ⟨st, _, hst, hstarts, hcount, hasks _ _ _ hstarts⟩
  . have hrun : ∃ st st' c w', transcript twoBlocks answersRequest unanswered = some st
        ∧ st.1.1.workers[0]? = some (.opening c 4) ∧ c.planIndex = 0
        ∧ (transcribed twoBlocks 1000000).step st (.input 0 (.openFailed "down")) = some st'
        ∧ st'.1.1.workers[0]? = some w' ∧ w'.Failed := ⟨_, _, _, _, rfl, rfl, rfl, rfl, rfl, trivial⟩
    obtain ⟨st, st', c, w', hst, hk, hindex, hstep, hk', hfailed⟩ := hrun
    obtain ⟨-, -, -, hgives⟩ := attempts_bounded (reach_of_transcript hst) 0
    refine ⟨st, hst, ?_⟩
    rcases hgives 0 _ c _ st' hk rfl hindex hstep ⟨w', hk', hfailed⟩ with ⟨error, heq⟩ | hused
    . cases heq
    . exact hused

def continuesRequest (s : FetchState) : FetchEvent → Bool
  | .input k (.block b _) =>
    match s.workers[k]? with
    | some (.streaming a sp) => b.height == expectedHeight a.cursor sp
    | _ => true
  | _ => true

def oneBlock : FetchPlan :=
  { twoBlocks with stop := 700, retriesPerChunk := 0, start_le := by decide, stop_lt := by decide }

def pastRequest : CompactBlock where
  height := 702
  hash := [1]
  prevHash := []
  encodedLen := 100
  height_lt := by decide

def overrun : List FetchEvent :=
  [.input 0 .connected, .claim 0, .input 0 .opened]
    ++ answered forked
    ++ [.input 0 (.status "reset"), .gate 0, .send 0, .recv 0.0, .input 0 .connected, .input 0 .opened]
    ++ answered [pastRequest]
    ++ [.input 0 (.status "reset"), .gate 0, .send 0, .input 0 .connected]

/--
A reconnect that fails ends the worker whatever is left of its retries, and streams that go on past
the end of the request keep it trying.
-/
theorem attempts_past_bound
    : (∃ st st' w' error, transcript twoBlocks answersRequest [.input 0 .connected, .claim 0,
          .input 0 (.openFailed "down")] = some st
        ∧ (transcribed twoBlocks 1000000).step st (.input 0 (.connectFailed error)) = some st'
        ∧ st'.1.1.workers[0]? = some w' ∧ w'.Failed
        ∧ fruitless (st.2 0) < twoBlocks.retriesPerChunk + 1)
      ∧ ∃ st, transcript oneBlock continuesRequest overrun = some st
        ∧ ((oneBlock.heights 0).length + 1) * (oneBlock.retriesPerChunk + 1) < requests (st.2 0) := by
  constructor
  . exact ⟨_, _, _, .transport "down", rfl, rfl, rfl, trivial, by decide⟩
  . exact ⟨_, rfl, by decide⟩

end Samples

end Fetch
end Slipstream
