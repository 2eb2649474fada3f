import Slipstream.Scan.Impl.Fence
import Mathlib.Data.List.Count

/-!
This module contains the account of the decryption fence over every interleaving: which requests a
payment covers, read off the whole history of loads and completions.
-/

namespace Slipstream
namespace Scan

open FenceState (init machine)

def requestsIn (es : List FenceEvent) : Nat := es.count .owe

section Requests

variable {es : List FenceEvent} {j k n : Nat}

theorem requestsIn_take_le (es : List FenceEvent) (h : j ≤ k)
    : requestsIn (es.take j) ≤ requestsIn (es.take k) :=
  (List.take_sublist_take_left h).count_le _

theorem requestsIn_take_lt (h : es[k]? = some .owe) (hk : k < j)
    : requestsIn (es.take k) < requestsIn (es.take j) := by
  have hnext : requestsIn (es.take (k + 1)) = requestsIn (es.take k) + 1 := by
    simp [requestsIn, List.take_add_one, h]
  have hle := requestsIn_take_le es (show k + 1 ≤ j from hk)
  omega

theorem requestsIn_take_lt_all (h : es[k]? = some .owe)
    : requestsIn (es.take k) < requestsIn es := by
  have hlt := requestsIn_take_lt h (List.getElem?_eq_some_iff.mp h).1
  rwa [List.take_length] at hlt

theorem exists_request (h : n < requestsIn es)
    : ∃ k, es[k]? = some .owe ∧ requestsIn (es.take k) = n := by
  induction es generalizing n with
  | nil => cases h
  | cons e es ih =>
    unfold requestsIn at h ih ⊢
    by_cases he : e = .owe
    . subst he
      cases n with
      | zero => exact ⟨0, rfl, rfl⟩
      | succ n =>
        rw [List.count_cons_self] at h
        obtain ⟨k, hk, hcount⟩ := ih (Nat.lt_of_succ_lt_succ h)
        exact ⟨k + 1, hk, by rw [List.take_succ_cons, List.count_cons_self, hcount]⟩
    . rw [List.count_cons_of_ne he] at h
      obtain ⟨k, hk, hcount⟩ := ih h
      exact ⟨k + 1, hk, by rw [List.take_succ_cons, List.count_cons_of_ne he, hcount]⟩

end Requests

def PaidFor (es : List FenceEvent) (k : Nat) : Prop :=
  ∃ call j, k < j ∧ es[j]? = some (.loadRequests call) ∧ .complete call ∈ es

def FenceWait.read : FenceWait → Option Nat
  | .checking requests | .waiting requests | .completed requests => some requests
  | .idle | .notOwed | .aborted => none

inductive FenceTrans (s : FenceState) : FenceEvent → FenceState → Prop where
  | owe : FenceTrans s .owe { s with counters := s.counters.owe }
  | loadRequests (h : s.waits call = .idle)
      : FenceTrans s (.loadRequests call) (s.setWait call (.checking s.counters.requests))
  | owed (h : s.waits call = .checking requests) (hne : requests ≠ s.counters.paid)
      : FenceTrans s (.loadPaid call) (s.setWait call (.waiting requests))
  | notOwed (h : s.waits call = .checking requests) (heq : requests = s.counters.paid)
      : FenceTrans s (.loadPaid call) (s.setWait call .notOwed)
  | complete (h : s.waits call = .waiting requests)
      : FenceTrans s (.complete call)
          { s.setWait call (.completed requests) with counters := s.counters.pay requests }
  | abort (h : s.waits call = .waiting requests)
      : FenceTrans s (.abort call) (s.setWait call .aborted)

theorem fenceTrans_of_step {s s' : FenceState} {e : FenceEvent} (h : s.step e = some s')
    : FenceTrans s e s' := by
  cases e with
  | owe =>
    cases h
    exact .owe
  | loadRequests call =>
    dsimp only [FenceState.step] at h
    split at h
    . next hidle =>
      cases h
      exact .loadRequests hidle
    . cases h
  | loadPaid call =>
    dsimp only [FenceState.step, DecryptionFence.report] at h
    split at h
    . next requests hchecking =>
      by_cases hpaid : requests = s.counters.paid
      . rw [if_neg (not_not.mpr hpaid)] at h
        cases h
        exact .notOwed hchecking hpaid
      . rw [if_pos hpaid] at h
        cases h
        exact .owed hchecking hpaid
    . cases h
  | complete call =>
    dsimp only [FenceState.step] at h
    split at h
    . next hwaiting =>
      cases h
      exact .complete hwaiting
    . cases h
  | abort call =>
    dsimp only [FenceState.step] at h
    split at h
    . next hwaiting =>
      cases h
      exact .abort hwaiting
    . cases h

@[simp]
theorem setWait_counters (s : FenceState) (call : Nat) (w : FenceWait)
    : (s.setWait call w).counters = s.counters := rfl

@[simp]
theorem setWait_self (s : FenceState) (call : Nat) (w : FenceWait)
    : (s.setWait call w).waits call = w := by
  simp [FenceState.setWait]

theorem setWait_of_ne (s : FenceState) (w : FenceWait) {call i : Nat} (h : i ≠ call)
    : (s.setWait call w).waits i = s.waits i := by
  simp [FenceState.setWait, h]

structure FenceInv (es : List FenceEvent) (s : FenceState) : Prop where
  requests : s.counters.requests = requestsIn es
  unread : ∀ call, s.waits call = .idle → FenceEvent.loadRequests call ∉ es
  read : ∀ call requests, (s.waits call).read = some requests →
    ∃ j : Nat, es[j]? = some (.loadRequests call) ∧ requests = requestsIn (es.take j)
  once : ∀ (call j k : Nat), es[j]? = some (.loadRequests call) →
    es[k]? = some (.loadRequests call) → j = k
  completed : ∀ call, FenceEvent.complete call ∈ es ↔
    ∃ requests, s.waits call = .completed requests
  bound : ∀ call requests, s.waits call = .completed requests → requests ≤ s.counters.paid
  attained : s.counters.paid = 0 ∨ ∃ call, s.waits call = .completed s.counters.paid

section Inv

variable {es : List FenceEvent} {s s' : FenceState} {e : FenceEvent} {call requests : Nat}

theorem FenceInv.init : FenceInv [] FenceState.init := by
  constructor
  case requests => rfl
  case unread => simp
  case read =>
    intro call requests h
    cases h
  case once =>
    intro call j k h
    cases h
  case completed => simp [FenceState.init]
  case bound =>
    intro call requests h
    cases h
  case attained => exact .inl rfl

theorem getElem?_concat_iff {α : Type} {es : List α} {e e' : α} {j : Nat}
    : (es ++ [e])[j]? = some e' ↔ es[j]? = some e' ∨ (j = es.length ∧ e = e') := by
  rw [List.getElem?_append]
  split
  . next h => simp [Nat.ne_of_lt h]
  . next h =>
    rw [List.getElem?_singleton, List.getElem?_eq_none (Nat.le_of_not_lt h)]
    split <;> simp <;> omega

theorem FenceInv.read_concat (h : FenceInv es s) (hread : (s.waits call).read = some requests)
    : ∃ j : Nat, (es ++ [e])[j]? = some (.loadRequests call)
      ∧ requests = requestsIn ((es ++ [e]).take j) := by
  obtain ⟨j, hj, hcount⟩ := h.read call requests hread
  have hlt := (List.getElem?_eq_some_iff.mp hj).1
  refine ⟨j, getElem?_concat_iff.mpr (.inl hj), ?_⟩
  rw [List.take_append_of_le_length (Nat.le_of_lt hlt), hcount]

theorem FenceInv.keep (h : FenceInv es s) (he : ∀ call, e ≠ .loadRequests call)
    (hrequests : s'.counters.requests = requestsIn (es ++ [e]))
    (hidle : ∀ call, s'.waits call = .idle → s.waits call = .idle)
    (hread : ∀ call requests, (s'.waits call).read = some requests →
      (s.waits call).read = some requests)
    (hcompleted : ∀ call, FenceEvent.complete call ∈ es ++ [e] ↔
      ∃ requests, s'.waits call = .completed requests)
    (hbound : ∀ call requests, s'.waits call = .completed requests →
      requests ≤ s'.counters.paid)
    (hattained : s'.counters.paid = 0 ∨ ∃ call, s'.waits call = .completed s'.counters.paid)
    : FenceInv (es ++ [e]) s' where
  requests := hrequests
  unread call hcall := by
    have hold := h.unread call (hidle call hcall)
    simp [hold, (he call).symm]
  read call requests hcall := h.read_concat (hread call requests hcall)
  once call j k hj hk := by
    simp only [getElem?_concat_iff, he, and_false, or_false] at hj hk
    exact h.once call j k hj hk
  completed := hcompleted
  bound := hbound
  attained := hattained

theorem FenceInv.moves (h : FenceInv es s) (he : ∀ call, e ≠ .loadRequests call)
    (hcomplete : ∀ call, e ≠ .complete call) (howe : e ≠ .owe)
    (hbusy : ∀ requests, s.waits call ≠ .completed requests) (hw : w ≠ .idle)
    (hopen : ∀ requests, w ≠ .completed requests)
    (hread : ∀ requests, w.read = some requests → (s.waits call).read = some requests)
    : FenceInv (es ++ [e]) (s.setWait call w) := by
  apply h.keep he
  case hrequests =>
    have hcount : requestsIn (es ++ [e]) = requestsIn es := by
      simp [requestsIn, howe]
    rw [setWait_counters, h.requests, hcount]
  case hidle =>
    intro i hi
    by_cases hcall : i = call
    . subst hcall
      exact absurd (by simpa using hi) hw
    . rwa [setWait_of_ne s w hcall] at hi
  case hread =>
    intro i requests hi
    by_cases hcall : i = call
    . subst hcall
      exact hread requests (by simpa using hi)
    . rwa [setWait_of_ne s w hcall] at hi
  case hcompleted =>
    intro i
    have hmem : FenceEvent.complete i ∈ es ++ [e] ↔ FenceEvent.complete i ∈ es := by
      simp [(hcomplete i).symm]
    rw [hmem, h.completed i]
    by_cases hcall : i = call
    . subst hcall
      simp [hbusy, hopen]
    . rw [setWait_of_ne s w hcall]
  case hbound =>
    intro i requests hi
    by_cases hcall : i = call
    . subst hcall
      exact absurd (by simpa using hi) (hopen requests)
    . exact h.bound i requests (by rwa [setWait_of_ne s w hcall] at hi)
  case hattained =>
    cases h.attained with
    | inl hzero => exact .inl hzero
    | inr hcompleted =>
      obtain ⟨i, hi⟩ := hcompleted
      have hcall : i ≠ call := by
        rintro rfl
        exact hbusy _ hi
      exact .inr ⟨i, by rw [setWait_of_ne s w hcall, hi, setWait_counters]⟩

theorem FenceInv.owe (h : FenceInv es s)
    : FenceInv (es ++ [.owe]) { s with counters := s.counters.owe } := by
  apply h.keep (by simp)
  case hrequests => simp [requestsIn, DecryptionFence.owe, h.requests]
  case hidle => exact fun _ hi => hi
  case hread => exact fun _ _ hr => hr
  case hcompleted => simpa using h.completed
  case hbound => exact h.bound
  case hattained => exact h.attained

theorem FenceInv.complete (h : FenceInv es s) (hw : s.waits call = .waiting requests)
    : FenceInv (es ++ [.complete call])
        { s.setWait call (.completed requests) with counters := s.counters.pay requests } := by
  apply h.keep (by simp)
  case hrequests => simp [requestsIn, DecryptionFence.pay, h.requests]
  case hidle =>
    intro i hi
    by_cases hcall : i = call
    . subst hcall
      simp at hi
    . rwa [show _ = s.waits i from setWait_of_ne s _ hcall] at hi
  case hread =>
    intro i r hi
    by_cases hcall : i = call
    . subst hcall
      rw [hw]
      simpa [FenceWait.read] using hi
    . rwa [show _ = s.waits i from setWait_of_ne s _ hcall] at hi
  case hcompleted =>
    intro i
    by_cases hcall : i = call
    . subst hcall
      simp
    . simp [h.completed i, hcall, setWait_of_ne s _ hcall]
  case hbound =>
    intro i r hi
    by_cases hcall : i = call
    . subst hcall
      obtain rfl : requests = r := by simpa using hi
      exact Nat.le_max_right _ _
    . rw [show _ = s.waits i from setWait_of_ne s _ hcall] at hi
      exact Nat.le_trans (h.bound i r hi) (Nat.le_max_left _ _)
  case hattained =>
    -- The fence that has paid most is this one, or the one that had before.
    by_cases hle : s.counters.paid ≤ requests
    . refine .inr ⟨call, ?_⟩
      simp [DecryptionFence.pay, Nat.max_eq_right hle]
    . have hmax : (s.counters.pay requests).paid = s.counters.paid :=
        Nat.max_eq_left (by omega)
      cases h.attained with
      | inl hzero => omega
      | inr hcompleted =>
        obtain ⟨i, hi⟩ := hcompleted
        have hcall : i ≠ call := by
          rintro rfl
          rw [hw] at hi
          cases hi
        exact .inr ⟨i, by rw [show _ = s.waits i from setWait_of_ne s _ hcall, hi, hmax]⟩

theorem FenceInv.loadRequests (h : FenceInv es s) (hw : s.waits call = .idle)
    : FenceInv (es ++ [.loadRequests call])
        (s.setWait call (.checking s.counters.requests)) := by
  have hnew : FenceEvent.loadRequests call ∉ es := h.unread call hw
  constructor
  case requests => simp [requestsIn, h.requests]
  case unread =>
    intro i hi
    by_cases hcall : i = call
    . subst hcall
      simp at hi
    . rw [setWait_of_ne s _ hcall] at hi
      simp [h.unread i hi, hcall]
  case read =>
    intro i r hi
    by_cases hcall : i = call
    . subst hcall
      obtain rfl : s.counters.requests = r := by simpa [FenceWait.read] using hi
      exact ⟨es.length, by simp, by simp [h.requests]⟩
    . rw [setWait_of_ne s _ hcall] at hi
      exact h.read_concat hi
  case once =>
    intro i j k hj hk
    rw [getElem?_concat_iff] at hj hk
    by_cases hcall : i = call
    . subst hcall
      have hfresh : ∀ n : Nat, es[n]? ≠ some (.loadRequests i) := by
        intro n hn
        exact hnew (List.mem_of_getElem? hn)
      simp only [hfresh, and_true, false_or] at hj hk
      rw [hj, hk]
    . simp only [FenceEvent.loadRequests.injEq, Ne.symm hcall, and_false, or_false] at hj hk
      exact h.once i j k hj hk
  case completed =>
    intro i
    by_cases hcall : i = call
    . subst hcall
      simp [h.completed i, hw]
    . simp [h.completed i, setWait_of_ne s _ hcall]
  case bound =>
    intro i r hi
    by_cases hcall : i = call
    . subst hcall
      simp at hi
    . exact h.bound i r (by rwa [setWait_of_ne s _ hcall] at hi)
  case attained =>
    cases h.attained with
    | inl hzero => exact .inl hzero
    | inr hcompleted =>
      obtain ⟨i, hi⟩ := hcompleted
      have hcall : i ≠ call := by
        rintro rfl
        rw [hw] at hi
        cases hi
      exact .inr ⟨i, by rw [setWait_of_ne s _ hcall, hi, setWait_counters]⟩

theorem FenceInv.step (h : FenceInv es s) (hstep : s.step e = some s') : FenceInv (es ++ [e]) s' := by
  cases fenceTrans_of_step hstep with
  | owe => exact h.owe
  | loadRequests hw => exact h.loadRequests hw
  | owed hw _ => apply h.moves <;> simp [hw, FenceWait.read]
  | notOwed hw _ => apply h.moves <;> simp [hw, FenceWait.read]
  | complete hw => exact h.complete hw
  | abort hw => apply h.moves <;> simp [hw, FenceWait.read]

theorem fenceInv_of_run (h : machine.run init es = some s) : FenceInv es s :=
  Machine.run_induction FenceInv.init (fun _ _ _ _ hinv hstep => hinv.step hstep) h

theorem FenceInv.paid_le (h : FenceInv es s) : s.counters.paid ≤ requestsIn es := by
  cases h.attained with
  | inl hzero => omega
  | inr hcompleted =>
    obtain ⟨call, hcall⟩ := hcompleted
    obtain ⟨j, -, hj⟩ := h.read call s.counters.paid (by rw [hcall]; rfl)
    rw [hj]
    exact (List.take_sublist j es).count_le _

theorem FenceInv.paidFor_iff (h : FenceInv es s) {k : Nat} (hk : es[k]? = some .owe)
    : PaidFor es k ↔ requestsIn (es.take k) < s.counters.paid := by
  constructor
  . rintro ⟨call, j, hlt, hj, hcomplete⟩
    obtain ⟨requests, hrequests⟩ := (h.completed call).mp hcomplete
    obtain ⟨j', hj', hcount⟩ := h.read call requests (by rw [hrequests]; rfl)
    rw [h.once call j' j hj' hj] at hcount
    have hread := requestsIn_take_lt hk hlt
    have hbound := h.bound call requests hrequests
    omega
  . intro hlt
    cases h.attained with
    | inl hzero => omega
    | inr hcompleted =>
      obtain ⟨call, hcall⟩ := hcompleted
      obtain ⟨j, hj, hcount⟩ := h.read call s.counters.paid (by rw [hcall]; rfl)
      refine ⟨call, j, ?_, hj, (h.completed call).mpr ⟨_, hcall⟩⟩
      apply Nat.lt_of_not_le
      intro hle
      have hread := requestsIn_take_le es hle
      omega

theorem FenceInv.owed_eq_none_iff (h : FenceInv es s)
    : s.counters.owed = none ↔ ∀ k : Nat, es[k]? = some .owe → PaidFor es k := by
  have howed : s.counters.owed = none ↔ requestsIn es = s.counters.paid := by
    simp [DecryptionFence.owed, DecryptionFence.report, h.requests]
  have hpaid := h.paid_le
  rw [howed]
  constructor
  . intro heq k hk
    rw [h.paidFor_iff hk, ← heq]
    exact requestsIn_take_lt_all hk
  . intro hall
    apply Nat.le_antisymm _ hpaid
    apply Nat.le_of_not_lt
    intro hlt
    -- The first request that is not paid for.
    obtain ⟨k, hk, hcount⟩ := exists_request hlt
    have hpaidFor := (h.paidFor_iff hk).mp (hall k hk)
    omega

theorem FenceInv.checked_iff (h : FenceInv es s) {j : Nat}
    (hj : es[j]? = some (.loadRequests call)) (hw : s.waits call = .checking requests)
    : requests = s.counters.paid ↔
      (∀ k : Nat, k < j → es[k]? = some .owe → PaidFor es k)
        ∧ ∀ k : Nat, j < k → es[k]? = some .owe → ¬PaidFor es k := by
  obtain ⟨j', hj', hcount⟩ := h.read call requests (by rw [hw]; rfl)
  rw [h.once call j' j hj' hj] at hcount
  constructor
  . intro heq
    constructor
    . intro k hlt hk
      rw [h.paidFor_iff hk, ← heq, hcount]
      exact requestsIn_take_lt hk hlt
    . intro k hlt hk
      rw [h.paidFor_iff hk, ← heq, hcount]
      exact Nat.not_lt.mpr (requestsIn_take_le es (Nat.le_of_lt hlt))
  . rintro ⟨hbefore, hsince⟩
    have hpaid := h.paid_le
    have hread : requests ≤ requestsIn es := hcount ▸ (List.take_sublist j es).count_le _
    rcases Nat.lt_trichotomy requests s.counters.paid with hlt | heq | hlt
    . -- The first request after the load is paid for already.
      obtain ⟨k, hk, hnumber⟩ := exists_request (Nat.lt_of_lt_of_le hlt hpaid)
      have hne : k ≠ j := by
        rintro rfl
        rw [hj] at hk
        cases hk
      have hafter : ¬k < j := by
        intro hkj
        have hfewer := requestsIn_take_lt hk hkj
        omega
      exact absurd ((h.paidFor_iff hk).mpr (by omega)) (hsince k (by omega) hk)
    . exact heq
    . -- A request before the load is not paid for yet.
      obtain ⟨k, hk, hnumber⟩ := exists_request (Nat.lt_of_lt_of_le hlt hread)
      have hearlier : k < j := by
        apply Nat.lt_of_not_le
        intro hjk
        have hmore := requestsIn_take_le es hjk
        omega
      have hpaidFor := (h.paidFor_iff hk).mp (hbefore k hearlier hk)
      omega

end Inv

def FenceEvent.caller : FenceEvent → Option Nat
  | .owe => none
  | .loadRequests call | .loadPaid call | .complete call | .abort call => some call

section Erase

variable {s s' t : FenceState} {e : FenceEvent} {call : Nat}

structure SameBut (call : Nat) (s t : FenceState) : Prop where
  counters : t.counters = s.counters
  waits : ∀ i, i ≠ call → t.waits i = s.waits i

theorem SameBut.setWait_left (h : SameBut call s t) (w : FenceWait)
    : SameBut call (s.setWait call w) t where
  counters := h.counters
  waits i hi := by rw [h.waits i hi, setWait_of_ne s w hi]

theorem SameBut.setWait (h : SameBut call s t) (i : Nat) (w : FenceWait)
    : SameBut call (s.setWait i w) (t.setWait i w) where
  counters := h.counters
  waits k hk := by
    by_cases hki : k = i
    . subst hki
      simp
    . rw [setWait_of_ne t w hki, setWait_of_ne s w hki, h.waits k hk]

theorem SameBut.step (h : SameBut call s t) (he : e.caller ≠ some call) (hstep : s.step e = some s')
    : ∃ t', t.step e = some t' ∧ SameBut call s' t' := by
  cases fenceTrans_of_step hstep with
  | owe => exact ⟨_, rfl, by rw [h.counters], h.waits⟩
  | @loadRequests i hw =>
    have hi : i ≠ call := by simpa [FenceEvent.caller] using he
    refine ⟨_, ?_, h.setWait i _⟩
    simp [FenceState.step, h.waits i hi, hw, h.counters]
  | @owed i requests hw hne =>
    have hi : i ≠ call := by simpa [FenceEvent.caller] using he
    refine ⟨_, ?_, h.setWait i _⟩
    simp [FenceState.step, h.waits i hi, hw, h.counters, DecryptionFence.report, hne]
  | @notOwed i requests hw heq =>
    have hi : i ≠ call := by simpa [FenceEvent.caller] using he
    refine ⟨_, ?_, h.setWait i _⟩
    simp [FenceState.step, h.waits i hi, hw, h.counters, DecryptionFence.report, heq]
  | @complete i requests hw =>
    have hi : i ≠ call := by simpa [FenceEvent.caller] using he
    have hsame := h.setWait i (.completed requests)
    refine ⟨{ t.setWait i (.completed requests) with counters := s.counters.pay requests }, ?_,
      rfl, hsame.waits⟩
    simp [FenceState.step, h.waits i hi, hw, h.counters]
  | @abort i requests hw =>
    have hi : i ≠ call := by simpa [FenceEvent.caller] using he
    refine ⟨_, ?_, h.setWait i _⟩
    simp [FenceState.step, h.waits i hi, hw]

theorem SameBut.own (h : SameBut call s t) (he : e.caller = some call) (hopen : e ≠ .complete call)
    (hstep : s.step e = some s') : SameBut call s' t := by
  cases fenceTrans_of_step hstep with
  | owe => cases he
  | loadRequests =>
    cases he
    exact h.setWait_left _
  | owed =>
    cases he
    exact h.setWait_left _
  | notOwed =>
    cases he
    exact h.setWait_left _
  | complete =>
    cases he
    exact absurd rfl hopen
  | abort =>
    cases he
    exact h.setWait_left _

theorem run_without {es : List FenceEvent} (hopen : FenceEvent.complete call ∉ es)
    (h : machine.run init es = some s)
    : ∃ t, machine.run init (es.filter (·.caller ≠ some call)) = some t ∧ SameBut call s t := by
  induction es using List.reverseRecOn generalizing s with
  | nil =>
    cases h
    exact ⟨init, rfl, rfl, fun _ _ => rfl⟩
  | append_singleton es e ih =>
    obtain ⟨r, hr, hstep⟩ := Machine.run_concat h
    obtain ⟨t, ht, hsame⟩ := ih (fun hmem => hopen (List.mem_append_left _ hmem)) hr
    by_cases he : e.caller = some call
    . have hne : e ≠ .complete call := by
        rintro rfl
        exact hopen (by simp)
      exact ⟨t, by simpa [he] using ht, hsame.own he hne hstep⟩
    . obtain ⟨t', ht', hsame'⟩ := hsame.step he hstep
      have hlast : machine.run t [e] = some t' := by
        simp [Machine.run, machine, ht']
      refine ⟨t', ?_, hsame'⟩
      rw [List.filter_append, Machine.run_append, ht]
      simpa [he] using hlast

end Erase

theorem aborted_of_step {s s' : FenceState} {e : FenceEvent} {call : Nat}
    (h : s.waits call = .aborted ∨ e = .abort call) (hstep : s.step e = some s')
    : s'.waits call = .aborted := by
  cases fenceTrans_of_step hstep with
  | owe =>
    cases h with
    | inl h => exact h
    | inr h => cases h
  | @abort i requests hw =>
    by_cases hi : call = i
    . subst hi
      simp
    . rw [setWait_of_ne s _ hi]
      simpa [Ne.symm hi] using h
  | @complete i requests hw | @loadRequests i hw | @owed i requests hw hne
  | @notOwed i requests hw heq =>
    have hi : call ≠ i := by
      rintro rfl
      simp [hw] at h
    simpa [hi, FenceState.setWait] using h

theorem aborted_of_run {es : List FenceEvent} {s : FenceState} {call : Nat}
    (h : machine.run init es = some s) (habort : FenceEvent.abort call ∈ es)
    : s.waits call = .aborted := by
  induction es using List.reverseRecOn generalizing s with
  | nil => cases habort
  | append_singleton es e ih =>
    obtain ⟨t, ht, hstep⟩ := Machine.run_concat h
    apply aborted_of_step _ hstep
    cases List.mem_append.mp habort with
    | inl hmem => exact .inl (ih ht hmem)
    | inr hmem => exact .inr (List.mem_singleton.mp hmem).symm

theorem paid_le_of_step {s s' : FenceState} {e : FenceEvent} (h : s.step e = some s')
    : s.counters.paid ≤ s'.counters.paid := by
  cases fenceTrans_of_step h with
  | complete => exact Nat.le_max_left _ _
  | _ => exact Nat.le_refl _

/--
The account of the fence after every history. What `owed` says of one moment is exact; a check of
`wait_if_owed` loads its counters in two moments, and reports that nothing is owed exactly if every
request before its first load is paid for, and none that was made since.
-/
theorem decryptionFence_account (es : List FenceEvent) (s : FenceState)
    (h : machine.run init es = some s)
    : (s.counters.owed = none ↔ ∀ k : Nat, es[k]? = some .owe → PaidFor es k)
      ∧ (∀ (call j : Nat) (s' : FenceState), es[j]? = some (.loadRequests call) →
          s.step (.loadPaid call) = some s' →
            (s'.waits call = .notOwed ↔
              (∀ k : Nat, k < j → es[k]? = some .owe → PaidFor es k)
                ∧ ∀ k : Nat, j < k → es[k]? = some .owe → ¬PaidFor es k))
      ∧ s.counters.paid ≤ s.counters.requests
      ∧ (∀ (e : FenceEvent) (s' : FenceState), s.step e = some s' →
          s.counters.paid ≤ s'.counters.paid)
      ∧ ∀ call : Nat, FenceEvent.abort call ∈ es →
          ∃ t, machine.run init (es.filter (·.caller ≠ some call)) = some t ∧ SameBut call s t := by
  have hinv := fenceInv_of_run h
  refine ⟨hinv.owed_eq_none_iff, ?_, ?_, fun _ _ => paid_le_of_step, ?_⟩
  . intro call j s' hj hstep
    cases fenceTrans_of_step hstep with
    | owed hw hne => simpa [hne] using (hinv.checked_iff hj hw).not
    | notOwed hw heq => simpa [heq] using hinv.checked_iff hj hw
  . rw [hinv.requests]
    exact hinv.paid_le
  . intro call habort
    apply run_without _ h
    intro hcomplete
    obtain ⟨requests, hcompleted⟩ := (hinv.completed call).mp hcomplete
    rw [aborted_of_run h habort] at hcompleted
    cases hcompleted

def loadsApart : List FenceEvent :=
  [.owe, .loadRequests 0, .loadPaid 0, .loadRequests 1, .owe, .complete 0, .loadPaid 1]

theorem decryptionFence_account_loadsApart
    : ∃ s, machine.run init (loadsApart.take 6) = some s
      ∧ s.counters.paid ≤ s.counters.requests := by
  refine ⟨_, rfl, ?_⟩
  exact (decryptionFence_account (loadsApart.take 6) _ rfl).2.2.1

/--
The second session is told that nothing is owed, though at no moment of its check every request made
so far came before the read of a completed fence.
-/
theorem loadsApart_not_owed
    : (∃ s, machine.run init loadsApart = some s ∧ s.waits 1 = .notOwed)
      ∧ ∀ n : Nat, 4 ≤ n → n ≤ 7 →
          ¬∀ k : Nat, (loadsApart.take n)[k]? = some .owe → PaidFor (loadsApart.take n) k := by
  refine ⟨⟨_, rfl, rfl⟩, ?_⟩
  intro n hlow hhigh
  have howed : ∃ s, machine.run init (loadsApart.take n) = some s ∧ s.counters.owed ≠ none := by
    obtain rfl | rfl | rfl | rfl : n = 4 ∨ n = 5 ∨ n = 6 ∨ n = 7 := by omega
    all_goals exact ⟨_, rfl, by decide⟩
  obtain ⟨s, hs, hne⟩ := howed
  exact (fenceInv_of_run hs).owed_eq_none_iff.not.mp hne

end Scan
end Slipstream
