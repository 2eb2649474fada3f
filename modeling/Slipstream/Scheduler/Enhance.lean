import Mathlib.Data.List.Nodup
import Slipstream.Scheduler.Impl.Enhance

/-!
This module contains the verification of the enhancement: what a run counts and tells the host, when
it connects, and what stands behind an address that it reports as checked.
-/

namespace Slipstream
namespace Enhance

variable {TxId Tx : Type} {s s' : Run TxId Tx} {P : Run TxId Tx → Prop}

def Backed (s : Run TxId Tx) (tia : TransactionsInvolvingAddress) (asOf : Nat) : Prop :=
  ∃ raws, (tia, asOf, raws) ∈ s.answered ∧ ∀ raw ∈ raws,
    tia.txStatusFilter.skips raw.minedHeight = false →
      ∃ tx, raw.parsed = .ok tx ∧ .storeTransaction tx raw.minedHeight ∈ s.writes

structure Kept (P : Run TxId Tx → Prop) : Prop where
  endWith : ∀ s result, P s → P (s.endWith result)
  queue : ∀ s round requests pending addressReqs, P s →
    P { s with round, pending, addressReqs, stats.requests := requests }
  get : ∀ s connect, s.ended = none → P s → P (s.get connect)
  skip : ∀ s key, P s → P (s.skip key)
  setTransactionStatus : ∀ s context bumps txid status write,
    (bumps + if status = .txidNotRecognized then 1 else 0) = 1 → P s →
      P (s.setTransactionStatus context bumps txid status write)
  storeTransaction : ∀ s origin raw write, P s → P (s.storeTransaction origin raw write)
  answer : ∀ s answer, P s → P { s with answered := s.answered ++ [answer] }
  notifyAddressChecked : ∀ s tia asOf write, Backed s tia asOf → P s →
    P (s.notifyAddressChecked tia asOf write)

theorem storeTransaction_stores {origin : String} {raw : RawTransaction Tx} {write : Except String Unit}
    (h : (s.storeTransaction origin raw write).ended = none)
    : (s.storeTransaction origin raw write).answered = s.answered
      ∧ s.writes ⊆ (s.storeTransaction origin raw write).writes ∧ ∃ tx, raw.parsed = .ok tx
        ∧ .storeTransaction tx raw.minedHeight ∈ (s.storeTransaction origin raw write).writes := by
  unfold Run.storeTransaction at h ⊢
  cases hparsed : raw.parsed with
  | error e =>
    rw [hparsed] at h
    cases h
  | ok tx =>
    cases write with
    | error e =>
      rw [hparsed] at h
      cases h
    | ok => exact ⟨rfl, List.subset_append_left _ _, tx, rfl, by simp⟩

theorem storeAnswered_stores {filter : TransactionStatusFilter}
    {raws : List (RawTransaction Tx × Except String Unit)}
    (h : (s.storeAnswered filter raws).ended = none)
    : (s.storeAnswered filter raws).answered = s.answered
      ∧ s.writes ⊆ (s.storeAnswered filter raws).writes
      ∧ ∀ raw ∈ raws.map Prod.fst, filter.skips raw.minedHeight = false → ∃ tx, raw.parsed = .ok tx
        ∧ .storeTransaction tx raw.minedHeight ∈ (s.storeAnswered filter raws).writes := by
  induction raws generalizing s with
  | nil => exact ⟨rfl, List.Subset.refl _, nofun⟩
  | cons answer raws ih =>
    rw [List.map_cons, List.forall_mem_cons]
    rw [Run.storeAnswered] at h ⊢
    split at h
    . next hskips =>
      rw [if_pos hskips]
      obtain ⟨hanswered, hwrites, hstored⟩ := ih h
      refine ⟨hanswered, hwrites, ?_, hstored⟩
      intro hkeep
      cases hkeep.symm.trans hskips
    . next hkeep =>
      rw [if_neg hkeep]
      unfold Run.andThen at h ⊢
      split at h
      . next hended => simp [h] at hended
      . next hgoing =>
        rw [if_neg hgoing]
        obtain ⟨hanswered, hwrites, hstored⟩ := ih h
        obtain ⟨hsame, hgrown, tx, hparsed, hstore⟩ := storeTransaction_stores (by simpa using hgoing)
        exact ⟨hanswered.trans hsame, List.Subset.trans hgrown hwrites,
          fun _ => ⟨tx, hparsed, hwrites hstore⟩, hstored⟩

namespace Kept

theorem andThen {f : Run TxId Tx → Run TxId Tx} (hf : s.ended = none → P s → P (f s)) (hs : P s)
    : P (s.andThen f) := by
  unfold Run.andThen
  split
  . exact hs
  . next hgoing => exact hf (by simpa using hgoing) hs

theorem storeAnswered (h : Kept P) (filter : TransactionStatusFilter)
    (raws : List (RawTransaction Tx × Except String Unit)) (hs : P s)
    : P (s.storeAnswered filter raws) := by
  induction raws generalizing s with
  | nil => exact hs
  | cons answer raws ih =>
    rw [Run.storeAnswered]
    split
    . exact ih hs
    . exact andThen (fun _ hs => ih hs) (h.storeTransaction _ _ _ _ hs)

theorem checkAddress (h : Kept P) (hgoing : s.ended = none) (tia : TransactionsInvolvingAddress)
    (stop : Nat) (answers : AddressAnswers Tx) (hs : P s) : P (s.checkAddress tia stop answers) := by
  unfold Run.checkAddress
  dsimp only
  split
  . exact h.skip _ _ hs
  split
  . exact h.skip _ _ hs
  apply andThen _ (h.get _ _ hgoing hs)
  intro _ hs
  split
  . exact h.endWith _ _ hs
  . next raws _ =>
    apply andThen _ (h.storeAnswered _ _ (h.answer _ _ hs))
    intro hgoing hs
    obtain ⟨hanswered, -, hstored⟩ := storeAnswered_stores hgoing
    refine h.notifyAddressChecked _ _ _ _ ⟨raws.map Prod.fst, ?_, hstored⟩ hs
    rw [hanswered]
    exact List.mem_append_right _ (List.mem_singleton_self _)

theorem applyTxidFetch (h : Kept P) (txid : TxId) (wantEnhance : Bool)
    (fetched : Except SlipstreamError (Option (RawTransaction Tx))) (write : Except String Unit)
    (hs : P s) : P (s.applyTxidFetch txid wantEnhance fetched write) := by
  unfold Run.applyTxidFetch
  split
  . exact h.endWith _ _ hs
  . exact h.setTransactionStatus _ _ _ _ _ _ rfl hs
  split
  . exact h.storeTransaction _ _ _ _ hs
  . apply h.setTransactionStatus _ _ _ _ _ _ _ hs
    split <;> rfl

theorem step (h : Kept P) {e : Event TxId Tx} (hs : P s) (hstep : s.step e = some s') : P s' := by
  unfold Run.step at hstep
  split at hstep
  . next hgoing _ _ =>
    cases hstep
    unfold Run.beginRound
    split
    . exact h.endWith _ _ hs
    split
    . exact h.endWith _ _ hs
    . exact h.endWith _ _ hs
    . dsimp only
      split
      . exact h.queue _ _ _ _ _ hs
      . exact h.get _ _ hgoing (h.queue _ _ _ _ _ hs)
  . rw [Option.map_eq_some_iff] at hstep
    obtain ⟨fetch, -, rfl⟩ := hstep
    exact h.applyTxidFetch _ _ _ _ (h.queue s s.round s.stats.requests _ s.addressReqs hs)
  . next rest _ hgoing _ _ =>
    cases hstep
    have hs : P { s with addressReqs := rest } :=
      h.queue s s.round s.stats.requests s.pending _ hs
    have hgoing : { s with addressReqs := rest }.ended = none := hgoing
    unfold Run.applyAddressRequest
    split
    . exact h.checkAddress hgoing _ _ _ hs
    split
    . exact h.endWith _ _ hs
    . exact h.checkAddress hgoing _ _ _ hs
    . exact h.skip _ _ hs
  . cases hstep

theorem run (h : Kept P) {start : Run TxId Tx} {events : List (Event TxId Tx)} (hstart : P start)
    (hrun : runMachine.run start events = some s) : P s :=
  Machine.run_induction (P := fun _ s => P s) hstart (fun _ _ _ _ hs hstep => h.step hs hstep) hrun

end Kept

namespace WalletWrite

def isStore : WalletWrite TxId Tx → Bool
  | .storeTransaction _ _ => true
  | _ => false

def isStatus : WalletWrite TxId Tx → Bool
  | .setTransactionStatus _ _ => true
  | _ => false

def isUnrecognized : WalletWrite TxId Tx → Bool
  | .setTransactionStatus _ status => status = .txidNotRecognized
  | _ => false

end WalletWrite

structure Accounts (start s : Run TxId Tx) : Prop where
  stored : s.stats.txsStored = s.writes.countP WalletWrite.isStore
  statuses : s.stats.statusesSet = s.writes.countP WalletWrite.isStatus
  enhanced : s.enhancedTxs = start.enhancedTxs + s.stats.txsStored
  version : s.txSetVersion + s.writes.countP WalletWrite.isUnrecognized
    = start.txSetVersion + s.stats.txsStored + s.stats.statusesSet
  skipped : s.skippedKeys.length = start.skippedKeys.length + s.stats.skipped
  keys : s.skippedKeys.Nodup

theorem Accounts.kept (start : Run TxId Tx) : Kept (Accounts start) where
  endWith _ _ h := ⟨h.1, h.2, h.3, h.4, h.5, h.6⟩
  queue _ _ _ _ _ h := ⟨h.1, h.2, h.3, h.4, h.5, h.6⟩
  get s connect _ h := by
    unfold Run.get
    split
    . exact h
    split <;> exact ⟨h.1, h.2, h.3, h.4, h.5, h.6⟩
  skip s key h := by
    unfold Run.skip
    split
    . exact h
    . next hnew =>
      refine ⟨h.1, h.2, h.3, h.4, ?_, List.nodup_cons.mpr ⟨hnew, h.6⟩⟩
      have := h.skipped
      simp only [List.length_cons]
      omega
  setTransactionStatus s context bumps txid status write hbumps h := by
    obtain ⟨hstored, hstatuses, henhanced, hversion, hskipped, hkeys⟩ := h
    cases write with
    | error e => exact ⟨hstored, hstatuses, henhanced, hversion, hskipped, hkeys⟩
    | ok =>
      constructor <;> simp_all [Run.setTransactionStatus, WalletWrite.isStore, WalletWrite.isStatus,
        WalletWrite.isUnrecognized]
      omega
  storeTransaction s origin raw write h := by
    obtain ⟨hstored, hstatuses, henhanced, hversion, hskipped, hkeys⟩ := h
    unfold Run.storeTransaction
    split
    . exact ⟨hstored, hstatuses, henhanced, hversion, hskipped, hkeys⟩
    . exact ⟨hstored, hstatuses, henhanced, hversion, hskipped, hkeys⟩
    . constructor <;> simp_all [WalletWrite.isStore, WalletWrite.isStatus, WalletWrite.isUnrecognized]
        <;> omega
  answer _ _ h := ⟨h.1, h.2, h.3, h.4, h.5, h.6⟩
  notifyAddressChecked s tia asOf write _ h := by
    obtain ⟨hstored, hstatuses, henhanced, hversion, hskipped, hkeys⟩ := h
    cases write with
    | error e => exact ⟨hstored, hstatuses, henhanced, hversion, hskipped, hkeys⟩
    | ok =>
      constructor <;> simp_all [Run.notifyAddressChecked, WalletWrite.isStore, WalletWrite.isStatus,
        WalletWrite.isUnrecognized]

theorem enhancement_accounts {keys : List String} (hkeys : keys.Nodup) {connected : Bool}
    {enhanced version : Nat} {events : List (Event TxId Tx)}
    (h : runMachine.run (.start keys connected enhanced version) events = some s)
    : Accounts (.start keys connected enhanced version) s :=
  (Accounts.kept _).run ⟨rfl, rfl, rfl, rfl, rfl, hkeys⟩ h

def receiver : TransactionsInvolvingAddress where
  address := "t1"
  blockRangeStart := 100
  blockRangeEnd := some 120
  requestAt := none
  txStatusFilter := .mined
  outputStatusFilter := .all

def oneRound : List (Event Nat Nat) :=
  [.turn (.ok [.enhancement 1, .getStatus 2, .transactionsInvolvingAddress receiver]) (.ok ()),
    .fetched 1 (.ok none) (.ok ()), .fetched 0 (.ok (some ⟨110, .ok 10⟩)) (.ok ()),
    .address ⟨.ok none, .ok (), .ok [(⟨0, .ok 20⟩, .ok ()), (⟨115, .ok 30⟩, .ok ())], .ok ()⟩,
    .turn (.ok []) (.ok ())]

theorem enhancement_accounts_oneRound
    : ∃ s, runMachine.run (.start [] false 0 7) oneRound = some s
      ∧ s.writes.length = 4 ∧ s.txSetVersion + 1 = 7 + 2 + 1 := by
  have hrun : ∃ s, runMachine.run (.start [] false 0 7) oneRound = some s
      ∧ s.writes.length = 4 ∧ s.writes.countP WalletWrite.isUnrecognized = 1
      ∧ s.stats.txsStored = 2 ∧ s.stats.statusesSet = 1 := ⟨_, rfl, rfl, rfl, rfl, rfl⟩
  obtain ⟨s, hs, hwrites, hunrecognized, hstored, hstatuses⟩ := hrun
  have hversion := (enhancement_accounts List.nodup_nil hs).version
  rw [hunrecognized, hstored, hstatuses] at hversion
  exact ⟨s, hs, hwrites, hversion⟩

def TransactionsInvolvingAddress.skipped (tia : TransactionsInvolvingAddress) : Bool :=
  tia.requestAt.isSome || tia.outputStatusFilter == .unspent

def Event.onlySkips : Event TxId Tx → Prop
  | .turn (.ok asked) _ => ∀ request ∈ asked,
    ∃ tia, request = .transactionsInvolvingAddress tia ∧ tia.skipped = true
  | _ => True

structure Idle (start s : Run TxId Tx) : Prop where
  pending : s.pending = []
  addressReqs : ∀ tia ∈ s.addressReqs, tia.skipped = true
  same : s.connects = start.connects ∧ s.writes = start.writes ∧ s.txSetVersion = start.txSetVersion

theorem Idle.skip {start : Run TxId Tx} (h : Idle start s) (key : String)
    : Idle start (s.skip key) := by
  unfold Run.skip
  split
  . exact h
  . exact ⟨h.pending, h.addressReqs, h.same⟩

theorem Idle.beginRound {start : Run TxId Tx} (h : Idle start s)
    (he : (Event.turn answer connect : Event TxId Tx).onlySkips)
    : Idle start (s.beginRound answer connect) := by
  unfold Run.beginRound
  split
  . exact ⟨h.pending, h.addressReqs, h.same⟩
  . exact ⟨h.pending, h.addressReqs, h.same⟩
  . next asked _ =>
    have hnone : asked.filterMap Run.fetches = [] := by
      rw [List.filterMap_eq_nil_iff]
      intro request hrequest
      obtain ⟨tia, rfl, -⟩ := he request hrequest
      rfl
    simp only [hnone, List.isEmpty_nil, if_true]
    refine ⟨rfl, ?_, h.same⟩
    intro tia htia
    obtain ⟨request, hrequest, haddress⟩ := List.mem_filterMap.mp htia
    obtain ⟨tia', rfl, hskipped⟩ := he request hrequest
    cases haddress
    exact hskipped

theorem Idle.checkAddress {start : Run TxId Tx} (h : Idle start s) {tia : TransactionsInvolvingAddress}
    (htia : tia.skipped = true) (stop : Nat) (answers : AddressAnswers Tx)
    : Idle start (s.checkAddress tia stop answers) := by
  unfold Run.checkAddress
  dsimp only
  split
  . exact h.skip _
  . next hat =>
    simp only [TransactionsInvolvingAddress.skipped, hat, Bool.false_or, beq_iff_eq] at htia
    rw [if_pos htia]
    exact h.skip _

theorem Idle.step {start : Run TxId Tx} {e : Event TxId Tx} (h : Idle start s) (he : e.onlySkips)
    (hstep : s.step e = some s') : Idle start s' := by
  unfold Run.step at hstep
  split at hstep
  . cases hstep
    split
    . exact ⟨h.pending, h.addressReqs, h.same⟩
    . exact h.beginRound he
  . simp [h.pending] at hstep
  . next tia rest _ _ _ hreqs =>
    cases hstep
    have hs : Idle start { s with addressReqs := rest } :=
      ⟨h.pending, fun tia htia => h.addressReqs tia (by simp [hreqs, htia]), h.same⟩
    have hskipped := h.addressReqs tia (by simp [hreqs])
    unfold Run.applyAddressRequest
    split
    . exact hs.checkAddress hskipped _ _
    split
    . exact ⟨hs.pending, hs.addressReqs, hs.same⟩
    . exact hs.checkAddress hskipped _ _
    . exact hs.skip _
  . cases hstep

theorem enhancement_stays_idle {start : Run TxId Tx} (hpending : start.pending = [])
    (haddresses : start.addressReqs = []) {events : List (Event TxId Tx)}
    (hskips : ∀ e ∈ events, e.onlySkips) (h : runMachine.run start events = some s)
    : s.connects = start.connects ∧ s.writes = start.writes ∧ s.txSetVersion = start.txSetVersion := by
  have hidle : (∀ e ∈ events, e.onlySkips) → Idle start s := by
    apply Machine.run_induction (P := fun es s => (∀ e ∈ es, e.onlySkips) → Idle start s) _ _ h
    . exact fun _ => ⟨hpending, by simp [haddresses], rfl, rfl, rfl⟩
    . intro es t e t' hidle hstep hskips
      have hbefore := hidle fun e' he' => hskips e' (List.mem_append_left _ he')
      exact hbefore.step (hskips e (List.mem_append_right _ (List.mem_singleton_self e))) hstep
  exact (hidle hskips).same

def timedCheck : List (Event Nat Nat) :=
  [.turn (.ok [.transactionsInvolvingAddress { receiver with requestAt := some 5 }]) (.ok ()),
    .address ⟨.ok none, .ok (), .ok [], .ok ()⟩]

theorem enhancement_stays_idle_timedCheck
    : ∃ s, runMachine.run (.start [] false 0 7) timedCheck = some s
      ∧ s.stats.skipped = 1 ∧ s.connects = 0 := by
  have hrun : ∃ s, runMachine.run (.start [] false 0 7) timedCheck = some s
      ∧ s.stats.skipped = 1 := ⟨_, rfl, rfl⟩
  obtain ⟨s, hs, hskipped⟩ := hrun
  refine ⟨s, hs, hskipped, (enhancement_stays_idle rfl rfl ?_ hs).1⟩
  simp [timedCheck, Event.onlySkips, TransactionsInvolvingAddress.skipped]

def AllBacked (s : Run TxId Tx) : Prop :=
  ∀ tia asOf, .notifyAddressChecked tia asOf ∈ s.writes → Backed s tia asOf

theorem AllBacked.write {w : WalletWrite TxId Tx} (h : AllBacked s)
    (hanswered : s'.answered = s.answered) (hwrites : s'.writes = s.writes ++ [w])
    (hw : ∀ tia asOf, w = .notifyAddressChecked tia asOf → Backed s tia asOf) : AllBacked s' := by
  intro tia asOf hmem
  have hback : Backed s tia asOf := by
    rw [hwrites] at hmem
    rcases List.mem_append.mp hmem with hmem | hmem
    . exact h tia asOf hmem
    . exact hw tia asOf (List.mem_singleton.mp hmem).symm
  obtain ⟨raws, hraws, hstored⟩ := hback
  refine ⟨raws, hanswered ▸ hraws, fun raw hraw hkeep => ?_⟩
  obtain ⟨tx, hparsed, hstore⟩ := hstored raw hraw hkeep
  exact ⟨tx, hparsed, hwrites ▸ List.mem_append_left _ hstore⟩

theorem AllBacked.kept : Kept (AllBacked : Run TxId Tx → Prop) where
  endWith _ _ h := h
  queue _ _ _ _ _ h := h
  get s connect _ h := by
    unfold Run.get
    split
    . exact h
    split <;> exact h
  skip s key h := by
    unfold Run.skip
    split <;> exact h
  setTransactionStatus s _ _ _ _ write _ h := by
    cases write with
    | error => exact h
    | ok => exact h.write rfl rfl nofun
  storeTransaction s _ _ _ h := by
    unfold Run.storeTransaction
    split
    . exact h
    . exact h
    . exact h.write rfl rfl nofun
  answer s answer h := by
    intro tia asOf hmem
    obtain ⟨raws, hraws, hstored⟩ := h tia asOf hmem
    exact ⟨raws, List.mem_append_left _ hraws, hstored⟩
  notifyAddressChecked s tia asOf write hback h := by
    cases write with
    | error => exact h
    | ok =>
      refine h.write rfl rfl ?_
      rintro _ _ ⟨⟩
      exact hback

end Enhance
end Slipstream
