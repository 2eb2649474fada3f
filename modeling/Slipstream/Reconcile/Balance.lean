import Slipstream.Reconcile.Impl.Views
import Slipstream.Chain.Basic
import Mathlib.Data.Finset.Basic
import Mathlib.Data.List.Flatten
import Mathlib.Data.List.Perm.Basic
import Mathlib.Algebra.BigOperators.Group.List.Basic

/-!
This module contains the recovery balance against the chain it is recovered from: which transactions
it adds up at any moment of a restore, and when it stays below the total and does not fall.
-/

namespace Slipstream
namespace Reconcile

structure ChainNote where
  account : Blob
  pool : ShieldedPool
  nf : Blob
  value : Nat
  deriving DecidableEq

def ChainNote.key (n : ChainNote) : ShieldedPool × Blob := (n.pool, n.nf)

structure ChainTx where
  height : Nat
  index : Nat
  txid : Blob
  notes : List ChainNote
  nullifiers : List (ShieldedPool × Blob)
  deriving DecidableEq

structure WalletChain where
  txs : List ChainTx
  locators : (txs.map fun tx => (tx.height, tx.index)).Nodup
  txids : (txs.map ChainTx.txid).Nodup
  keys : ((txs.flatMap ChainTx.notes).map ChainNote.key).Nodup

def poolCode : ShieldedPool → Nat
  | .sapling => 2
  | .orchard => 3
  | .ironwood => 4

namespace WalletChain

variable (chain : WalletChain) (scanned : Finset Nat)

def scannedTxs : List ChainTx := chain.txs.filter (·.height ∈ scanned)

def received : List ChainNote := (chain.scannedTxs scanned).flatMap ChainTx.notes

def linked (tx : ChainTx) : List ChainNote :=
  (chain.received scanned).filter fun n => tx.nullifiers.contains n.key

def paidTo (account : Blob) (notes : List ChainNote) : Nat :=
  ((notes.filter (·.account == account)).map ChainNote.value).sum

def delta (account : Blob) (tx : ChainTx) : Int :=
  (paidTo account tx.notes : Int) - paidTo account (chain.linked scanned tx)

def involved (tx : ChainTx) : List Blob :=
  ((tx.notes ++ chain.linked scanned tx).map ChainNote.account).dedup

def tables : WalletTables where
  transactions := ((chain.scannedTxs scanned).filter fun tx => !(chain.involved scanned tx).isEmpty).map
    fun tx => ⟨tx.txid, some tx.height⟩
  nullifierMap := (chain.scannedTxs scanned).flatMap fun tx =>
    tx.nullifiers.map fun (pool, nf) => ⟨poolCode pool, nf, tx.height, tx.index⟩
  txLocatorMap := (chain.scannedTxs scanned).map fun tx => ⟨tx.height, tx.index, tx.txid⟩
  saplingReceivedNotes := ((chain.received scanned).filter (·.pool == .sapling)).map ChainNote.nf
  orchardReceivedNotes := ((chain.received scanned).filter (·.pool == .orchard)).map ChainNote.nf
  ironwoodReceivedNotes := ((chain.received scanned).filter (·.pool == .ironwood)).map ChainNote.nf
  vTransactions := (chain.scannedTxs scanned).flatMap fun tx =>
    (chain.involved scanned tx).map fun account =>
      ⟨account, tx.txid, some tx.height, chain.delta scanned account tx⟩
  txid_unique := by
    have hsub : (((chain.scannedTxs scanned).filter fun tx =>
        !(chain.involved scanned tx).isEmpty).map ChainTx.txid).Nodup :=
      chain.txids.sublist ((List.filter_sublist.trans List.filter_sublist).map _)
    simpa only [List.map_map, Function.comp_def] using hsub

def balance (account : Blob) : Int :=
  balanceZat (chain.tables scanned).recoveryBalanceView account

def heights : Finset Nat := (chain.txs.map ChainTx.height).toFinset

def total (account : Blob) : Int :=
  (((chain.tables chain.heights).vTransactions.filter (·.accountUuid == account)).map
    VTransactionRow.accountBalanceDelta).sum

def final (tx : ChainTx) : Bool :=
  tx.height ∈ scanned && tx.nullifiers.all fun key =>
    chain.txs.any fun origin => origin.height ∈ scanned && (origin.notes.map ChainNote.key).contains key

def spends (tx : ChainTx) : List ChainNote :=
  (chain.txs.flatMap ChainTx.notes).filter fun n => tx.nullifiers.contains n.key

def paidBy (account : Blob) (txs : List ChainTx) : Nat :=
  (txs.map fun tx => paidTo account tx.notes).sum

def spentBy (account : Blob) (txs : List ChainTx) : Nat :=
  (txs.map fun tx => paidTo account (chain.spends tx)).sum

def pending : List ChainTx := chain.txs.filter fun tx => !chain.final scanned tx

def settledBy (height : Nat) : List ChainTx :=
  chain.txs.filter fun tx => chain.final (insert height scanned) tx && !chain.final scanned tx

end WalletChain

theorem sum_map_filter {α : Type} (l : List α) (p : α → Bool) (f : α → Int)
    : ((l.filter p).map f).sum = (l.map fun a => if p a then f a else 0).sum := by
  induction l with
  | nil => rfl
  | cons a l ih =>
    by_cases hp : p a
    . simp [hp, ih]
    . simp [hp, ih]

theorem balanceZat_map (accounts : List Blob) (f : Blob → Int) (account : Blob)
    : balanceZat (accounts.map fun a => (a, f a)) account
      = if account ∈ accounts then f account else 0 := by
  induction accounts with
  | nil => rfl
  | cons a accounts ih =>
    simp only [balanceZat, List.map_cons, List.find?_cons] at ih ⊢
    by_cases ha : a = account
    . simp [ha]
    . have hbeq : (a == account) = false := by simpa using ha
      have hmem : account ∈ a :: accounts ↔ account ∈ accounts := by
        simp [Ne.symm ha]
      simp only [hbeq, hmem]
      exact ih

theorem balanceZat_recoveryBalanceView (t : WalletTables) (account : Blob)
    : balanceZat t.recoveryBalanceView account
      = ((t.recoveredRows.filter (·.accountUuid == account)).map
          VTransactionRow.accountBalanceDelta).sum := by
  rw [WalletTables.recoveryBalanceView, balanceZat_map]
  split
  . rfl
  . next hnone =>
    rw [List.mem_dedup] at hnone
    have hempty : t.recoveredRows.filter (·.accountUuid == account) = [] := by
      rw [List.filter_eq_nil_iff]
      intro row hrow haccount
      exact hnone (List.mem_map.mpr ⟨row, hrow, by simpa using haccount⟩)
    rw [hempty]
    rfl

namespace WalletChain

variable {chain : WalletChain} {scanned : Finset Nat}

theorem mem_received : n ∈ chain.received scanned
    ↔ ∃ origin ∈ chain.txs, origin.height ∈ scanned ∧ n ∈ origin.notes := by
  simp only [received, scannedTxs, List.mem_flatMap, List.mem_filter, decide_eq_true_eq, and_assoc]

theorem key_inj (hn : n ∈ chain.txs.flatMap ChainTx.notes)
    (hm : m ∈ chain.txs.flatMap ChainTx.notes) (h : n.key = m.key) : n = m :=
  List.inj_on_of_nodup_map chain.keys hn hm h

theorem received_sublist (chain : WalletChain) (scanned : Finset Nat)
    : (chain.received scanned).Sublist (chain.txs.flatMap ChainTx.notes) :=
  List.filter_sublist.flatMap _

def net (chain : WalletChain) (account : Blob) (tx : ChainTx) : Int :=
  (paidTo account tx.notes : Int) - paidTo account (chain.spends tx)

theorem paidTo_perm (account : Blob) (h : notes.Perm others)
    : paidTo account notes = paidTo account others :=
  ((h.filter _).map _).sum_eq

theorem linked_perm_spends (hall : ∀ key ∈ tx.nullifiers, ∃ n ∈ chain.received scanned, n.key = key)
    : (chain.linked scanned tx).Perm (chain.spends tx) := by
  have hnodup : (chain.txs.flatMap ChainTx.notes).Nodup := chain.keys.of_map
  rw [linked, spends, List.perm_ext_iff_of_nodup ((hnodup.sublist (received_sublist ..)).filter _)
    (hnodup.filter _)]
  intro n
  rw [List.mem_filter, List.mem_filter, List.contains_iff_mem]
  constructor
  . rintro ⟨hn, hspent⟩
    exact ⟨(received_sublist ..).subset hn, hspent⟩
  . rintro ⟨hn, hspent⟩
    obtain ⟨m, hm, hkey⟩ := hall n.key hspent
    rw [← key_inj ((received_sublist ..).subset hm) hn hkey]
    exact ⟨hm, hkey ▸ hspent⟩

theorem final_iff : chain.final scanned tx = true
    ↔ tx.height ∈ scanned ∧ ∀ key ∈ tx.nullifiers, ∃ n ∈ chain.received scanned, n.key = key := by
  have hany : ∀ key, (chain.txs.any fun origin =>
      origin.height ∈ scanned && (origin.notes.map ChainNote.key).contains key) = true
      ↔ ∃ n ∈ chain.received scanned, n.key = key := by
    intro key
    simp only [List.any_eq_true, Bool.and_eq_true, decide_eq_true_eq, List.contains_iff_mem,
      List.mem_map, mem_received]
    constructor
    . rintro ⟨origin, horigin, hheight, n, hn, hkey⟩
      exact ⟨n, ⟨origin, horigin, hheight, hn⟩, hkey⟩
    . rintro ⟨n, ⟨origin, horigin, hheight, hn⟩, hkey⟩
      exact ⟨origin, horigin, hheight, n, hn, hkey⟩
  rw [final, Bool.and_eq_true, decide_eq_true_eq, List.all_eq_true]
  simp only [hany]

theorem delta_eq_net (h : chain.final scanned tx = true) (account : Blob)
    : chain.delta scanned account tx = chain.net account tx := by
  rw [delta, net, paidTo_perm account (linked_perm_spends (final_iff.mp h).2)]

theorem dangling_iff (pool : ShieldedPool) (nf : Blob) (height index : Nat)
    : (chain.tables scanned).dangling ⟨poolCode pool, nf, height, index⟩ = true
      ↔ ¬∃ n ∈ chain.received scanned, n.key = (pool, nf) := by
  have hpool : ∀ other : ShieldedPool,
      (((chain.received scanned).filter (·.pool == other)).map ChainNote.nf).contains nf = true
        ↔ ∃ n ∈ chain.received scanned, n.key = (other, nf) := by
    intro other
    simp only [List.contains_iff_mem, List.mem_map, List.mem_filter, beq_iff_eq, ChainNote.key,
      Prod.mk.injEq, and_assoc]
  cases pool with
  | sapling => simp [WalletTables.dangling, tables, poolCode, ← hpool]
  | orchard => simp [WalletTables.dangling, tables, poolCode, ← hpool]
  | ironwood => simp [WalletTables.dangling, tables, poolCode, ← hpool]

theorem hasDanglingSpend_iff (htx : tx ∈ chain.scannedTxs scanned)
    : (chain.tables scanned).hasDanglingSpend tx.txid = true
      ↔ ∃ key ∈ tx.nullifiers, ¬∃ n ∈ chain.received scanned, n.key = key := by
  have hsub : ∀ x ∈ chain.scannedTxs scanned, x ∈ chain.txs := fun x hx => (List.mem_filter.mp hx).1
  simp only [WalletTables.hasDanglingSpend, List.any_eq_true, Bool.and_eq_true, beq_iff_eq]
  constructor
  . rintro ⟨nm, hnm, tl, htl, ⟨⟨hheight, hindex⟩, htxid⟩, hdangling⟩
    obtain ⟨other, hother, hrow⟩ := List.mem_flatMap.mp hnm
    obtain ⟨⟨pool, nf⟩, hkey, rfl⟩ := List.mem_map.mp hrow
    obtain ⟨located, hlocated, rfl⟩ := List.mem_map.mp htl
    -- The locator leads back to the transaction that revealed the nullifier.
    have hsame : located = other :=
      List.inj_on_of_nodup_map chain.locators (hsub _ hlocated) (hsub _ hother)
        (Prod.ext hheight hindex)
    have htx : other = tx :=
      List.inj_on_of_nodup_map chain.txids (hsub _ hother) (hsub _ htx) (hsame ▸ htxid)
    subst htx
    exact ⟨(pool, nf), hkey, (dangling_iff ..).mp hdangling⟩
  . rintro ⟨⟨pool, nf⟩, hkey, hnone⟩
    refine ⟨⟨poolCode pool, nf, tx.height, tx.index⟩, ?_, ⟨tx.height, tx.index, tx.txid⟩, ?_,
      ⟨⟨rfl, rfl⟩, rfl⟩, (dangling_iff ..).mpr hnone⟩
    . exact List.mem_flatMap.mpr ⟨tx, htx, List.mem_map.mpr ⟨(pool, nf), hkey, rfl⟩⟩
    . exact List.mem_map.mpr ⟨tx, htx, rfl⟩

theorem delta_of_not_involved (h : account ∉ chain.involved scanned tx)
    : chain.delta scanned account tx = 0 := by
  have hnone : ∀ notes : List ChainNote, (∀ n ∈ notes, n.account ≠ account) →
      paidTo account notes = 0 := by
    intro notes hnotes
    have : notes.filter (·.account == account) = [] := by
      rw [List.filter_eq_nil_iff]
      intro n hn
      simpa using hnotes n hn
    rw [paidTo, this]
    rfl
  have hnot : ∀ n ∈ tx.notes ++ chain.linked scanned tx, n.account ≠ account := by
    intro n hn haccount
    exact h (List.mem_dedup.mpr (List.mem_map.mpr ⟨n, hn, haccount⟩))
  rw [delta, hnone _ fun n hn => hnot n (List.mem_append_left _ hn),
    hnone _ fun n hn => hnot n (List.mem_append_right _ hn)]
  rfl

theorem sum_involved (tx : ChainTx) (account : Blob)
    : (((chain.involved scanned tx).filter (· == account)).map fun a =>
        chain.delta scanned a tx).sum = chain.delta scanned account tx := by
  rw [List.filter_beq, List.map_replicate]
  by_cases h : account ∈ chain.involved scanned tx
  . have hnodup : (chain.involved scanned tx).Nodup := List.nodup_dedup _
    rw [List.count_eq_one_of_mem hnodup h]
    simp
  . rw [List.count_eq_zero_of_not_mem h, delta_of_not_involved h]
    rfl

theorem sum_vTransactions (chain : WalletChain) (scanned : Finset Nat) (p : Blob → Bool)
    (account : Blob)
    : (((chain.tables scanned).vTransactions.filter fun vt =>
        p vt.txid && vt.accountUuid == account).map VTransactionRow.accountBalanceDelta).sum
      = ((chain.scannedTxs scanned).map fun tx =>
          if p tx.txid then chain.delta scanned account tx else 0).sum := by
  simp only [tables]
  generalize chain.scannedTxs scanned = txs
  induction txs with
  | nil => rfl
  | cons tx txs ih =>
    rw [List.flatMap_cons, List.filter_append, List.map_append, List.sum_append, ih, List.map_cons,
      List.sum_cons]
    congr 1
    cases hp : p tx.txid with
    | true =>
      rw [if_pos rfl, ← sum_involved, List.filter_map, List.map_map]
      simp [Function.comp_def, hp]
    | false => simp [List.filter_map, Function.comp_def, hp]

theorem hasDanglingSpend_iff_not_final (htx : tx ∈ chain.scannedTxs scanned)
    : (chain.tables scanned).hasDanglingSpend tx.txid = true ↔ chain.final scanned tx = false := by
  have hheight : tx.height ∈ scanned := by simpa using (List.mem_filter.mp htx).2
  rw [hasDanglingSpend_iff htx, ← Bool.not_eq_true, final_iff]
  simp [hheight]

theorem unreconciled_iff (htx : tx ∈ chain.scannedTxs scanned)
    (hours : chain.involved scanned tx ≠ [])
    : ((chain.tables scanned).reconcileView.any fun r => r.txid == tx.txid && !r.reconciled) = true
      ↔ chain.final scanned tx = false := by
  rw [← hasDanglingSpend_iff_not_final htx, List.any_eq_true]
  simp only [WalletTables.reconcileView, List.mem_map, Bool.and_eq_true, beq_iff_eq,
    Bool.not_eq_true']
  constructor
  . rintro ⟨r, ⟨row, -, rfl⟩, htxid, hdangling⟩
    rw [← htxid]
    simpa using hdangling
  . intro hdangling
    refine ⟨_, ⟨⟨tx.txid, some tx.height⟩, ?_, rfl⟩, rfl, by simp [hdangling]⟩
    refine List.mem_map.mpr ⟨tx, List.mem_filter.mpr ⟨htx, ?_⟩, rfl⟩
    simpa using hours

theorem balance_eq (chain : WalletChain) (scanned : Finset Nat) (account : Blob)
    : chain.balance scanned account
      = (chain.txs.map fun tx => if chain.final scanned tx then chain.net account tx else 0).sum := by
  have hrows : (chain.tables scanned).recoveredRows.filter (·.accountUuid == account)
      = (chain.tables scanned).vTransactions.filter fun vt =>
        (!(chain.tables scanned).reconcileView.any fun r => r.txid == vt.txid && !r.reconciled)
          && vt.accountUuid == account := by
    rw [WalletTables.recoveredRows, List.filter_filter]
    apply List.filter_congr
    intro vt hvt
    obtain ⟨tx, -, hvt⟩ := List.mem_flatMap.mp hvt
    obtain ⟨a, -, rfl⟩ := List.mem_map.mp hvt
    simp [Bool.and_comm]
  rw [balance, balanceZat_recoveryBalanceView, hrows,
    sum_vTransactions chain scanned fun txid =>
      !(chain.tables scanned).reconcileView.any fun r => r.txid == txid && !r.reconciled,
    scannedTxs, sum_map_filter]
  congr 1
  apply List.map_congr_left
  intro tx htx
  by_cases hheight : tx.height ∈ scanned
  . have hscanned : tx ∈ chain.scannedTxs scanned := List.mem_filter.mpr ⟨htx, by simpa using hheight⟩
    rw [if_pos (by simpa using hheight)]
    by_cases hours : chain.involved scanned tx = []
    . -- Another party's transaction adds nothing, final or not.
      have hzero : chain.delta scanned account tx = 0 := delta_of_not_involved (by simp [hours])
      rw [hzero, ite_self]
      split
      . next hfinal => rw [← delta_eq_net hfinal, hzero]
      . rfl
    . have hview := unreconciled_iff hscanned hours
      cases hfinal : chain.final scanned tx with
      | true =>
        rw [hfinal, Bool.true_eq_false, iff_false, Bool.not_eq_true] at hview
        simp [hview, delta_eq_net hfinal]
      | false =>
        rw [hview.mpr hfinal]
        rfl
  . have hfinal : ¬chain.final scanned tx = true := fun h => hheight (final_iff.mp h).1
    rw [if_neg (by simpa using hheight), if_neg hfinal]

theorem total_eq (chain : WalletChain) (account : Blob)
    : chain.total account = (chain.txs.map (chain.net account)).sum := by
  have hheights : ∀ tx ∈ chain.txs, tx.height ∈ chain.heights := by
    intro tx htx
    exact List.mem_toFinset.mpr (List.mem_map.mpr ⟨tx, htx, rfl⟩)
  have hscanned : chain.scannedTxs chain.heights = chain.txs :=
    List.filter_eq_self.mpr fun tx htx => by simpa using hheights tx htx
  have hdelta : ∀ tx, chain.delta chain.heights account tx = chain.net account tx := by
    intro tx
    rw [delta, net, linked, received, hscanned, spends]
  have hsum := sum_vTransactions chain chain.heights (fun _ => true) account
  simp only [Bool.true_and, if_true, hscanned, hdelta] at hsum
  exact hsum

theorem sum_net (chain : WalletChain) (account : Blob) (txs : List ChainTx)
    : (txs.map (chain.net account)).sum = (paidBy account txs : Int) - chain.spentBy account txs := by
  induction txs with
  | nil => rfl
  | cons tx txs ih =>
    simp only [paidBy, spentBy, List.map_cons, List.sum_cons, Int.natCast_add] at ih ⊢
    rw [ih, net]
    omega

theorem received_mono (hgrow : ∀ tx ∈ chain.txs, tx.height ∈ scanned → tx.height ∈ scanned')
    (hn : n ∈ chain.received scanned) : n ∈ chain.received scanned' := by
  obtain ⟨origin, horigin, hscanned, hnote⟩ := mem_received.mp hn
  exact mem_received.mpr ⟨origin, horigin, hgrow origin horigin hscanned, hnote⟩

theorem final_mono (hgrow : ∀ tx ∈ chain.txs, tx.height ∈ scanned → tx.height ∈ scanned')
    (htx : tx ∈ chain.txs) (h : chain.final scanned tx = true) : chain.final scanned' tx = true := by
  obtain ⟨hheight, hall⟩ := final_iff.mp h
  refine final_iff.mpr ⟨hgrow tx htx hheight, fun key hkey => ?_⟩
  obtain ⟨n, hn, hkey⟩ := hall key hkey
  exact ⟨n, received_mono hgrow hn, hkey⟩

theorem balance_add_pending (chain : WalletChain) (scanned : Finset Nat) (account : Blob)
    : chain.balance scanned account + ((chain.pending scanned).map (chain.net account)).sum
      = chain.total account := by
  rw [balance_eq, total_eq, pending, sum_map_filter, ← List.sum_map_add]
  congr 1
  apply List.map_congr_left
  intro tx _
  cases chain.final scanned tx <;> simp

theorem balance_add_settled (chain : WalletChain) (scanned : Finset Nat) (height : Nat) (account : Blob)
    : chain.balance scanned account + ((chain.settledBy scanned height).map (chain.net account)).sum
      = chain.balance (insert height scanned) account := by
  rw [balance_eq, balance_eq, settledBy, sum_map_filter, ← List.sum_map_add]
  congr 1
  apply List.map_congr_left
  intro tx htx
  cases hfinal : chain.final scanned tx with
  | true =>
    have hlater : chain.final (insert height scanned) tx = true :=
      final_mono (fun _ _ => Finset.mem_insert_of_mem) htx hfinal
    simp [hlater]
  | false => simp

end WalletChain

/--
The recovery balance of an account exceeds the account's total while the transactions that are not
final yet spend more of its notes than they pay it, and it falls with a block that makes such
transactions final; and only then.
-/
theorem recoveryBalance_iff (chain : WalletChain) (scanned : Finset Nat) (height : Nat)
    (account : Blob)
    : (chain.balance scanned account ≤ chain.total account
        ↔ chain.spentBy account (chain.pending scanned)
          ≤ WalletChain.paidBy account (chain.pending scanned))
      ∧ (chain.balance scanned account ≤ chain.balance (insert height scanned) account
        ↔ chain.spentBy account (chain.settledBy scanned height)
          ≤ WalletChain.paidBy account (chain.settledBy scanned height)) := by
  have htotal := chain.balance_add_pending scanned account
  have hnext := chain.balance_add_settled scanned height account
  rw [WalletChain.sum_net] at htotal hnext
  omega

def receiveAndSend : WalletChain where
  txs := [
    { height := 1, index := 0, txid := [1], notes := [⟨[7], .orchard, [9], 100⟩], nullifiers := [] },
    { height := 2, index := 0, txid := [2], notes := [], nullifiers := [(.orchard, [9])] }]
  locators := by decide
  txids := by decide
  keys := by decide

/-- With the receipt scanned first the view shows 100 of an account whose total is 0, and then 0. -/
theorem receive_overshown
    : receiveAndSend.total [7] = 0
      ∧ receiveAndSend.balance {1} [7] = 100
      ∧ receiveAndSend.balance {2, 1} [7] = 0 := by
  decide +kernel

def receiveTwice : WalletChain where
  txs := [
    { height := 1, index := 0, txid := [1], notes := [⟨[7], .orchard, [8], 60⟩], nullifiers := [] },
    { height := 2, index := 0, txid := [2], notes := [⟨[7], .orchard, [9], 40⟩], nullifiers := [] },
    { height := 3, index := 0, txid := [3], notes := [],
      nullifiers := [(.orchard, [8]), (.orchard, [9])] }]
  locators := by decide
  txids := by decide
  keys := by decide

-- Scanning the newest blocks first does not help: the spend is held back until all it spends is
-- there, the receipts are not.
example : receiveTwice.total [7] = 0 ∧ receiveTwice.balance {3} [7] = 0
    ∧ receiveTwice.balance {2, 3} [7] = 40 := by
  decide +kernel

end Reconcile
end Slipstream
