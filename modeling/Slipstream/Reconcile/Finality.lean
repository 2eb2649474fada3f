import Slipstream.Reconcile.Balance

/-!
This module contains what a host may rely on once the view calls a transaction reconciled: neither
that nor the transaction's rows of `v_transactions` change any more.
-/

namespace Slipstream
namespace Reconcile

namespace WalletTables

def reads (t : WalletTables) (txid : Blob) : Option Bool :=
  (t.reconcileView.find? (·.txid == txid)).map ReconciledRow.reconciled

def deltas (t : WalletTables) (txid : Blob) : List VTransactionRow :=
  t.vTransactions.filter (·.txid == txid)

theorem reads_true (t : WalletTables) (txid : Blob)
    : t.reads txid = some true
      ↔ txid ∈ t.transactions.map TransactionRow.txid ∧ t.hasDanglingSpend txid = false := by
  rw [reads, reconcileView, List.find?_map, Option.map_map, Option.map_eq_some_iff, List.mem_map]
  constructor
  . rintro ⟨row, hfind, hrow⟩
    have htxid : row.txid = txid := by simpa using List.find?_some hfind
    refine ⟨⟨row, List.mem_of_find?_eq_some hfind, htxid⟩, ?_⟩
    simpa [htxid] using hrow
  . rintro ⟨⟨row, hrow, htxid⟩, hdangling⟩
    cases hfind : t.transactions.find? _ with
    | none => exact absurd htxid (by simpa using List.find?_eq_none.mp hfind row hrow)
    | some found =>
      have hfound : found.txid = txid := by simpa using List.find?_some hfind
      exact ⟨found, rfl, by simpa [hfound] using hdangling⟩

end WalletTables

namespace WalletChain

variable {chain : WalletChain} {scanned scanned' : Finset Nat} {tx : ChainTx}

theorem scannedTxs_inj (htx : tx ∈ chain.scannedTxs scanned)
    (hother : other ∈ chain.scannedTxs scanned) (h : other.txid = tx.txid) : other = tx :=
  List.inj_on_of_nodup_map chain.txids (List.mem_filter.mp hother).1 (List.mem_filter.mp htx).1 h

theorem reads_iff (htx : tx ∈ chain.scannedTxs scanned)
    : (chain.tables scanned).reads tx.txid = some true
      ↔ chain.involved scanned tx ≠ [] ∧ chain.final scanned tx = true := by
  have hours : tx.txid ∈ (chain.tables scanned).transactions.map TransactionRow.txid
      ↔ chain.involved scanned tx ≠ [] := by
    simp only [tables, List.map_map, List.mem_map, List.mem_filter]
    constructor
    . rintro ⟨other, ⟨hother, hinvolved⟩, htxid⟩
      cases scannedTxs_inj htx hother htxid
      simpa using hinvolved
    . intro hinvolved
      exact ⟨tx, ⟨htx, by simpa using hinvolved⟩, rfl⟩
  have hfinal := hasDanglingSpend_iff_not_final htx
  rw [WalletTables.reads_true, hours, ← Bool.not_eq_true, hfinal, Bool.not_eq_false]

theorem deltas_eq (htx : tx ∈ chain.scannedTxs scanned)
    : (chain.tables scanned).deltas tx.txid
      = (chain.involved scanned tx).map fun account =>
        ⟨account, tx.txid, some tx.height, chain.delta scanned account tx⟩ := by
  obtain ⟨before, after, hsplit⟩ := List.append_of_mem htx
  have hnodup : ((chain.scannedTxs scanned).map ChainTx.txid).Nodup :=
    chain.txids.sublist (List.filter_sublist.map _)
  rw [hsplit, List.map_append, List.map_cons] at hnodup
  -- No other transaction has its id.
  have hothers : ∀ txs : List ChainTx, tx.txid ∉ txs.map ChainTx.txid →
      (txs.flatMap fun other => ((chain.involved scanned other).map fun account =>
        (⟨account, other.txid, some other.height, chain.delta scanned account other⟩
          : VTransactionRow)).filter (·.txid == tx.txid)) = [] := by
    intro txs hnot
    rw [List.flatMap_eq_nil_iff]
    intro other hother
    rw [List.filter_eq_nil_iff]
    intro row hrow htxid
    obtain ⟨account, -, rfl⟩ := List.mem_map.mp hrow
    exact hnot (List.mem_map.mpr ⟨other, hother, by simpa using htxid⟩)
  have hbefore : tx.txid ∉ before.map ChainTx.txid :=
    fun hmem => (List.nodup_append.mp hnodup).2.2 _ hmem _ List.mem_cons_self rfl
  have hafter : tx.txid ∉ after.map ChainTx.txid :=
    (List.nodup_cons.mp (List.nodup_append.mp hnodup).2.1).1
  rw [WalletTables.deltas, tables, List.filter_flatMap, hsplit, List.flatMap_append,
    List.flatMap_cons, hothers before hbefore, hothers after hafter, List.nil_append,
    List.append_nil, List.filter_eq_self]
  intro row hrow
  obtain ⟨account, -, rfl⟩ := List.mem_map.mp hrow
  exact beq_self_eq_true _

theorem involved_perm (h : (chain.linked scanned tx).Perm (chain.linked scanned' tx))
    : (chain.involved scanned tx).Perm (chain.involved scanned' tx) :=
  ((h.append_left tx.notes).map ChainNote.account).dedup

theorem deltas_perm (htx : tx ∈ chain.scannedTxs scanned) (htx' : tx ∈ chain.scannedTxs scanned')
    (h : chain.final scanned tx = true) (h' : chain.final scanned' tx = true)
    : ((chain.tables scanned').deltas tx.txid).Perm ((chain.tables scanned).deltas tx.txid) := by
  have hlinked : (chain.linked scanned' tx).Perm (chain.linked scanned tx) :=
    (linked_perm_spends (final_iff.mp h').2).trans (linked_perm_spends (final_iff.mp h).2).symm
  have hdelta : ∀ account, chain.delta scanned' account tx = chain.delta scanned account tx := by
    intro account
    rw [delta_eq_net h, delta_eq_net h']
  rw [deltas_eq htx, deltas_eq htx']
  simp only [hdelta]
  exact (involved_perm hlinked).map _

end WalletChain

/--
A reconciled transaction is final: its delta for every account is the one of the fully scanned chain,
and as more blocks are scanned, whichever they are, it stays reconciled with these deltas.
-/
theorem reconciled_is_final (chain : WalletChain) (htx : tx ∈ chain.scannedTxs scanned)
    (hreads : (chain.tables scanned).reads tx.txid = some true)
    : ((chain.tables chain.heights).deltas tx.txid).Perm ((chain.tables scanned).deltas tx.txid)
      ∧ ∀ scanned', scanned ⊆ scanned' →
        (chain.tables scanned').reads tx.txid = some true
        ∧ ((chain.tables scanned').deltas tx.txid).Perm ((chain.tables scanned).deltas tx.txid) := by
  obtain ⟨hours, hfinal⟩ := (WalletChain.reads_iff htx).mp hreads
  obtain ⟨hmem, hscanned⟩ := List.mem_filter.mp htx
  have hheight : tx.height ∈ scanned := by simpa using hscanned
  have hmore : ∀ scanned', (∀ other ∈ chain.txs, other.height ∈ scanned → other.height ∈ scanned') →
      tx ∈ chain.scannedTxs scanned' ∧ chain.final scanned' tx = true := by
    intro scanned' hgrow
    refine ⟨List.mem_filter.mpr ⟨hmem, ?_⟩, WalletChain.final_mono hgrow hmem hfinal⟩
    simpa using hgrow tx hmem hheight
  constructor
  . obtain ⟨htx', hfinal'⟩ := hmore chain.heights (fun other hother _ => by
      simpa [WalletChain.heights] using ⟨other, hother, rfl⟩)
    exact WalletChain.deltas_perm htx htx' hfinal hfinal'
  . intro scanned' hsub
    obtain ⟨htx', hfinal'⟩ := hmore scanned' (fun _ _ hold => hsub hold)
    have hperm := WalletChain.deltas_perm htx htx' hfinal hfinal'
    refine ⟨(WalletChain.reads_iff htx').mpr ⟨?_, hfinal'⟩, hperm⟩
    intro hnone
    rw [WalletChain.deltas_eq htx, WalletChain.deltas_eq htx', hnone, List.map_nil] at hperm
    exact hours (List.map_eq_nil_iff.mp hperm.nil_eq.symm)

def threeSpends : ChainTx where
  height := 4
  index := 0
  txid := [4]
  notes := [⟨[7], .orchard, [4], 25⟩]
  nullifiers := [(.sapling, [1]), (.orchard, [2]), (.ironwood, [3])]

def spendAllPools : WalletChain where
  txs := [
    { height := 1, index := 0, txid := [1], notes := [⟨[7], .sapling, [1], 10⟩], nullifiers := [] },
    { height := 2, index := 0, txid := [2], notes := [⟨[7], .orchard, [2], 20⟩], nullifiers := [] },
    { height := 3, index := 0, txid := [3], notes := [⟨[8], .ironwood, [3], 30⟩], nullifiers := [] },
    threeSpends,
    { height := 5, index := 0, txid := [5], notes := [], nullifiers := [(.orchard, [4])] }]
  locators := by decide
  txids := by decide
  keys := by decide

-- The spend is held back until the last of the three notes is there.
example : (spendAllPools.tables {4, 3, 1}).reads [4] = some false
    ∧ (spendAllPools.tables {4, 3, 1}).deltas [4]
      = [⟨[7], [4], some 4, 15⟩, ⟨[8], [4], some 4, -30⟩] := by
  decide +kernel

theorem reconciled_is_final_spendAllPools
    : ((spendAllPools.tables {4, 3, 1, 2}).reads [4] = some true
        ∧ (spendAllPools.tables {4, 3, 1, 2}).deltas [4]
          = [⟨[7], [4], some 4, -5⟩, ⟨[8], [4], some 4, -30⟩])
      ∧ ((spendAllPools.tables {5, 4, 3, 1, 2}).reads [4] = some true
        ∧ ((spendAllPools.tables {5, 4, 3, 1, 2}).deltas [4]).Perm
          ((spendAllPools.tables {4, 3, 1, 2}).deltas [4])) := by
  refine ⟨by decide +kernel, ?_⟩
  have htx : threeSpends ∈ spendAllPools.scannedTxs {4, 3, 1, 2} := by decide +kernel
  exact (reconciled_is_final spendAllPools htx (by decide +kernel)).2 {5, 4, 3, 1, 2} (by decide)

end Reconcile
end Slipstream
