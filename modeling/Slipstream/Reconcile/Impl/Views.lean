import Mathlib.Algebra.Ring.Int.Defs
import Mathlib.Algebra.Ring.Nat
import Mathlib.Data.List.Dedup

/-!
This module contains the read-side views of `reconcile.rs` over the wallet tables they select from:
which transactions still have a dangling spend, the recovery balance built on that, and the
signature of the transaction set.
-/

namespace Slipstream
namespace Reconcile

abbrev Blob := List UInt8

structure TransactionRow where
  txid : Blob
  minedHeight : Option Nat
  deriving DecidableEq

structure NullifierRow where
  spendPool : Nat
  nf : Blob
  blockHeight : Nat
  txIndex : Nat
  deriving DecidableEq

structure LocatorRow where
  blockHeight : Nat
  txIndex : Nat
  txid : Blob
  deriving DecidableEq

structure VTransactionRow where
  accountUuid : Blob
  txid : Blob
  minedHeight : Option Nat
  accountBalanceDelta : Int
  deriving DecidableEq

structure WalletTables where
  transactions : List TransactionRow
  nullifierMap : List NullifierRow
  txLocatorMap : List LocatorRow
  saplingReceivedNotes : List Blob
  orchardReceivedNotes : List Blob
  ironwoodReceivedNotes : List Blob
  vTransactions : List VTransactionRow
  txid_unique : (transactions.map TransactionRow.txid).Nodup

/-- One row of `ext_slipstream_v_tx_reconciled`. -/
structure ReconciledRow where
  txid : Blob
  minedHeight : Option Nat
  reconciled : Bool
  deriving DecidableEq

namespace WalletTables

def dangling (t : WalletTables) (nm : NullifierRow) : Bool :=
  (nm.spendPool == 2 && !t.saplingReceivedNotes.contains nm.nf)
    || (nm.spendPool == 3 && !t.orchardReceivedNotes.contains nm.nf)
    || (nm.spendPool == 4 && !t.ironwoodReceivedNotes.contains nm.nf)

def hasDanglingSpend (t : WalletTables) (txid : Blob) : Bool :=
  t.nullifierMap.any fun nm => t.txLocatorMap.any fun tl =>
    tl.blockHeight == nm.blockHeight && tl.txIndex == nm.txIndex && tl.txid == txid
      && t.dangling nm

/-- `RECONCILE_VIEW_SQL` -/
def reconcileView (t : WalletTables) : List ReconciledRow :=
  t.transactions.map fun row => ⟨row.txid, row.minedHeight, !t.hasDanglingSpend row.txid⟩

/-- The rows of `v_transactions` that the recovery balance sums over. -/
def recoveredRows (t : WalletTables) : List VTransactionRow :=
  t.vTransactions.filter fun vt =>
    vt.minedHeight.isSome && !t.reconcileView.any fun r => r.txid == vt.txid && !r.reconciled

/-- `RECOVERY_BALANCE_VIEW_SQL`: one row per account. -/
def recoveryBalanceView (t : WalletTables) : List (Blob × Int) :=
  (t.recoveredRows.map VTransactionRow.accountUuid).dedup.map fun account =>
    (account, ((t.recoveredRows.filter (·.accountUuid == account)).map
      VTransactionRow.accountBalanceDelta).sum)

def txSetSignature (t : WalletTables) : Nat × Nat :=
  (t.reconcileView.length, t.reconcileView.countP fun r => r.reconciled == false)

end WalletTables

def balanceZat (view : List (Blob × Int)) (account : Blob) : Int :=
  ((view.find? (·.1 == account)).map Prod.snd).getD 0

end Reconcile
end Slipstream
