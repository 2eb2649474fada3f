import Slipstream.Chain.Error
import Slipstream.Persist.Impl.Session

/-!
This module contains the two rewinds of `wallet_session.rs`, the truncation of a reorg recovery and
the import of an account, with every statement of theirs that may fail.
-/

namespace Slipstream

variable {H B Shard : Type}

/-- `wallet_err` -/
def walletErr (context : String) (r : Except String α) : Except SlipstreamError α :=
  r.mapError fun e => .wallet s!"{context}: {e}"

def fallible (error : Option String) (a : α) : Except String α :=
  match error with
  | some e => .error e
  | none => .ok a

/-- `transactionally_with_extension`: the changes of `body`, or none when it or the commit fails. -/
def transactionally (commitError : Option String) (db : σ) (body : σ → Except String (σ × α))
    : σ × Except String α :=
  match body db with
  | .error e => (db, .error e)
  | .ok (changed, a) =>
    match commitError with
    | some e => (db, .error e)
    | none => (changed, .ok a)

/-- `delete_from_position` and `delete_from_position_in` -/
def WalletDb.deleteFromPosition (db : WalletDb B Shard) (pool : ShieldedPool) (minPosition : Nat)
    : WalletDb B Shard :=
  { db with
    buffer := Function.update db.buffer pool ((db.buffer pool).deleteFromPosition minPosition) }

structure TruncateCalls where
  truncateTo : Nat → Except String Nat
  treeSize : Nat → ShieldedPool → Option Nat
  maxScannedError : Option String
  deleteError : ShieldedPool → Option String
  commitError : Option String

structure AccountBirthday (H : Type) where
  priorChainState : FromState H

namespace AccountBirthday

variable (birthday : AccountBirthday H)

def height : Nat := birthday.priorChainState.blockHeight + 1

def saplingFrontier : Frontier H := birthday.priorChainState.finalTree .sapling

def orchardFrontier : Frontier H := birthday.priorChainState.finalTree .orchard

end AccountBirthday

structure ImportCalls where
  accountsError : Option String
  importAccountUfvk : Except String Bool
  recountError : Option String
  openError : Option String
  busyTimeoutError : Option String
  deleteError : ShieldedPool → Option String

structure WalletSession (B Shard : Type) where
  db : WalletDb B Shard
  accounts : Nat

namespace WalletSession

variable (up : Upstream H B Shard)

def truncatePools (calls : TruncateCalls) (sizes : ShieldedPool → Option Nat)
    (wdb : WalletDb B Shard) (pools : List ShieldedPool) : Except String (WalletDb B Shard) :=
  pools.foldlM (fun wdb pool =>
    match sizes pool with
    | some size => fallible (calls.deleteError pool) (wdb.deleteFromPosition pool size)
    | none => .ok wdb) wdb

def truncateToHeight (calls : TruncateCalls) (height : Nat) (s : WalletSession B Shard)
    : WalletSession B Shard × Except SlipstreamError Nat :=
  let (db, result) := transactionally calls.commitError s.db fun wdb => do
    let truncatedTo ← calls.truncateTo height
    let wdb := wdb.rewind up truncatedTo
    let highest ← fallible calls.maxScannedError wdb.scanned.max
    let sizes :=
      match highest with
      | some highest => calls.treeSize highest
      -- No block left: every buffered row is a removed block's.
      | none => fun _ => some 0
    let wdb ← truncatePools calls sizes wdb [.sapling, .orchard]
    return (wdb, truncatedTo)
  ({ s with db }, walletErr "truncate_to_height" result)

def dropPools (calls : ImportCalls) (sizes : ShieldedPool → Option Nat) (s : WalletSession B Shard)
    : List ShieldedPool → WalletSession B Shard × Except SlipstreamError Unit
  | [] => (s, .ok ())
  | pool :: pools =>
    match sizes pool with
    | none => dropPools calls sizes s pools
    | some size =>
      match calls.deleteError pool with
      | some e => (s, walletErr "graft buffer cleanup" (.error e))
      | none => dropPools calls sizes { s with db := s.db.deleteFromPosition pool size } pools

def dropGraftRowsFrom (calls : ImportCalls) (sapling orchard : Option Nat)
    (s : WalletSession B Shard) : WalletSession B Shard × Except SlipstreamError Unit :=
  match calls.openError, calls.busyTimeoutError with
  | some e, _ => (s, walletErr "graft buffer open" (.error e))
  | none, some e => (s, walletErr "graft buffer busy_timeout" (.error e))
  | none, none => dropPools calls (perPool sapling orchard none) s [.sapling, .orchard]

def imported (birthday : AccountBirthday H) (adds : Bool) (s : WalletSession B Shard)
    : WalletSession B Shard :=
  if adds then
    { db := s.db.rewind up birthday.priorChainState.blockHeight, accounts := s.accounts + 1 }
  else
    s

def importAccountWithBirthday (calls : ImportCalls) (birthday : AccountBirthday H)
    (s : WalletSession B Shard) : WalletSession B Shard × Except SlipstreamError Unit :=
  let accounts := s.accounts
  match calls.accountsError, calls.importAccountUfvk with
  | some e, _ => (s, walletErr "get_account_ids" (.error e))
  | none, .error e => (s, walletErr "import_account_ufvk" (.error e))
  | none, .ok adds =>
    let s := s.imported up birthday adds
    match calls.recountError with
    | some e => (s, walletErr "get_account_ids" (.error e))
    | none =>
      if s.accounts > accounts then
        s.dropGraftRowsFrom calls (some birthday.saplingFrontier.treeSize)
          (some birthday.orchardFrontier.treeSize)
      else
        (s, .ok ())

end WalletSession
end Slipstream
