import Slipstream.Machine.Basic
import Slipstream.Scheduler.Impl.Pass

/-!
This module contains a run of the enhancement, `run_enhancement_lazily` of `enhance.rs`: up to three
rounds of the wallet's requests, in each the transactions fetched side by side and then the address
checks one after the other.
-/

namespace Slipstream
namespace Enhance

open Scheduler (EnhanceStats)

inductive TransactionStatus where
  | txidNotRecognized
  | notInMainChain
  | mined (height : Nat)
  deriving DecidableEq, Repr

inductive TransactionStatusFilter where
  | mined
  | mempool
  | all
  deriving DecidableEq, Repr

inductive OutputStatusFilter where
  | unspent
  | all
  deriving DecidableEq, Repr

structure TransactionsInvolvingAddress where
  address : String
  blockRangeStart : Nat
  blockRangeEnd : Option Nat
  requestAt : Option Nat
  txStatusFilter : TransactionStatusFilter
  outputStatusFilter : OutputStatusFilter
  deriving DecidableEq, Repr

inductive TransactionDataRequest (TxId : Type) where
  | getStatus (txid : TxId)
  | enhancement (txid : TxId)
  | transactionsInvolvingAddress (tia : TransactionsInvolvingAddress)

/-- `parsed` is what `Transaction::read` makes of the data. -/
structure RawTransaction (Tx : Type) where
  height : Nat
  parsed : Except String Tx

def RawTransaction.minedHeight (raw : RawTransaction Tx) : Option Nat :=
  if 0 < raw.height ∧ raw.height ≤ 2 ^ 32 - 1 then some raw.height else none

def TransactionStatusFilter.skips : TransactionStatusFilter → Option Nat → Bool
  | .mined, none => true
  | .mempool, some _ => true
  | _, _ => false

def effectiveRangeEnd (blockRangeEnd : Option Nat) (chainHeight : Nat) : Nat :=
  blockRangeEnd.getD (min (chainHeight + 1) (2 ^ 32 - 1))

inductive WalletWrite (TxId Tx : Type) where
  | setTransactionStatus (txid : TxId) (status : TransactionStatus)
  | storeTransaction (tx : Tx) (minedHeight : Option Nat)
  | notifyAddressChecked (tia : TransactionsInvolvingAddress) (asOf : Nat)
  deriving DecidableEq, Repr

structure AddressAnswers (Tx : Type) where
  chainHeight : Except String (Option Nat)
  connect : Except SlipstreamError Unit
  taddressTxids : Except String (List (RawTransaction Tx × Except String Unit))
  notify : Except String Unit

structure Run (TxId Tx : Type) where
  round : Nat
  pending : List (TxId × Bool)
  addressReqs : List TransactionsInvolvingAddress
  stats : EnhanceStats
  skippedKeys : List String
  connected : Bool
  connects : Nat
  enhancedTxs : Nat
  txSetVersion : Nat
  writes : List (WalletWrite TxId Tx)
  /-- The address checks answered, with the last height asked for, for the record only. -/
  answered : List (TransactionsInvolvingAddress × Nat × List (RawTransaction Tx))
  ended : Option (Except SlipstreamError EnhanceStats)

inductive Event (TxId Tx : Type) where
  | turn (answer : Except String (List (TransactionDataRequest TxId)))
      (connect : Except SlipstreamError Unit)
  | fetched (i : Nat) (answer : Except SlipstreamError (Option (RawTransaction Tx)))
      (write : Except String Unit)
  | address (answers : AddressAnswers Tx)

namespace Run

variable {TxId Tx : Type}

def start (skippedKeys : List String) (connected : Bool) (enhancedTxs txSetVersion : Nat)
    : Run TxId Tx where
  round := 0
  pending := []
  addressReqs := []
  stats := ⟨0, 0, 0, 0⟩
  skippedKeys
  connected
  connects := 0
  enhancedTxs
  txSetVersion
  writes := []
  answered := []
  ended := none

def endWith (s : Run TxId Tx) (result : Except SlipstreamError EnhanceStats) : Run TxId Tx :=
  { s with ended := some result }

def andThen (s : Run TxId Tx) (f : Run TxId Tx → Run TxId Tx) : Run TxId Tx :=
  if s.ended.isSome then s else f s

/-- `LazyConnection::get` -/
def get (s : Run TxId Tx) (connect : Except SlipstreamError Unit) : Run TxId Tx :=
  if s.connected then
    s
  else
    match connect with
    | .ok _ => { s with connected := true, connects := s.connects + 1 }
    | .error err => { s with connects := s.connects + 1, ended := some (.error err) }

def skip (s : Run TxId Tx) (key : String) : Run TxId Tx :=
  if key ∈ s.skippedKeys then
    s
  else
    { s with skippedKeys := key :: s.skippedKeys, stats.skipped := s.stats.skipped + 1 }

def setTransactionStatus (s : Run TxId Tx) (context : String) (bumps : Nat) (txid : TxId)
    (status : TransactionStatus) : Except String Unit → Run TxId Tx
  | .error e => s.endWith (.error (.wallet (context ++ e)))
  | .ok _ =>
    { s with
      writes := s.writes ++ [.setTransactionStatus txid status]
      stats.statusesSet := s.stats.statusesSet + 1
      txSetVersion := s.txSetVersion + bumps }

def storeTransaction (s : Run TxId Tx) (origin : String) (raw : RawTransaction Tx)
    (write : Except String Unit) : Run TxId Tx :=
  match raw.parsed, write with
  | .error e, _ => s.endWith (.error (.wallet ("tx parse" ++ origin ++ ": " ++ e)))
  | .ok _, .error e => s.endWith (.error (.wallet ("decrypt_and_store" ++ origin ++ ": " ++ e)))
  | .ok tx, .ok _ =>
    { s with
      writes := s.writes ++ [.storeTransaction tx raw.minedHeight]
      stats.txsStored := s.stats.txsStored + 1
      enhancedTxs := s.enhancedTxs + 1
      txSetVersion := s.txSetVersion + 1 }

def applyTxidFetch (s : Run TxId Tx) (txid : TxId) (wantEnhance : Bool)
    (fetched : Except SlipstreamError (Option (RawTransaction Tx))) (write : Except String Unit)
    : Run TxId Tx :=
  match fetched with
  | .error err => s.endWith (.error err)
  | .ok none =>
    -- A txid the server does not know gets its status without a bump of the version.
    s.setTransactionStatus "set_transaction_status TxidNotRecognized: " 0 txid .txidNotRecognized write
  | .ok (some raw) =>
    if wantEnhance then
      s.storeTransaction "" raw write
    else
      let status := match raw.minedHeight with
        | some height => .mined height
        | none => .notInMainChain
      s.setTransactionStatus "set_transaction_status: " 1 txid status write

def storeAnswered (s : Run TxId Tx) (filter : TransactionStatusFilter)
    : List (RawTransaction Tx × Except String Unit) → Run TxId Tx
  | [] => s
  | (raw, write) :: raws =>
    if filter.skips raw.minedHeight then
      s.storeAnswered filter raws
    else
      (s.storeTransaction " (taddr)" raw write).andThen fun s => s.storeAnswered filter raws

def notifyAddressChecked (s : Run TxId Tx) (tia : TransactionsInvolvingAddress) (asOf : Nat)
    : Except String Unit → Run TxId Tx
  | .error e => s.endWith (.error (.wallet ("notify_address_checked: " ++ e)))
  | .ok _ => { s with writes := s.writes ++ [.notifyAddressChecked tia asOf] }

def checkAddress (s : Run TxId Tx) (tia : TransactionsInvolvingAddress) (blockRangeEnd : Nat)
    (answers : AddressAnswers Tx) : Run TxId Tx :=
  let key := tia.address ++ ":" ++ toString tia.blockRangeStart ++ "-" ++ toString blockRangeEnd
  if tia.requestAt.isSome then
    s.skip (key ++ ":request_at")
  else if tia.outputStatusFilter = .unspent then
    s.skip (key ++ ":unspent")
  else
    (s.get answers.connect).andThen fun s =>
      match answers.taddressTxids with
      | .error e => s.endWith (.error (.wallet ("get_taddress_txids: " ++ e)))
      | .ok raws =>
        let s := { s with answered := s.answered ++ [(tia, blockRangeEnd - 1, raws.map Prod.fst)] }
        (s.storeAnswered tia.txStatusFilter raws).andThen fun s =>
          s.notifyAddressChecked tia (blockRangeEnd - 1) answers.notify

def applyAddressRequest (s : Run TxId Tx) (tia : TransactionsInvolvingAddress)
    (answers : AddressAnswers Tx) : Run TxId Tx :=
  match tia.blockRangeEnd with
  | some height => s.checkAddress tia height answers
  | none =>
    match answers.chainHeight with
    | .error e => s.endWith (.error (.wallet ("chain_height for open-range clamp: " ++ e)))
    | .ok (some tip) => s.checkAddress tia (effectiveRangeEnd none tip) answers
    | .ok none => s.skip (tia.address ++ ":open-no-tip")

def fetches : TransactionDataRequest TxId → Option (TxId × Bool)
  | .getStatus txid => some (txid, false)
  | .enhancement txid => some (txid, true)
  | .transactionsInvolvingAddress _ => none

def addresses : TransactionDataRequest TxId → Option TransactionsInvolvingAddress
  | .transactionsInvolvingAddress tia => some tia
  | _ => none

def beginRound (s : Run TxId Tx) (answer : Except String (List (TransactionDataRequest TxId)))
    (connect : Except SlipstreamError Unit) : Run TxId Tx :=
  match answer with
  | .error e => s.endWith (.error (.wallet ("transaction_data_requests: " ++ e)))
  | .ok [] => s.endWith (.ok s.stats)
  | .ok requests =>
    let s := { s with
      round := s.round + 1
      stats.requests := s.stats.requests + requests.length
      pending := requests.filterMap fetches
      addressReqs := requests.filterMap addresses }
    if s.pending.isEmpty then s else s.get connect

def step (s : Run TxId Tx) (e : Event TxId Tx) : Option (Run TxId Tx) :=
  match s.ended, s.pending, s.addressReqs, e with
  | none, [], [], .turn answer connect =>
    some (if s.round = 3 then s.endWith (.ok s.stats) else s.beginRound answer connect)
  | none, pending, _, .fetched i answer write =>
    pending[i]?.map fun fetch =>
      { s with pending := pending.eraseIdx i }.applyTxidFetch fetch.1 fetch.2 answer write
  | none, [], tia :: rest, .address answers =>
    some ({ s with addressReqs := rest }.applyAddressRequest tia answers)
  | _, _, _, _ => none

end Run

def runMachine : Machine (Run TxId Tx) (Event TxId Tx) where
  start s := ∃ keys connected enhanced version, s = .start keys connected enhanced version
  step := Run.step

end Enhance
end Slipstream
