import Slipstream.Chain.Error

/-!
This module contains the mempool sessions of the follow loop, `run_session` of `mempool.rs`. The set of
txids that were seen outlives a session.
-/

namespace Slipstream
namespace Mempool

def SEEN_TXIDS_CAP : Nat := 4096

inductive SessionEnd where
  | blockBoundary
  | idleReconnect
  deriving DecidableEq, Repr

structure SessionStats where
  received : Nat
  storedHits : Nat
  deriving DecidableEq, Repr

inductive Next (TxId : Type) where
  | elapsed
  | closed
  | status (error : String)
  | unreadable
  | transaction (txid : TxId) (stored : Except String Unit) (found : Except String Bool)

structure SessionInput (TxId : Type) where
  wallet : Except SlipstreamError Unit
  connect : Except SlipstreamError Unit
  /-- `none` when the idle bound is over first. -/
  opened : Option (Except SlipstreamError Unit)
  nexts : List (Next TxId)

structure Monitor (TxId : Type) where
  seen : List TxId
  enhancedTxs : Nat
  txSetVersion : Nat
  /-- The transactions given to the wallet since `seen` was cleared, and before, for the record only. -/
  handling : List TxId
  past : List (List TxId)

namespace Monitor

variable {TxId : Type} [DecidableEq TxId]

def fresh (enhancedTxs txSetVersion : Nat) : Monitor TxId where
  seen := []
  enhancedTxs
  txSetVersion
  handling := []
  past := []

def pump (m : Monitor TxId) (stats : SessionStats)
    : List (Next TxId) → Monitor TxId × Option (Except SlipstreamError (SessionEnd × SessionStats))
  | [] => (m, none)
  | .elapsed :: _ => (m, some (.ok (.idleReconnect, stats)))
  | .closed :: _ => (m, some (.ok (.blockBoundary, stats)))
  | .status error :: _ => (m, some (.error (.transport ("mempool stream: " ++ error))))
  | .unreadable :: nexts => m.pump { stats with received := stats.received + 1 } nexts
  | .transaction txid stored found :: nexts =>
    let stats := { stats with received := stats.received + 1 }
    if txid ∈ m.seen then
      m.pump stats nexts
    else
      let m := { m with seen := txid :: m.seen, handling := m.handling ++ [txid] }
      match stored, found with
      | .error e, _ => (m, some (.error (.wallet ("mempool decrypt_and_store: " ++ e))))
      | .ok _, .error e => (m, some (.error (.wallet ("mempool hit check: " ++ e))))
      | .ok _, .ok true =>
        { m with enhancedTxs := m.enhancedTxs + 1, txSetVersion := m.txSetVersion + 1 }.pump
          { stats with storedHits := stats.storedHits + 1 } nexts
      | .ok _, .ok false => m.pump stats nexts

def clearSeen (m : Monitor TxId) : Monitor TxId :=
  if m.seen.length > SEEN_TXIDS_CAP then
    { m with seen := [], handling := [], past := m.past ++ [m.handling] }
  else
    m

def runSession (m : Monitor TxId) (inp : SessionInput TxId)
    : Monitor TxId × Option (Except SlipstreamError (SessionEnd × SessionStats)) :=
  let m := m.clearSeen
  match inp.wallet, inp.connect, inp.opened with
  | .error e, _, _ => (m, some (.error e))
  | .ok _, .error e, _ => (m, some (.error e))
  | .ok _, .ok _, none => (m, some (.ok (.idleReconnect, ⟨0, 0⟩)))
  | .ok _, .ok _, some (.error e) => (m, some (.error e))
  | .ok _, .ok _, some (.ok _) => m.pump ⟨0, 0⟩ inp.nexts

def follow (m : Monitor TxId) (sessions : List (SessionInput TxId)) : Monitor TxId :=
  sessions.foldl (fun m inp => (m.runSession inp).1) m

end Monitor
end Mempool
end Slipstream
