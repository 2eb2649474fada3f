import Slipstream.Machine.Basic

/-!
This module contains the decryption fence of `scan.rs`: the two counters that all sessions of the
process share, and the sessions' waits as interleavings of their accesses to them.
-/

namespace Slipstream
namespace Scan

/-- Both counters have 64 bits, which one request at a time does not exhaust. -/
structure DecryptionFence where
  requests : Nat
  paid : Nat
  deriving DecidableEq, Repr

namespace DecryptionFence

def new : DecryptionFence where
  requests := 0
  paid := 0

def owe (f : DecryptionFence) : DecryptionFence := { f with requests := f.requests + 1 }

def report (requests paid : Nat) : Option Nat := if requests ≠ paid then some requests else none

def owed (f : DecryptionFence) : Option Nat := report f.requests f.paid

/-- The `fetch_max` of a fence that completed. -/
def pay (f : DecryptionFence) (requests : Nat) : DecryptionFence :=
  { f with paid := max f.paid requests }

end DecryptionFence

/-- Where a call of `wait_if_owed` stands. -/
inductive FenceWait where
  | idle
  | checking (requests : Nat)
  | waiting (requests : Nat)
  | completed (requests : Nat)
  | notOwed
  | aborted
  deriving DecidableEq, Repr

structure FenceState where
  counters : DecryptionFence
  waits : Nat → FenceWait

inductive FenceEvent where
  | owe
  | loadRequests (call : Nat)
  | loadPaid (call : Nat)
  | complete (call : Nat)
  | abort (call : Nat)
  deriving DecidableEq, Repr

namespace FenceState

def init : FenceState where
  counters := .new
  waits _ := .idle

def setWait (s : FenceState) (call : Nat) (w : FenceWait) : FenceState :=
  { s with waits := fun i => if i = call then w else s.waits i }

def step (s : FenceState) : FenceEvent → Option FenceState
  | .owe => some { s with counters := s.counters.owe }
  | .loadRequests call =>
    match s.waits call with
    | .idle => some (s.setWait call (.checking s.counters.requests))
    | _ => none
  | .loadPaid call =>
    match s.waits call with
    | .checking requests =>
      match DecryptionFence.report requests s.counters.paid with
      | some requests => some (s.setWait call (.waiting requests))
      | none => some (s.setWait call .notOwed)
    | _ => none
  | .complete call =>
    match s.waits call with
    | .waiting requests =>
      some { s.setWait call (.completed requests) with counters := s.counters.pay requests }
    | _ => none
  | .abort call =>
    match s.waits call with
    | .waiting _ => some (s.setWait call .aborted)
    | _ => none

def machine : Machine FenceState FenceEvent where
  start s := s = init
  step := step

end FenceState
end Scan
end Slipstream
