import Slipstream.Scan.Impl.Loop

/-!
This module contains the work on one suggested range in `scheduler.rs`: the fetch task and the scan
loop run at the same time, joined by the chunk queue.
-/

namespace Slipstream
namespace Scheduler

structure RangeState (T F : Type) where
  fetch : FetchState
  scan : Scan.ScanState T F

inductive RangeEvent (T : Type) where
  | fetch (e : FetchEvent)
  | scan (e : Scan.ScanEvent T)

def ofFetch : FetchEvent → Bool
  | .scannerReturns => false
  | .scannerGone => false
  | _ => true

def receivable (fetch : FetchState) : Scan.ScanEvent T → Bool
  | .closed _ => fetch.result.isSome
  | _ => true

def afterScan (e : Scan.ScanEvent T) (scan : Scan.ScanState T F) (q : ChunkQueue) : ChunkQueue where
  budgetBytes := q.budgetBytes
  sent := q.sent
  inFlight :=
    match e with
    -- The chunk's permit is dropped after its last sub-batch was handed off.
    | .chunkDone _ => q.inFlight.tail
    | _ => q.inFlight
  -- The receiver goes with the scan.
  receiverGone := q.receiverGone || scan.ended.isSome

section Step

variable {T F : Type} [DecidableEq F] (plan : FetchPlan) (api : Scan.TreeStateApi T F)
  (cfg : Scan.ScanConfig)

def fetchStep (s : RangeState T F) (e : FetchEvent) : Option (RangeState T F) :=
  if ofFetch e then
    (Fetch.step plan s.fetch e).map fun fetch =>
      let arrived := fetch.queue.sent.drop s.fetch.queue.sent.length
      { fetch, scan := { s.scan with incoming := s.scan.incoming ++ arrived } }
  else
    none

def scanStep (s : RangeState T F) (e : Scan.ScanEvent T) : Option (RangeState T F) :=
  if receivable s.fetch e then
    (Scan.step api cfg s.scan e).map fun scan =>
      { fetch := { s.fetch with queue := afterScan e scan s.fetch.queue }, scan }
  else
    none

def rangeStep (s : RangeState T F) : RangeEvent T → Option (RangeState T F)
  | .fetch e => fetchStep plan s e
  | .scan e => scanStep api cfg s e

def rangeMachine (budgetBytes : Nat) : Machine (RangeState T F) (RangeEvent T) where
  start s := s = { fetch := Fetch.init plan budgetBytes, scan := Scan.init [] }
  step := rangeStep plan api cfg

end Step

def RangeState.over (s : RangeState T F) : Bool := s.fetch.result.isSome && s.scan.ended.isSome

end Scheduler
end Slipstream
