import Slipstream.Scheduler.Impl.Pass
import Slipstream.Scheduler.Impl.Range

/-!
This module contains a pass together with the work on its ranges: each range it begins gets a plan,
a chunk queue, a fetch and a scan of its own, and the pass sees their results.
-/

namespace Slipstream
namespace Scheduler

structure PipelineConfig where
  chunkBlocks : Nat
  fetchStreams : Nat
  chunkSplitBytes : Nat
  memoryBudgetBytes : Nat
  failover : Option WireFailoverArm
  chunkBlocks_pos : 0 < chunkBlocks

def PipelineConfig.plan (cfg : PipelineConfig) (range : ScanRange)
    (h : range.start < range.endExclusive) : FetchPlan where
  start := range.start
  stop := range.endExclusive - 1
  chunkBlocks := cfg.chunkBlocks
  streams := cfg.fetchStreams
  retriesPerChunk := 3
  splitBytes := cfg.chunkSplitBytes
  failover := cfg.failover
  start_le := Nat.le_sub_one_of_lt h
  stop_lt := Nat.lt_of_le_of_lt (Nat.sub_le _ _) range.end_lt
  chunkBlocks_pos := cfg.chunkBlocks_pos

structure SyncState (T F : Type) where
  pass : PassState
  work : Option (FetchPlan × RangeState T F)

structure ScanExtras where
  saplingReceived : Nat
  orchardReceived : Nat
  interleavedEnhance : EnhanceStats

inductive SyncEvent (T : Type) where
  | pass (e : PassEvent)
  | range (e : RangeEvent T)
  | scanReturns (rest : Except SlipstreamError ScanExtras)
  | fetchReturns
  | fetchPanics (detail : String)

section Step

variable {T F : Type} [DecidableEq F] (api : Scan.TreeStateApi T F)
  (scanConfig : FetchPlan → Scan.ScanConfig) (cfg : PipelineConfig)

def scannedBlocks (s : Scan.ScanState T F) : Nat := (s.calls.map Scan.ScanCall.limit).sum

def scanResult (s : Scan.ScanState T F) (rest : Except SlipstreamError ScanExtras)
    : Option (Except SlipstreamError ScanStats) :=
  match s.ended with
  | some .finished =>
    match rest with
    | .error e => some (.error e)
    | .ok extras =>
      some (.ok {
        blocks := scannedBlocks s
        saplingReceived := extras.saplingReceived
        orchardReceived := extras.orchardReceived
        interleavedEnhance := extras.interleavedEnhance
      })
  | some (.failed e) => some (.error e)
  -- A panic of the loop takes the pass with it.
  | some .panicked => none
  | none => none

def setUp (pass : PassState) : Option (FetchPlan × RangeState T F) :=
  match pass.phase with
  | .scanning range =>
    if h : range.start < range.endExclusive then
      let plan := cfg.plan range h
      some (plan, { fetch := Fetch.init plan cfg.memoryBudgetBytes, scan := Scan.init [] })
    else
      none
  | _ => none

def ofPass : PassEvent → Bool
  | .scanned _ => false
  | .joined _ => false
  | _ => true

def syncStep (s : SyncState T F) : SyncEvent T → Option (SyncState T F)
  | .pass .begin => (s.pass.step .begin).map fun pass => { pass, work := setUp cfg pass }
  | .pass e => if ofPass e then (s.pass.step e).map fun pass => { s with pass } else none
  | .range e =>
    match s.work with
    | some (plan, r) =>
      (rangeStep plan api (scanConfig plan) r e).map fun r => { s with work := some (plan, r) }
    | none => none
  | .scanReturns rest =>
    match s.work with
    | some (_, r) =>
      (scanResult r.scan rest).bind fun result =>
        (s.pass.step (.scanned result)).map fun pass => { s with pass }
    | none => none
  | .fetchReturns =>
    match s.work with
    | some (_, r) =>
      r.fetch.result.bind fun result =>
        (s.pass.step (.joined (.ok result))).map fun pass => { pass, work := none }
    | none => none
  | .fetchPanics detail =>
    (s.pass.step (.joined (.error detail))).map fun pass => { pass, work := none }

def syncMachine : Machine (SyncState T F) (SyncEvent T) where
  start s := ∃ start : PassStart, s = { pass := start.init, work := none }
  step := syncStep api scanConfig cfg

end Step

end Scheduler
end Slipstream
