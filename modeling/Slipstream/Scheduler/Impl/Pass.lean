import Slipstream.Chain.Error
import Slipstream.Fetch.Impl.System
import Slipstream.Progress.Impl.Floor
import Slipstream.Reconcile.TxSet

/-!
This module contains one pass over the scan queue, `run_to_completion` of `scheduler.rs`: a suggest
round, the work on the first range it names, and then the recovery from a reorg or the bookkeeping of
a range that is done. A pass runs from await to await.
-/

namespace Slipstream
namespace Scheduler

def MAX_CONSECUTIVE_REORGS : Nat := 5

def reorgBackoffMs (consecutive : Nat) : Nat := min (Progress.saturatingMul consecutive 500) 3000

def scanContinuityRepairCredit (start endExclusive rewindHeight : Nat) : Nat :=
  min (rewindHeight - start) (endExclusive - start)

inductive ScanPriority where
  | ignored
  | scanned
  | historic
  | openAdjacent
  | foundNote
  | chainTip
  | verify
  deriving DecidableEq, Repr

/-- The heights of the wallet library are 32 bit. -/
structure ScanRange where
  start : Nat
  endExclusive : Nat
  priority : ScanPriority
  end_lt : endExclusive < 2 ^ 32
  deriving DecidableEq, Repr

structure EnhanceStats where
  requests : Nat
  txsStored : Nat
  statusesSet : Nat
  skipped : Nat
  deriving DecidableEq, Repr

def EnhanceStats.add (a b : EnhanceStats) : EnhanceStats where
  requests := a.requests + b.requests
  txsStored := a.txsStored + b.txsStored
  statusesSet := a.statusesSet + b.statusesSet
  skipped := a.skipped + b.skipped

structure ScanStats where
  blocks : Nat
  saplingReceived : Nat
  orchardReceived : Nat
  interleavedEnhance : EnhanceStats
  deriving DecidableEq, Repr

structure SyncReport where
  rangesProcessed : Nat
  fetchBlocks : Nat
  fetchBytes : Nat
  scanBlocks : Nat
  saplingReceived : Nat
  orchardReceived : Nat
  enhance : EnhanceStats
  reorgsRecovered : Nat
  deriving DecidableEq, Repr

def SyncReport.default : SyncReport where
  rangesProcessed := 0
  fetchBlocks := 0
  fetchBytes := 0
  scanBlocks := 0
  saplingReceived := 0
  orchardReceived := 0
  enhance := ⟨0, 0, 0, 0⟩
  reorgsRecovered := 0

inductive PassPhase where
  | suggesting
  | publishing (range : ScanRange)
  | scanning (range : ScanRange)
  | joining (range : ScanRange) (scan : Except SlipstreamError ScanStats)
  | truncating (range : ScanRange) (at_ : Nat)
  | sleeping (ms : Nat)
  | enhancing (range : ScanRange)
  | ended (result : Except SlipstreamError SyncReport)

structure PassState where
  progress : Progress.PassState
  recovering : Bool
  spendable : Bool
  currentRangeEnd : Nat
  rangesCompleted : Nat
  reorgsRecovered : Nat
  txSet : Reconcile.TxSetWatch
  recoverUntil : Option Nat
  consecutiveReorgs : Nat
  report : SyncReport
  phase : PassPhase

inductive PassEvent where
  /-- `suggest_scan_ranges`, with the birthday the round reads. -/
  | suggested (answer : Except SlipstreamError (List ScanRange)) (walletBirthday : Option Nat)
  | progress (e : Progress.PassEvent)
  | begin
  | scanned (result : Except SlipstreamError ScanStats)
  /-- The fetch task's result, or the panic it ended with. -/
  | joined (result : Except String (Except SlipstreamError FetchStats))
  | truncated (result : Except SlipstreamError Unit)
  | slept
  | enhanced (result : Except SlipstreamError EnhanceStats) (sig : Option (Nat × Nat))

namespace PassState

def stop (s : PassState) (result : Except SlipstreamError SyncReport) : PassState :=
  { s with phase := .ended result }

def sumRemaining (ranges : List ScanRange) : Nat :=
  (ranges.map fun r => r.endExclusive - r.start).sum

def isRecovering (recoverUntil : Option Nat) (ranges : List ScanRange) : Bool :=
  recoverUntil.any fun recoverUntil => ranges.any fun r => r.start < recoverUntil

def suggestStep (s : PassState) (answer : Except SlipstreamError (List ScanRange))
    (walletBirthday : Option Nat) : Option PassState :=
  match answer with
  | .error e => some (s.stop (.error e))
  | .ok ranges =>
    let s := { s with recovering := isRecovering s.recoverUntil ranges }
    match ranges with
    | [] => some (s.stop (.ok s.report))
    | range :: _ =>
      (s.progress.step (.suggest (sumRemaining ranges) walletBirthday)).map fun progress =>
        { s with progress, phase := .publishing range }

def progressStep (s : PassState) : Progress.PassEvent → Option PassState
  | .credit _ => none
  | .suggest _ _ => none
  | e => (s.progress.step e).map fun progress => { s with progress }

def beginStep (s : PassState) (range : ScanRange) : PassState :=
  if range.endExclusive ≤ range.start then
    s.stop (.error (.wallet
      s!"degenerate scan range: start={range.start} end_exclusive={range.endExclusive}"))
  else
    { s with currentRangeEnd := range.endExclusive - 1, phase := .scanning range }

def complete (s : PassState) (range : ScanRange) (scan : ScanStats) (fetch : FetchStats)
    : Option PassState :=
  (s.progress.step (.credit scan.blocks)).map fun progress => {
    s with
    progress
    consecutiveReorgs := 0
    report := {
      s.report with
      rangesProcessed := s.report.rangesProcessed + 1
      fetchBlocks := s.report.fetchBlocks + fetch.blocks
      fetchBytes := s.report.fetchBytes + fetch.bytes
      scanBlocks := s.report.scanBlocks + scan.blocks
      saplingReceived := s.report.saplingReceived + scan.saplingReceived
      orchardReceived := s.report.orchardReceived + scan.orchardReceived
      enhance := s.report.enhance.add scan.interleavedEnhance
    }
    spendable := s.spendable || range.priority == .chainTip
    phase := .enhancing range
  }

def joinStep (s : PassState) (range : ScanRange) (scan : Except SlipstreamError ScanStats)
    (joined : Except String (Except SlipstreamError FetchStats)) : Option PassState :=
  match joined with
  | .error detail => some (s.stop (.error (.transport s!"fetch task panicked: {detail}")))
  | .ok fetch =>
    match scan, fetch with
    | .error (.scanContinuity at_), _ =>
      let s := { s with consecutiveReorgs := s.consecutiveReorgs + 1 }
      if s.consecutiveReorgs > MAX_CONSECUTIVE_REORGS then
        some (s.stop (.error (.scanContinuity at_)))
      else
        some { s with phase := .truncating range at_ }
    | .error e, _ => some (s.stop (.error e))
    | .ok _, .error e => some (s.stop (.error e))
    | .ok scan, .ok fetch => s.complete range scan fetch

/-- The height a reorg at `at_` rewinds the wallet to. -/
def rewindHeight (at_ : Nat) : Nat := at_ - 10

def truncateStep (s : PassState) (range : ScanRange) (at_ : Nat)
    (result : Except SlipstreamError Unit) : Option PassState :=
  match result with
  | .error e => some (s.stop (.error e))
  | .ok _ =>
    let survives := scanContinuityRepairCredit range.start range.endExclusive (rewindHeight at_)
    (s.progress.step (.credit survives)).map fun progress => {
      s with
      progress
      report := { s.report with reorgsRecovered := s.report.reorgsRecovered + 1 }
      reorgsRecovered := s.reorgsRecovered + 1
      phase := .sleeping (reorgBackoffMs s.consecutiveReorgs)
    }

def enhanceStep (s : PassState) (result : Except SlipstreamError EnhanceStats)
    (sig : Option (Nat × Nat)) : PassState :=
  -- A failed run is left to the enhancement after the last range.
  let enhance :=
    match result with
    | .ok stats => s.report.enhance.add stats
    | .error _ => s.report.enhance
  { s with
    report := { s.report with enhance }
    rangesCompleted := s.rangesCompleted + 1
    txSet := s.txSet.boundary sig
    phase := .suggesting }

def step (s : PassState) (e : PassEvent) : Option PassState :=
  match s.phase, e with
  | _, .progress e => s.progressStep e
  | .suggesting, .suggested answer walletBirthday => s.suggestStep answer walletBirthday
  | .publishing range, .begin => if s.progress.round.isSome then none else some (s.beginStep range)
  | .scanning range, .scanned result => some { s with phase := .joining range result }
  | .joining range scan, .joined result => s.joinStep range scan result
  | .truncating range at_, .truncated result => s.truncateStep range at_ result
  | .sleeping _, .slept => some { s with phase := .suggesting }
  | .enhancing _, .enhanced result sig => some (s.enhanceStep result sig)
  | _, _ => none

end PassState

/-- What a pass finds: what `begin_pass` leaves of its handle, and what it reads of the wallet. -/
structure PassStart where
  chainTip : Nat
  floor : Nat
  recovering : Bool
  rangesCompleted : Nat
  reorgsRecovered : Nat
  txSetVersion : Nat
  txSig : Option (Nat × Nat)
  recoverUntil : Option Nat
  floor_le : floor ≤ 1000

def PassStart.init (start : PassStart) : PassState where
  progress := .init start.chainTip start.floor
  recovering := start.recovering
  spendable := false
  currentRangeEnd := 0
  rangesCompleted := start.rangesCompleted
  reorgsRecovered := start.reorgsRecovered
  txSet := .passStart start.txSig start.txSetVersion
  recoverUntil := start.recoverUntil
  consecutiveReorgs := 0
  report := .default
  phase := .suggesting

def passMachine : Machine PassState PassEvent where
  start s := ∃ start : PassStart, s = start.init
  step := PassState.step

end Scheduler
end Slipstream
