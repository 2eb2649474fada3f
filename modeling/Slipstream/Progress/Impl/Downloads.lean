import Mathlib.Algebra.Ring.Nat
import Mathlib.Data.List.MinMax

/-!
This module contains the record of block-download give-ups in `events.rs`: one run per block, what
extends, restarts and ends a run, and the stall time read off the runs.
-/

namespace Slipstream
namespace Progress

def DOWNLOAD_FAILURE_STALL_STREAK : Nat := 2

def DOWNLOAD_FAILURE_RUN_GAP_SECS : Nat := 600

def MAX_DOWNLOAD_FAILURE_RUNS : Nat := 8

/-- The streak is a `u32` that saturates; the other fields are `u64`. -/
structure DownloadFailure where
  streak : Nat
  atHeight : Nat
  sinceUnix : Nat
  lastUnix : Nat
  deriving DecidableEq, Repr

structure FailureRuns where
  runs : List DownloadFailure
  sorted : runs.Pairwise (·.atHeight < ·.atHeight)

namespace FailureRuns

def empty : FailureRuns where
  runs := []
  sorted := .nil

def get? (m : FailureRuns) (height : Nat) : Option DownloadFailure :=
  m.runs.find? (·.atHeight == height)

def insert (m : FailureRuns) (run : DownloadFailure) : FailureRuns where
  runs := m.runs.filter (·.atHeight < run.atHeight) ++ run :: m.runs.filter (run.atHeight < ·.atHeight)
  sorted := by
    rw [List.pairwise_append, List.pairwise_cons]
    refine ⟨m.sorted.filter _, ⟨by simp, m.sorted.filter _⟩, ?_⟩
    intro a ha b hb
    have ha : a.atHeight < run.atHeight := by simpa using (List.mem_filter.mp ha).2
    rcases List.mem_cons.mp hb with rfl | hb
    . exact ha
    . exact Nat.lt_trans ha (by simpa using (List.mem_filter.mp hb).2)

def removeAll (m : FailureRuns) (p : Nat → Bool) : FailureRuns where
  runs := m.runs.filter fun run => !p run.atHeight
  sorted := m.sorted.filter _

end FailureRuns

structure Downloads where
  downloadFailures : FailureRuns
  downloadGaveUpThisAttempt : Bool

namespace Downloads

def new : Downloads where
  downloadFailures := .empty
  downloadGaveUpThisAttempt := false

def nextRun (p : Downloads) (atHeight nowUnix : Nat) : DownloadFailure :=
  match p.downloadFailures.get? atHeight with
  | some run =>
    if nowUnix - run.lastUnix ≤ DOWNLOAD_FAILURE_RUN_GAP_SECS then
      { run with streak := min (run.streak + 1) (2 ^ 32 - 1), lastUnix := nowUnix }
    else
      { streak := 1, atHeight, sinceUnix := nowUnix, lastUnix := nowUnix }
  | none => { streak := 1, atHeight, sinceUnix := nowUnix, lastUnix := nowUnix }

def evicted (m : FailureRuns) (atHeight : Nat) : Option Nat :=
  if m.runs.length > MAX_DOWNLOAD_FAILURE_RUNS then
    ((m.runs.filter (·.atHeight ≠ atHeight)).argmin DownloadFailure.lastUnix).map
      DownloadFailure.atHeight
  else
    none

def noteDownloadGaveUpAt (p : Downloads) (atHeight nowUnix : Nat) : Downloads × Option Nat :=
  let recorded := p.downloadFailures.insert (p.nextRun atHeight nowUnix)
  let least := evicted recorded atHeight
  ({ downloadFailures := recorded.removeAll fun height => least = some height
     downloadGaveUpThisAttempt := true }, least)

def clearDownloadFailures (p : Downloads) : Downloads :=
  { p with downloadFailures := .empty }

def notePassCompleted (p : Downloads) : Downloads :=
  clearDownloadFailures { p with downloadGaveUpThisAttempt := false }

/-- The part of `begin_session` that concerns downloads. -/
def beginSession (p : Downloads) : Downloads :=
  clearDownloadFailures { p with downloadGaveUpThisAttempt := false }

def noteAttemptFailed (p : Downloads) : Downloads :=
  let reset := { p with downloadGaveUpThisAttempt := false }
  if !p.downloadGaveUpThisAttempt then reset.clearDownloadFailures else reset

def noteBlocksReleased (p : Downloads) (firstHeight lastHeight : Nat) : Downloads :=
  if firstHeight > lastHeight then
    p
  else
    { p with
      downloadFailures := p.downloadFailures.removeAll fun height =>
        firstHeight ≤ height && height ≤ lastHeight }

def downloadFailureSecs (p : Downloads) (nowUnix : Nat) : Nat :=
  (((p.downloadFailures.runs.filter (·.streak ≥ DOWNLOAD_FAILURE_STALL_STREAK)).filter
    fun run => nowUnix - run.lastUnix ≤ DOWNLOAD_FAILURE_RUN_GAP_SECS).map
    fun run => nowUnix - run.sinceUnix).max?.getD 0

end Downloads

inductive DownloadEvent where
  | gaveUp (atHeight nowUnix : Nat)
  | released (firstHeight lastHeight : Nat)
  | passCompleted
  | attemptFailed
  | sessionStarted

inductive DownloadEntry where
  | gaveUp (atHeight nowUnix : Nat)
  | released (firstHeight lastHeight : Nat)
  | cleared
  | evicted (atHeight : Nat)

namespace Downloads

def apply (p : Downloads) : DownloadEvent → Downloads
  | .gaveUp atHeight nowUnix => (p.noteDownloadGaveUpAt atHeight nowUnix).1
  | .released firstHeight lastHeight => p.noteBlocksReleased firstHeight lastHeight
  | .passCompleted => p.notePassCompleted
  | .attemptFailed => p.noteAttemptFailed
  | .sessionStarted => p.beginSession

def entries (p : Downloads) : DownloadEvent → List DownloadEntry
  | .gaveUp atHeight nowUnix =>
    .gaveUp atHeight nowUnix :: ((p.noteDownloadGaveUpAt atHeight nowUnix).2.map .evicted).toList
  | .released firstHeight lastHeight => [.released firstHeight lastHeight]
  | .passCompleted => [.cleared]
  | .attemptFailed => if p.downloadGaveUpThisAttempt then [] else [.cleared]
  | .sessionStarted => [.cleared]

def after (events : List DownloadEvent) : Downloads × List DownloadEntry :=
  events.foldl (fun st e => (st.1.apply e, st.2 ++ st.1.entries e)) (.new, [])

end Downloads
end Progress
end Slipstream
