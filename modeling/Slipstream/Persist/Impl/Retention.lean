import Slipstream.Data.OrdMap
import Slipstream.Graft.Impl.Accumulator
import Mathlib.Data.Finset.Sort

/-!
This module contains the checkpoint retentions of a commitment stream: which of them a build drops
up front because the tree would prune them anyway, and which are kept as durable anchors.
-/

namespace Slipstream

variable {H : Type}

def MAX_CHECKPOINTS : Nat := 100

def SPARSE_CHECKPOINT_WINDOW : Nat := 100

def DEEP_HISTORY_CHECKPOINT_MARGIN : Nat := 10000

/-- `BlockHeight::from(u32::MAX)`, the cutoff that dooms every checkpoint. -/
def DOOM_ALL : Nat := 2 ^ 32 - 1

structure AnchorRetention where
  retains : Nat → Bool

def shouldRetainAnchor (anchorRetention : Option AnchorRetention) (height : Nat) : Bool :=
  anchorRetention.any (·.retains height)

def downgradeIfDoomed (retention : Retention) (cutoff : Nat)
    (anchorRetention : Option AnchorRetention) : Retention × Bool :=
  match retention with
  | .checkpoint id marking =>
    if id < cutoff && !shouldRetainAnchor anchorRetention id then
      match marking with
      | .marked => (.marked, true)
      | _ => (.ephemeral, true)
    else
      (retention, false)
  | _ => (retention, false)

def downgradeDoomedCheckpoints (commitments : List (H × Retention)) (cutoff : Nat)
    (anchorRetention : Option AnchorRetention) : List (H × Retention) × Nat :=
  (commitments.map fun c => (c.1, (downgradeIfDoomed c.2 cutoff anchorRetention).1),
    commitments.countP fun c => (downgradeIfDoomed c.2 cutoff anchorRetention).2)

def isDeepHistory (chainTip : Option Nat) (lastScannedHeight : Nat) : Bool :=
  chainTip.any fun tip => lastScannedHeight + DEEP_HISTORY_CHECKPOINT_MARGIN < tip

def doomDeepHistoryStream (stream : List (H × Retention))
    (anchorRetention : Option AnchorRetention) : List (H × Retention) :=
  stream.map fun c => (c.1, (downgradeIfDoomed c.2 DOOM_ALL anchorRetention).1)

def doomDeepRows (rows : List (AccRow H)) (chainTip : Nat)
    (anchorRetention : Option AnchorRetention) : List (AccRow H) :=
  rows.map fun r =>
    match r.retention with
    | .checkpoint id _ =>
      if isDeepHistory (some chainTip) id then
        { r with retention := (downgradeIfDoomed r.retention DOOM_ALL anchorRetention).1 }
      else
        r
    | _ => r

def checkpointEntries (rows : List (AccRow H)) : List (Nat × Nat) :=
  rows.filterMap fun r => r.retention.checkpointId.map (·, r.position)

def streamCheckpointPositions (start : Nat) (commitments : List (H × Retention))
    : OrdMap Nat Nat :=
  .ofList (checkpointEntries (rowsFrom start commitments))

/--
The oldest of the newest `SPARSE_CHECKPOINT_WINDOW` ids there will be, if there will be that many.
-/
def doomedCheckpointCutoff (existing : Finset Nat) (frontierId : Nat)
    (newIds : Finset Nat) : Option Nat :=
  ((insert frontierId existing ∪ newIds).sort (· ≥ ·))[SPARSE_CHECKPOINT_WINDOW - 1]?

def deferredBuildCutoff (existing : Finset Nat) (rows : List (H × Retention))
    : Option Nat :=
  if h : existing.Nonempty then
    doomedCheckpointCutoff existing (existing.max' h)
      (rows.filterMap (·.2.checkpointId)).toFinset
  else
    none

def downgradeBelow (commitments : List (H × Retention)) (cutoff : Option Nat)
    (anchorRetention : Option AnchorRetention) : List (H × Retention) :=
  match cutoff with
  | none => commitments
  | some cutoff => (downgradeDoomedCheckpoints commitments cutoff anchorRetention).1

end Slipstream
