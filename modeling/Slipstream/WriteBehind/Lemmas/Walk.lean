import Slipstream.WriteBehind.Impl.Range

/-!
This module contains the walks of a scan call: the blocks they hand out are those of the call's
sub-batch, and what the call comes to is what the turn of the scan loop ends with.
-/

namespace Slipstream
namespace WriteBehind

variable {T F : Type}

def Call.blocks (call : Call F) : List CompactBlock :=
  (call.chunk.blocks.filter fun block => decide (call.fromHeight ≤ block.height)).take call.limit

def Call.heights (call : Call F) : List Nat := call.blocks.map CompactBlock.height

def Walk.left (walk : Walk) (call : Call F) : List CompactBlock :=
  (walk.rest.filter fun block => decide (call.fromHeight ≤ block.height)).take
    (call.limit - walk.served)

theorem nextBlock_of_none (h : nextBlock fromHeight limit served rest = none)
    : (rest.filter fun block => decide (fromHeight ≤ block.height)).take (limit - served) = [] := by
  induction rest with
  | nil => simp
  | cons block rest ih =>
    rw [nextBlock] at h
    split at h
    . next hbelow =>
      rw [List.filter_cons_of_neg (by simpa using hbelow)]
      exact ih h
    . split at h
      . next hfull => rw [Nat.sub_eq_zero_of_le hfull, List.take_zero]
      . cases h

theorem nextBlock_of_some (h : nextBlock fromHeight limit served rest = some (block, rest'))
    : (rest.filter fun block => decide (fromHeight ≤ block.height)).take (limit - served)
      = block :: (rest'.filter fun block => decide (fromHeight ≤ block.height)).take
        (limit - (served + 1)) := by
  induction rest with
  | nil => cases h
  | cons b rest ih =>
    rw [nextBlock] at h
    split at h
    . next hbelow =>
      rw [List.filter_cons_of_neg (by simpa using hbelow)]
      exact ih h
    . next habove =>
      split at h
      . cases h
      . next hroom =>
        cases h
        have hsucc : limit - served = limit - (served + 1) + 1 := by omega
        rw [List.filter_cons_of_pos (by simpa using habove), hsucc, List.take_succ_cons]

def WalkInv (call : Call F) (walk : Walk) : Prop :=
  walk.second = true →
    walk.scanned.map ScannedBlock.height ++ (walk.left call).map CompactBlock.height = call.heights

theorem WalkInv.start (call : Call F) (second : Bool) : WalkInv call (.start second call.chunk) :=
  fun _ => rfl

theorem WalkInv.serve {walk : Walk} {call : Call F} {scanned : ScannedBlock} (h : WalkInv call walk)
    (hnext : nextBlock call.fromHeight call.limit walk.served walk.rest = some (block, rest))
    (hheight : scanned.height = block.height)
    : WalkInv call { walk with
        rest
        served := walk.served + 1
        scanned := if walk.second then walk.scanned ++ [scanned] else walk.scanned } := by
  intro hsecond
  have hwhole := h hsecond
  rw [Walk.left, nextBlock_of_some hnext] at hwhole
  have hsecond : walk.second = true := hsecond
  simpa [Walk.left, hsecond, hheight] using hwhole

theorem WalkInv.through {walk : Walk} {call : Call F} (h : WalkInv call walk)
    (hsecond : walk.second = true)
    (hnext : nextBlock call.fromHeight call.limit walk.served walk.rest = none)
    : walk.scanned.map ScannedBlock.height = call.heights := by
  have hwhole := h hsecond
  rwa [Walk.left, nextBlock_of_none hnext, List.map_nil, List.append_nil] at hwhole

section Turn

variable {tree : Scan.TreeStateApi T F} {cfg : Scan.ScanConfig} {call : Call F}

theorem going_of_step [DecidableEq F] {scan scan' : Scan.ScanState T F}
    (h : Scan.step tree cfg scan e = some scan') : scan.ended = none := by
  unfold Scan.step at h
  split at h
  . cases h
  . next hgoing => simpa using hgoing

inductive Calls (tree : Scan.TreeStateApi T F) (s : Scan.ScanState T F) : Call F → Prop where
  | mk (hcurrent : s.current = some (chunk, subStart)) (hseed : s.nextState = some seed)
      (hfirst : chunk.startHeight = some chunkStart) (hlast : chunk.endHeight = some chunkEnd)
      (hremaining : chunkEnd + 1 - subStart ≠ 0)
      (hstate : Scan.fromState tree s seed = .ok fromState) (hheight : ¬subStart ≥ 2 ^ 32)
    : Calls tree s {
        chunk
        fromHeight := subStart
        fromState
        limit := Nat.min s.batchLen (chunkEnd + 1 - subStart) }

theorem calls_of_callOf {s : Scan.ScanState T F} (h : callOf tree s = some call)
    : Calls tree s call := by
  unfold callOf at h
  split at h
  . next chunk subStart seed hcurrent hseed =>
    split at h
    . next chunkStart chunkEnd hfirst hlast =>
      dsimp only at h
      split at h
      . cases h
      . next hremaining =>
        split at h
        . cases h
        . next fromState hstate =>
          split at h
          . cases h
          . next hheight =>
            cases h
            exact .mk hcurrent hseed hfirst hlast hremaining hstate hheight
    . cases h
  . cases h

theorem ended_of_failedTurn [DecidableEq F] {scan scan' : Scan.ScanState T F}
    {inp : Scan.SubBatchInput T} (hcall : callOf tree scan = some call)
    (hinp : inp.scan = .error error ∨ inp.scan = .ok () ∧ inp.submit = .error error)
    (hscan : Scan.step tree cfg scan (.subBatch inp) = some scan')
    : scan'.ended = some (.failed error) := by
  have hgoing := going_of_step hscan
  simp only [Scan.step, hgoing, Option.isSome_none, Bool.false_eq_true, if_false] at hscan
  cases calls_of_callOf hcall with
  | mk hcurrent hseed hfirst hlast hremaining hstate hheight =>
    simp only [Scan.subBatchStep, hcurrent, hseed, hfirst, hlast, hremaining, if_false] at hscan
    split at hscan
    . next e he => exact absurd (he.symm.trans hstate) nofun
    . rw [if_neg hheight] at hscan
      rcases hinp with hinp | ⟨hinp, hsubmit⟩
      . rw [hinp] at hscan
        cases hscan
        rfl
      . rw [hinp, hsubmit] at hscan
        cases hscan
        rfl

theorem ended_of_failedChunk [DecidableEq F] {scan scan' : Scan.ScanState T F}
    (hscan : Scan.step tree cfg scan (.chunkDone (.error error)) = some scan')
    : scan'.ended ≠ none := by
  have hgoing := going_of_step hscan
  simp only [Scan.step, hgoing, Option.isSome_none, Bool.false_eq_true, if_false] at hscan
  unfold Scan.chunkDoneStep at hscan
  split at hscan
  . split at hscan
    . split at hscan
      . cases hscan
        nofun
      . cases hscan
    . cases hscan
  . cases hscan

end Turn

end WriteBehind
end Slipstream
