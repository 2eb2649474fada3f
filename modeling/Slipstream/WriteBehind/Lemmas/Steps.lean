import Slipstream.WriteBehind.Impl.Range
import Slipstream.WriteBehind.Lemmas.Lane
import Slipstream.WriteBehind.Lemmas.Facade

/-!
This module contains what a step of a write-behind range can do, once for all invariants.
-/

namespace Slipstream
namespace WriteBehind

variable {T F D E : Type} [DecidableEq F] {tree : Scan.TreeStateApi T F} {api : WalletDb D E}
variable {cfg : Scan.ScanConfig} {outcome : Nat → CommitOutcome}

inductive StopTrans (p : StopCounters) : StopCounters → Prop where
  | request : StopTrans p p.requestStopForWalletChange
  | reads (hidle : p.beginning = none) : StopTrans p p.readCount
  | stores (hread : p.beginning = some count) : StopTrans p (p.storeCount count)

variable (tree api cfg outcome) in
inductive RangeTrans (s : RangeState T F D) : RangeState T F D → Prop where
  | stop (ht : StopTrans s.stop stop) : RangeTrans s { s with stop }
  | same : RangeTrans s s
  | loops (hphase : s.phase = .loop) (hplain : plainStep tree s.scan e = true)
      (hscan : Scan.step tree cfg s.scan e = some scan)
    : RangeTrans s { s with scan, phase := .loop }
  | starts (hphase : s.phase = .loop) (hgoing : s.scan.ended = none)
      (hcall : callOf tree s.scan = some call)
    : RangeTrans s { s with phase := .walking call (.start false call.chunk) }
  | serves (hphase : s.phase = .walking call walk)
      (hnext : nextBlock call.fromHeight call.limit walk.served walk.rest = some (block, rest))
      (hstop : s.stop.stopRequested = false) (hheight : scanned.height = block.height)
    : RangeTrans s { s with phase := .walking call { walk with
        rest
        served := walk.served + 1
        scanned := if walk.second then walk.scanned ++ [scanned] else walk.scanned } }
  | refuses (hphase : s.phase = .walking call walk)
      (hnext : nextBlock call.fromHeight call.limit walk.served walk.rest = some (block, rest))
      (hstop : s.stop.stopRequested = true)
    : RangeTrans s { s with phase := .scanFailed .blockSource, refused := true }
  | faults (hphase : s.phase = .walking call walk) (fault : CallFault)
      (hserves : s.stop.stopRequested = false
        ∨ nextBlock call.fromHeight call.limit walk.served walk.rest = none)
    : RangeTrans s { s with phase := .scanFailed fault.error }
  | faultsBefore (hphase : s.phase = .loop) (hgoing : s.scan.ended = none)
      (hcall : callOf tree s.scan = some call) (fault : CallFault)
    : RangeTrans s { s with phase := .scanFailed fault.error }
  | walksAgain (hphase : s.phase = .walking call walk)
      (hnext : nextBlock call.fromHeight call.limit walk.served walk.rest = none)
      (hsecond : walk.second = false)
    : RangeTrans s { s with phase := .walking call (.start true call.chunk) }
  | puts (hphase : s.phase = .walking call walk)
      (hnext : nextBlock call.fromHeight call.limit walk.served walk.rest = none)
      (hsecond : walk.second = true)
    : RangeTrans s (s.putBlocks api call walk.scanned)
  | submitsNothing (hphase : s.phase = .scanned) (hstash : s.facade.stash = none)
    : RangeTrans s { s with facade := s.facade.takeStash.1, phase := .submitting false }
  | submits (hphase : s.phase = .scanned) (hstash : s.facade.stash = some pending)
      (hlane : LaneSystem.step outcome { s.lane with
        calls := [.submit (pending.firstHeight, pending.lastHeight) pending] } .call = some lane)
    : RangeTrans s { s with
        facade := s.facade.takeStash.1
        phase := .submitting true
        lane
        made := s.made ++ [.submit (pending.firstHeight, pending.lastHeight) pending] }
  | polls (hlane : s.lane.step outcome .poll = some lane) : RangeTrans s { s with lane }
  | commits (htask : s.lane.tasks[i]? = some (job, none)) (hout : outcome i = .committed)
      (hlane : s.lane.step outcome (.taskEnds i) = some lane)
    : RangeTrans s { s with lane, db := api.putBlocks s.db job.blocks }
  | breaks (hout : outcome i ≠ .committed) (hlane : s.lane.step outcome (.taskEnds i) = some lane)
    : RangeTrans s { s with lane }
  | turnFails (hphase : s.phase = .scanFailed error) (hinp : inp.scan = .error (mapScanError error))
      (hscan : Scan.step tree cfg s.scan (.subBatch inp) = some scan)
    : RangeTrans s { s with scan, phase := .loop }
  | turnEnds (hphase : s.phase = .submitting pending) (hinp : inp.scan = .ok ())
      (hsubmit : pending = true → s.laneResult = some inp.submit)
      (hnothing : pending = false → inp.submit = .ok ())
      (hscan : Scan.step tree cfg s.scan (.subBatch inp) = some scan)
    : RangeTrans s { s with scan, phase := .loop }
  | drains (hphase : s.phase = .loop)
      (hdone : (Scan.step tree cfg s.scan (.chunkDone (.ok ()))).isSome = true)
      (hlane : LaneSystem.step outcome { s.lane with calls := [.drain] } .call = some lane)
    : RangeTrans s { s with phase := .draining, lane, made := s.made ++ [.drain] }
  | drainFails (hphase : s.phase = .draining) (hresult : s.laneResult = some (.error error))
      (hscan : Scan.step tree cfg s.scan (.chunkDone (.error error)) = some scan)
    : RangeTrans s { s with scan, phase := .loop }
  | drained (hphase : s.phase = .draining) (hresult : s.laneResult = some (.ok ()))
    : RangeTrans s { s with phase := .enhancing }
  | enhances (hphase : s.phase = .enhancing) (effect : E)
    : RangeTrans s { s with
        db := api.enhance s.db effect
        inline := api.enhance s.inline effect
        phase := .reseeding }
  | reseeds (hphase : s.phase = .reseeding)
      (hreseed : s.facade.reseedNullifiers api faults s.db = (facade, .ok ()))
      (hscan : Scan.step tree cfg s.scan (.chunkDone (.ok ())) = some scan)
    : RangeTrans s { s with facade, scan, phase := .loop }
  | reseedFails (hphase : s.phase = .reseeding)
      (hreseed : s.facade.reseedNullifiers api faults s.db = (facade, .error detail))
      (hscan : Scan.step tree cfg s.scan (.chunkDone (.error error)) = some scan)
    : RangeTrans s { s with facade, scan, phase := .loop }
  | barrier (hphase : s.phase = .loop) (hended : s.scan.ended = some ended)
      (hlane : LaneSystem.step outcome { s.lane with calls := [.drain] } .call = some lane)
    : RangeTrans s { s with
        facade := s.facade.takeStash.1
        phase := .finalDrain
        lane
        made := s.made ++ [.drain] }
  | returns (hphase : s.phase = .finalDrain) (hresult : s.result graft = some result)
    : RangeTrans s { s with phase := .returned result }

theorem RangeTrans.counters {s s' : RangeState T F D} (ht : RangeTrans tree api cfg outcome s s')
    : s'.stop = s.stop ∨ StopTrans s.stop s'.stop := by
  cases ht with
  | stop ht => exact .inr ht
  | puts =>
    unfold RangeState.putBlocks
    split <;> exact .inl rfl
  | _ => exact .inl rfl

theorem trans_of_serve {s s' : RangeState T F D} (hphase : s.phase = .walking call walk)
    (h : s.serve call walk scanned = some s') : RangeTrans tree api cfg outcome s s' := by
  unfold RangeState.serve at h
  split at h
  . cases h
  . next block rest hnext =>
    split at h
    . next hstop =>
      cases h
      exact .refuses hphase hnext hstop
    . next hstop =>
      have hstop : s.stop.stopRequested = false := by simpa using hstop
      split at h
      . next fault =>
        cases h
        exact .faults hphase fault (.inl hstop)
      . next scanned =>
        split at h
        . cases h
        . next hheight =>
          cases h
          exact .serves hphase hnext hstop (by simpa using hheight)

theorem trans_of_walkEnds {s s' : RangeState T F D} (hphase : s.phase = .walking call walk)
    (h : s.walkEnds api call walk = some s') : RangeTrans tree api cfg outcome s s' := by
  unfold RangeState.walkEnds at h
  split at h
  . cases h
  . next hnext =>
    split at h
    . next hsecond =>
      cases h
      exact .puts hphase hnext hsecond
    . next hsecond =>
      cases h
      exact .walksAgain hphase hnext (by simpa using hsecond)

theorem trans_of_submit {s s' : RangeState T F D} (hphase : s.phase = .scanned)
    (h : s.submit outcome = some s') : RangeTrans tree api cfg outcome s s' := by
  unfold RangeState.submit at h
  simp only [Facade.takeStash] at h
  split at h
  . next hstash =>
    cases h
    exact .submitsNothing hphase hstash
  . next pending hstash =>
    obtain ⟨lane, hlane, rfl⟩ := Option.map_eq_some_iff.mp h
    exact .submits hphase hstash hlane

theorem trans_of_laneStep {s s' : RangeState T F D} (h : s.laneStep api outcome e = some s')
    : RangeTrans tree api cfg outcome s s' := by
  cases e with
  | call => cases h
  | poll =>
    obtain ⟨lane, hlane, rfl⟩ := Option.map_eq_some_iff.mp h
    exact .polls hlane
  | taskEnds i =>
    obtain ⟨lane, hlane, hs'⟩ := Option.map_eq_some_iff.mp h
    split at hs'
    . next job ended hjob hout =>
      cases hs'
      have htask : ended = none := by
        simp only [LaneSystem.step, hjob] at hlane
        cases ended with
        | none => rfl
        | some _ => cases hlane
      subst htask
      exact .commits hjob hout hlane
    . next hother =>
      cases hs'
      refine .breaks ?_ hlane
      intro hout
      cases hjob : s.lane.tasks[i]? with
      | none => simp [LaneSystem.step, hjob] at hlane
      | some t => exact hother t.1 t.2 hjob hout

theorem trans_of_turnEnds {s s' : RangeState T F D} (h : s.turnEnds tree cfg inp = some s')
    : RangeTrans tree api cfg outcome s s' := by
  unfold RangeState.turnEnds at h
  split at h
  . next error hphase =>
    obtain ⟨scan, hscan, rfl⟩ := Option.map_eq_some_iff.mp h
    exact .turnFails hphase rfl hscan
  . next hphase =>
    obtain ⟨scan, hscan, rfl⟩ := Option.map_eq_some_iff.mp h
    exact .turnEnds hphase rfl nofun (fun _ => rfl) hscan
  . next hphase =>
    obtain ⟨submit, hsubmit, h⟩ := Option.bind_eq_some_iff.mp h
    obtain ⟨scan, hscan, rfl⟩ := Option.map_eq_some_iff.mp h
    exact .turnEnds hphase rfl (fun _ => hsubmit) nofun hscan
  . cases h

theorem trans_of_interleave {s s' : RangeState T F D}
    (h : s.step tree api cfg outcome .interleave = some s') : RangeTrans tree api cfg outcome s s' := by
  simp only [RangeState.step] at h
  split at h
  . next hphase =>
    split at h
    . next hdone =>
      obtain ⟨lane, hlane, rfl⟩ := Option.map_eq_some_iff.mp h
      exact .drains hphase hdone hlane
    . cases h
  . next hphase =>
    obtain ⟨result, hresult, h⟩ := Option.bind_eq_some_iff.mp h
    cases result with
    | error e =>
      obtain ⟨scan, hscan, rfl⟩ := Option.map_eq_some_iff.mp h
      exact .drainFails hphase hresult hscan
    | ok _ =>
      cases h
      exact .drained hphase hresult
  . cases h

theorem trans_of_reseed {s s' : RangeState T F D} (hphase : s.phase = .reseeding)
    (h : s.reseed tree api cfg faults = some s') : RangeTrans tree api cfg outcome s s' := by
  unfold RangeState.reseed at h
  split at h
  . next facade e hreseed =>
    obtain ⟨scan, hscan, rfl⟩ := Option.map_eq_some_iff.mp h
    exact .reseedFails hphase hreseed hscan
  . next facade hreseed =>
    obtain ⟨scan, hscan, rfl⟩ := Option.map_eq_some_iff.mp h
    exact .reseeds hphase hreseed hscan

theorem trans_of_barrier {s s' : RangeState T F D}
    (h : s.step tree api cfg outcome .barrier = some s') : RangeTrans tree api cfg outcome s s' := by
  simp only [RangeState.step] at h
  split at h
  . next hphase hended =>
    obtain ⟨lane, hlane, rfl⟩ := Option.map_eq_some_iff.mp h
    exact .barrier hphase hended hlane
  . next hphase hended =>
    obtain ⟨lane, hlane, rfl⟩ := Option.map_eq_some_iff.mp h
    exact .barrier hphase hended hlane
  . cases h

theorem trans_of_step {s s' : RangeState T F D} (h : s.step tree api cfg outcome e = some s')
    : RangeTrans tree api cfg outcome s s' := by
  cases e with
  | requestStop =>
    cases h
    exact .stop .request
  | beginSessionReads =>
    simp only [RangeState.step] at h
    split at h
    . cases h
    . next hidle =>
      cases h
      exact .stop (.reads (by simpa using hidle))
  | beginSessionStores =>
    obtain ⟨count, hread, rfl⟩ := Option.map_eq_some_iff.mp h
    exact .stop (.stores hread)
  | beginPass =>
    cases h
    exact .same
  | loop e =>
    simp only [RangeState.step] at h
    split at h
    . next hphase =>
      split at h
      . next hplain =>
        obtain ⟨scan, hscan, rfl⟩ := Option.map_eq_some_iff.mp h
        exact .loops hphase hplain hscan
      . cases h
    . cases h
  | startCall =>
    simp only [RangeState.step] at h
    split at h
    . next hphase =>
      split at h
      . cases h
      . next hgoing =>
        obtain ⟨call, hcall, rfl⟩ := Option.map_eq_some_iff.mp h
        exact .starts hphase (by simpa using hgoing) hcall
    . cases h
  | serve scanned =>
    simp only [RangeState.step] at h
    split at h
    . next hphase => exact trans_of_serve hphase h
    . cases h
  | walkEnds =>
    simp only [RangeState.step] at h
    split at h
    . next hphase => exact trans_of_walkEnds hphase h
    . cases h
  | callFails fault =>
    simp only [RangeState.step] at h
    split at h
    . next hphase =>
      split at h
      . cases h
      . next hcall =>
        simp only [Bool.or_eq_true, not_or, Option.isNone_iff_eq_none] at hcall
        obtain ⟨call, hcall'⟩ := Option.ne_none_iff_exists'.mp hcall.2
        cases h
        exact .faultsBefore hphase (by simpa using hcall.1) hcall' fault
    . next hphase =>
      split at h
      . cases h
      . next hnext =>
        cases h
        exact .faults hphase fault (.inr (by simpa using hnext))
    . cases h
  | submit =>
    simp only [RangeState.step] at h
    split at h
    . next hphase => exact trans_of_submit hphase h
    . cases h
  | lane e => exact trans_of_laneStep h
  | turnEnds inp => exact trans_of_turnEnds h
  | interleave => exact trans_of_interleave h
  | enhance effect =>
    simp only [RangeState.step] at h
    split at h
    . next hphase =>
      cases h
      exact .enhances hphase effect
    . cases h
  | reseed faults =>
    simp only [RangeState.step] at h
    split at h
    . next hphase => exact trans_of_reseed hphase h
    . cases h
  | barrier => exact trans_of_barrier h
  | finish graft =>
    simp only [RangeState.step] at h
    split at h
    . next hphase =>
      obtain ⟨result, hresult, rfl⟩ := Option.map_eq_some_iff.mp h
      exact .returns hphase hresult
    . cases h

end WriteBehind
end Slipstream
