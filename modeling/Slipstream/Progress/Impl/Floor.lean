import Slipstream.Machine.Basic
import Mathlib.Algebra.Ring.Nat

/-!
This module contains the reported progress: the suggest round of `scheduler.rs`, one store at a
time, and the snapshot of `ffi_handle.rs`, which reads the fields a round publishes and folds what
it makes of them into the session floor of `events.rs`.
-/

namespace Slipstream
namespace Progress

def FLOOR_REBASELINE_EPSILON_PERMILLE : Nat := 50

def U64_MAX : Nat := 2 ^ 64 - 1

def saturatingAdd (a b : Nat) : Nat := min (a + b) U64_MAX

def saturatingMul (a b : Nat) : Nat := min (a * b) U64_MAX

def checkedDivOrZero (a b : Nat) : Nat := if b = 0 then 0 else a / b

def globalFloorPermille (tip : Nat) (birthday : Option Nat) (remaining : Nat) : Option Nat :=
  match birthday with
  | none => none
  | some birthday =>
    if tip = 0 ∨ tip < birthday then none
    else
      let span := tip - birthday + 1
      let scanned := span - remaining
      some (saturatingMul scanned 1000 / span)

structure Blend where
  chainTip : Nat
  fetchedBlocks : Nat
  scannedBlocks : Nat
  passTotalBlocks : Nat
  passBaseFetched : Nat
  passBaseScanned : Nat
  passStartPermille : Option Nat
  progressPermilleFloor : Nat
  deriving DecidableEq, Repr

namespace Blend

def passPermille (p : Blend) : Nat :=
  let fetchedCapped := min (p.fetchedBlocks - p.passBaseFetched) p.passTotalBlocks
  let scannedCapped := min (p.scannedBlocks - p.passBaseScanned) p.passTotalBlocks
  checkedDivOrZero (saturatingMul (saturatingAdd fetchedCapped scannedCapped) 1000)
    (saturatingMul p.passTotalBlocks 2)

/-- What `derive_snapshot` makes of the fields before it folds it into the floor. -/
def rawPermille (p : Blend) : Nat :=
  match p.passStartPermille with
  | some start =>
    let start := min start 1000
    let climb := saturatingMul (1000 - start) p.passPermille / 1000
    saturatingAdd start climb
  | none => p.passPermille

def permilleFloor (p : Blend) (raw : Nat) : Blend :=
  { p with progressPermilleFloor := max p.progressPermilleFloor (min raw 1000) }

def scopeExpanded (p : Blend) (seed : Nat) : Bool :=
  saturatingAdd seed FLOOR_REBASELINE_EPSILON_PERMILLE < p.progressPermilleFloor

def setPassStartPermilleIfUnset (p : Blend) (seed : Nat) : Blend :=
  match p.passStartPermille with
  | some _ => p
  | none => { p with passStartPermille := some (min seed 1000) }

def setPassStartPermille (p : Blend) (seed : Nat) : Blend :=
  { p with passStartPermille := some (min seed 1000) }

/-- The fields as `begin_pass` leaves them: the floor is of the whole session. -/
def beginPass (chainTip floor : Nat) : Blend where
  chainTip
  fetchedBlocks := 0
  scannedBlocks := 0
  passTotalBlocks := 0
  passBaseFetched := 0
  passBaseScanned := 0
  passStartPermille := none
  progressPermilleFloor := floor

end Blend

/-- The next store of `update_pass_progress`, or the next branch it takes. -/
inductive RoundStep where
  | baseFetched
  | baseScanned
  | total
  /-- `global_floor_permille` with the live tip -/
  | seed
  | scope (seed : Nat)
  | rebaseFetched (seed : Nat)
  | rebaseScanned (seed : Nat)
  | retotal (seed : Nat)
  | restart (seed : Nat)
  /-- `rebaseline_floor_if_scope_expanded` -/
  | lower (seed : Nat)
  | latch (seed : Nat)
  | raise (seed : Nat)
  deriving DecidableEq, Repr

structure Round where
  sumRemaining : Nat
  walletBirthday : Option Nat
  next : RoundStep
  deriving DecidableEq, Repr

structure Report where
  era : Nat
  value : Nat
  deriving DecidableEq, Repr

structure PassState where
  blend : Blend
  scannedSoFarInPass : Nat
  round : Option Round
  polls : List Nat
  rebaselines : Nat
  reports : List Report
  deriving DecidableEq, Repr

inductive PassEvent where
  | setChainTip (tip : Nat)
  | addFetched (blocks : Nat)
  | addScanned (blocks : Nat)
  | credit (blocks : Nat)
  | suggest (sumRemaining : Nat) (walletBirthday : Option Nat)
  | round
  | read
  | fold (poll : Nat)
  deriving Repr

namespace PassState

def goTo (s : PassState) (round : Round) (next : RoundStep) : PassState :=
  { s with round := some { round with next } }

def rebaseline (s : PassState) (floor : Nat) : PassState :=
  { s with
    blend := { s.blend with progressPermilleFloor := floor }
    round := none
    rebaselines := s.rebaselines + 1 }

/-- One step of `update_pass_progress`. -/
def roundStep (s : PassState) (round : Round) : PassState :=
  let p := s.blend
  match round.next with
  | .baseFetched =>
    { s with blend := { p with passBaseFetched := p.fetchedBlocks - s.scannedSoFarInPass } }.goTo
      round .baseScanned
  | .baseScanned =>
    { s with blend := { p with passBaseScanned := p.scannedBlocks - s.scannedSoFarInPass } }.goTo
      round .total
  | .total =>
    -- The sum is not a saturating one: it wraps in a release build.
    let total := (s.scannedSoFarInPass + round.sumRemaining) % 2 ^ 64
    { s with blend := { p with passTotalBlocks := total } }.goTo round .seed
  | .seed =>
    match globalFloorPermille p.chainTip round.walletBirthday round.sumRemaining with
    | some seed => s.goTo round (.scope seed)
    | none => { s with round := none }
  | .scope seed =>
    if p.scopeExpanded seed then { s with scannedSoFarInPass := 0 }.goTo round (.rebaseFetched seed)
    else s.goTo round (.latch seed)
  | .rebaseFetched seed =>
    { s with blend := { p with passBaseFetched := p.fetchedBlocks } }.goTo round
      (.rebaseScanned seed)
  | .rebaseScanned seed =>
    { s with blend := { p with passBaseScanned := p.scannedBlocks } }.goTo round (.retotal seed)
  | .retotal seed =>
    { s with blend := { p with passTotalBlocks := round.sumRemaining } }.goTo round (.restart seed)
  | .restart seed => { s with blend := p.setPassStartPermille seed }.goTo round (.lower seed)
  | .lower seed =>
    if p.scopeExpanded seed then s.rebaseline (min seed 1000) else { s with round := none }
  | .latch seed => { s with blend := p.setPassStartPermilleIfUnset seed }.goTo round (.raise seed)
  | .raise seed => { s with blend := p.permilleFloor seed, round := none }

def fold (s : PassState) (raw : Nat) (polls : List Nat) : PassState :=
  let blend := s.blend.permilleFloor raw
  let report := { era := s.rebaselines, value := blend.progressPermilleFloor % 2 ^ 16 }
  { s with blend, polls, reports := s.reports ++ [report] }

def step (s : PassState) : PassEvent → Option PassState
  | .setChainTip tip => some { s with blend := { s.blend with chainTip := tip } }
  | .addFetched n =>
    if s.round.isSome then none
    else some { s with blend := { s.blend with fetchedBlocks := s.blend.fetchedBlocks + n } }
  | .addScanned n =>
    if s.round.isSome then none
    else some { s with blend := { s.blend with scannedBlocks := s.blend.scannedBlocks + n } }
  | .credit n =>
    if s.round.isSome then none
    else some { s with scannedSoFarInPass := s.scannedSoFarInPass + n }
  | .suggest sumRemaining walletBirthday =>
    if s.round.isSome then none
    else some { s with round := some { sumRemaining, walletBirthday, next := .baseFetched } }
  | .round => s.round.map s.roundStep
  | .read => some { s with polls := s.polls ++ [s.blend.rawPermille] }
  | .fold i => s.polls[i]?.map fun raw => s.fold raw (s.polls.eraseIdx i)

def init (chainTip floor : Nat) : PassState where
  blend := .beginPass chainTip floor
  scannedSoFarInPass := 0
  round := none
  polls := []
  rebaselines := 0
  reports := []

end PassState

def passMachine : Machine PassState PassEvent where
  start s := ∃ chainTip floor, floor ≤ 1000 ∧ s = .init chainTip floor
  step := PassState.step

end Progress
end Slipstream
