import Slipstream.Chain.Basic

/-!
This module contains the endpoint probe of `probe.rs`, its commit in `config.rs` and the wire
failover loop of `engine.rs`.
-/

namespace Slipstream

structure Endpoint where
  host : String
  port : UInt16
  tls : Bool
  deriving DecidableEq, Repr

structure EngineConfig where
  endpoint : Endpoint
  alternateEndpoints : List Endpoint
  wireFailover : Bool
  deriving DecidableEq, Repr

namespace Probe

def TIP_FRESHNESS_SLACK : UInt64 := 10

/-- What one probe task came back with; a panicked task reads as no tip and no sample. -/
structure Readout where
  tip : Option UInt64
  sampleMbps : Option Float

structure ProbeResult where
  endpoint : Endpoint
  tip : Option UInt64
  sampleMbps : Option Float

def rank (results : List ProbeResult) : Nat :=
  match (results.filterMap ProbeResult.tip).max? with
  | none => 0
  | some bestTip =>
    match go bestTip results 0 none with
    | none => 0
    | some (i, _) => i
where
  go (bestTip : UInt64) (results : List ProbeResult) (i : Nat) (chosen : Option (Nat × Float))
      : Option (Nat × Float) :=
    match results with
    | [] => chosen
    | r :: rs =>
      match r.tip with
      | none => go bestTip rs (i + 1) chosen
      | some tip =>
        -- The addition wraps, as it does in a release build.
        if tip + TIP_FRESHNESS_SLACK < bestTip then
          go bestTip rs (i + 1) chosen
        else
          let rate := r.sampleMbps.getD (-1.0)
          match chosen with
          | some (best, bestRate) =>
            if rate ≤ bestRate then
              go bestTip rs (i + 1) (some (best, bestRate))
            else
              go bestTip rs (i + 1) (some (i, rate))
          | none => go bestTip rs (i + 1) (some (i, rate))

def probeEndpoints (endpoints : List Endpoint) (readouts : Nat → Readout) : Nat :=
  rank <| endpoints.mapIdx fun i e =>
    { endpoint := e, tip := (readouts i).tip, sampleMbps := (readouts i).sampleMbps }

end Probe

/-- `Vec::swap_remove` as far as the element goes; `none` is its out-of-bounds panic. -/
def swapRemove (xs : List α) (index : Nat) : Option α := xs[index]?

/--
Race the preferred and the alternate endpoints and commit the winner. `none` is a panic.
-/
def EngineConfig.withSelectedEndpoint (config : EngineConfig) (viaTor : Bool)
    (readouts : Nat → Probe.Readout) : Option EngineConfig :=
  if config.alternateEndpoints.isEmpty || viaTor then
    some config
  else
    let endpoints := config.endpoint :: config.alternateEndpoints
    let chosen := Probe.probeEndpoints endpoints readouts
    match swapRemove endpoints chosen with
    | none => none
    | some winner => some { config with endpoint := winner }

namespace Failover

def MAX_WIRE_SWITCHES : Nat := 2

/-- The mutable locals of the failover loop, `attempt_config` reduced to what the loop writes. -/
structure LoopState where
  endpoint : Endpoint
  wireFailover : Bool
  wireSwitches : Nat
  cooled : List Endpoint
  deriving DecidableEq, Repr

structure Switch where
  collapsed : Endpoint
  next : Endpoint
  deriving DecidableEq, Repr

inductive Ending where
  | finished
  | panicked
  deriving DecidableEq, Repr

structure World where
  collapses : Nat → Bool
  reprobe : Nat → Nat → Probe.Readout

def armed (config : EngineConfig) (st : LoopState) : Bool :=
  st.wireFailover && !config.alternateEndpoints.isEmpty

def candidates (config : EngineConfig) (st : LoopState) : List Endpoint × List Endpoint :=
  let pool := config.endpoint :: config.alternateEndpoints
  let cooled := st.cooled ++ [st.endpoint]
  let fresh := pool.filter fun e => !cooled.contains e
  if fresh.isEmpty then
    (pool.filter fun e => e ≠ st.endpoint, [])
  else
    (fresh, cooled)

/-- The endpoint a collapse moves on to. `none` is a panic. -/
def pickNext (candidates : List Endpoint) (readouts : Nat → Probe.Readout) : Option Endpoint :=
  if candidates.length = 1 then
    candidates[0]?
  else
    swapRemove candidates (Probe.probeEndpoints candidates readouts)

def failover (config : EngineConfig) (st : LoopState) (readouts : Nat → Probe.Readout)
    : Option LoopState :=
  let wireSwitches := st.wireSwitches + 1
  let (from_, cooled) := candidates config st
  match pickNext from_ readouts with
  | none => none
  | some next =>
    some {
      endpoint := next
      wireFailover := if wireSwitches ≥ MAX_WIRE_SWITCHES then false else st.wireFailover
      wireSwitches
      cooled
    }

/-- The loop, for at most `fuel` attempts; no ending means that it was still running. -/
def loop (config : EngineConfig) (world : World) (fuel : Nat) (st : LoopState)
    : List Switch × LoopState × Option Ending :=
  match fuel with
  | 0 => ([], st, none)
  | fuel + 1 =>
    if armed config st && world.collapses st.wireSwitches then
      match failover config st (world.reprobe st.wireSwitches) with
      | none => ([], st, some .panicked)
      | some st' =>
        let rest := loop config world fuel st'
        (⟨st.endpoint, st'.endpoint⟩ :: rest.1, rest.2)
    else
      ([], st, some .finished)

def initial (config : EngineConfig) (viaTor : Bool) : LoopState where
  endpoint := config.endpoint
  wireFailover := if viaTor then false else config.wireFailover
  wireSwitches := 0
  cooled := []

def syncOnce (config : EngineConfig) (viaTor : Bool) (opening : Nat → Probe.Readout) (world : World)
    (fuel : Nat) : List Switch × Option Ending × Bool :=
  match config.withSelectedEndpoint viaTor opening with
  | none => ([], some .panicked, config.wireFailover)
  | some config =>
    let res := loop config world fuel (initial config viaTor)
    (res.1, res.2.2, res.2.1.wireFailover)

end Failover
end Slipstream
