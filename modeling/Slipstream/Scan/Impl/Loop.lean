import Slipstream.Fetch.Impl.System

/-!
This module contains the scan loop of `scan.rs`: how chunks are cut into scan calls and how the chain
state each call starts from is threaded through them, in server and in local tree-state mode.
-/

namespace Slipstream
namespace Scan

structure TreeState (T : Type) where
  height : Nat
  trees : T

structure ChainState (F : Type) where
  blockHeight : Nat
  blockHash : List UInt8
  frontiers : F
  deriving DecidableEq

structure TreeStateApi (T F : Type) where
  toChainState : TreeState T → Except String (ChainState F)
  absorbBlock : F → CompactBlock → Except String F
  toChainState_height : ∀ ts cs, toChainState ts = .ok cs → cs.blockHeight = ts.height

def TREESTATE_RETRY_MAX : Nat := 2

inductive TreeStateAttempt (T : Type) where
  | connectFailed (error : SlipstreamError)
  | answered (answer : Except SlipstreamError (TreeState T))

def retryGetTreeState (attempts : Nat → TreeStateAttempt T) : Except SlipstreamError (TreeState T) :=
  go TREESTATE_RETRY_MAX 0
where
  go (retries attempt : Nat) : Except SlipstreamError (TreeState T) :=
    match attempts attempt with
    | .connectFailed e => .error e
    | .answered (.ok ts) => .ok ts
    | .answered (.error e) =>
      match retries with
      | 0 => .error e
      | retries + 1 =>
        if e.isTransient then go retries (attempt + 1) else .error e

/-- The range and the settings a scan reads; `scan_chunks` refuses ranges without these bounds. -/
structure ScanConfig where
  rangeStart : Nat
  rangeEnd : Nat
  localMode : Bool
  treestateVerifySample : Nat
  batchTargetMs : Option Nat
  start_pos : 1 ≤ rangeStart
  start_le : rangeStart ≤ rangeEnd

def batchTargetAccepted (batchTargetMs : Option Nat) : Bool :=
  match batchTargetMs with
  | some ms => !decide (ms < 500)
  | none => true

def MIN_BATCH : Nat := 1000

/-- The time-feedback controller. `none` is the panic of `clamp` with `min > max`. -/
def nextBatchLen (prevLen prevElapsedMs targetMs min max : Nat) : Option Nat :=
  if prevElapsedMs = 0 then
    some max
  else
    let raw := (Nat.min (prevLen * targetMs) (2 ^ 64 - 1)) / prevElapsedMs
    if min > max then
      none
    else
      some (Nat.min (Nat.max raw min) max)

def needsServerBoundaryState (localMode audit : Bool) (boundary rangeEnd : Nat) : Bool :=
  if localMode then audit else boundary < rangeEnd

structure AuditEntry (F : Type) where
  height : Nat
  expected : ChainState F

inductive ScanEnd where
  | finished
  | failed (error : SlipstreamError)
  | panicked

/-- One `scan_cached_blocks` call. -/
structure ScanCall (F : Type) where
  fromHeight : Nat
  fromState : ChainState F
  limit : Nat

structure ScanState (T F : Type) where
  incoming : List Chunk
  nextState : Option (TreeState T)
  localTs : Option F
  localBoundary : Option (Nat × List UInt8)
  boundaryIndex : Nat
  audits : List (AuditEntry F)
  batchLen : Nat
  current : Option (Chunk × Nat)
  calls : List (ScanCall F)
  ended : Option ScanEnd

structure SubBatchInput (T : Type) where
  scan : Except SlipstreamError Unit
  submit : Except SlipstreamError Unit
  elapsedMs : Nat
  boundary : Nat → TreeStateAttempt T
  settled : Nat → Option (Except SlipstreamError (TreeState T))

inductive ScanEvent (T : Type) where
  | seed (attempts : Nat → TreeStateAttempt T)
  | recv
  | subBatch (inp : SubBatchInput T)
  | chunkDone (interleave : Except SlipstreamError Unit)
  | closed (settled : Nat → Option (Except SlipstreamError (TreeState T)))

section Loop

variable {T F : Type} [DecidableEq F] (api : TreeStateApi T F) (cfg : ScanConfig)

def drainAudits (audits : List (AuditEntry F))
    (settled : Nat → Option (Except SlipstreamError (TreeState T)))
    : Except SlipstreamError (List (AuditEntry F)) :=
  go audits 0
where
  go : List (AuditEntry F) → Nat → Except SlipstreamError (List (AuditEntry F))
    | [], _ => .ok []
    | entry :: rest, i =>
      match settled i with
      | none => (go rest (i + 1)).map (entry :: ·)
      | some (.error _) => go rest (i + 1)
      | some (.ok server) =>
        match api.toChainState server with
        | .error _ => go rest (i + 1)
        | .ok state =>
          if state ≠ entry.expected then
            .error (.wallet s!"local treestate MISMATCH vs server at height {entry.height} — pass aborted, fuse tripped (server path on revival)")
          else
            go rest (i + 1)

def init (chunks : List Chunk) : ScanState T F where
  incoming := chunks
  nextState := none
  localTs := none
  localBoundary := none
  boundaryIndex := 0
  audits := []
  batchLen := 0
  current := none
  calls := []
  ended := none

def fail (s : ScanState T F) (e : SlipstreamError) : ScanState T F :=
  { s with ended := some (.failed e) }

/-- The seed request at `range_start - 1`. -/
def seedStep (s : ScanState T F) (attempts : Nat → TreeStateAttempt T) : ScanState T F :=
  match retryGetTreeState attempts with
  | .error e => fail s e
  | .ok ts => { s with nextState := some ts }

def recvStep (s : ScanState T F) : Option (ScanState T F) :=
  match s.current, s.nextState, s.incoming with
  | none, some _, chunk :: rest =>
    match chunk.startHeight, chunk.endHeight with
    | some chunkStart, some chunkEnd =>
      if chunkEnd > cfg.rangeEnd then
        some (fail { s with incoming := rest } (.wallet
          s!"chunk {chunkStart}..={chunkEnd} runs past the range end {cfg.rangeEnd}"))
      else
        some {
          s with
          incoming := rest
          batchLen :=
            if cfg.batchTargetMs.isNone || s.batchLen == 0 then
              Nat.min chunk.blocks.length (2 ^ 32 - 1)
            else
              s.batchLen
          current := some (chunk, chunkStart)
        }
    | _, _ => some (fail { s with incoming := rest } (.wallet "empty chunk"))
  | _, _, _ => none

def fromState (s : ScanState T F) (seed : TreeState T) : Except SlipstreamError (ChainState F) :=
  match s.localTs, s.localBoundary with
  | some ts, some (bh, bhash) =>
    if bh < 2 ^ 32 then
      .ok { blockHeight := bh, blockHash := bhash, frontiers := ts }
    else
      .error (.wallet s!"height {bh} exceeds u32")
  | _, _ =>
    match api.toChainState seed with
    | .ok state => .ok state
    | .error e => .error (.wallet s!"chain state: {e}")

def absorbBlocks (chunk : Chunk) (chunkStart : Nat) (ts : F) (h : Nat)
    : Nat → Except SlipstreamError F
  | 0 => .ok ts
  | count + 1 =>
    let idx := h - chunkStart
    match chunk.blocks[idx]? with
    | none => .error (.wallet s!"local treestate: chunk missing block {h}")
    | some block =>
      if block.height ≠ h || block.hash.length ≠ 32 then
        .error (.wallet
          s!"local treestate: block at index {idx} is malformed (height {block.height} hash_len {block.hash.length})")
      else
        match api.absorbBlock ts block with
        | .error e => .error (.wallet s!"local treestate absorb: {e}")
        | .ok ts => absorbBlocks chunk chunkStart ts (h + 1) count

def absorbStep (s : ScanState T F) (chunk : Chunk) (chunkStart subStart len : Nat)
    : Except SlipstreamError (ScanState T F) :=
  match s.localTs with
  | none => .ok s
  | some ts =>
    match absorbBlocks api chunk chunkStart ts subStart len with
    | .error e => .error e
    | .ok ts =>
      let subEnd := subStart + len - 1
      .ok {
        s with
        localTs := some ts
        localBoundary :=
          some (subEnd, ((chunk.blocks[subEnd - chunkStart]?).map CompactBlock.hash).getD [])
      }

def boundaryStep (s : ScanState T F) (audit : Bool) (subEnd : Nat)
    (attempts : Nat → TreeStateAttempt T) : Except SlipstreamError (ScanState T F) :=
  if needsServerBoundaryState cfg.localMode audit subEnd cfg.rangeEnd then
    if cfg.localMode then
      match s.localTs, s.localBoundary with
      | some ts, some (bh, bhash) =>
        let expected := { blockHeight := bh, blockHash := bhash, frontiers := ts }
        .ok { s with audits := s.audits ++ [{ height := bh, expected }] }
      | _, _ => .ok s
    else
      match retryGetTreeState attempts with
      | .error e => .error e
      | .ok ts => .ok { s with nextState := some ts }
  else
    .ok s

def settle (s : ScanState T F) (chunk : Chunk) (chunkStart subStart len : Nat) (audit : Bool)
    (inp : SubBatchInput T) : ScanState T F :=
  let subEnd := subStart + len - 1
  match absorbStep api s chunk chunkStart subStart len with
  | .error e => fail s e
  | .ok s =>
    match boundaryStep cfg s audit subEnd inp.boundary with
    | .error e => fail s e
    | .ok s =>
      match drainAudits api s.audits inp.settled with
      | .error e => fail s e
      | .ok audits =>
        let s := { s with audits, current := some (chunk, subEnd + 1) }
        match cfg.batchTargetMs with
        | none => s
        | some targetMs =>
          let chunkLen := Nat.min chunk.blocks.length (2 ^ 32 - 1)
          match nextBatchLen len inp.elapsedMs targetMs MIN_BATCH chunkLen with
          | none => { s with ended := some .panicked }
          | some batchLen => { s with batchLen }

def seedLocal (s : ScanState T F) (state : ChainState F) : ScanState T F :=
  if cfg.localMode && s.localTs.isNone then
    { s with localTs := some state.frontiers }
  else
    s

def subBatchStep (s : ScanState T F) (inp : SubBatchInput T) : Option (ScanState T F) :=
  match s.current, s.nextState with
  | some (chunk, subStart), some seed =>
    match chunk.startHeight, chunk.endHeight with
    | some chunkStart, some chunkEnd =>
      let remaining := chunkEnd + 1 - subStart
      if remaining = 0 then
        none
      else
        let len := Nat.min s.batchLen remaining
        let audit := cfg.localMode && decide (0 < cfg.treestateVerifySample)
          && s.boundaryIndex % cfg.treestateVerifySample == 0
        let s := { s with boundaryIndex := s.boundaryIndex + 1 }
        match fromState api s seed with
        | .error e => some (fail s e)
        | .ok state =>
          let s := seedLocal cfg s state
          if subStart ≥ 2 ^ 32 then
            some (fail s (.wallet s!"height {subStart} exceeds u32"))
          else
            let call := { fromHeight := subStart, fromState := state, limit := len }
            let s := { s with calls := s.calls ++ [call] }
            match inp.scan, inp.submit with
            | .error e, _ => some (fail s e)
            | .ok (), .error e => some (fail s e)
            | .ok (), .ok () => some (settle api cfg s chunk chunkStart subStart len audit inp)
    | _, _ => none
  | _, _ => none

def chunkDoneStep (s : ScanState T F) (interleave : Except SlipstreamError Unit)
    : Option (ScanState T F) :=
  match s.current with
  | some (chunk, subStart) =>
    match chunk.endHeight with
    | some chunkEnd =>
      if chunkEnd + 1 - subStart = 0 then
        match interleave with
        | .error e => some (fail { s with current := none } e)
        | .ok () => some { s with current := none }
      else
        none
    | none => none
  | none => none

def closedStep (s : ScanState T F) (settled : Nat → Option (Except SlipstreamError (TreeState T)))
    : Option (ScanState T F) :=
  match s.current, s.nextState, s.incoming with
  | none, some _, [] =>
    match drainAudits api s.audits settled with
    | .error e => some (fail s e)
    | .ok _ => some { s with ended := some .finished }
  | _, _, _ => none

def step (s : ScanState T F) (e : ScanEvent T) : Option (ScanState T F) :=
  if s.ended.isSome then
    none
  else
    match e with
    | .seed attempts => if s.nextState.isSome then none else some (seedStep s attempts)
    | .recv => recvStep cfg s
    | .subBatch inp => subBatchStep api cfg s inp
    | .chunkDone interleave => chunkDoneStep s interleave
    | .closed settled => closedStep api s settled

def machine (plan : FetchPlan) (budgetBytes : Nat) : Machine (ScanState T F) (ScanEvent T) where
  start s := cfg.rangeStart = plan.start ∧ cfg.rangeEnd = plan.stop
    ∧ ∃ f, (Fetch.machine plan budgetBytes).Reachable f ∧ s = init f.queue.sent
  step := step api cfg

end Loop

end Scan
end Slipstream
