import Slipstream.Data.OrdMap
import Slipstream.Graft.Impl.Accumulator
import Mathlib.Data.Finset.Sort

/-!
This module contains the graft buffer of `graft.rs`: the table that holds the commitments of shards
whose build is deferred, keyed by pool, shard and position.
-/

namespace Slipstream

variable {H B : Type}

structure HashSer (H B : Type) where
  write : H → Except String B
  read : B → Except String H

structure StoredRow (B : Type) where
  commitment : B
  retentionKind : Int
  checkpointHeight : Option Int
  marking : Option Int
  deriving DecidableEq, Repr

def encodeRetention : Retention → Int × Option Int × Option Int
  | .ephemeral => (0, none, none)
  | .marked => (1, none, none)
  | .checkpoint id marking =>
    let m :=
      match marking with
      | .none => 0
      | .marked => 1
      | .reference => 2
    (2, some id, some m)
  | .reference => (3, none, none)

def decodeRetention (kind : Int) (checkpointHeight marking : Option Int)
    : Except String Retention :=
  match kind with
  | 0 => .ok .ephemeral
  | 1 => .ok .marked
  | 2 => do
    let some h := checkpointHeight | .error "graft buffer: checkpoint row without height"
    if h < 0 || 2 ^ 32 ≤ h then
      .error "graft buffer: height out of range"
    else
      match marking.getD 0 with
      | 0 => .ok (.checkpoint h.toNat .none)
      | 1 => .ok (.checkpoint h.toNat .marked)
      | 2 => .ok (.checkpoint h.toNat .reference)
      | other => .error s!"graft buffer: bad marking {other}"
  | 3 => .ok .reference
  | other => .error s!"graft buffer: bad retention kind {other}"

abbrev PoolBuffer (B : Type) := OrdMap (Nat × Nat) (StoredRow B)

namespace PoolBuffer

def encodeRow (ser : HashSer H B) (r : AccRow H) : Except String (StoredRow B) := do
  match ser.write r.hash with
  | .error e => .error s!"graft buffer: hash ser: {e}"
  | .ok commitment =>
    let (kind, height, marking) := encodeRetention r.retention
    return { commitment, retentionKind := kind, checkpointHeight := height, marking }

def decodeRow (ser : HashSer H B) (position : Nat) (row : StoredRow B)
    : Except String (AccRow H) := do
  match ser.read row.commitment with
  | .error e => .error s!"graft buffer: hash de: {e}"
  | .ok hash =>
    let retention ← decodeRetention row.retentionKind row.checkpointHeight row.marking
    return { position, hash, retention }

def appendRows (ser : HashSer H B) (t : PoolBuffer B) (shardIndex : Nat) (rows : List (AccRow H))
    : Except String (PoolBuffer B) := do
  let stored ← rows.mapM fun r => return ((shardIndex, r.position), ← encodeRow ser r)
  return t.insertAll stored

def bufferedPositions (t : PoolBuffer B) (shardIndex : Nat) : List Nat :=
  ((t.keys.filter (·.1 = shardIndex)).image Prod.snd).sort (· ≤ ·)

def loadShard (ser : HashSer H B) (t : PoolBuffer B) (shardIndex : Nat)
    : Except String (List (AccRow H)) :=
  (t.bufferedPositions shardIndex).mapM fun p =>
    match t.get? (shardIndex, p) with
    | some row => decodeRow ser p row
    | none => .error "graft buffer: no such row"

def bufferedShards (t : PoolBuffer B) : List Nat := (t.keys.image Prod.fst).sort (· ≤ ·)

def deleteRowsIn (t : PoolBuffer B) (shardIndex start stop : Nat) : PoolBuffer B :=
  t.filter fun k => !(k.1 == shardIndex && start ≤ k.2 && k.2 < stop)

def deleteFromPosition (t : PoolBuffer B) (minPosition : Nat) : PoolBuffer B :=
  t.filter fun k => k.2 < minPosition

end PoolBuffer
end Slipstream
