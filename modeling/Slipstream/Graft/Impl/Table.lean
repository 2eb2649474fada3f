import Slipstream.Graft.Impl.Buffer

/-!
This module contains the graft buffer of `graft.rs` as SQLite holds it: one table for all pools, whose
integers are signed, and the statements that write and read it.
-/

namespace Slipstream

variable {H B : Type}

def asI64 (n : Nat) : Int := Int.bmod n (2 ^ 64)

def asU64 (i : Int) : Nat := (i % 2 ^ 64).toNat

def poolCode : ShieldedPool → Int
  | .sapling => 2
  | .orchard => 3
  | .ironwood => 4

/-- The primary key of `ext_slipstream_graft_buffer`. -/
structure TableKey where
  pool : Int
  shardIndex : Int
  position : Int
  deriving DecidableEq, Repr

abbrev GraftTable (B : Type) := OrdMap TableKey (StoredRow B)

namespace GraftTable

def appendRows (ser : HashSer H B) (t : GraftTable B) (pool : ShieldedPool) (shardIndex : Nat)
    (rows : List (AccRow H)) : Except String (GraftTable B) := do
  let stored ← rows.mapM fun r =>
    return (⟨poolCode pool, asI64 shardIndex, asI64 r.position⟩, ← PoolBuffer.encodeRow ser r)
  return t.insertAll stored

def storedPositions (t : GraftTable B) (pool : ShieldedPool) (shardIndex : Nat) : List Int :=
  ((t.keys.filter fun k => k.pool = poolCode pool ∧ k.shardIndex = asI64 shardIndex).image
    TableKey.position).sort (· ≤ ·)

def loadShard (ser : HashSer H B) (t : GraftTable B) (pool : ShieldedPool) (shardIndex : Nat)
    : Except String (List (AccRow H)) :=
  (t.storedPositions pool shardIndex).mapM fun p =>
    match t.get? ⟨poolCode pool, asI64 shardIndex, p⟩ with
    | some row => PoolBuffer.decodeRow ser (asU64 p) row
    | none => .error "graft buffer: no such row"

def bufferedPositions (t : GraftTable B) (pool : ShieldedPool) (shardIndex : Nat) : List Nat :=
  (t.storedPositions pool shardIndex).map asU64

def deleteRowsIn (t : GraftTable B) (pool : ShieldedPool) (shardIndex start stop : Nat)
    : GraftTable B :=
  t.filter fun k =>
    !(k.pool == poolCode pool && k.shardIndex == asI64 shardIndex && asI64 start ≤ k.position
      && k.position < asI64 stop)

def deleteFromPosition (t : GraftTable B) (pool : ShieldedPool) (minPosition : Nat) : GraftTable B :=
  t.filter fun k => !(k.pool == poolCode pool && asI64 minPosition ≤ k.position)

end GraftTable

inductive GraftOp (H : Type) where
  | appendRows (pool : ShieldedPool) (shardIndex : Nat) (rows : List (AccRow H))
  | deleteRowsIn (pool : ShieldedPool) (shardIndex start stop : Nat)
  | deleteFromPosition (pool : ShieldedPool) (minPosition : Nat)

namespace GraftOp

def apply (ser : HashSer H B) (t : GraftTable B) : GraftOp H → Except String (GraftTable B)
  | .appendRows pool shardIndex rows => t.appendRows ser pool shardIndex rows
  | .deleteRowsIn pool shardIndex start stop => .ok (t.deleteRowsIn pool shardIndex start stop)
  | .deleteFromPosition pool minPosition => .ok (t.deleteFromPosition pool minPosition)

def run (ser : HashSer H B) (ops : List (GraftOp H)) : Except String (GraftTable B) :=
  ops.foldlM (apply ser) .empty

end GraftOp
end Slipstream
