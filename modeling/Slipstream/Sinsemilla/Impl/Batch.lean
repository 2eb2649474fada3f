import Mathlib.Algebra.Field.Basic
import Mathlib.Algebra.Ring.Nat

/-!
This module contains the batched Orchard combine of `batch_sinsemilla.rs`: all Sinsemilla chains of a
batch walk their chunks in lockstep and share one inversion per half-step.
-/

namespace Slipstream
namespace Sinsemilla

def K : Nat := 10

def CHUNKS : Nat := 52

def BATCH : Nat := 2048

abbrev Bytes32 := Vector UInt8 32

abbrev Message := Vector (Fin (2 ^ K)) CHUNKS

structure Consts (F : Type) where
  q : F × F
  s : Fin (2 ^ K) → F × F

def byteBit (bytes : Bytes32) (i : Nat) : Bool :=
  (bytes[i / 8]?).any fun byte => byte.toNat.testBit (i % 8)

def messageBit (layer : UInt8) (left right : Bytes32) (i : Nat) : Bool :=
  if i < 10 then
    layer.toNat.testBit i
  else if i < 265 then
    byteBit left (i - 10)
  else
    byteBit right (i - 265)

def chunkValue (bit : Nat → Bool) (n : Nat) : Nat :=
  (List.range n).foldl (fun v k => if bit k then v ||| 1 <<< k else v) 0

theorem chunkValue_lt (bit : Nat → Bool) (n : Nat) : chunkValue bit n < 2 ^ n := by
  induction n with
  | zero => exact Nat.one_pos
  | succ n ih =>
    have hlt : chunkValue bit n < 2 ^ (n + 1) :=
      Nat.lt_trans ih (Nat.pow_lt_pow_right (by decide) (Nat.lt_succ_self n))
    rw [chunkValue, List.range_succ, List.foldl_append]
    change (if bit n then chunkValue bit n ||| 1 <<< n else chunkValue bit n) < 2 ^ (n + 1)
    split
    . apply Nat.or_lt_two_pow hlt
      rw [Nat.one_shiftLeft]
      exact Nat.pow_lt_pow_right (by decide) (Nat.lt_succ_self n)
    . exact hlt

def chunkIndices (layer : UInt8) (left right : Bytes32) : Message :=
  Vector.ofFn fun c =>
    ⟨chunkValue (fun k => messageBit layer left right (c * 10 + k)) K, chunkValue_lt _ K⟩

variable {F : Type} [Field F] [DecidableEq F]

def invert (x : F) : Option F := if x = 0 then none else some x⁻¹

def prefixProducts (acc : F) : List F → List F × F
  | [] => ([], acc)
  | x :: xs =>
    let (products, all) := prefixProducts (acc * x) xs
    (acc :: products, all)

/-- Montgomery batch inversion. `none` is the panic for a list that contains a zero. -/
def batchInvert (xs : List F) : Option (List F) :=
  if xs.isEmpty then
    some []
  else
    let (products, acc) := prefixProducts 1 xs
    match invert acc with
    | none => none
    | some invAll =>
      -- From the last element down to the first.
      let unwound := (xs.zip products).foldr
        (fun (x, before) (out, invAll) => (invAll * before :: out, invAll * x)) ([], invAll)
      some unwound.1

structure Lane (F : Type) where
  x : F
  y : F
  dead : Bool
  denom : F
  otherX : F
  otherY : F

namespace Lane

def start (cs : Consts F) : Lane F where
  x := cs.q.1
  y := cs.q.2
  dead := false
  denom := 1
  otherX := 0
  otherY := 0

def operand (cs : Consts F) (step : Nat) (msg : Message) (l : Lane F) : Lane F :=
  if step % 2 = 0 then
    match msg[step / 2]? with
    | some m => { l with otherX := (cs.s m).1, otherY := (cs.s m).2 }
    | none => l
  else
    l

def gather (cs : Consts F) (step : Nat) (msg : Message) (l : Lane F) : Lane F :=
  if l.dead then
    { l with denom := 1 }
  else
    let l := l.operand cs step msg
    let d := l.otherX - l.x
    if d = 0 then
      { l with dead := true, denom := 1 }
    else
      { l with denom := d }

def add (step : Nat) (l : Lane F) : Lane F :=
  if l.dead then
    l
  else
    let lambda := (l.otherY - l.y) * l.denom
    let x3 := lambda ^ 2 - l.x - l.otherX
    let y3 := lambda * (l.x - x3) - l.y
    if step % 2 = 0 then
      { l with otherX := l.x, otherY := l.y, x := x3, y := y3 }
    else
      { l with x := x3, y := y3 }

end Lane

def halfStep (cs : Consts F) (msgs : List Message) (lanes : List (Lane F)) (step : Nat)
    : Option (List (Lane F)) := do
  let gathered := List.zipWith (Lane.gather cs step) msgs lanes
  let denoms ← batchInvert (gathered.map Lane.denom)
  return List.zipWith (fun l denom => Lane.add step { l with denom }) gathered denoms

/-- One lockstep batch. An element is `none` when the scalar combine has to be used for it. -/
def walkBatch (cs : Consts F) (toRepr : F → B) (msgs : List Message)
    : Option (List (Option B)) := do
  let lanes ← (List.range (CHUNKS * 2)).foldlM (halfStep cs msgs)
    (List.replicate msgs.length (Lane.start cs))
  return lanes.map fun l => if l.dead then none else some (toRepr l.x)

structure MerkleHashOrchard (N : Type) where
  fromBytes : Bytes32 → Option N
  combine : UInt8 → N → N → N
  toBytes : N → Bytes32

def scalarCombine (up : MerkleHashOrchard N) (layer : UInt8) (left right : Bytes32) : Bytes32 :=
  match up.fromBytes left, up.fromBytes right with
  | some l, some r => up.toBytes (up.combine layer l r)
  | _, _ => Vector.replicate 32 0

def parChunks (size : Nat) (l : List α) : List (List α) :=
  go l.length l
where
  go : Nat → List α → List (List α)
    | _, [] => []
    | 0, _ => []
    | fuel + 1, l => l.take size :: go fuel (l.drop size)

def combineChunk (cs : Consts F) (toRepr : F → Bytes32) (up : MerkleHashOrchard N)
    (chunk : List (UInt8 × Bytes32 × Bytes32)) : Option (List Bytes32) := do
  let walked ← walkBatch cs toRepr
    (chunk.map fun (layer, left, right) => chunkIndices layer left right)
  return List.zipWith pick chunk walked
where
  pick : UInt8 × Bytes32 × Bytes32 → Option Bytes32 → Bytes32
    | _, some bytes => bytes
    | (layer, left, right), none => scalarCombine up layer left right

/-- `none` is a panic: slices of different lengths. -/
def orchardCombineBatchCpu (cs : Consts F) (toRepr : F → Bytes32) (up : MerkleHashOrchard N)
    (layers : List UInt8) (lefts rights : List Bytes32) : Option (List Bytes32) :=
  if layers.length ≠ lefts.length ∨ layers.length ≠ rights.length then
    none
  else if layers.length = 0 then
    some []
  else do
    let chunks ← (parChunks BATCH (layers.zip (lefts.zip rights))).mapM (combineChunk cs toRepr up)
    return chunks.flatten

end Sinsemilla
end Slipstream
