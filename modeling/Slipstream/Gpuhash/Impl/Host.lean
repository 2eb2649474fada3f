import Slipstream.Gpuhash.Impl.Sinsemilla
import Slipstream.Sinsemilla.Impl.Batch

/-!
This module contains the host side of the GPU combine: how `lib.rs` lays the nodes and the generators
out in words, runs the kernel and reads the hashes back.
-/

namespace Slipstream
namespace Gpuhash

open Sinsemilla (Bytes32 Consts)

/-- `u32::from_le_bytes` -/
def fromLeBytes (b0 b1 b2 b3 : UInt8) : U32 :=
  (b3.toBitVec ++ b2.toBitVec) ++ (b1.toBitVec ++ b0.toBitVec)

def nodeWords (bytes : Bytes32) : List U32 :=
  List.ofFn (n := 8) fun w =>
    fromLeBytes bytes[4 * w.val] bytes[4 * w.val + 1] bytes[4 * w.val + 2] bytes[4 * w.val + 3]

/-- The 32 bytes of eight words, `u32::to_le_bytes` of each. -/
def nodeBytes (words : List U32) : Bytes32 :=
  Vector.ofFn fun i => ⟨(words.getD (i / 4) 0).extractLsb' (8 * (i % 4)) 8⟩

def generatorsU32 (toRepr : F → Bytes32) (cs : Consts F) : List U32 :=
  (cs.q :: List.ofFn cs.s).flatMap fun p => nodeWords (toRepr p.1) ++ nodeWords (toRepr p.2)

def element (layer : U32) (left right : Bytes32) : List U32 :=
  layer :: (nodeWords left ++ nodeWords right)

def inputWords (elems : List (UInt8 × Bytes32 × Bytes32)) : List U32 :=
  elems.flatMap fun e => element (.ofNat 32 e.1.toNat) e.2.1 e.2.2

def invocations (n : Nat) : List U32 :=
  (List.range (max ((n + 63) / 64) 1 * 64)).map (.ofNat 32)

def dispatchHash (input gens outp : Buffer) (order : List U32) : Buffer :=
  order.foldl (merkleCombine input gens) outp

/--
The batched combine, with the kernel's invocations in the given order. `none` is a panic: slices of
different lengths, or buffers that no device takes.
-/
def orchardCombineBatch (toRepr : F → Bytes32) (cs : Consts F) (order : List U32)
    (layers : List UInt8) (lefts rights : List Bytes32) : Option (List Bytes32) :=
  if layers.length ≠ lefts.length ∨ layers.length ≠ rights.length then
    none
  else if layers.length = 0 then
    some []
  else
    let input := inputWords (layers.zip (lefts.zip rights))
    let gens := generatorsU32 toRepr cs
    let outp := List.replicate (layers.length * 8) 0
    if h : input.length < 2 ^ 32 ∧ gens.length < 2 ^ 32 ∧ outp.length < 2 ^ 32 then
      let out := dispatchHash ⟨input, h.1⟩ ⟨gens, h.2.1⟩ ⟨outp, h.2.2⟩ order
      some ((List.range layers.length).map fun i => nodeBytes ((out.words.drop (8 * i)).take 8))
    else
      none

end Gpuhash
end Slipstream
