import Slipstream.Gpuhash.Impl.Pallas

/-!
This module contains the Merkle hash of `sinsemilla.wgsl` over the storage buffers of the shader.
-/

namespace Slipstream
namespace Gpuhash

structure Buffer where
  words : List U32
  size : words.length < 2 ^ 32

namespace Buffer

def read (buf : Buffer) (i : U32) : U32 := buf.words.getD i.toNat 0

def write (buf : Buffer) (i value : U32) : Buffer where
  words := buf.words.set i.toNat value
  size := by rw [List.length_set]; exact buf.size

def arrayLength (buf : Buffer) : U32 := .ofNat 32 buf.words.length

def load (buf : Buffer) (b : U32) : Fp where
  l := (List.range 8).map fun i => buf.read (b + .ofNat 32 i)
  size := rfl

end Buffer

def genPt (gens : Buffer) (idx : U32) : Pt :=
  let b := idx * 16
  { x := gens.load b, y := gens.load (b + 8), z := fpOne }

def SINSEMILLA_NCHUNKS : Nat := 52

def msgBit (layer : U32) (left right : Fp) (j : Nat) : U32 :=
  if j < 10 then
    (layer >>> j) &&& 1
  else if j < 265 then
    limbBit left.l (j - 10)
  else
    limbBit right.l (j - 265)

def chunkVal (layer : U32) (left right : Fp) (c : Nat) : U32 :=
  (List.range 10).foldl (fun v k => v ||| (msgBit layer left right (c * 10 + k) <<< k)) 0

def merkleCombine (lefts gens outp : Buffer) (node : U32) : Buffer :=
  let n := outp.arrayLength / 8
  if node ≥ n then
    outp
  else
    let base := node * 17
    let layer := lefts.read base
    let left := lefts.load (base + 1)
    let right := lefts.load (base + 9)
    let acc := (List.range SINSEMILLA_NCHUNKS).foldl
      (fun acc c => ptAdd (ptAdd acc (genPt gens (1 + chunkVal layer left right c))) acc)
      (genPt gens 0)
    let xy := ptToAffine acc
    let b := node * 8
    (List.range 8).foldl (fun outp i => outp.write (b + .ofNat 32 i) (xy.getD i 0)) outp

end Gpuhash
end Slipstream
