import Slipstream.Data.Power
import Slipstream.Gpuhash.Impl.Field

/-!
This module contains the point operations of `pallas.wgsl`. A point is Jacobian: it stands for the
affine `(x / z ^ 2, y / z ^ 3)`, and for the identity when `z` is zero.
-/

namespace Slipstream
namespace Gpuhash

structure Pt where
  x : Fp
  y : Fp
  z : Fp
  deriving DecidableEq

def PMinus2 : List U32 :=
  [0xffffffff, 0x992d30ec, 0x094cf91b, 0x224698fc, 0x00000000, 0x00000000, 0x00000000, 0x40000000]

def fpOne : Fp where
  l := 1 :: List.replicate 7 0
  size := rfl

def fpIsZero (a : Fp) : Bool := a.l.all fun x => x == 0

def fpDbl (a : Fp) : Fp := fpAdd a a

def fpTri (a : Fp) : Fp := fpAdd (fpDbl a) a

def ptDouble (p : Pt) : Pt :=
  if fpIsZero p.z then
    p
  else
    let aa := fpCanonMul p.x p.x
    let bb := fpCanonMul p.y p.y
    let cc := fpCanonMul bb bb
    let xpb := fpAdd p.x bb
    let dd := fpDbl (fpSub (fpSub (fpCanonMul xpb xpb) aa) cc)
    let ee := fpTri aa
    let ff := fpCanonMul ee ee
    let x3 := fpSub ff (fpDbl dd)
    let y3 := fpSub (fpCanonMul ee (fpSub dd x3)) (fpDbl (fpDbl (fpDbl cc)))
    let z3 := fpDbl (fpCanonMul p.y p.z)
    { x := x3, y := y3, z := z3 }

def ptAdd (p q : Pt) : Pt :=
  if fpIsZero p.z then
    q
  else if fpIsZero q.z then
    p
  else
    let z1z1 := fpCanonMul p.z p.z
    let z2z2 := fpCanonMul q.z q.z
    let u1 := fpCanonMul p.x z2z2
    let u2 := fpCanonMul q.x z1z1
    let s1 := fpCanonMul (fpCanonMul p.y q.z) z2z2
    let s2 := fpCanonMul (fpCanonMul q.y p.z) z1z1
    let h := fpSub u2 u1
    let hh := fpDbl h
    let i := fpCanonMul hh hh
    let j := fpCanonMul h i
    let r := fpDbl (fpSub s2 s1)
    let v := fpCanonMul u1 i
    let x3 := fpSub (fpSub (fpCanonMul r r) j) (fpDbl v)
    let y3 := fpSub (fpCanonMul r (fpSub v x3)) (fpDbl (fpCanonMul s1 j))
    let zs := fpAdd p.z q.z
    let z3 := fpCanonMul (fpSub (fpSub (fpCanonMul zs zs) z1z1) z2z2) h
    { x := x3, y := y3, z := z3 }

def limbBit (l : List U32) (b : Nat) : U32 := ((l.getD (b / 32) 0) >>> (b % 32)) &&& 1

/-- The power of `a` to `P_MINUS_2`: square and multiply over the bits 254 to 0. -/
def fpInv (a : Fp) : Fp :=
  Power.loop fpCanonMul (fun bitIdx => limbBit PMinus2 bitIdx == 1) a 255 fpOne

def ptToAffine (p : Pt) : List U32 :=
  if fpIsZero p.z then
    List.replicate 16 0
  else
    let zinv := fpInv p.z
    let zinv2 := fpCanonMul zinv zinv
    let zinv3 := fpCanonMul zinv2 zinv
    let x := fpCanonMul p.x zinv2
    let y := fpCanonMul p.y zinv3
    x.l ++ y.l

end Gpuhash
end Slipstream
