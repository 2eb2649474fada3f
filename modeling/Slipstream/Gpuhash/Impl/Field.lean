import Slipstream.Data.Limbs

/-!
This module contains the Pallas base field of `field.wgsl`: elements are eight 32-bit limbs, and all
arithmetic is the wrapping `u32` arithmetic of WGSL.
-/

namespace Slipstream
namespace Gpuhash

open Limbs (ripple)

abbrev U32 := BitVec 32

def select (f t : U32) (cond : Bool) : U32 := if cond then t else f

def P : List U32 :=
  [0x00000001, 0x992d30ed, 0x094cf91b, 0x224698fc, 0x00000000, 0x00000000, 0x00000000, 0x40000000]

structure Fp where
  l : List U32
  size : l.length = 8
  deriving DecidableEq

def R2 : Fp where
  l := [0x0000000f, 0x8c78ecb3, 0x8b0de0e7, 0xd7d30dbd, 0xc3c95d18, 0x7797a99b, 0x7b9cb714, 0x096d41af]
  size := rfl

def mul32 (a b : U32) : U32 × U32 :=
  let aL := a &&& 0xffff
  let aH := a >>> 16
  let bL := b &&& 0xffff
  let bH := b >>> 16
  let ll := aL * bL
  let lh := aL * bH
  let hl := aH * bL
  let hh := aH * bH
  let lo1 := ll + (lh <<< 16)
  let c1 := select 0 1 (lo1 < ll)
  let lo2 := lo1 + (hl <<< 16)
  let c2 := select 0 1 (lo2 < lo1)
  let hi := hh + (lh >>> 16) + (hl >>> 16) + c1 + c2
  (lo2, hi)

def mac (a b c d : U32) : U32 × U32 :=
  let p := mul32 a b
  let s1 := p.1 + c
  let k1 := select 0 1 (s1 < p.1)
  let s2 := s1 + d
  let k2 := select 0 1 (s2 < s1)
  (s2, p.2 + k1 + k2)

def adc (a b cin : U32) : U32 × U32 :=
  let s1 := a + b
  let k1 := select 0 1 (s1 < a)
  let s2 := s1 + cin
  let k2 := select 0 1 (s2 < s1)
  (s2, k1 + k2)

def sbb (a b borrow : U32) : U32 × U32 :=
  let d1 := a - b
  let b1 := select 0 1 (a < b)
  let d2 := d1 - borrow
  let b2 := select 0 1 (d1 < borrow)
  (d2, b1 + b2)

def geqP (a : List U32) : Bool := Limbs.geq (a.zip P).reverse

def subP (a : List U32) : List U32 := (ripple sbb a P 0).1

theorem subP_length (a : List U32) (h : a.length = 8) : (subP a).length = 8 :=
  (Limbs.ripple_length h 0).trans h

structure MontAcc where
  lo : List U32
  t8 : U32
  t9 : U32
  size : lo.length = 8

namespace MontAcc

def zero : MontAcc where
  lo := List.replicate 8 0
  t8 := 0
  t9 := 0
  size := rfl

def round (a : Fp) (t : MontAcc) (bi : U32) : MontAcc :=
  -- t = t + a * b[i]
  let row := ripple (fun aj tj c => mac aj bi tj c) a.l t.lo 0
  let r1 := adc t.t8 row.2 0
  let t0 := row.1.headD 0
  let m := 0 - t0
  -- t = (t + m * p) >> 32
  let r2 := mac m (P.headD 0) t0 0
  let reduced := ripple (fun pj tj c => mac m pj tj c) P.tail row.1.tail r2.2
  let r3 := adc r1.1 reduced.2 0
  { lo := reduced.1 ++ [r3.1]
    t8 := r1.2 + r3.2
    t9 := r1.2
    size := by
      have hrow : row.1.length = 8 := (Limbs.ripple_length (a.size.trans t.size.symm) 0).trans a.size
      have htail : P.tail.length = row.1.tail.length := by simp [P, hrow]
      rw [List.length_append, Limbs.ripple_length htail]
      rfl }

end MontAcc

def montMul (a b : Fp) : Fp :=
  let t := b.l.foldl (MontAcc.round a) .zero
  if t.t8 ≠ 0 || geqP t.lo then
    { l := subP t.lo, size := subP_length t.lo t.size }
  else
    { l := t.lo, size := t.size }

/-- `fp_add_` -/
def fpAdd (a b : Fp) : Fp :=
  let s := ripple adc a.l b.l 0
  have hs : s.1.length = 8 := (Limbs.ripple_length (a.size.trans b.size.symm) 0).trans a.size
  if s.2 ≠ 0 || geqP s.1 then
    { l := subP s.1, size := subP_length s.1 hs }
  else
    { l := s.1, size := hs }

/-- `fp_sub_` -/
def fpSub (a b : Fp) : Fp :=
  let d := ripple sbb a.l b.l 0
  have hd : d.1.length = 8 := (Limbs.ripple_length (a.size.trans b.size.symm) 0).trans a.size
  if d.2 ≠ 0 then
    -- Add the prime back.
    { l := (ripple adc d.1 P 0).1, size := (Limbs.ripple_length hd 0).trans hd }
  else
    { l := d.1, size := hd }

/-- Both operands and the result are canonical: `mont_mul(mont_mul(a, b), R2)`. -/
def fpCanonMul (a b : Fp) : Fp := montMul (montMul a b) R2

end Gpuhash
end Slipstream
