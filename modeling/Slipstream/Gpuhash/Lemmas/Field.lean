import Slipstream.Gpuhash.Impl.Field
import Mathlib.Data.Nat.ModEq
import Mathlib.Tactic.Zify

/-!
This module contains what the word operations of the shader and its loops over limbs compute.
-/

namespace Slipstream
namespace Gpuhash

open Limbs (ripple)

section Words

variable (a b c d : U32)

theorem zero_toNat : (0 : U32).toNat = 0 := rfl

theorem select_toNat (cond : Bool) : (select 0 1 cond).toNat = if cond then 1 else 0 := by
  cases cond <;> rfl

theorem carry_toNat
    : (a + b).toNat + 2 ^ 32 * (select 0 1 (a + b < a)).toNat = a.toNat + b.toNat := by
  have ha := a.isLt
  have hb := b.isLt
  rw [select_toNat, BitVec.toNat_add]
  simp only [decide_eq_true_eq, BitVec.lt_def, BitVec.toNat_add]
  split <;> omega

theorem borrow_toNat
    : (a - b).toNat + b.toNat = a.toNat + 2 ^ 32 * (select 0 1 (a < b)).toNat := by
  have ha := a.isLt
  have hb := b.isLt
  rw [select_toNat, BitVec.toNat_sub]
  simp only [decide_eq_true_eq, BitVec.lt_def]
  split <;> omega

theorem select_le (cond : Bool) : (select 0 1 cond).toNat ≤ 1 := by
  cases cond <;> decide

theorem low_toNat : (a &&& 0xffff).toNat = a.toNat % 2 ^ 16 := by
  rw [BitVec.toNat_and]
  exact Nat.and_two_pow_sub_one_eq_mod a.toNat 16

theorem high_toNat : (a >>> 16).toNat = a.toNat / 2 ^ 16 := by
  rw [BitVec.toNat_ushiftRight, Nat.shiftRight_eq_div_pow]

theorem raised_toNat : (a <<< 16).toNat = a.toNat % 2 ^ 16 * 2 ^ 16 := by
  rw [BitVec.toNat_shiftLeft, Nat.shiftLeft_eq]
  omega

theorem halves_toNat {x y : U32} (hx : x.toNat < 2 ^ 16) (hy : y.toNat < 2 ^ 16)
    : (x * y).toNat = x.toNat * y.toNat ∧ x.toNat * y.toNat ≤ (2 ^ 16 - 1) * (2 ^ 16 - 1) := by
  have hle := Nat.mul_le_mul (Nat.le_sub_one_of_lt hx) (Nat.le_sub_one_of_lt hy)
  refine ⟨?_, hle⟩
  rw [BitVec.toNat_mul, Nat.mod_eq_of_lt]
  omega

theorem mul32_toNat : (mul32 a b).1.toNat + 2 ^ 32 * (mul32 a b).2.toNat = a.toNat * b.toNat := by
  have ha := a.isLt
  have hb := b.isLt
  unfold mul32
  dsimp only
  generalize haL : a &&& 0xffff = aL
  generalize haH : a >>> 16 = aH
  generalize hbL : b &&& 0xffff = bL
  generalize hbH : b >>> 16 = bH
  have haL' : aL.toNat = a.toNat % 2 ^ 16 := haL ▸ low_toNat a
  have haH' : aH.toNat = a.toNat / 2 ^ 16 := haH ▸ high_toNat a
  have hbL' : bL.toNat = b.toNat % 2 ^ 16 := hbL ▸ low_toNat b
  have hbH' : bH.toNat = b.toNat / 2 ^ 16 := hbH ▸ high_toNat b
  obtain ⟨hll, hllLe⟩ := halves_toNat (x := aL) (y := bL) (by omega) (by omega)
  obtain ⟨hlh, hlhLe⟩ := halves_toNat (x := aL) (y := bH) (by omega) (by omega)
  obtain ⟨hhl, hhlLe⟩ := halves_toNat (x := aH) (y := bL) (by omega) (by omega)
  obtain ⟨hhh, hhhLe⟩ := halves_toNat (x := aH) (y := bH) (by omega) (by omega)
  have hproduct : a.toNat * b.toNat = (aH * bH).toNat * 2 ^ 32
      + ((aL * bH).toNat + (aH * bL).toNat) * 2 ^ 16 + (aL * bL).toNat := by
    have hasplit : a.toNat = aH.toNat * 2 ^ 16 + aL.toNat := by omega
    have hbsplit : b.toNat = bH.toNat * 2 ^ 16 + bL.toNat := by omega
    rw [hll, hlh, hhl, hhh, hasplit, hbsplit]
    ring
  rw [← hll] at hllLe
  rw [← hlh] at hlhLe
  rw [← hhl] at hhlLe
  rw [← hhh] at hhhLe
  generalize aL * bL = ll at *
  generalize aL * bH = lh at *
  generalize aH * bL = hl at *
  generalize aH * bH = hh at *
  have hlow := carry_toNat ll (lh <<< 16)
  have hlow' := carry_toNat (ll + lh <<< 16) (hl <<< 16)
  have hc1 := select_le (ll + lh <<< 16 < ll)
  have hc2 := select_le (ll + lh <<< 16 + hl <<< 16 < ll + lh <<< 16)
  have hlhHigh := high_toNat lh
  have hhlHigh := high_toNat hl
  have hlhLow := raised_toNat lh
  have hhlLow := raised_toNat hl
  have hhi : (hh + lh >>> 16 + hl >>> 16 + select 0 1 (ll + lh <<< 16 < ll)
        + select 0 1 (ll + lh <<< 16 + hl <<< 16 < ll + lh <<< 16)).toNat
      = hh.toNat + (lh >>> 16).toNat + (hl >>> 16).toNat + (select 0 1 (ll + lh <<< 16 < ll)).toNat
        + (select 0 1 (ll + lh <<< 16 + hl <<< 16 < ll + lh <<< 16)).toNat := by
    simp only [BitVec.toNat_add]
    omega
  rw [hhi, hproduct]
  omega

theorem mac_toNat
    : (mac a b c d).1.toNat + 2 ^ 32 * (mac a b c d).2.toNat = a.toNat * b.toNat + c.toNat + d.toNat := by
  have hp := mul32_toNat a b
  have hle : a.toNat * b.toNat ≤ (2 ^ 32 - 1) * (2 ^ 32 - 1) :=
    Nat.mul_le_mul (Nat.le_sub_one_of_lt a.isLt) (Nat.le_sub_one_of_lt b.isLt)
  unfold mac
  dsimp only
  generalize mul32 a b = p at *
  have hs1 := carry_toNat p.1 c
  have hs2 := carry_toNat (p.1 + c) d
  have hc := c.isLt
  have hd := d.isLt
  have hhi : (p.2 + select 0 1 (p.1 + c < p.1) + select 0 1 (p.1 + c + d < p.1 + c)).toNat
      = p.2.toNat + (select 0 1 (p.1 + c < p.1)).toNat
        + (select 0 1 (p.1 + c + d < p.1 + c)).toNat := by
    rw [BitVec.toNat_add, BitVec.toNat_add]
    omega
  rw [hhi]
  omega

theorem bits_toNat (cond cond' : Bool)
    : (select 0 1 cond + select 0 1 cond').toNat
      = (select 0 1 cond).toNat + (select 0 1 cond').toNat := by
  cases cond <;> cases cond' <;> rfl

theorem adc_toNat : (adc a b c).1.toNat + 2 ^ 32 * (adc a b c).2.toNat = a.toNat + b.toNat + c.toNat := by
  have h1 := carry_toNat a b
  have h2 := carry_toNat (a + b) c
  unfold adc
  dsimp only
  rw [bits_toNat]
  omega

theorem adc_carry_le : (adc a b 0).2.toNat ≤ 1 := by
  have := adc_toNat a b 0
  rw [zero_toNat] at this
  omega

theorem sbb_toNat : (sbb a b c).1.toNat + b.toNat + c.toNat = a.toNat + 2 ^ 32 * (sbb a b c).2.toNat := by
  have h1 := borrow_toNat a b
  have h2 := borrow_toNat (a - b) c
  unfold sbb
  dsimp only
  rw [bits_toNat]
  omega

end Words

def prime : Nat := 0x40000000000000000000000000000000224698fc094cf91b992d30ed00000001

theorem value_P : Limbs.value P = prime := rfl

section Loops

variable {xs ys : List U32}

theorem addLoop_value (hlength : xs.length = ys.length)
    : Limbs.value (ripple adc xs ys 0).1 + 2 ^ (32 * xs.length) * (ripple adc xs ys 0).2.toNat
      = Limbs.value xs + Limbs.value ys := by
  have hturn : ∀ x y c : U32, ((adc x y c).1.toNat : Int) + 2 ^ 32 * (1 * (adc x y c).2.toNat)
      = 1 * x.toNat + 1 * y.toNat + 1 * c.toNat := by
    intro x y c
    have := adc_toNat x y c
    omega
  have hvalue := Limbs.ripple_value hturn hlength 0
  rw [zero_toNat] at hvalue
  zify
  linear_combination hvalue

theorem macLoop_value {f : U32 → U32 → U32 → U32 × U32} {b : U32}
    (hf : ∀ x y c, (f x y c).1.toNat + 2 ^ 32 * (f x y c).2.toNat = x.toNat * b.toNat + y.toNat + c.toNat)
    (hlength : xs.length = ys.length) (c : U32)
    : Limbs.value (ripple f xs ys c).1 + 2 ^ (32 * xs.length) * (ripple f xs ys c).2.toNat
      = Limbs.value xs * b.toNat + Limbs.value ys + c.toNat := by
  have hturn : ∀ x y c : U32, ((f x y c).1.toNat : Int) + 2 ^ 32 * (1 * (f x y c).2.toNat)
      = b.toNat * x.toNat + 1 * y.toNat + 1 * c.toNat := by
    intro x y c
    have := hf x y c
    zify at this
    linear_combination this
  have hvalue := Limbs.ripple_value hturn hlength c
  zify
  linear_combination hvalue

theorem subLoop_value (hlength : xs.length = ys.length)
    : Limbs.value (ripple sbb xs ys 0).1 + Limbs.value ys
      = Limbs.value xs + 2 ^ (32 * xs.length) * (ripple sbb xs ys 0).2.toNat := by
  have hturn : ∀ x y c : U32, ((sbb x y c).1.toNat : Int) + 2 ^ 32 * (-1 * (sbb x y c).2.toNat)
      = 1 * x.toNat + -1 * y.toNat + -1 * c.toNat := by
    intro x y c
    have := sbb_toNat x y c
    omega
  have hvalue := Limbs.ripple_value hturn hlength 0
  rw [zero_toNat] at hvalue
  zify
  linear_combination hvalue

end Loops

def Fp.val (a : Fp) : Nat := Limbs.value a.l

def Fp.Canonical (a : Fp) : Prop := a.val < prime

instance (a : Fp) : Decidable a.Canonical := inferInstanceAs (Decidable (a.val < prime))

theorem geqP_value {a : List U32} (h : a.length = 8) : geqP a = decide (prime ≤ Limbs.value a) := by
  rw [geqP, Limbs.geq_value h, value_P]

theorem subP_value {a : List U32} (h : a.length = 8) (hle : prime ≤ Limbs.value a)
    : Limbs.value (subP a) = Limbs.value a - prime := by
  have hlength : a.length = P.length := h
  have hloop := subLoop_value hlength
  have hlt := Limbs.value_lt (subP a)
  rw [subP_length a h] at hlt
  rw [h, value_P] at hloop
  unfold subP at hlt ⊢
  unfold prime at *
  omega

theorem reduced_value {a : List U32} (h : a.length = 8) {top : U32} {x : Nat}
    (hx : Limbs.value a + 2 ^ 256 * top.toNat = x) (hlt : x < 2 * prime)
    : Limbs.value (if top ≠ 0 || geqP a then subP a else a) = x % prime := by
  have htop : top = 0 := by
    apply BitVec.eq_of_toNat_eq
    rw [zero_toNat]
    unfold prime at hlt
    omega
  subst htop
  rw [zero_toNat, Nat.mul_zero, Nat.add_zero] at hx
  subst hx
  rw [geqP_value h]
  by_cases hle : prime ≤ Limbs.value a
  . simp only [hle, decide_true, Bool.or_true, if_true]
    rw [subP_value h hle, Nat.mod_eq_sub_mod hle, Nat.mod_eq_of_lt]
    omega
  . simp only [hle, decide_false, ne_eq, not_true_eq_false, Bool.or_self, Bool.false_eq_true, if_false]
    exact (Nat.mod_eq_of_lt (Nat.lt_of_not_le hle)).symm

theorem fpAdd_val {a b : Fp} (ha : a.Canonical) (hb : b.Canonical)
    : (fpAdd a b).val = (a.val + b.val) % prime := by
  have hlength : a.l.length = b.l.length := a.size.trans b.size.symm
  have hsize : (ripple adc a.l b.l 0).1.length = 8 := (Limbs.ripple_length hlength 0).trans a.size
  have hsum := addLoop_value hlength
  rw [a.size] at hsum
  have hlt : a.val + b.val < 2 * prime := by
    unfold Fp.Canonical at ha hb
    omega
  apply Eq.trans _ (reduced_value hsize hsum hlt)
  rw [Fp.val, fpAdd]
  split <;> rfl

theorem fpSub_val {a b : Fp} (ha : a.Canonical) (hb : b.Canonical)
    : (fpSub a b).val = (a.val + prime - b.val) % prime := by
  have hlength : a.l.length = b.l.length := a.size.trans b.size.symm
  have hsize : (ripple sbb a.l b.l 0).1.length = 8 := (Limbs.ripple_length hlength 0).trans a.size
  have hdiff := subLoop_value hlength
  have hlt := Limbs.value_lt (ripple sbb a.l b.l 0).1
  have hlengthP : (ripple sbb a.l b.l 0).1.length = P.length := hsize
  have hback := addLoop_value hlengthP
  have hltBack := Limbs.value_lt (ripple adc (ripple sbb a.l b.l 0).1 P 0).1
  rw [Limbs.ripple_length hsize, hsize] at hltBack
  rw [hsize] at hlt hback
  rw [a.size] at hdiff
  rw [value_P] at hback
  unfold Fp.Canonical Fp.val at ha hb
  unfold Fp.val fpSub
  dsimp only
  split
  next hborrow =>
    have hborrow : 0 < (ripple sbb a.l b.l 0).2.toNat := by
      apply Nat.pos_of_ne_zero
      intro hzero
      apply hborrow
      apply BitVec.eq_of_toNat_eq
      exact hzero
    dsimp only
    rw [Nat.mod_eq_of_lt] <;> unfold prime at * <;> omega
  next hborrow =>
    have hborrow : (ripple sbb a.l b.l 0).2.toNat = 0 := by
      rw [Classical.not_not.mp hborrow]
      rfl
    dsimp only
    rw [Nat.mod_eq_sub_mod, Nat.mod_eq_of_lt] <;> unfold prime at * <;> omega

namespace MontAcc

/-- What the accumulator stands for between two turns. -/
def total (t : MontAcc) : Nat := Limbs.value t.lo + 2 ^ 256 * t.t8.toNat

theorem zero_total : zero.total = 0 := rfl

theorem cancels (t0 : U32)
    : 2 ^ 32 * (mac (0 - t0) (P.headD 0) t0 0).2.toNat = (0 - t0).toNat + t0.toNat := by
  have hmac := mac_toNat (0 - t0) (P.headD 0) t0 0
  have hP : (P.headD 0).toNat = 1 := rfl
  rw [hP, zero_toNat] at hmac
  have hlt := (mac (0 - t0) (P.headD 0) t0 0).1.isLt
  have hm : (0 - t0).toNat = (2 ^ 32 - t0.toNat) % 2 ^ 32 := by
    rw [BitVec.toNat_sub, zero_toNat, Nat.add_zero]
  have := t0.isLt
  omega

theorem reduce_value {t0 : U32} {rest : List U32} (hrest : rest.length = 7) {r1 : U32 × U32}
    (hbit : r1.2.toNat ≤ 1) {c : U32} (hc : 2 ^ 32 * c.toNat = (0 - t0).toNat + t0.toNat)
    : let reduced := ripple (fun pj tj c => mac (0 - t0) pj tj c) P.tail rest c
      let r3 := adc r1.1 reduced.2 0
      2 ^ 32 * (Limbs.value (reduced.1 ++ [r3.1]) + 2 ^ 256 * (r1.2 + r3.2).toNat)
        = Limbs.value (t0 :: rest) + 2 ^ 256 * (r1.1.toNat + 2 ^ 32 * r1.2.toNat)
          + (0 - t0).toNat * prime := by
  intro reduced r3
  have hlength : P.tail.length = rest.length := hrest.symm
  have hturn : ∀ x y c : U32, (mac (0 - t0) x y c).1.toNat + 2 ^ 32 * (mac (0 - t0) x y c).2.toNat
      = x.toNat * (0 - t0).toNat + y.toNat + c.toNat := by
    intro x y c
    rw [mac_toNat, Nat.mul_comm]
  have hreduced := macLoop_value hturn hlength c
  have hsize : reduced.1.length = 7 := Limbs.ripple_length hlength c
  have htop := adc_toNat r1.1 reduced.2 0
  have hbit' : r3.2.toNat ≤ 1 := adc_carry_le r1.1 reduced.2
  have hprime : prime = 1 + 2 ^ 32 * Limbs.value P.tail := rfl
  have hPtail : P.tail.length = 7 := rfl
  have hbits : (r1.2 + r3.2).toNat = r1.2.toNat + r3.2.toNat := by
    rw [BitVec.toNat_add]
    omega
  rw [zero_toNat] at htop
  rw [hPtail] at hreduced
  rw [Limbs.value_append, Limbs.value_cons, Limbs.value_cons, Limbs.value_nil, hsize, hbits, hprime]
  zify at *
  linear_combination 2 ^ 32 * hreduced + 2 ^ 256 * htop + hc

theorem round_total (a : Fp) (t : MontAcc) (bi : U32)
    : ∃ m : U32, 2 ^ 32 * (round a t bi).total = t.total + a.val * bi.toNat + m.toNat * prime := by
  have hlength : a.l.length = t.lo.length := a.size.trans t.size.symm
  have hrow := macLoop_value (fun aj tj c => mac_toNat aj bi tj c) hlength 0
  have hsize := (Limbs.ripple_length (f := fun aj tj c => mac aj bi tj c) hlength 0).trans a.size
  have htop := adc_toNat t.t8 (ripple (fun aj tj c => mac aj bi tj c) a.l t.lo 0).2 0
  have hbit := adc_carry_le t.t8 (ripple (fun aj tj c => mac aj bi tj c) a.l t.lo 0).2
  refine ⟨0 - (ripple (fun aj tj c => mac aj bi tj c) a.l t.lo 0).1.headD 0, ?_⟩
  unfold round total
  dsimp only
  generalize ripple (fun aj tj c => mac aj bi tj c) a.l t.lo 0 = row at *
  generalize adc t.t8 row.2 0 = r1 at *
  obtain ⟨t0, rest, hcons⟩ := List.exists_cons_of_length_eq_add_one hsize
  rw [hcons] at hsize hrow ⊢
  rw [List.headD_cons, List.tail_cons, reduce_value (Nat.succ.inj hsize) hbit (cancels t0)]
  rw [a.size, zero_toNat] at hrow
  rw [zero_toNat] at htop
  unfold Fp.val
  zify at *
  linear_combination hrow + 2 ^ 256 * htop

theorem round_total_lt (a : Fp) {t : MontAcc} (bi : U32) (h : t.total < a.val + prime)
    : (round a t bi).total < a.val + prime := by
  obtain ⟨m, hround⟩ := round_total a t bi
  have hab : a.val * bi.toNat ≤ a.val * (2 ^ 32 - 1) :=
    Nat.mul_le_mul_left _ (Nat.le_sub_one_of_lt bi.isLt)
  have hmp : m.toNat * prime ≤ (2 ^ 32 - 1) * prime :=
    Nat.mul_le_mul_right _ (Nat.le_sub_one_of_lt m.isLt)
  omega

theorem rounds_total (a : Fp) (bs : List U32) (t : MontAcc) (h : t.total < a.val + prime)
    : (bs.foldl (round a) t).total < a.val + prime
      ∧ ∃ k, (bs.foldl (round a) t).total * 2 ^ (32 * bs.length)
        = t.total + a.val * Limbs.value bs + k * prime := by
  induction bs generalizing t with
  | nil =>
    refine ⟨h, 0, ?_⟩
    simp
  | cons bi bs ih =>
    obtain ⟨hlt, k, hk⟩ := ih (round a t bi) (round_total_lt a bi h)
    obtain ⟨m, hm⟩ := round_total a t bi
    refine ⟨hlt, m.toNat + 2 ^ 32 * k, ?_⟩
    rw [List.foldl_cons, List.length_cons, Limbs.value_cons]
    rw [Nat.mul_succ, Nat.add_comm (32 * bs.length), Nat.pow_add]
    zify at *
    linear_combination 2 ^ 32 * hk + hm

end MontAcc

theorem montMul_val {a : Fp} (b : Fp) (ha : a.Canonical)
    : ∃ x k, (montMul a b).val = x % prime ∧ x * 2 ^ 256 = a.val * b.val + k * prime := by
  have hzero : MontAcc.zero.total < a.val + prime := by
    rw [MontAcc.zero_total]
    unfold prime
    omega
  obtain ⟨hlt, k, hk⟩ := MontAcc.rounds_total a b.l .zero hzero
  rw [b.size, MontAcc.zero_total, Nat.zero_add] at hk
  have hlt : (b.l.foldl (MontAcc.round a) .zero).total < 2 * prime := by
    unfold Fp.Canonical at ha
    omega
  refine ⟨(b.l.foldl (MontAcc.round a) .zero).total, k, ?_, hk⟩
  apply Eq.trans _ (reduced_value (b.l.foldl (MontAcc.round a) .zero).size rfl hlt)
  rw [Fp.val, montMul]
  split <;> rfl

theorem prime_pos : 0 < prime := by decide

theorem montMul_canonical {a : Fp} (b : Fp) (ha : a.Canonical) : (montMul a b).Canonical := by
  obtain ⟨x, _, hval, -⟩ := montMul_val b ha
  rw [Fp.Canonical, hval]
  exact Nat.mod_lt x prime_pos

theorem montMul_modEq {a : Fp} (b : Fp) (ha : a.Canonical)
    : (montMul a b).val * 2 ^ 256 ≡ a.val * b.val [MOD prime] := by
  obtain ⟨x, k, hval, hx⟩ := montMul_val b ha
  calc (montMul a b).val * 2 ^ 256
    _ ≡ x * 2 ^ 256 [MOD prime] := by
      rw [hval]
      exact (Nat.mod_modEq x prime).mul_right _
    _ = a.val * b.val + k * prime := hx
    _ ≡ a.val * b.val [MOD prime] := by
      unfold Nat.ModEq
      rw [Nat.add_mul_mod_self_right]

end Gpuhash
end Slipstream
