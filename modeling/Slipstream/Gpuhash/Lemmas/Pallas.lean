import Slipstream.Gpuhash.Lemmas.Represents
import Slipstream.Sinsemilla.Batch

/-!
This module contains what the Jacobian point operations compute in affine coordinates.
-/

namespace Slipstream
namespace Gpuhash

open Sinsemilla (incompleteAdd)

namespace Fp.Represents

variable {a b : Fp} {x y : ZMod prime}

theorem of_eq (h : a.Represents x) (heq : x = y) : a.Represents y := heq ▸ h

theorem unique (ha : a.Represents x) (hb : b.Represents x) : a.l = b.l := by
  apply Limbs.value_inj (a.size.trans b.size.symm)
  exact ha.val_eq.trans hb.val_eq.symm

theorem dbl (h : a.Represents x) : (fpDbl a).Represents (x + x) := h.add h

theorem tri (h : a.Represents x) : (fpTri a).Represents (x + x + x) := h.dbl.add h

theorem isZero_iff (h : a.Represents x) : fpIsZero a = true ↔ x = 0 := by
  rw [← ZMod.val_eq_zero, ← h.val_eq, Fp.val, Limbs.value_eq_zero_iff, fpIsZero, List.all_eq_true]
  simp only [beq_iff_eq]

end Fp.Represents

structure Pt.Stands (p : Pt) (a : ZMod prime × ZMod prime) (z : ZMod prime) : Prop where
  finite : z ≠ 0
  x : p.x.Represents (a.1 * z ^ 2)
  y : p.y.Represents (a.2 * z ^ 3)
  z : p.z.Represents z

namespace Pt.Stands

variable {p q : Pt} {a b t : ZMod prime × ZMod prime} {z w : ZMod prime}

theorem isZero_eq (h : p.Stands a z) : fpIsZero p.z = false := by
  rw [Bool.eq_false_iff, ne_eq, h.z.isZero_iff]
  exact h.finite

theorem add_z (hp : p.Stands a z) (hq : q.Stands b w)
    : (ptAdd p q).z.Represents (2 * z ^ 3 * w ^ 3 * (b.1 - a.1)) := by
  have hz1z1 := hp.z.mul hp.z
  have hz2z2 := hq.z.mul hq.z
  have hh := (hq.x.mul hz1z1).sub (hp.x.mul hz2z2)
  have hzs := hp.z.add hq.z
  have hz3 := (((hzs.mul hzs).sub hz1z1).sub hz2z2).mul hh
  rw [ptAdd, if_neg (Bool.eq_false_iff.mp hp.isZero_eq), if_neg (Bool.eq_false_iff.mp hq.isZero_eq)]
  dsimp only
  apply hz3.of_eq
  ring

theorem add (hp : p.Stands a z) (hq : q.Stands b w) (ht : incompleteAdd a b = some t)
    : (ptAdd p q).Stands t (2 * z ^ 3 * w ^ 3 * (b.1 - a.1)) := by
  have hne : a.1 ≠ b.1 := by
    intro hx
    rw [(Sinsemilla.incompleteAdd_eq_none_iff a b).mpr hx] at ht
    cases ht
  have hd : b.1 - a.1 ≠ 0 := sub_ne_zero.mpr hne.symm
  rw [incompleteAdd, if_neg hne, Option.some.injEq] at ht
  -- The slope, by what the formulas use of it.
  have hslope : (b.2 - a.2) * (b.1 - a.1)⁻¹ * (b.1 - a.1) = b.2 - a.2 := by
    rw [mul_assoc, inv_mul_cancel₀ hd, mul_one]
  generalize (b.2 - a.2) * (b.1 - a.1)⁻¹ = l at ht hslope
  have hb : b.2 = a.2 + l * (b.1 - a.1) := by rw [hslope, add_sub_cancel]
  have hz1z1 := hp.z.mul hp.z
  have hz2z2 := hq.z.mul hq.z
  have hu1 := hp.x.mul hz2z2
  have hu2 := hq.x.mul hz1z1
  have hs1 := (hp.y.mul hq.z).mul hz2z2
  have hs2 := (hq.y.mul hp.z).mul hz1z1
  have hh := hu2.sub hu1
  have hi := hh.dbl.mul hh.dbl
  have hj := hh.mul hi
  have hr := (hs2.sub hs1).dbl
  have hv := hu1.mul hi
  have hx3 := ((hr.mul hr).sub hj).sub hv.dbl
  have hy3 := (hr.mul (hv.sub hx3)).sub (hs1.mul hj).dbl
  have hz3 := hp.add_z hq
  rw [ptAdd, if_neg (Bool.eq_false_iff.mp hp.isZero_eq),
    if_neg (Bool.eq_false_iff.mp hq.isZero_eq)] at hz3 ⊢
  constructor
  . apply mul_ne_zero _ hd
    apply mul_ne_zero _ (pow_ne_zero 3 hq.finite)
    exact mul_ne_zero Fp.Represents.two_ne_zero (pow_ne_zero 3 hp.finite)
  . dsimp only
    apply hx3.of_eq
    rw [← ht, hb]
    ring
  . dsimp only
    apply hy3.of_eq
    rw [← ht, hb]
    ring
  . exact hz3

theorem double_z (hp : p.Stands a z) : (ptDouble p).z.Represents (2 * a.2 * z ^ 4) := by
  rw [ptDouble, if_neg (Bool.eq_false_iff.mp hp.isZero_eq)]
  dsimp only
  apply (hp.y.mul hp.z).dbl.of_eq
  ring

theorem double (hp : p.Stands a z) (hy : a.2 ≠ 0) {l : ZMod prime} (hl : l * (2 * a.2) = 3 * a.1 ^ 2)
    : (ptDouble p).Stands (l ^ 2 - 2 * a.1, l * (a.1 - (l ^ 2 - 2 * a.1)) - a.2) (2 * a.2 * z ^ 4) := by
  have haa := hp.x.mul hp.x
  have hbb := hp.y.mul hp.y
  have hcc := hbb.mul hbb
  have hxpb := hp.x.add hbb
  have hdd := (((hxpb.mul hxpb).sub haa).sub hcc).dbl
  have hee := haa.tri
  have hx3 := (hee.mul hee).sub hdd.dbl
  have hy3 := (hee.mul (hdd.sub hx3)).sub hcc.dbl.dbl.dbl
  have hz3 := hp.double_z
  rw [ptDouble, if_neg (Bool.eq_false_iff.mp hp.isZero_eq)] at hz3 ⊢
  constructor
  . apply mul_ne_zero _ (pow_ne_zero 4 hp.finite)
    exact mul_ne_zero Fp.Represents.two_ne_zero hy
  . dsimp only
    apply hx3.of_eq
    linear_combination (-(3 * a.1 ^ 2) - l * (2 * a.2)) * z ^ 8 * hl
  . dsimp only
    apply hy3.of_eq
    linear_combination (9 * a.1 ^ 4 + 6 * a.1 ^ 2 * a.2 * l + 4 * l ^ 2 * a.2 ^ 2 - 12 * a.1 * a.2 ^ 2)
      * z ^ 12 * hl
  . exact hz3

theorem toAffine (h : p.Stands a z)
    : ∃ x y : Fp, ptToAffine p = x.l ++ y.l ∧ x.Represents a.1 ∧ y.Represents a.2 := by
  have hne := h.finite
  have hzinv := h.z.inv hne
  have hzinv2 := hzinv.mul hzinv
  have hzinv3 := hzinv2.mul hzinv
  have hx := h.x.mul hzinv2
  have hy := h.y.mul hzinv3
  refine ⟨_, _, ?_, hx.of_eq ?_, hy.of_eq ?_⟩
  . rw [ptToAffine, if_neg (Bool.eq_false_iff.mp h.isZero_eq)]
  . field_simp
  . field_simp

end Pt.Stands
end Gpuhash
end Slipstream
