import Slipstream.Gpuhash.Lemmas.Pallas
import Slipstream.Sinsemilla.Curve

/-!
This module contains the point operations in the group of the Pallas curve `y ^ 2 = x ^ 3 + 5`: doubling
is right for every point, addition for every pair but a point and itself.
-/

namespace Slipstream
namespace Gpuhash

open Sinsemilla (IsPoint curve incompleteAdd incompleteAdd_eq_none_iff)
open WeierstrassCurve

inductive Pt.IsGroup (p : Pt) : (curve (5 : ZMod prime)).Point → Prop
  | identity (h : p.z.Represents 0) : p.IsGroup 0
  | affine {a : ZMod prime × ZMod prime} {z : ZMod prime} {P : (curve (5 : ZMod prime)).Point}
      (h : p.Stands a z) (hP : IsPoint a P) : p.IsGroup P

variable {p q : Pt} {P Q : (curve (5 : ZMod prime)).Point}

theorem ptAdd_isGroup (hp : p.IsGroup P) (hq : q.IsGroup Q) (hne : P = Q → P + P = 0)
    : (ptAdd p q).IsGroup (P + Q) := by
  cases hp with
  | identity hz =>
    rw [ptAdd, if_pos (hz.isZero_iff.mpr rfl), zero_add]
    exact hq
  | affine hstands hP =>
    cases hq with
    | identity hz =>
      rw [ptAdd, if_neg (Bool.eq_false_iff.mp hstands.isZero_eq), if_pos (hz.isZero_iff.mpr rfl),
        add_zero]
      exact .affine hstands hP
    | affine hstands' hQ =>
      rename_i a z b w
      cases hadd : incompleteAdd a b with
      | some t => exact .affine (hstands.add hstands' hadd) (hP.incompleteAdd hQ hadd)
      | none =>
        have hx : a.1 = b.1 := (incompleteAdd_eq_none_iff a b).mp hadd
        have hsum : P + Q = 0 := by
          rcases hP.eq_or_add_eq_zero hQ hx with rfl | hsum
          . exact hne rfl
          . exact hsum
        rw [hsum]
        apply Pt.IsGroup.identity
        apply (hstands.add_z hstands').of_eq
        rw [hx, sub_self, mul_zero]

theorem ptDouble_isGroup (hp : p.IsGroup P) : (ptDouble p).IsGroup (P + P) := by
  cases hp with
  | identity hz =>
    rw [ptDouble, if_pos (hz.isZero_iff.mpr rfl), add_zero]
    exact .identity hz
  | affine hstands hP =>
    rename_i a z
    by_cases hy : a.2 = 0
    . rw [hP.add_self_eq_zero hy]
      apply Pt.IsGroup.identity
      apply hstands.double_z.of_eq
      rw [hy, mul_zero, zero_mul]
    . have htwo := Fp.Represents.two_ne_zero
      have hl : 3 * a.1 ^ 2 / (2 * a.2) * (2 * a.2) = 3 * a.1 ^ 2 := by
        exact div_mul_cancel₀ _ (mul_ne_zero htwo hy)
      exact .affine (hstands.double hy hl) (hP.add_self htwo hy hl)

section Sample

def atMinusOne (y : Fp) : Pt where
  x := fpSub (fpSub fpOne fpOne) fpOne
  y
  z := fpOne

theorem nonsingular_minusOne {y : ZMod prime} (hy : y ^ 2 = 4)
    : (curve (5 : ZMod prime)).Nonsingular (-1) y := by
  have htwo := Fp.Represents.two_ne_zero
  have hne : y ≠ -y := by
    intro heq
    have hdouble : 2 * y = 0 := by linear_combination heq
    have hzero : y = 0 := (mul_eq_zero.mp hdouble).resolve_left htwo
    rw [hzero] at hy
    exact htwo (pow_eq_zero_iff two_ne_zero |>.mp (by linear_combination -hy))
  rw [Affine.nonsingular_iff, Affine.equation_iff]
  simp only [curve]
  refine ⟨by linear_combination hy, Or.inr ?_⟩
  simpa using hne

theorem atMinusOne_isGroup {y : Fp} {v : ZMod prime} (hy : y.Represents v) (hv : v ^ 2 = 4)
    : (atMinusOne y).IsGroup (.some (-1) v (nonsingular_minusOne hv)) := by
  have hstands : (atMinusOne y).Stands (-1, v) 1 := by
    constructor
    . exact one_ne_zero
    . exact ((Fp.Represents.one.sub .one).sub .one).of_eq (by ring)
    . exact hy.of_eq (by ring)
    . exact .one
  exact .affine hstands ⟨nonsingular_minusOne hv, rfl⟩

theorem ptAdd_isGroup_opposite
    : ∃ P Q, (ptAdd (atMinusOne (fpDbl fpOne)) (atMinusOne (fpSub fpOne (fpTri fpOne)))).IsGroup (P + Q)
      ∧ P ≠ Q := by
  have hne : (1 + 1 : ZMod prime) ≠ 1 - (1 + 1 + 1) := by
    intro heq
    exact Fp.Represents.two_ne_zero (pow_eq_zero_iff two_ne_zero |>.mp (by linear_combination heq))
  have hpoints : (.some (-1) (1 + 1) (nonsingular_minusOne (by ring)) : (curve (5 : ZMod prime)).Point)
      ≠ .some (-1) (1 - (1 + 1 + 1)) (nonsingular_minusOne (by ring)) := by
    simpa using hne
  refine ⟨_, _, ptAdd_isGroup (atMinusOne_isGroup Fp.Represents.one.dbl (by ring))
    (atMinusOne_isGroup (Fp.Represents.one.sub Fp.Represents.one.tri) (by ring)) ?_, hpoints⟩
  exact fun heq => absurd heq hpoints

theorem ptDouble_isGroup_two
    : ∃ P, (ptDouble (atMinusOne (fpDbl fpOne))).IsGroup (P + P) ∧ P ≠ 0 :=
  ⟨_, ptDouble_isGroup (atMinusOne_isGroup Fp.Represents.one.dbl (by ring)), nofun⟩

end Sample

end Gpuhash
end Slipstream
