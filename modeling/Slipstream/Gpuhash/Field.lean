import Slipstream.Gpuhash.Lemmas.Represents

/-!
This module contains the exactness of the shader's field arithmetic: no word operation loses a
carry, and on reduced operands every field operation returns the reduced result.
-/

namespace Slipstream
namespace Gpuhash

theorem Fp.Canonical.represents {a : Fp} (h : a.Canonical) : a.Represents (a.val : ZMod prime) where
  canonical := h
  cast := rfl

theorem fpCanonMul_val {a b : Fp} (ha : a.Canonical) (hb : b.Canonical)
    : (fpCanonMul a b).val = a.val * b.val % prime := by
  have hval := (ha.represents.mul hb.represents).val_eq
  rwa [← Nat.cast_mul, ZMod.val_natCast] at hval

theorem field_exact {a b : Fp} (ha : a.Canonical) (hb : b.Canonical)
    : (∀ x y : U32, (mul32 x y).1.toNat + 2 ^ 32 * (mul32 x y).2.toNat = x.toNat * y.toNat)
      ∧ (∀ x y c d : U32, (mac x y c d).1.toNat + 2 ^ 32 * (mac x y c d).2.toNat
        = x.toNat * y.toNat + c.toNat + d.toNat)
      ∧ (∀ x y c : U32, (adc x y c).1.toNat + 2 ^ 32 * (adc x y c).2.toNat
        = x.toNat + y.toNat + c.toNat)
      ∧ (montMul a b).val = ((a.val : ZMod prime) * b.val * (2 ^ 256)⁻¹).val
      ∧ (fpCanonMul a b).val = a.val * b.val % prime
      ∧ (fpAdd a b).val = (a.val + b.val) % prime
      ∧ ((fpSub a b).val : Int) = ((a.val : Int) - b.val) % prime
      ∧ (a.val ≠ 0 → (fpInv a).val = ((a.val : ZMod prime)⁻¹).val) := by
  refine ⟨mul32_toNat, mac_toNat, adc_toNat, ?_, fpCanonMul_val ha hb, fpAdd_val ha hb, ?_, ?_⟩
  . exact (ha.represents.montMul hb.represents).val_eq
  . have hle : b.val ≤ a.val + prime :=
      Nat.le_trans (Nat.le_of_lt hb) (Nat.le_add_left _ _)
    rw [fpSub_val ha hb, Int.natCast_emod, Int.natCast_sub hle, Int.natCast_add]
    rw [add_sub_right_comm, Int.add_emod_right]
  . intro hne
    apply (ha.represents.inv _).val_eq
    intro hzero
    have hdvd := (ZMod.natCast_eq_zero_iff a.val prime).mp hzero
    exact absurd (Nat.le_of_dvd (Nat.pos_of_ne_zero hne) hdvd) (Nat.not_le.mpr ha)

def minusOne : Fp where
  l := 0 :: P.tail
  size := rfl

theorem field_exact_minusOne
    : (fpCanonMul minusOne R2).val = minusOne.val * R2.val % prime
      ∧ (fpInv minusOne).val = ((minusOne.val : ZMod prime)⁻¹).val := by
  have hminusOne : minusOne.Canonical := by decide +kernel
  have hR2 : R2.Canonical := by decide +kernel
  obtain ⟨-, -, -, -, hmul, -, -, hinv⟩ := field_exact hminusOne hR2
  refine ⟨hmul, hinv ?_⟩
  decide +kernel

example : fpCanonMul minusOne minusOne = fpOne := by decide +kernel

end Gpuhash
end Slipstream
