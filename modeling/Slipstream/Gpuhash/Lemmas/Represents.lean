import Slipstream.Gpuhash.Impl.Pallas
import Slipstream.Gpuhash.Lemmas.Prime
import Mathlib.FieldTheory.Finite.Basic

/-!
This module contains what the limb operations compute in the field `ZMod prime`.
-/

namespace Slipstream
namespace Gpuhash

theorem limbBit_toNat (l : List U32) (b : Nat)
    : (limbBit l b).toNat = ((Limbs.value l).testBit b).toNat := by
  rw [Limbs.testBit_value l (by decide), limbBit, List.getD_eq_getElem?_getD]
  cases l[b / 32]? with
  | none => simp
  | some x =>
    have hone : (1 : U32).toNat = 1 := rfl
    rw [Option.getD_some, Option.any_some, BitVec.toNat_and, hone, Nat.and_one_is_mod,
      BitVec.toNat_ushiftRight, Nat.shiftRight_eq_div_pow, BitVec.getLsbD, Nat.toNat_testBit]

instance : Fact prime.Prime := ⟨prime_prime⟩

structure Fp.Represents (a : Fp) (x : ZMod prime) : Prop where
  canonical : a.Canonical
  cast : (a.val : ZMod prime) = x

namespace Fp
namespace Represents

variable {a b : Fp} {x y : ZMod prime}

theorem of_val {n : Nat} (hval : a.val = n % prime) (hcast : (n : ZMod prime) = x)
    : a.Represents x where
  canonical := by
    rw [Canonical, hval]
    apply Nat.mod_lt _ prime_pos
  cast := by rw [hval, ZMod.natCast_mod, hcast]

theorem val_eq (h : a.Represents x) : a.val = x.val := by
  rw [← h.cast, ZMod.val_natCast, Nat.mod_eq_of_lt h.canonical]

theorem add (ha : a.Represents x) (hb : b.Represents y) : (fpAdd a b).Represents (x + y) := by
  apply of_val (fpAdd_val ha.canonical hb.canonical)
  rw [Nat.cast_add, ha.cast, hb.cast]

theorem sub (ha : a.Represents x) (hb : b.Represents y) : (fpSub a b).Represents (x - y) := by
  have hle : b.val ≤ a.val + prime := Nat.le_trans (Nat.le_of_lt hb.canonical) (Nat.le_add_left _ _)
  apply of_val (fpSub_val ha.canonical hb.canonical)
  rw [Nat.cast_sub hle, Nat.cast_add, ZMod.natCast_self, add_zero, ha.cast, hb.cast]

theorem two_ne_zero : (2 : ZMod prime) ≠ 0 := by
  intro h
  have hdvd := (ZMod.natCast_eq_zero_iff 2 prime).mp h
  exact absurd (Nat.le_of_dvd (by decide) hdvd) (by decide)

theorem montMul (ha : a.Represents x) (hb : b.Represents y)
    : (montMul a b).Represents (x * y * (2 ^ 256)⁻¹) where
  canonical := montMul_canonical b ha.canonical
  cast := by
    have hcast := (ZMod.natCast_eq_natCast_iff _ _ prime).mpr (montMul_modEq b ha.canonical)
    rw [Nat.cast_mul, Nat.cast_mul, Nat.cast_pow, ha.cast, hb.cast] at hcast
    exact (eq_mul_inv_iff_mul_eq₀ (pow_ne_zero 256 two_ne_zero)).mpr hcast

theorem r2 : R2.Represents (2 ^ 512) := by
  have hval : R2.val = 2 ^ 512 % prime := by decide +kernel
  apply of_val hval
  rw [Nat.cast_pow, Nat.cast_ofNat]

theorem mul (ha : a.Represents x) (hb : b.Represents y) : (fpCanonMul a b).Represents (x * y) := by
  have hne : (2 : ZMod prime) ^ 256 ≠ 0 := pow_ne_zero 256 two_ne_zero
  have hcancel : x * y * (2 ^ 256)⁻¹ * 2 ^ 512 * (2 ^ 256)⁻¹ = x * y := by
    rw [pow_add 2 256 256]
    generalize (2 : ZMod prime) ^ 256 = r at hne
    field_simp
  rw [← hcancel]
  exact (ha.montMul hb).montMul r2

theorem one : fpOne.Represents 1 := by
  apply of_val (n := 1) rfl
  rw [Nat.cast_one]

theorem inv (ha : a.Represents x) (hx : x ≠ 0) : (fpInv a).Represents x⁻¹ := by
  have hpow := Power.loop_holds Fp.Represents mul (e := prime - 2) ha 255 one
  have hlt : prime - 2 < 2 ^ 255 := by decide
  rw [one_pow, one_mul, Nat.mod_eq_of_lt hlt] at hpow
  have hinv : x ^ (prime - 2) = x⁻¹ := by
    apply eq_inv_of_mul_eq_one_left
    rw [← pow_succ]
    exact ZMod.pow_card_sub_one_eq_one hx
  have hbit : (fun bitIdx => limbBit PMinus2 bitIdx == 1) = (prime - 2).testBit := by
    funext i
    have hvalue : prime - 2 = Limbs.value PMinus2 := rfl
    have htoNat := limbBit_toNat PMinus2 i
    rw [hvalue]
    cases hbit : (Limbs.value PMinus2).testBit i with
    | true =>
      rw [hbit] at htoNat
      exact beq_iff_eq.mpr (BitVec.eq_of_toNat_eq htoNat)
    | false =>
      rw [hbit] at htoNat
      rw [beq_eq_false_iff_ne]
      intro hone
      rw [hone] at htoNat
      exact absurd htoNat (by decide)
  rw [fpInv, hbit, ← hinv]
  exact hpow

end Represents
end Fp
end Gpuhash
end Slipstream
