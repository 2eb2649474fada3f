import Mathlib.NumberTheory.LucasPrimality

/-!
This module contains the left-to-right square-and-multiply loop over any multiplication, and Lucas'
primality test with powers computed by it.
-/

namespace Slipstream
namespace Power

def loop {α : Type} (mul : α → α → α) (bit : Nat → Bool) (a : α) : Nat → α → α
  | 0, r => r
  | n + 1, r => loop mul bit a n (if bit n then mul (mul r r) a else mul r r)

section Loop

variable {α : Type} {mul : α → α → α} {M : Type} [CommMonoid M] (holds : α → M → Prop)

theorem loop_holds (hmul : ∀ {r s x y}, holds r x → holds s y → holds (mul r s) (x * y)) {e : Nat}
    {a : α} {x : M} (ha : holds a x) (n : Nat) {r : α} {y : M} (hr : holds r y)
    : holds (loop mul e.testBit a n r) (y ^ 2 ^ n * x ^ (e % 2 ^ n)) := by
  induction n generalizing r y with
  | zero =>
    rw [pow_zero, pow_one, Nat.mod_one, pow_zero, mul_one]
    exact hr
  | succ n ih =>
    rw [loop, Nat.mod_pow_succ, ← Nat.toNat_testBit, Nat.add_comm (e % 2 ^ n)]
    cases hbit : e.testBit n with
    | true =>
      have hturn := ih (hmul (hmul hr hr) ha)
      have hpow : (y * y * x) ^ 2 ^ n * x ^ (e % 2 ^ n)
          = y ^ 2 ^ (n + 1) * x ^ (2 ^ n * true.toNat + e % 2 ^ n) := by
        rw [mul_pow, ← pow_two, ← pow_mul, mul_assoc, ← pow_add, Nat.pow_succ', Bool.toNat_true,
          Nat.mul_one]
      rwa [hpow] at hturn
    | false =>
      have hturn := ih (hmul hr hr)
      rw [← pow_two, ← pow_mul, ← Nat.pow_succ'] at hturn
      simpa using hturn

end Loop

def powMod (m a e : Nat) : Nat :=
  loop (fun x y => x * y % m) e.testBit a (e.log2 + 1) 1

theorem powMod_cast (m a e : Nat) : (powMod m a e : ZMod m) = (a : ZMod m) ^ e := by
  have hmul : ∀ {r s : Nat} {x y : ZMod m}, (r : ZMod m) = x → (s : ZMod m) = y
      → ((r * s % m : Nat) : ZMod m) = x * y := by
    intro r s x y hr hs
    rw [ZMod.natCast_mod, Nat.cast_mul, hr, hs]
  have hpow := loop_holds (fun (r : Nat) (x : ZMod m) => (r : ZMod m) = x) hmul (e := e) (a := a) rfl
    (e.log2 + 1) Nat.cast_one
  rwa [one_pow, one_mul, Nat.mod_eq_of_lt Nat.lt_log2_self] at hpow

def passes (n a : Nat) (qs : List Nat) : Bool :=
  1 < n && qs.prod ^ n.log2 % (n - 1) == 0 && powMod n a (n - 1) == 1
    && qs.all fun q => powMod n a ((n - 1) / q) % n != 1

theorem prime_of_passes {n a : Nat} {qs : List Nat} (hqs : ∀ q ∈ qs, q.Prime)
    (h : passes n a qs = true) : n.Prime := by
  simp only [passes, Bool.and_eq_true, decide_eq_true_eq, beq_iff_eq, List.all_eq_true, bne_iff_ne] at h
  obtain ⟨⟨⟨hn, hfactors⟩, hone⟩, hne⟩ := h
  apply lucas_primality n (a : ZMod n)
  . rw [← powMod_cast, hone, Nat.cast_one]
  . intro q hq hdvd hpow
    have hprod : q ∣ qs.prod := hq.dvd_of_dvd_pow (hdvd.trans (Nat.dvd_of_mod_eq_zero hfactors))
    obtain ⟨q', hmem, hdvd'⟩ := (Prime.dvd_prod_iff hq.prime).mp hprod
    rw [← (Nat.prime_dvd_prime_iff_eq hq (hqs q' hmem)).mp hdvd'] at hmem
    apply hne q hmem
    rw [← powMod_cast] at hpow
    have hmod := (ZMod.natCast_eq_natCast_iff' _ 1 n).mp (hpow.trans Nat.cast_one.symm)
    rwa [Nat.mod_eq_of_lt hn] at hmod

end Power
end Slipstream
