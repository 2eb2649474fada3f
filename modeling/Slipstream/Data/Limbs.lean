import Mathlib.Algebra.Ring.Int.Defs
import Mathlib.Algebra.Ring.Nat
import Mathlib.Tactic.LinearCombination
import Mathlib.Tactic.Ring

/-!
This module contains numbers as little-endian lists of machine words: their value, loops that pass a
carry or a borrow on from word to word, and comparison from the top word down.
-/

namespace Limbs

variable {w : Nat}

def value : List (BitVec w) → Nat
  | [] => 0
  | x :: xs => x.toNat + 2 ^ w * value xs

@[simp]
theorem value_nil : value ([] : List (BitVec w)) = 0 := rfl

@[simp]
theorem value_cons (x : BitVec w) (xs : List (BitVec w))
    : value (x :: xs) = x.toNat + 2 ^ w * value xs := rfl

theorem value_append (xs ys : List (BitVec w))
    : value (xs ++ ys) = value xs + 2 ^ (w * xs.length) * value ys := by
  induction xs with
  | nil => simp
  | cons x xs ih =>
    rw [List.cons_append, value_cons, value_cons, ih, List.length_cons, Nat.mul_succ, Nat.pow_add]
    ring

theorem value_lt (xs : List (BitVec w)) : value xs < 2 ^ (w * xs.length) := by
  induction xs with
  | nil => simp
  | cons x xs ih =>
    have hx := x.isLt
    calc
      value (x :: xs) < 2 ^ w + 2 ^ w * value xs := Nat.add_lt_add_right hx _
      _ = 2 ^ w * (value xs + 1) := by ring
      _ ≤ 2 ^ w * 2 ^ (w * xs.length) := Nat.mul_le_mul_left _ ih
      _ = 2 ^ (w * (x :: xs).length) := by rw [List.length_cons, Nat.mul_succ, Nat.pow_add, Nat.mul_comm]

theorem value_inj {xs ys : List (BitVec w)} (hlength : xs.length = ys.length)
    (h : value xs = value ys) : xs = ys := by
  induction xs generalizing ys with
  | nil => exact (List.length_eq_zero_iff.mp hlength.symm).symm
  | cons x xs ih =>
    cases ys with
    | nil => cases hlength
    | cons y ys =>
      rw [value_cons, value_cons] at h
      have hx := x.isLt
      have hy := y.isLt
      have hpos := Nat.two_pow_pos w
      have hhead : x.toNat = y.toNat := by
        have := congrArg (· % 2 ^ w) h
        simpa [Nat.add_mul_mod_self_left, Nat.mod_eq_of_lt hx, Nat.mod_eq_of_lt hy] using this
      have htail : value xs = value ys := by
        rw [hhead] at h
        exact Nat.eq_of_mul_eq_mul_left hpos (Nat.add_left_cancel h)
      rw [BitVec.eq_of_toNat_eq hhead, ih (Nat.succ.inj hlength) htail]

theorem value_eq_zero_iff (xs : List (BitVec w)) : value xs = 0 ↔ ∀ x ∈ xs, x = 0 := by
  induction xs with
  | nil => simp
  | cons x xs ih =>
    have hx : x.toNat = 0 ↔ x = 0 := by simp [BitVec.toNat_eq]
    have hpow : 2 ^ w ≠ 0 := Nat.ne_of_gt (Nat.two_pow_pos w)
    rw [value_cons, List.forall_mem_cons, Nat.add_eq_zero_iff, Nat.mul_eq_zero, or_iff_right hpow, ih, hx]

theorem testBit_value (xs : List (BitVec w)) (hw : 0 < w) (i : Nat)
    : (value xs).testBit i = (xs[i / w]?).any fun x => x.getLsbD (i % w) := by
  induction xs generalizing i with
  | nil => simp
  | cons x xs ih =>
    rw [value_cons, Nat.add_comm, Nat.testBit_two_pow_mul_add _ x.isLt]
    split
    . next hi => simp [Nat.div_eq_of_lt hi, Nat.mod_eq_of_lt hi, BitVec.getLsbD]
    . next hi =>
      have hle : w ≤ i := Nat.le_of_not_lt hi
      have hdiv : i / w = (i - w) / w + 1 := by rw [Nat.div_eq_sub_div hw hle]
      have hmod : i % w = (i - w) % w := by rw [Nat.mod_eq_sub_mod hle]
      rw [ih, hdiv, hmod, List.getElem?_cons_succ]

def ripple (f : BitVec w → BitVec w → BitVec w → BitVec w × BitVec w)
    : List (BitVec w) → List (BitVec w) → BitVec w → List (BitVec w) × BitVec w
  | x :: xs, y :: ys, c =>
    let r := f x y c
    let rest := ripple f xs ys r.2
    (r.1 :: rest.1, rest.2)
  | _, _, c => ([], c)

variable {f : BitVec w → BitVec w → BitVec w → BitVec w × BitVec w} {xs ys : List (BitVec w)}

theorem ripple_length (hlength : xs.length = ys.length) (c : BitVec w)
    : (ripple f xs ys c).1.length = xs.length := by
  induction xs generalizing ys c with
  | nil => rfl
  | cons x xs ih =>
    cases ys with
    | nil => cases hlength
    | cons y ys => rw [ripple, List.length_cons, ih (Nat.succ.inj hlength), List.length_cons]

theorem ripple_value {k l s : Int}
    (hf : ∀ x y c, ((f x y c).1.toNat : Int) + 2 ^ w * (s * (f x y c).2.toNat)
      = k * x.toNat + l * y.toNat + s * c.toNat)
    (hlength : xs.length = ys.length) (c : BitVec w)
    : (value (ripple f xs ys c).1 : Int) + 2 ^ (w * xs.length) * (s * (ripple f xs ys c).2.toNat)
      = k * value xs + l * value ys + s * c.toNat := by
  induction xs generalizing ys c with
  | nil =>
    cases List.length_eq_zero_iff.mp hlength.symm
    simp [ripple]
  | cons x xs ih =>
    cases ys with
    | nil => cases hlength
    | cons y ys =>
      have hturn := hf x y c
      have hrest := ih (Nat.succ.inj hlength) (f x y c).2
      rw [ripple, value_cons, value_cons, value_cons, List.length_cons, Nat.mul_succ, pow_add]
      push_cast
      linear_combination hturn + 2 ^ w * hrest

def geq : List (BitVec w × BitVec w) → Bool
  | [] => true
  | (x, y) :: rest =>
    if y < x then
      true
    else if x < y then
      false
    else
      geq rest

theorem geq_concat (pairs : List (BitVec w × BitVec w)) (x y : BitVec w)
    : geq (pairs ++ [(x, y)])
      = if pairs.all fun d => d.1 == d.2 then decide (y ≤ x) else geq pairs := by
  induction pairs with
  | nil =>
    simp only [List.nil_append, geq, List.all_nil, if_true]
    split
    . next h => simp [BitVec.le_of_lt h]
    . next h =>
      split
      . next h' => simpa [BitVec.not_le] using h'
      . next h' => simpa [BitVec.not_lt] using h'
  | cons d pairs ih =>
    rw [List.cons_append, geq, geq, ih, List.all_cons]
    split
    . next h =>
      have hne : (d.1 == d.2) = false := beq_eq_false_iff_ne.mpr (BitVec.ne_of_lt h).symm
      simp [hne]
    . split
      . next h =>
        have hne : (d.1 == d.2) = false := beq_eq_false_iff_ne.mpr (BitVec.ne_of_lt h)
        simp [hne]
      . next h h' =>
        have heq : d.1 = d.2 := BitVec.le_antisymm (BitVec.not_lt.mp h) (BitVec.not_lt.mp h')
        simp [heq]

theorem all_zip_iff {xs ys : List (BitVec w)} (hlength : xs.length = ys.length)
    : ((xs.zip ys).reverse.all fun d => d.1 == d.2) = true ↔ xs = ys := by
  rw [List.all_reverse]
  induction xs generalizing ys with
  | nil =>
    cases List.length_eq_zero_iff.mp hlength.symm
    simp
  | cons x xs ih =>
    cases ys with
    | nil => cases hlength
    | cons y ys => simp [ih (Nat.succ.inj hlength)]

theorem geq_value {xs ys : List (BitVec w)} (hlength : xs.length = ys.length)
    : geq (xs.zip ys).reverse = decide (value ys ≤ value xs) := by
  induction xs generalizing ys with
  | nil =>
    cases List.length_eq_zero_iff.mp hlength.symm
    rfl
  | cons x xs ih =>
    cases ys with
    | nil => cases hlength
    | cons y ys =>
      have htails : xs.length = ys.length := Nat.succ.inj hlength
      rw [List.zip_cons_cons, List.reverse_cons, geq_concat, value_cons, value_cons]
      split
      . next hall =>
        cases (all_zip_iff htails).mp hall
        simp [BitVec.le_def]
      . next hall =>
        have hne : value xs ≠ value ys := by
          intro heq
          exact hall ((all_zip_iff htails).mpr (value_inj htails heq))
        rw [ih htails, decide_eq_decide]
        -- The tails differ, so they decide.
        have hx := x.isLt
        have hy := y.isLt
        constructor
        . intro hle
          have hlt : value ys + 1 ≤ value xs := Nat.lt_of_le_of_ne hle (Ne.symm hne)
          have := Nat.mul_le_mul_left (2 ^ w) hlt
          rw [Nat.mul_succ] at this
          omega
        . intro hle
          by_contra hcontra
          have hlt : value xs + 1 ≤ value ys := Nat.lt_of_not_le hcontra
          have := Nat.mul_le_mul_left (2 ^ w) hlt
          rw [Nat.mul_succ] at this
          omega

end Limbs
