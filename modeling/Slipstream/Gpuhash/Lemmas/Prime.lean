import Slipstream.Data.Power
import Slipstream.Gpuhash.Lemmas.Field
import Mathlib.Tactic.NormNum.Prime

/-!
This module contains the primality of the Pallas base field's modulus, from the factorizations that
Lucas' test needs, smallest first.
-/

namespace Slipstream
namespace Gpuhash

open Power (passes prime_of_passes)

theorem prime_897019 : Nat.Prime 897019 := by norm_num

theorem prime_41655379 : Nat.Prime 41655379 := by norm_num

theorem prime_417677162933 : Nat.Prime 417677162933 := by
  have hpasses : passes 417677162933 2 [2, 59, 1973, 897019] = true := by decide +kernel
  apply prime_of_passes _ hpasses
  simp only [List.forall_mem_cons, prime_897019]
  norm_num

theorem prime_539204044132271846773 : Nat.Prime 539204044132271846773 := by
  have hpasses : passes 539204044132271846773 5 [2, 3, 89, 14923, 417677162933] = true := by
    decide +kernel
  apply prime_of_passes _ hpasses
  simp only [List.forall_mem_cons, prime_417677162933]
  norm_num

theorem prime_22160661629 : Nat.Prime 22160661629 := by
  have hpasses : passes 22160661629 3 [2, 7, 19, 41655379] = true := by decide +kernel
  apply prime_of_passes _ hpasses
  simp only [List.forall_mem_cons, prime_41655379]
  norm_num

theorem prime_325086459374267 : Nat.Prime 325086459374267 := by
  have hpasses : passes 325086459374267 2 [2, 509, 413527, 772231] = true := by decide +kernel
  apply prime_of_passes _ hpasses
  simp only [List.forall_mem_cons]
  norm_num

theorem prime_8999194758858563409123804352480028797519453
    : Nat.Prime 8999194758858563409123804352480028797519453 := by
  have hpasses : passes 8999194758858563409123804352480028797519453 2
      [2, 3, 11, 2531, 115603, 1197907, 22160661629, 325086459374267] = true := by
    decide +kernel
  apply prime_of_passes _ hpasses
  simp only [List.forall_mem_cons, prime_22160661629, prime_325086459374267]
  norm_num

theorem prime_prime : prime.Prime := by
  have hpasses : passes prime 5
      [2, 3, 463, 539204044132271846773, 8999194758858563409123804352480028797519453] = true := by
    decide +kernel
  apply prime_of_passes _ hpasses
  simp only [List.forall_mem_cons, prime_539204044132271846773,
    prime_8999194758858563409123804352480028797519453]
  norm_num

end Gpuhash
end Slipstream
