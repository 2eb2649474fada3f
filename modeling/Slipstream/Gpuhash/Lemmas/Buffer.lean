import Slipstream.Gpuhash.Impl.Host

/-!
This module contains the storage buffers: what they hold at an offset, the loops that load and store
eight words, and tables of blocks of one size.
-/

namespace Slipstream
namespace Gpuhash

theorem getElem?_flatMap_block {f : α → List β} {k : Nat} (hf : ∀ x, (f x).length = k) {l : List α}
    {i : Nat} {x : α} (hx : l[i]? = some x) {j : Nat} (hj : j < k)
    : (l.flatMap f)[k * i + j]? = (f x)[j]? := by
  induction l generalizing i with
  | nil => cases hx
  | cons y l ih =>
    rw [List.flatMap_cons]
    cases i with
    | zero =>
      cases hx
      rw [Nat.mul_zero, Nat.zero_add, List.getElem?_append_left (by rwa [hf])]
    | succ i =>
      have hle : (f y).length ≤ k * (i + 1) + j := by
        rw [hf, Nat.mul_succ]
        omega
      have hoffset : k * (i + 1) + j - (f y).length = k * i + j := by
        rw [hf, Nat.mul_succ]
        omega
      rw [List.getElem?_append_right hle, hoffset]
      exact ih hx

namespace Buffer

variable {buf : Buffer} {o : Nat} {ws xs ys : List U32}

def Holds (buf : Buffer) (o : Nat) (ws : List U32) : Prop :=
  ∀ i < ws.length, buf.words[o + i]? = ws[i]?

theorem Holds.lt (h : buf.Holds o ws) {i : Nat} (hi : i < ws.length) : o + i < 2 ^ 32 := by
  have hword := h i hi
  rw [List.getElem?_eq_getElem hi, List.getElem?_eq_some_iff] at hword
  exact Nat.lt_trans hword.1 buf.size

theorem Holds.left (h : buf.Holds o (xs ++ ys)) : buf.Holds o xs := by
  intro i hi
  have hlt : i < (xs ++ ys).length := by
    rw [List.length_append]
    omega
  rw [h i hlt, List.getElem?_append_left hi]

theorem Holds.right (h : buf.Holds o (xs ++ ys)) : buf.Holds (o + xs.length) ys := by
  intro i hi
  have hlt : xs.length + i < (xs ++ ys).length := by
    rw [List.length_append]
    omega
  rw [Nat.add_assoc, h _ hlt, List.getElem?_append_right (Nat.le_add_right _ _), Nat.add_sub_cancel_left]

theorem index_toNat {b : U32} (hb : b.toNat = o) {i : Nat} (hi : o + i < 2 ^ 32)
    : (b + .ofNat 32 i).toNat = o + i := by
  rw [BitVec.toNat_add, BitVec.toNat_ofNat, hb]
  omega

theorem Holds.read (h : buf.Holds o ws) {b : U32} (hb : b.toNat = o) {i : Nat} (hi : i < ws.length)
    : buf.read (b + .ofNat 32 i) = ws.getD i 0 := by
  rw [Buffer.read, index_toNat hb (h.lt hi), List.getD_eq_getElem?_getD, h i hi,
    List.getD_eq_getElem?_getD]

theorem Holds.load (h : buf.Holds o ws) (hsize : ws.length = 8) {b : U32} (hb : b.toNat = o)
    : (buf.load b).l = ws := by
  apply List.ext_getElem?
  intro i
  rw [Buffer.load, List.getElem?_map]
  by_cases hi : i < 8
  . have hlt : i < ws.length := by rwa [hsize]
    rw [List.getElem?_range hi, Option.map_some, h.read hb hlt, List.getD_eq_getElem?_getD,
      List.getElem?_eq_getElem hlt, Option.getD_some]
  . have hle : 8 ≤ i := Nat.le_of_not_lt hi
    rw [List.getElem?_eq_none (by rwa [List.length_range]), List.getElem?_eq_none (by rwa [hsize])]
    rfl

theorem store_length (buf : Buffer) (index value : Nat → U32) (is : List Nat)
    : (is.foldl (fun buf i => buf.write (index i) (value i)) buf).words.length = buf.words.length := by
  induction is generalizing buf with
  | nil => rfl
  | cons i is ih => rw [List.foldl_cons, ih, write, List.length_set]

theorem store_words (buf : Buffer) {b : U32} {n : Nat} (hn : b.toNat + n ≤ buf.words.length)
    (ws : List U32) (k : Nat)
    : ((List.range n).foldl (fun buf i => buf.write (b + .ofNat 32 i) (ws.getD i 0)) buf).words[k]?
      = if b.toNat ≤ k ∧ k < b.toNat + n then some (ws.getD (k - b.toNat) 0) else buf.words[k]? := by
  induction n generalizing k with
  | zero =>
    rw [if_neg (by omega)]
    rfl
  | succ n ih =>
    have hindex : (b + .ofNat 32 n).toNat = b.toNat + n := index_toNat rfl (Nat.lt_trans hn buf.size)
    rw [List.range_succ, List.foldl_append, List.foldl_cons, List.foldl_nil, write, List.getElem?_set,
      hindex, store_length, ih (Nat.le_of_succ_le hn)]
    by_cases hk : b.toNat + n = k
    . rw [if_pos hk, if_pos (by omega), if_pos (by omega), ← hk, Nat.add_sub_cancel_left]
    . rw [if_neg hk]
      apply if_congr _ rfl rfl
      omega

end Buffer
end Gpuhash
end Slipstream
