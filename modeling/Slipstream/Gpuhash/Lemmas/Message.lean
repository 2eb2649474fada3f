import Slipstream.Gpuhash.Impl.Host
import Slipstream.Gpuhash.Lemmas.Represents

/-!
This module contains the messages of the two kernels: the words and the bytes of a node have the same
bits, and the chunks are the same numbers.
-/

namespace Slipstream
namespace Gpuhash

open Sinsemilla (Bytes32 Message K byteBit messageBit chunkValue chunkValue_lt chunkIndices)

theorem getLsbD_fromLeBytes (b0 b1 b2 b3 : UInt8) {i : Nat} (hi : i < 32)
    : (fromLeBytes b0 b1 b2 b3).getLsbD i
      = ([b0, b1, b2, b3][i / 8]?).any fun byte => byte.toNat.testBit (i % 8) := by
  have hbyte : ∀ (b : UInt8) (j : Nat), b.toBitVec.getLsbD j = b.toNat.testBit j := fun _ _ => rfl
  have hcases : i / 8 = 0 ∨ i / 8 = 1 ∨ i / 8 = 2 ∨ i / 8 = 3 := by omega
  rw [fromLeBytes]
  simp only [BitVec.getLsbD_append, hbyte]
  rcases hcases with h | h | h | h
  . rw [if_pos (by omega), if_pos (by omega), h, show i % 8 = i by omega]
    rfl
  . rw [if_pos (by omega), if_neg (by omega), h, show i % 8 = i - 8 by omega]
    rfl
  . rw [if_neg (by omega), if_pos (by omega), h, show i % 8 = i - 16 by omega]
    rfl
  . rw [if_neg (by omega), if_neg (by omega), h, show i % 8 = i - 16 - 8 by omega]
    rfl

theorem nodeWords_length (bytes : Bytes32) : (nodeWords bytes).length = 8 := rfl

theorem getLsbD_nodeWords (bytes : Bytes32) {w : Nat} (hw : w < 8) {i : Nat} (hi : i < 32)
    : ((nodeWords bytes).getD w 0).getLsbD i
      = (bytes[4 * w + i / 8]?).any fun byte => byte.toNat.testBit (i % 8) := by
  have hcases : i / 8 = 0 ∨ i / 8 = 1 ∨ i / 8 = 2 ∨ i / 8 = 3 := by omega
  rw [nodeWords, List.getD_eq_getElem?_getD, List.getElem?_ofFn, dif_pos hw, Option.getD_some,
    getLsbD_fromLeBytes _ _ _ _ hi]
  rcases hcases with h | h | h | h
  all_goals
    rw [h, Vector.getElem?_eq_getElem (by omega)]
    rfl

theorem testBit_nodeWords (bytes : Bytes32) (i : Nat)
    : (Limbs.value (nodeWords bytes)).testBit i = byteBit bytes i := by
  rw [Limbs.testBit_value _ (by decide), byteBit]
  by_cases hi : i < 256
  . have hw : i / 32 < (nodeWords bytes).length := by
      rw [nodeWords_length]
      omega
    have hbyte : 4 * (i / 32) + i % 32 / 8 = i / 8 := by omega
    have hbit : i % 32 % 8 = i % 8 := by omega
    have hword := getLsbD_nodeWords bytes hw (Nat.mod_lt i (by decide : 0 < 32))
    rw [List.getD_eq_getElem?_getD, List.getElem?_eq_getElem hw, hbyte, hbit] at hword
    rw [List.getElem?_eq_getElem hw]
    exact hword
  . have hbyte : 32 ≤ i / 8 := by omega
    rw [List.getElem?_eq_none (by rw [nodeWords_length]; omega), Vector.getElem?_eq_none hbyte]
    rfl

def wideMessageBit (layer : Nat) (left right : Bytes32) (i : Nat) : Bool :=
  if i < 10 then
    layer.testBit i
  else if i < 265 then
    byteBit left (i - 10)
  else
    byteBit right (i - 265)

def wideChunkIndices (layer : Nat) (left right : Bytes32) : Message :=
  Vector.ofFn fun c =>
    ⟨chunkValue (fun k => wideMessageBit layer left right (c * 10 + k)) K, chunkValue_lt _ K⟩

theorem chunkIndices_eq (layer : UInt8) (left right : Bytes32)
    : chunkIndices layer left right = wideChunkIndices layer.toNat left right := rfl

section Chunks

variable {layer : U32} {left right : Fp} {leftBytes rightBytes : Bytes32}

theorem msgBit_toNat (hleft : left.l = nodeWords leftBytes) (hright : right.l = nodeWords rightBytes)
    (j : Nat)
    : (msgBit layer left right j).toNat
      = (wideMessageBit layer.toNat leftBytes rightBytes j).toNat := by
  rw [msgBit, wideMessageBit]
  split
  . have hone : (1 : U32).toNat = 1 := rfl
    rw [BitVec.toNat_and, hone, Nat.and_one_is_mod, BitVec.toNat_ushiftRight,
      Nat.shiftRight_eq_div_pow, Nat.toNat_testBit]
  . split
    . rw [limbBit_toNat, hleft, testBit_nodeWords]
    . rw [limbBit_toNat, hright, testBit_nodeWords]

theorem chunkLoop_toNat {f : Nat → U32} {bit : Nat → Bool} (h : ∀ k, (f k).toNat = (bit k).toNat)
    {n : Nat} (hn : n ≤ 32)
    : ((List.range n).foldl (fun v k => v ||| (f k <<< k)) 0).toNat = chunkValue bit n := by
  induction n with
  | zero => rfl
  | succ n ih =>
    have hloop : chunkValue bit (n + 1)
        = if bit n then chunkValue bit n ||| 1 <<< n else chunkValue bit n := by
      rw [chunkValue, List.range_succ, List.foldl_append]
      rfl
    rw [hloop, List.range_succ, List.foldl_append, List.foldl_cons, List.foldl_nil, BitVec.toNat_or,
      ih (Nat.le_of_succ_le hn), BitVec.toNat_shiftLeft, h]
    cases bit n with
    | true =>
      have hlt : 1 <<< n < 2 ^ 32 := by
        rw [Nat.one_shiftLeft]
        exact Nat.pow_lt_pow_right (by decide) hn
      rw [Bool.toNat_true, Nat.mod_eq_of_lt hlt, if_pos rfl]
    | false => simp

theorem chunkVal_toNat (hleft : left.l = nodeWords leftBytes) (hright : right.l = nodeWords rightBytes)
    (c : Nat)
    : (chunkVal layer left right c).toNat
      = chunkValue (fun k => wideMessageBit layer.toNat leftBytes rightBytes (c * 10 + k)) K := by
  apply chunkLoop_toNat _ (by decide)
  intro k
  exact msgBit_toNat hleft hright _

end Chunks
end Gpuhash
end Slipstream
