import Slipstream.Gpuhash.Lemmas.Buffer
import Slipstream.Gpuhash.Lemmas.Message
import Slipstream.Gpuhash.Lemmas.Pallas

/-!
This module contains the equivalence of the two Merkle kernels: an invocation of the shader stores the
x-coordinate that the batched walk of the CPU computes for the same nodes.
-/

namespace Slipstream
namespace Gpuhash

open Sinsemilla

section Generators

def toRepr (x : ZMod prime) : Bytes32 := Vector.ofFn fun i => .ofNat (x.val >>> (8 * i.val))

theorem byteBit_toRepr (x : ZMod prime) (i : Nat) : byteBit (toRepr x) i = x.val.testBit i := by
  by_cases hi : i / 8 < 32
  . have hmod : i % 8 < 8 := Nat.mod_lt i (by decide)
    rw [byteBit, toRepr, Vector.getElem?_ofFn, dif_pos hi, Option.any_some, UInt8.toNat_ofNat',
      Nat.testBit_mod_two_pow, Nat.testBit_shiftRight, Nat.div_add_mod]
    simp [hmod]
  . have hlt : x.val < 2 ^ i := by
      apply Nat.lt_trans (ZMod.val_lt x)
      apply Nat.lt_of_lt_of_le (by decide : prime < 2 ^ 256)
      exact Nat.pow_le_pow_right (by decide) (by omega)
    rw [byteBit, Vector.getElem?_eq_none (Nat.le_of_not_lt hi), Nat.testBit_lt_two_pow hlt]
    rfl

theorem represents_of_words {a : Fp} {x : ZMod prime} (h : a.l = nodeWords (toRepr x))
    : a.Represents x := by
  have hval : a.val = x.val := by
    rw [Fp.val, h]
    apply Nat.eq_of_testBit_eq
    intro i
    rw [testBit_nodeWords, byteBit_toRepr]
  apply Fp.Represents.of_val (n := x.val)
  . rw [hval, Nat.mod_eq_of_lt (ZMod.val_lt x)]
  . rw [ZMod.natCast_val, ZMod.cast_id]

theorem words_of_represents {a : Fp} {x : ZMod prime} (h : a.Represents x)
    : a.l = nodeWords (toRepr x) :=
  h.unique (represents_of_words (a := ⟨nodeWords (toRepr x), nodeWords_length _⟩) rfl)

variable {cs : Consts (ZMod prime)} {gens : Buffer}

def tablePoint (cs : Consts (ZMod prime)) (i : Nat) : Option (ZMod prime × ZMod prime) :=
  (cs.q :: List.ofFn cs.s)[i]?

theorem pointWords_length (p : ZMod prime × ZMod prime)
    : (nodeWords (toRepr p.1) ++ nodeWords (toRepr p.2)).length = 16 := by
  rw [List.length_append, nodeWords_length, nodeWords_length]

theorem holds_generators (hgens : gens.words = generatorsU32 toRepr cs) {i : Nat}
    {p : ZMod prime × ZMod prime} (hp : tablePoint cs i = some p)
    : gens.Holds (16 * i) (nodeWords (toRepr p.1) ++ nodeWords (toRepr p.2)) := by
  intro j hj
  rw [pointWords_length] at hj
  rw [hgens, generatorsU32, getElem?_flatMap_block pointWords_length hp hj]

theorem genPt_stands (hgens : gens.words = generatorsU32 toRepr cs) {idx : U32}
    {p : ZMod prime × ZMod prime} (hp : tablePoint cs idx.toNat = some p)
    : (genPt gens idx).Stands p 1 := by
  have hholds := holds_generators hgens hp
  have hlt : 16 * idx.toNat + 15 < 2 ^ 32 := by
    apply hholds.lt
    rw [pointWords_length]
    decide
  have hb : (idx * 16).toNat = 16 * idx.toNat := by
    rw [BitVec.toNat_mul]
    change idx.toNat * 16 % 2 ^ 32 = _
    omega
  have hb' : (idx * 16 + 8).toNat = 16 * idx.toNat + 8 := by
    rw [BitVec.toNat_add, hb]
    change (16 * idx.toNat + 8) % 2 ^ 32 = _
    omega
  have hx := represents_of_words (hholds.left.load (nodeWords_length _) hb)
  have hy := represents_of_words (hholds.right.load (nodeWords_length _) hb')
  constructor
  . exact one_ne_zero
  . exact hx.of_eq (by rw [one_pow, mul_one])
  . exact hy.of_eq (by rw [one_pow, mul_one])
  . exact .one

end Generators

section Chain

variable {cs : Consts (ZMod prime)} {gens : Buffer} {layer : U32} {left right : Fp}
  {leftBytes rightBytes : Bytes32}

theorem chunk_stands (hgens : gens.words = generatorsU32 toRepr cs) {p : Pt}
    {a a' : ZMod prime × ZMod prime} {z : ZMod prime} (hp : p.Stands a z) {v : U32}
    {m : Fin (2 ^ K)} (hv : v.toNat = m) (hstep : chunkStep cs a m = some a')
    : ∃ z', (ptAdd (ptAdd p (genPt gens (1 + v))) p).Stands a' z' := by
  have hpoint : tablePoint cs (1 + v).toNat = some (cs.s m) := by
    have hidx : (1 + v).toNat = m.val + 1 := by
      rw [BitVec.toNat_add, hv]
      change (1 + m.val) % 2 ^ 32 = _
      have := m.isLt
      simp only [K] at this
      omega
    rw [tablePoint, hidx, List.getElem?_cons_succ, List.getElem?_ofFn, dif_pos m.isLt]
  rw [chunkStep, Option.bind_eq_bind, Option.bind_eq_some_iff] at hstep
  obtain ⟨t, ht, ha'⟩ := hstep
  exact ⟨_, (hp.add (genPt_stands hgens hpoint) ht).add hp ha'⟩

theorem chunks_stand (hgens : gens.words = generatorsU32 toRepr cs)
    (hleft : left.l = nodeWords leftBytes) (hright : right.l = nodeWords rightBytes)
    {n : Nat} (hn : n ≤ CHUNKS) {a : ZMod prime × ZMod prime}
    (hchain : ((wideChunkIndices layer.toNat leftBytes rightBytes).toList.take n).foldlM
      (chunkStep cs) cs.q = some a)
    : ∃ z, ((List.range n).foldl
        (fun acc c => ptAdd (ptAdd acc (genPt gens (1 + chunkVal layer left right c))) acc)
        (genPt gens 0)).Stands a z := by
  induction n generalizing a with
  | zero =>
    cases hchain
    exact ⟨1, genPt_stands hgens rfl⟩
  | succ n ih =>
    rw [take_message _ hn, List.foldlM_append, Option.bind_eq_bind, Option.bind_eq_some_iff] at hchain
    obtain ⟨acc, hacc, hlast⟩ := hchain
    simp only [List.foldlM_cons, List.foldlM_nil, bind_pure] at hlast
    obtain ⟨z, hstands⟩ := ih (Nat.le_of_lt hn) hacc
    rw [List.range_succ, List.foldl_append]
    apply chunk_stands hgens hstands _ hlast
    rw [chunkVal_toNat hleft hright, wideChunkIndices, Vector.getElem_ofFn]

end Chain

theorem element_length (layer : U32) (left right : Bytes32) : (element layer left right).length = 17 := by
  rw [element, List.length_cons, List.length_append, nodeWords_length, nodeWords_length]

section Kernel

variable {cs : Consts (ZMod prime)} {lefts gens outp : Buffer} {node layer : U32}
  {left right : Bytes32}

theorem offset_toNat (hinput : lefts.Holds (17 * node.toNat) (element layer left right)) {i : Nat}
    (hi : i < 17) : (node * 17 + .ofNat 32 i).toNat = 17 * node.toNat + i := by
  have hlt : 17 * node.toNat + 16 < 2 ^ 32 := hinput.lt (i := 16) (by rw [element_length]; decide)
  apply Buffer.index_toNat _ (by omega)
  rw [BitVec.toNat_mul]
  change node.toNat * 17 % 2 ^ 32 = _
  omega

theorem holds_nodes (hinput : lefts.Holds (17 * node.toNat) (element layer left right))
    : lefts.Holds (17 * node.toNat + 1) (nodeWords left ++ nodeWords right) := by
  have hwords : lefts.Holds (17 * node.toNat) ([layer] ++ (nodeWords left ++ nodeWords right)) := hinput
  exact hwords.right

theorem load_left (hinput : lefts.Holds (17 * node.toNat) (element layer left right))
    : (lefts.load (node * 17 + 1)).l = nodeWords left := by
  apply (holds_nodes hinput).left.load (nodeWords_length _)
  exact offset_toNat hinput (i := 1) (by decide)

theorem load_right (hinput : lefts.Holds (17 * node.toNat) (element layer left right))
    : (lefts.load (node * 17 + 9)).l = nodeWords right := by
  apply (holds_nodes hinput).right.load (nodeWords_length _)
  exact offset_toNat hinput (i := 9) (by decide)

theorem read_layer (hinput : lefts.Holds (17 * node.toNat) (element layer left right))
    : lefts.read (node * 17) = layer := by
  have hread := hinput.read (offset_toNat hinput (i := 0) (by decide)) (i := 0) (by
    rw [element_length]
    decide)
  rwa [BitVec.add_zero, BitVec.add_zero] at hread

theorem beyond_iff (outp : Buffer) (node : U32)
    : node ≥ outp.arrayLength / 8 ↔ outp.words.length / 8 ≤ node.toNat := by
  rw [ge_iff_le, BitVec.le_def, BitVec.toNat_udiv, Buffer.arrayLength, BitVec.toNat_ofNat,
    Nat.mod_eq_of_lt outp.size]
  rfl

theorem merkleCombine_words (hgens : gens.words = generatorsU32 toRepr cs)
    (hinput : lefts.Holds (17 * node.toNat) (element layer left right))
    (hnode : node.toNat < outp.words.length / 8) {a : ZMod prime × ZMod prime}
    (hchain : chain cs (wideChunkIndices layer.toNat left right) = some a) (k : Nat)
    : (merkleCombine lefts gens outp node).words[k]?
      = if 8 * node.toNat ≤ k ∧ k < 8 * node.toNat + 8 then
          (nodeWords (toRepr a.1))[k - 8 * node.toNat]?
        else
          outp.words[k]? := by
  have hguard : ¬node ≥ outp.arrayLength / 8 := by
    rw [beyond_iff]
    exact Nat.not_le.mpr hnode
  have hb : (node * 8).toNat = 8 * node.toNat := by
    have := outp.size
    rw [BitVec.toNat_mul]
    change node.toNat * 8 % 2 ^ 32 = _
    omega
  have hall : (wideChunkIndices layer.toNat left right).toList.take SINSEMILLA_NCHUNKS
      = (wideChunkIndices layer.toNat left right).toList := by
    apply List.take_of_length_le
    rw [Vector.length_toList]
    exact Nat.le_refl _
  rw [chain, ← hall] at hchain
  have hcount : SINSEMILLA_NCHUNKS ≤ CHUNKS := Nat.le_refl _
  obtain ⟨z, hstands⟩ := chunks_stand hgens (load_left hinput) (load_right hinput) hcount hchain
  obtain ⟨x, y, hxy, hx, -⟩ := hstands.toAffine
  rw [merkleCombine, if_neg hguard]
  dsimp only
  rw [read_layer hinput, hxy, Buffer.store_words outp (by omega), hb, ← words_of_represents hx]
  split
  . next hk =>
    have hlt : k - 8 * node.toNat < x.l.length := by
      rw [x.size]
      omega
    rw [List.getD_eq_getElem?_getD, List.getElem?_append_left hlt, List.getElem?_eq_getElem hlt]
    rfl
  . rfl

/--
For nodes whose chain has no degenerate addition, both kernels split the message into the same chunks,
and the shader stores the bytes that the walk returns for it in whatever batch it is. The message of a
layer that fits a byte is that of `chunk_indices`.
-/
theorem merkleCombine_stores_walked (hgens : gens.words = generatorsU32 toRepr cs)
    (hinput : lefts.Holds (17 * node.toNat) (element layer left right))
    (hnode : node.toNat < outp.words.length / 8)
    (hchain : ¬Degenerate cs (wideChunkIndices layer.toNat left right))
    : (∀ layer8 : UInt8, layer8.toNat = layer.toNat →
        chunkIndices layer8 left right = wideChunkIndices layer.toNat left right)
      ∧ (∀ (c : Nat) (hc : c < CHUNKS),
        (chunkVal layer (lefts.load (node * 17 + 1)) (lefts.load (node * 17 + 9)) c).toNat
          = (wideChunkIndices layer.toNat left right)[c])
      ∧ ∃ a, chain cs (wideChunkIndices layer.toNat left right) = some a
        ∧ (∀ (msgs : List Message) (i : Nat),
          msgs[i]? = some (wideChunkIndices layer.toNat left right) →
            ∃ out, walkBatch cs toRepr msgs = some out ∧ out[i]? = some (some (toRepr a.1)))
        ∧ ∀ k, (merkleCombine lefts gens outp node).words[k]?
          = if 8 * node.toNat ≤ k ∧ k < 8 * node.toNat + 8 then
              (nodeWords (toRepr a.1))[k - 8 * node.toNat]?
            else
              outp.words[k]? := by
  rw [← chain_eq_none_iff] at hchain
  obtain ⟨a, ha⟩ := Option.ne_none_iff_exists'.mp hchain
  refine ⟨?_, ?_, a, ha, ?_, merkleCombine_words hgens hinput hnode ha⟩
  . intro layer8 hlayer
    rw [chunkIndices_eq, hlayer]
  . intro c hc
    rw [chunkVal_toNat (load_left hinput) (load_right hinput), wideChunkIndices, Vector.getElem_ofFn]
  . intro msgs i hi
    refine ⟨_, walkBatch_eq cs toRepr msgs, ?_⟩
    rw [List.getElem?_map, hi, Option.map_some, walked, ha, Option.map_some]

end Kernel

section Sample

def flat : Consts (ZMod prime) where
  q := (0, 0)
  s m := ((m.val : ZMod prime), 0)

theorem flat_step {x m : Fin (2 ^ K)} (h : x ≠ m)
    : chunkStep flat ((x.val : ZMod prime), 0) m = some ((m.val : ZMod prime), 0) := by
  have hx := x.isLt
  have hm := m.isLt
  have hK : 2 ^ K = 1024 := rfl
  have hprime : 3072 < prime := by decide
  have hne : (x.val : ZMod prime) ≠ m.val := by
    intro heq
    rw [ZMod.natCast_eq_natCast_iff', Nat.mod_eq_of_lt (by omega), Nat.mod_eq_of_lt (by omega)] at heq
    exact h (Fin.ext heq)
  have hne' : -(x.val : ZMod prime) - m.val ≠ x.val := by
    intro heq
    have hsum : ((x.val + x.val + m.val : Nat) : ZMod prime) = 0 := by
      rw [Nat.cast_add, Nat.cast_add]
      linear_combination -heq
    rw [ZMod.natCast_eq_zero_iff] at hsum
    have hle := Nat.le_of_dvd (by have := Fin.val_ne_of_ne h; omega) hsum
    omega
  simp [chunkStep, incompleteAdd, flat, hne, hne']

theorem flat_chain {x : Fin (2 ^ K)} {ms : List (Fin (2 ^ K))} (h : (x :: ms).IsChain (· ≠ ·))
    : ms.foldlM (chunkStep flat) ((x.val : ZMod prime), 0) ≠ none := by
  induction ms generalizing x with
  | nil => simp
  | cons m ms ih =>
    rw [List.isChain_cons_cons] at h
    rw [List.foldlM_cons, flat_step h.1]
    exact ih h.2

theorem generatorsU32_length (cs : Consts (ZMod prime)) : (generatorsU32 toRepr cs).length = 16400 := by
  rw [generatorsU32, List.length_flatMap, funext pointWords_length, List.map_const', List.sum_replicate,
    List.length_cons, List.length_ofFn]
  rfl

def flatGens : Buffer where
  words := generatorsU32 toRepr flat
  size := by rw [generatorsU32_length]; decide

def comb (first count : Nat) : Bytes32 :=
  Vector.ofFn fun i => .ofNat (((List.range count).map fun k => 2 ^ (first + 20 * k)).sum >>> (8 * i.val))

def combInput : Buffer where
  words := element 1023 (comb 10 13) (comb 15 12)
  size := by rw [element_length]; decide

def oneOutput : Buffer where
  words := List.replicate 8 0
  size := by decide

theorem comb_not_degenerate : ¬Degenerate flat (wideChunkIndices 1023 (comb 10 13) (comb 15 12)) := by
  rw [← chain_eq_none_iff]
  have hdistinct : ((0 : Fin (2 ^ K)) :: (wideChunkIndices 1023 (comb 10 13) (comb 15 12)).toList).IsChain
      (· ≠ ·) := by
    decide +kernel
  have hchain := flat_chain hdistinct
  rwa [Fin.val_zero, Nat.cast_zero] at hchain

theorem merkleCombine_stores_walked_comb
    : ∃ a, chain flat (wideChunkIndices 1023 (comb 10 13) (comb 15 12)) = some a
      ∧ ∀ k < 8, (merkleCombine combInput flatGens oneOutput 0).words[k]? = (nodeWords (toRepr a.1))[k]? := by
  have hgens : flatGens.words = generatorsU32 toRepr flat := rfl
  have hinput : combInput.Holds (17 * (0 : U32).toNat) (element 1023 (comb 10 13) (comb 15 12)) := by
    intro i _
    rw [BitVec.ofNat_eq_ofNat, BitVec.toNat_ofNat, Nat.zero_mod, Nat.mul_zero, Nat.zero_add]
    rfl
  have hnode : (0 : U32).toNat < oneOutput.words.length / 8 := by decide
  obtain ⟨-, -, a, ha, -, hstored⟩ :=
    merkleCombine_stores_walked hgens hinput hnode comb_not_degenerate
  refine ⟨a, ha, ?_⟩
  intro k hk
  rw [hstored k, if_pos]
  . rfl
  . simpa using hk

end Sample

end Gpuhash
end Slipstream
