import Slipstream.Gpuhash.Merkle

/-!
This module contains the dispatch of the Merkle kernel: its invocations may run in any order, and the
hashes that the host reads back are those of the CPU's batched combine.
-/

namespace Slipstream
namespace Gpuhash

open Sinsemilla

theorem nodeBytes_nodeWords (bytes : Bytes32) : nodeBytes (nodeWords bytes) = bytes := by
  apply Vector.ext
  intro i hi
  rw [nodeBytes, Vector.getElem_ofFn]
  apply UInt8.eq_of_toBitVec_eq
  apply BitVec.eq_of_getLsbD_eq
  intro j hj
  have hbyte : 4 * (i / 4) + (8 * (i % 4) + j) / 8 = i := by omega
  have hbit : (8 * (i % 4) + j) % 8 = j := by omega
  rw [BitVec.getLsbD_extractLsb', getLsbD_nodeWords bytes (by omega) (by omega), hbyte, hbit,
    Vector.getElem?_eq_getElem hi]
  simp only [hj, decide_true, Bool.true_and]
  rfl

section Order

variable {cs : Consts (ZMod prime)} {lefts gens outp : Buffer} {n : Nat} {hash : Nat → Bytes32}

structure Stores (lefts gens : Buffer) (n : Nat) (hash : Nat → Bytes32) : Prop where
  element : ∀ (outp : Buffer) (node : U32), outp.words.length = 8 * n → node.toNat < n → ∀ k,
    (merkleCombine lefts gens outp node).words[k]?
      = if k / 8 = node.toNat then (nodeWords (hash node.toNat))[k % 8]? else outp.words[k]?

theorem merkleCombine_beyond {node : U32} (hnode : outp.words.length / 8 ≤ node.toNat)
    : merkleCombine lefts gens outp node = outp := by
  rw [merkleCombine, if_pos ((beyond_iff outp node).mpr hnode)]

theorem merkleCombine_length (node : U32)
    : (merkleCombine lefts gens outp node).words.length = outp.words.length := by
  rw [merkleCombine]
  split
  . rfl
  . rw [Buffer.store_length]

theorem dispatchHash_words (h : Stores lefts gens n hash) (hlength : outp.words.length = 8 * n)
    (order : List U32) (k : Nat)
    : (dispatchHash lefts gens outp order).words[k]?
      = if k / 8 < n ∧ ∃ node ∈ order, node.toNat = k / 8 then
          (nodeWords (hash (k / 8)))[k % 8]?
        else
          outp.words[k]? := by
  induction order generalizing outp with
  | nil => simp [dispatchHash]
  | cons node order ih =>
    have hlength' : (merkleCombine lefts gens outp node).words.length = 8 * n :=
      (merkleCombine_length node).trans hlength
    rw [dispatchHash, List.foldl_cons]
    apply (ih hlength').trans
    by_cases hnode : node.toNat < n
    . rw [h.element outp node hlength hnode]
      by_cases hk : k / 8 = node.toNat
      . simp [hk, hnode]
      . simp [hk, Ne.symm hk]
    . have hne : k / 8 < n → node.toNat ≠ k / 8 := by omega
      rw [merkleCombine_beyond (by omega)]
      apply if_congr _ rfl rfl
      rw [List.exists_mem_cons_iff]
      constructor
      . rintro ⟨hk, hrun⟩
        exact ⟨hk, .inr hrun⟩
      . rintro ⟨hk, hrun⟩
        exact ⟨hk, hrun.resolve_left (hne hk)⟩

theorem words_eq {words ws : List U32} {i : Nat} (hws : ws.length = 8)
    (h : ∀ k, k / 8 = i → words[k]? = ws[k % 8]?) : (words.drop (8 * i)).take 8 = ws := by
  apply List.ext_getElem?
  intro j
  by_cases hj : j < 8
  . have hdiv : (8 * i + j) / 8 = i := by omega
    have hmod : (8 * i + j) % 8 = j := by omega
    rw [List.getElem?_take_of_lt hj, List.getElem?_drop, h _ hdiv, hmod]
  . rw [List.getElem?_take_eq_none (Nat.le_of_not_lt hj), List.getElem?_eq_none (by omega)]

theorem mem_invocations {n i : Nat} (hi : i < n) : .ofNat 32 i ∈ invocations n := by
  rw [invocations, List.mem_map]
  refine ⟨i, ?_, rfl⟩
  rw [List.mem_range]
  omega

theorem readBack_eq (h : Stores lefts gens n hash) (hlength : outp.words.length = 8 * n)
    {order : List U32} (hsize : n < 2 ^ 32) (horder : ∀ node ∈ invocations n, node ∈ order) {i : Nat}
    (hi : i < n)
    : nodeBytes (((dispatchHash lefts gens outp order).words.drop (8 * i)).take 8) = hash i := by
  have hran : ∃ node ∈ order, node.toNat = i := by
    refine ⟨.ofNat 32 i, horder _ (mem_invocations hi), ?_⟩
    rw [BitVec.toNat_ofNat, Nat.mod_eq_of_lt (Nat.lt_trans hi hsize)]
  rw [words_eq (nodeWords_length (hash i)), nodeBytes_nodeWords]
  rintro k rfl
  rw [dispatchHash_words h hlength, if_pos ⟨hi, hran⟩]

end Order

section Host

variable {N : Type} {cs : Consts (ZMod prime)} {up : MerkleHashOrchard N}
  {elems : List (UInt8 × Bytes32 × Bytes32)}

theorem stores_combined {lefts gens : Buffer} (hlefts : lefts.words = inputWords elems)
    (hgens : gens.words = generatorsU32 toRepr cs)
    (hchains : ∀ e ∈ elems, ¬Degenerate cs (chunkIndices e.1 e.2.1 e.2.2))
    : Stores lefts gens elems.length fun i => (elems[i]?.map (combined cs toRepr up)).getD default := by
  constructor
  intro outp node hlength hnode k
  have he : elems[node.toNat]? = some elems[node.toNat] := List.getElem?_eq_getElem hnode
  generalize elems[node.toNat] = e at he
  have hinput : lefts.Holds (17 * node.toNat) (element (.ofNat 32 e.1.toNat) e.2.1 e.2.2) := by
    intro j hj
    rw [element_length] at hj
    rw [hlefts, inputWords, getElem?_flatMap_block (fun _ => element_length _ _ _) he hj]
  have hlayer : (BitVec.ofNat 32 e.1.toNat).toNat = e.1.toNat := by
    rw [BitVec.toNat_ofNat, Nat.mod_eq_of_lt]
    exact Nat.lt_trans e.1.toNat_lt (by decide)
  have hchain := hchains e (List.mem_of_getElem? he)
  rw [← chain_eq_none_iff, chunkIndices_eq, ← hlayer] at hchain
  obtain ⟨a, ha⟩ := Option.ne_none_iff_exists'.mp hchain
  have hcombined : combined cs toRepr up e = toRepr a.1 := by
    rw [hlayer, ← chunkIndices_eq] at ha
    exact combined_of_chain toRepr up ha
  rw [merkleCombine_words hgens hinput (by omega) ha, he, Option.map_some, Option.getD_some, hcombined]
  have hoffset : 8 * node.toNat ≤ k ∧ k < 8 * node.toNat + 8 ↔ k / 8 = node.toNat := by omega
  by_cases hk : k / 8 = node.toNat
  . have hmod : k - 8 * node.toNat = k % 8 := by omega
    rw [if_pos (hoffset.mpr hk), if_pos hk, hmod]
  . rw [if_neg (mt hoffset.mp hk), if_neg hk]

theorem orchardCombineBatch_eq_cpu (cs : Consts (ZMod prime)) (up : MerkleHashOrchard N)
    {order : List U32} {layers : List UInt8} {lefts rights : List Bytes32}
    (hlefts : layers.length = lefts.length) (hrights : layers.length = rights.length)
    (hsize : 17 * layers.length < 2 ^ 32)
    (horder : ∀ node ∈ invocations layers.length, node ∈ order)
    (hchains : ∀ e ∈ layers.zip (lefts.zip rights), ¬Degenerate cs (chunkIndices e.1 e.2.1 e.2.2))
    : orchardCombineBatch toRepr cs order layers lefts rights
      = orchardCombineBatchCpu cs toRepr up layers lefts rights := by
  have hlength : (layers.zip (lefts.zip rights)).length = layers.length := by
    rw [List.length_zip, List.length_zip]
    omega
  have hbuffers : (inputWords (layers.zip (lefts.zip rights))).length < 2 ^ 32
      ∧ (generatorsU32 toRepr cs).length < 2 ^ 32
      ∧ (List.replicate (layers.length * 8) (0 : U32)).length < 2 ^ 32 := by
    refine ⟨?_, ?_, ?_⟩
    . rw [inputWords, List.length_flatMap, funext fun e => element_length _ _ _, List.map_const',
        List.sum_replicate, hlength]
      simp only [smul_eq_mul]
      omega
    . rw [generatorsU32_length]
      decide
    . rw [List.length_replicate]
      omega
  rw [orchardCombineBatchCpu_eq cs toRepr up hlefts hrights, orchardCombineBatch,
    if_neg (by omega)]
  split
  . next hempty =>
    rw [List.eq_nil_of_length_eq_zero hempty]
    rfl
  . dsimp only
    rw [dif_pos hbuffers, Option.some.injEq]
    apply List.ext_getElem
    . rw [List.length_map, List.length_map, List.length_range, hlength]
    . intro i hi hi'
      rw [List.length_map, List.length_range] at hi
      rw [List.length_map] at hi'
      rw [List.getElem_map, List.getElem_map, List.getElem_range]
      apply (readBack_eq (stores_combined rfl rfl hchains) _ _ _ hi').trans
      . rw [List.getElem?_eq_getElem hi']
        rfl
      . rw [List.length_replicate, hlength, Nat.mul_comm]
      . omega
      . rwa [hlength]

end Host

theorem comb_chains {layer : UInt8} (h : layer = 31 ∨ layer = 7)
    : ¬Degenerate flat (chunkIndices layer (comb 10 13) (comb 15 12)) := by
  rw [← chain_eq_none_iff]
  have hdistinct : ((0 : Fin (2 ^ K)) :: (chunkIndices layer (comb 10 13) (comb 15 12)).toList).IsChain
      (· ≠ ·) := by
    rcases h with rfl | rfl <;> decide +kernel
  have hchain := flat_chain hdistinct
  rwa [Fin.val_zero, Nat.cast_zero] at hchain

theorem orchardCombineBatch_eq_cpu_reversed
    : orchardCombineBatch toRepr flat (invocations 2).reverse [31, 7] [comb 10 13, comb 10 13]
        [comb 15 12, comb 15 12]
      = orchardCombineBatchCpu flat toRepr ⟨some, fun _ left _ => left, id⟩ [31, 7]
        [comb 10 13, comb 10 13] [comb 15 12, comb 15 12] := by
  apply orchardCombineBatch_eq_cpu flat _ rfl rfl (by decide)
  . exact fun node hnode => List.mem_reverse.mpr hnode
  . intro e he
    rcases List.mem_pair.mp he with rfl | rfl
    . exact comb_chains (Or.inl rfl)
    . exact comb_chains (Or.inr rfl)

end Gpuhash
end Slipstream
