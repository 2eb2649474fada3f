import Slipstream.Data.Except
import Slipstream.Sinsemilla.Impl.Batch
import Mathlib.Algebra.BigOperators.Ring.List
import Mathlib.Algebra.Field.Rat

/-!
This module contains the verification of the batched combine: what the shared inversions compute, and
that every element of a batch walks its own sequential chain.
-/

namespace Slipstream
namespace Sinsemilla

variable {F : Type} [Field F] [DecidableEq F]

def incompleteAdd (p r : F × F) : Option (F × F) :=
  if p.1 = r.1 then
    none
  else
    let lambda := (r.2 - p.2) * (r.1 - p.1)⁻¹
    let x3 := lambda ^ 2 - p.1 - r.1
    some (x3, lambda * (p.1 - x3) - p.2)

def chunkStep (cs : Consts F) (acc : F × F) (m : Fin (2 ^ K)) : Option (F × F) := do
  let t ← incompleteAdd acc (cs.s m)
  incompleteAdd t acc

def chain (cs : Consts F) (msg : Message) : Option (F × F) :=
  msg.toList.foldlM (chunkStep cs) cs.q

def Degenerate (cs : Consts F) (msg : Message) : Prop :=
  ∃ (n : Nat) (acc : F × F) (m : Fin (2 ^ K)),
    (msg.toList.take n).foldlM (chunkStep cs) cs.q = some acc ∧ msg[n]? = some m
      ∧ (acc.1 = (cs.s m).1 ∨ ∃ t, incompleteAdd acc (cs.s m) = some t ∧ t.1 = acc.1)

theorem incompleteAdd_eq_none_iff (p r : F × F) : incompleteAdd p r = none ↔ p.1 = r.1 := by
  rw [incompleteAdd]
  split <;> simp_all

theorem chunkStep_eq_none_iff (cs : Consts F) (acc : F × F) (m : Fin (2 ^ K))
    : chunkStep cs acc m = none ↔
      acc.1 = (cs.s m).1 ∨ ∃ t, incompleteAdd acc (cs.s m) = some t ∧ t.1 = acc.1 := by
  rw [← incompleteAdd_eq_none_iff, chunkStep]
  cases incompleteAdd acc (cs.s m) with
  | none => simp
  | some t => simp [incompleteAdd_eq_none_iff]

theorem foldlM_chunkStep_eq_none_iff (cs : Consts F) (acc : F × F) (ms : List (Fin (2 ^ K)))
    : ms.foldlM (chunkStep cs) acc = none ↔
      ∃ (n : Nat) (acc' : F × F) (m : Fin (2 ^ K)),
        (ms.take n).foldlM (chunkStep cs) acc = some acc' ∧ ms[n]? = some m
          ∧ chunkStep cs acc' m = none := by
  induction ms generalizing acc with
  | nil => simp
  | cons m ms ih =>
    rw [List.foldlM_cons]
    cases hstep : chunkStep cs acc m with
    | none => exact ⟨fun _ => ⟨0, acc, m, rfl, rfl, hstep⟩, fun _ => rfl⟩
    | some next =>
      rw [Option.bind_eq_bind, Option.bind_some, ih]
      constructor
      . rintro ⟨n, acc', m', hacc', hm', hnone⟩
        refine ⟨n + 1, acc', m', ?_, hm', hnone⟩
        rw [List.take_succ_cons, List.foldlM_cons, hstep]
        exact hacc'
      . rintro ⟨n, acc', m', hacc', hm', hnone⟩
        cases n with
        | zero =>
          cases hacc'
          cases hm'
          rw [hstep] at hnone
          cases hnone
        | succ n =>
          rw [List.take_succ_cons, List.foldlM_cons, hstep] at hacc'
          exact ⟨n, acc', m', hacc', hm', hnone⟩

theorem chain_eq_none_iff (cs : Consts F) (msg : Message) : chain cs msg = none ↔ Degenerate cs msg := by
  simp only [chain, foldlM_chunkStep_eq_none_iff, Degenerate, chunkStep_eq_none_iff,
    Vector.getElem?_toList]

section Inversion

variable {acc invAll : F} {xs : List F}

omit [DecidableEq F] in
theorem prefixProducts_snd (acc : F) (xs : List F) : (prefixProducts acc xs).2 = acc * xs.prod := by
  induction xs generalizing acc with
  | nil => simp [prefixProducts]
  | cons x xs ih => rw [prefixProducts, ih, List.prod_cons, mul_assoc]

omit [DecidableEq F] in
theorem unwind_eq (hacc : acc ≠ 0) (hxs : ∀ x ∈ xs, x ≠ 0)
    : (xs.zip (prefixProducts acc xs).1).foldr
        (fun (x, before) (out, invAll) => (invAll * before :: out, invAll * x))
        ([], (prefixProducts acc xs).2⁻¹)
      = (xs.map (·⁻¹), acc⁻¹) := by
  induction xs generalizing acc with
  | nil => simp [prefixProducts]
  | cons x xs ih =>
    have hx : x ≠ 0 := hxs x List.mem_cons_self
    have htail := ih (mul_ne_zero hacc hx) fun y hy => hxs y (List.mem_cons_of_mem _ hy)
    rw [prefixProducts, List.zip_cons_cons, List.foldr_cons, htail]
    simp [hacc, hx, mul_comm]

theorem batchInvert_eq (xs : List F) (hxs : ∀ x ∈ xs, x ≠ 0)
    : batchInvert xs = some (xs.map (·⁻¹)) := by
  have hall : (prefixProducts 1 xs).2 ≠ 0 := by
    rw [prefixProducts_snd, one_mul]
    exact List.prod_ne_zero fun hmem => hxs 0 hmem rfl
  cases xs with
  | nil => rfl
  | cons x xs =>
    have hunwind := unwind_eq one_ne_zero hxs
    simp only [batchInvert, List.isEmpty_cons, Bool.false_eq_true, if_false, invert, if_neg hall]
    rw [hunwind]

end Inversion

section Lockstep

variable {l : Lane F}

theorem gather_denom_ne_zero (cs : Consts F) (step : Nat) (msg : Message) (l : Lane F)
    : (l.gather cs step msg).denom ≠ 0 := by
  rw [Lane.gather]
  split
  . exact one_ne_zero
  . dsimp only
    split
    . exact one_ne_zero
    . next hd => exact hd

def laneStep (cs : Consts F) (msg : Message) (l : Lane F) (step : Nat) : Lane F :=
  let gathered := l.gather cs step msg
  Lane.add step { gathered with denom := gathered.denom⁻¹ }

theorem halfStep_eq (cs : Consts F) (msgs : List Message) (f : Message → Lane F) (step : Nat)
    : halfStep cs msgs (msgs.map f) step = some (msgs.map fun msg => laneStep cs msg (f msg) step) := by
  have hgathered : List.zipWith (Lane.gather cs step) msgs (msgs.map f)
      = msgs.map fun msg => (f msg).gather cs step msg := by
    rw [List.zipWith_map_right, List.zipWith_self]
  have hne : ∀ d ∈ (msgs.map fun msg => (f msg).gather cs step msg).map Lane.denom, d ≠ 0 := by
    simp only [List.map_map, List.mem_map, Function.comp_apply]
    rintro d ⟨msg, -, rfl⟩
    exact gather_denom_ne_zero cs step msg (f msg)
  have hinverted := batchInvert_eq _ hne
  rw [halfStep, hgathered, hinverted]
  simp [List.zipWith_map, List.zipWith_self, laneStep, Function.comp_def]

theorem foldlM_halfStep (cs : Consts F) (msgs : List Message) (f : Message → Lane F) (steps : List Nat)
    : steps.foldlM (halfStep cs msgs) (msgs.map f)
      = some (msgs.map fun msg => steps.foldl (laneStep cs msg) (f msg)) := by
  induction steps generalizing f with
  | nil => rfl
  | cons step steps ih =>
    rw [List.foldlM_cons, halfStep_eq]
    exact ih fun msg => laneStep cs msg (f msg) step

def Tracks (l : Lane F) : Option (F × F) → Prop
  | none => l.dead = true
  | some acc => l.dead = false ∧ (l.x, l.y) = acc

theorem laneStep_dead (cs : Consts F) (msg : Message) (h : l.dead = true) (step : Nat)
    : (laneStep cs msg l step).dead = true := by
  simp [laneStep, Lane.gather, Lane.add, h]

theorem laneStep_first (cs : Consts F) {msg : Message} {c : Nat} {m : Fin (2 ^ K)}
    (h : l.dead = false) (hm : msg[c]? = some m)
    : match incompleteAdd (l.x, l.y) (cs.s m) with
      | none => (laneStep cs msg l (2 * c)).dead = true
      | some t => (laneStep cs msg l (2 * c)).dead = false
          ∧ ((laneStep cs msg l (2 * c)).x, (laneStep cs msg l (2 * c)).y) = t
          ∧ (laneStep cs msg l (2 * c)).otherX = l.x ∧ (laneStep cs msg l (2 * c)).otherY = l.y := by
  have heven : 2 * c % 2 = 0 := by omega
  have hchunk : 2 * c / 2 = c := by omega
  by_cases hx : l.x = (cs.s m).1
  . simp [incompleteAdd, hx, laneStep, Lane.gather, Lane.operand, h, heven, hchunk, hm, Lane.add]
  . have hd : (cs.s m).1 - l.x ≠ 0 := sub_ne_zero.mpr (Ne.symm hx)
    simp [incompleteAdd, hx, laneStep, Lane.gather, Lane.operand, h, heven, hchunk, hm, Lane.add, hd]

theorem laneStep_second (cs : Consts F) (msg : Message) (c : Nat) (h : l.dead = false)
    : match incompleteAdd (l.x, l.y) (l.otherX, l.otherY) with
      | none => (laneStep cs msg l (2 * c + 1)).dead = true
      | some t => (laneStep cs msg l (2 * c + 1)).dead = false
          ∧ ((laneStep cs msg l (2 * c + 1)).x, (laneStep cs msg l (2 * c + 1)).y) = t := by
  by_cases hx : l.x = l.otherX
  . simp [incompleteAdd, hx, laneStep, Lane.gather, Lane.operand, h, Lane.add]
  . have hd : l.otherX - l.x ≠ 0 := sub_ne_zero.mpr (Ne.symm hx)
    simp [incompleteAdd, hx, laneStep, Lane.gather, Lane.operand, h, Lane.add, hd]

theorem Tracks.chunk (cs : Consts F) {msg : Message} {acc : Option (F × F)} {c : Nat}
    {m : Fin (2 ^ K)} (h : Tracks l acc) (hm : msg[c]? = some m)
    : Tracks (laneStep cs msg (laneStep cs msg l (2 * c)) (2 * c + 1)) (acc.bind (chunkStep cs · m)) := by
  cases acc with
  | none => exact laneStep_dead cs msg (laneStep_dead cs msg h _) _
  | some acc =>
    obtain ⟨halive, rfl⟩ := h
    have hfirst := laneStep_first cs halive hm
    rw [Option.bind_some, chunkStep]
    generalize laneStep cs msg l (2 * c) = l' at hfirst
    cases hadd : incompleteAdd (l.x, l.y) (cs.s m) with
    | none =>
      rw [hadd] at hfirst
      exact laneStep_dead cs msg hfirst _
    | some t =>
      rw [hadd] at hfirst
      obtain ⟨halive', rfl, hotherX, hotherY⟩ := hfirst
      have hsecond := laneStep_second cs msg c halive'
      rw [hotherX, hotherY] at hsecond
      change Tracks _ (incompleteAdd (l'.x, l'.y) (l.x, l.y))
      cases hadd' : incompleteAdd (l'.x, l'.y) (l.x, l.y) with
      | none =>
        rw [hadd'] at hsecond
        exact hsecond
      | some t' =>
        rw [hadd'] at hsecond
        exact hsecond

theorem take_message (msg : Message) {n : Nat} (hn : n < CHUNKS)
    : msg.toList.take (n + 1) = msg.toList.take n ++ [msg[n]] := by
  rw [List.take_add_one]
  congr
  simp [hn]

theorem tracks_walk (cs : Consts F) (msg : Message) {n : Nat} (hn : n ≤ CHUNKS)
    : Tracks ((List.range (2 * n)).foldl (laneStep cs msg) (Lane.start cs))
        ((msg.toList.take n).foldlM (chunkStep cs) cs.q) := by
  induction n with
  | zero => exact ⟨rfl, rfl⟩
  | succ n ih =>
    have hm : msg[n]? = some (msg[n]) := Vector.getElem?_eq_getElem hn
    have hsteps : List.range (2 * (n + 1)) = List.range (2 * n) ++ [2 * n, 2 * n + 1] := by
      rw [Nat.mul_succ, List.range_succ, List.range_succ, List.append_assoc]
      rfl
    rw [take_message msg hn, hsteps, List.foldl_append, List.foldlM_append]
    have hchunk := (ih (Nat.le_of_lt hn)).chunk cs hm
    simpa using hchunk

omit [Field F] [DecidableEq F] in
theorem Tracks.result {acc : Option (F × F)} (h : Tracks l acc) (toRepr : F → B)
    : (if l.dead then none else some (toRepr l.x)) = acc.map fun acc => toRepr acc.1 := by
  cases acc with
  | none => exact if_pos h
  | some acc =>
    obtain ⟨halive, rfl⟩ := h
    rw [halive, if_neg Bool.false_ne_true, Option.map_some]

def walked (cs : Consts F) (toRepr : F → B) (msg : Message) : Option B :=
  (chain cs msg).map fun acc => toRepr acc.1

theorem walkBatch_eq (cs : Consts F) (toRepr : F → B) (msgs : List Message)
    : walkBatch cs toRepr msgs = some (msgs.map (walked cs toRepr)) := by
  have hstart : List.replicate msgs.length (Lane.start cs) = msgs.map fun _ => Lane.start cs := by
    rw [List.map_const']
  rw [walkBatch, hstart, foldlM_halfStep]
  simp only [Option.bind_eq_bind, Option.bind_some, List.map_map, Option.pure_def, Option.some.injEq]
  apply List.map_congr_left
  intro msg _
  have htracks := tracks_walk cs msg (Nat.le_refl CHUNKS)
  rw [show msg.toList.take CHUNKS = msg.toList by simp] at htracks
  rw [Function.comp_apply, Nat.mul_comm CHUNKS 2]
  exact htracks.result toRepr

end Lockstep

section Combine

theorem parChunks.go_flatten {size fuel : Nat} (hsize : 0 < size) {l : List α} (h : l.length ≤ fuel)
    : (go size fuel l).flatten = l := by
  induction fuel generalizing l with
  | zero =>
    cases List.length_eq_zero_iff.mp (Nat.le_zero.mp h)
    rfl
  | succ fuel ih =>
    cases l with
    | nil => rfl
    | cons x xs =>
      have hrest : ((x :: xs).drop size).length ≤ fuel := by
        rw [List.length_drop]
        omega
      rw [go, List.flatten_cons, ih hrest, List.take_append_drop]
      simp

theorem parChunks_flatten {size : Nat} (hsize : 0 < size) (l : List α)
    : (parChunks size l).flatten = l :=
  parChunks.go_flatten hsize (Nat.le_refl _)

theorem parChunks.go_map (f : α → β) (size fuel : Nat) (l : List α)
    : go size fuel (l.map f) = (go size fuel l).map (List.map f) := by
  induction fuel generalizing l with
  | zero => cases l <;> rfl
  | succ fuel ih =>
    cases l with
    | nil => rfl
    | cons x xs =>
      rw [List.map_cons, go, ← List.map_cons, ← List.map_take, ← List.map_drop, ih, go, List.map_cons]
      all_goals simp

theorem parChunks_map (f : α → β) (size : Nat) (l : List α)
    : parChunks size (l.map f) = (parChunks size l).map (List.map f) := by
  rw [parChunks, List.length_map, parChunks.go_map]
  rfl

def combined (cs : Consts F) (toRepr : F → Bytes32) (up : MerkleHashOrchard N)
    (input : UInt8 × Bytes32 × Bytes32) : Bytes32 :=
  combineChunk.pick up input (walked cs toRepr (chunkIndices input.1 input.2.1 input.2.2))

theorem combineChunk_eq (cs : Consts F) (toRepr : F → Bytes32) (up : MerkleHashOrchard N)
    (chunk : List (UInt8 × Bytes32 × Bytes32))
    : combineChunk cs toRepr up chunk = some (chunk.map (combined cs toRepr up)) := by
  rw [combineChunk, walkBatch_eq]
  simp only [Option.bind_eq_bind, Option.bind_some, Option.pure_def, List.map_map,
    List.zipWith_map_right, List.zipWith_self, Option.some.injEq]
  apply List.map_congr_left
  intro input _
  rw [combined, Function.comp_apply]

theorem orchardCombineBatchCpu_eq (cs : Consts F) (toRepr : F → Bytes32) (up : MerkleHashOrchard N)
    {layers : List UInt8} {lefts rights : List Bytes32} (hlefts : layers.length = lefts.length)
    (hrights : layers.length = rights.length)
    : orchardCombineBatchCpu cs toRepr up layers lefts rights
      = some ((layers.zip (lefts.zip rights)).map (combined cs toRepr up)) := by
  have hlengths : ¬(layers.length ≠ lefts.length ∨ layers.length ≠ rights.length) := by omega
  rw [orchardCombineBatchCpu, if_neg hlengths]
  split
  . next hempty =>
    cases List.length_eq_zero_iff.mp hempty
    rfl
  . rw [mapM_eq_some_map fun chunk _ => combineChunk_eq cs toRepr up chunk]
    simp only [Option.bind_eq_bind, Option.bind_some, Option.pure_def, ← List.map_flatten]
    rw [parChunks_flatten (by decide)]

theorem combined_of_chain {cs : Consts F} (toRepr : F → Bytes32) (up : MerkleHashOrchard N)
    (h : chain cs (chunkIndices layer left right) = some acc)
    : combined cs toRepr up (layer, left, right) = toRepr acc.1 := by
  simp [combined, walked, h, combineChunk.pick]

theorem combined_of_degenerate {cs : Consts F} (toRepr : F → Bytes32) (up : MerkleHashOrchard N)
    (h : Degenerate cs (chunkIndices layer left right))
    : combined cs toRepr up (layer, left, right) = scalarCombine up layer left right := by
  simp [combined, walked, (chain_eq_none_iff _ _).mpr h, combineChunk.pick]

def SameChain (cs : Consts F) (toRepr : F → Bytes32) (up : MerkleHashOrchard N) : Prop :=
  ∀ layer left right acc, (up.fromBytes left).isSome → (up.fromBytes right).isSome →
    chain cs (chunkIndices layer left right) = some acc →
      scalarCombine up layer left right = toRepr acc.1

theorem combined_eq_scalarCombine {cs : Consts F} {toRepr : F → Bytes32} {up : MerkleHashOrchard N}
    (h : SameChain cs toRepr up) (hleft : (up.fromBytes left).isSome)
    (hright : (up.fromBytes right).isSome)
    : combined cs toRepr up (layer, left, right) = scalarCombine up layer left right := by
  cases hchain : chain cs (chunkIndices layer left right) with
  | none => exact combined_of_degenerate toRepr up ((chain_eq_none_iff _ _).mp hchain)
  | some acc =>
    rw [combined_of_chain toRepr up hchain, h layer left right acc hleft hright hchain]

end Combine

/--
Every element of a batch gets what its own sequential chain gives, whatever the others do, and the
batched combine falls back to the scalar one exactly where a chain has a degenerate addition.
-/
theorem batch_walks_each_chain (cs : Consts F)
    : (∀ xs : List F, 0 ∉ xs → batchInvert xs = some (xs.map (·⁻¹)))
      ∧ (∀ (B : Type) (toRepr : F → B) (msgs : List Message),
          ∃ out, walkBatch cs toRepr msgs = some out ∧ out.length = msgs.length
            ∧ ∀ (i : Nat) (msg : Message), msgs[i]? = some msg →
                (∀ b, out[i]? = some (some b) ↔ ∃ acc, chain cs msg = some acc ∧ toRepr acc.1 = b)
                  ∧ (out[i]? = some none ↔ Degenerate cs msg))
      ∧ (∀ (B : Type) (toRepr : F → B) (msgs msgs' : List Message) (i j : Nat),
          msgs[i]? = msgs'[j]? →
            (walkBatch cs toRepr msgs).map (·[i]?) = (walkBatch cs toRepr msgs').map (·[j]?))
      ∧ ∀ (N : Type) (toRepr : F → Bytes32) (up : MerkleHashOrchard N) (layers : List UInt8)
          (lefts rights : List Bytes32), layers.length = lefts.length →
          layers.length = rights.length →
            ∃ out, orchardCombineBatchCpu cs toRepr up layers lefts rights = some out
              ∧ out.length = layers.length
              ∧ ∀ (i : Nat) (layer : UInt8) (left right : Bytes32), layers[i]? = some layer →
                  lefts[i]? = some left → rights[i]? = some right →
                    (∀ acc, chain cs (chunkIndices layer left right) = some acc →
                      out[i]? = some (toRepr acc.1))
                    ∧ (Degenerate cs (chunkIndices layer left right) →
                      out[i]? = some (scalarCombine up layer left right))
                    ∧ (SameChain cs toRepr up → (up.fromBytes left).isSome →
                      (up.fromBytes right).isSome →
                        out[i]? = some (scalarCombine up layer left right)) := by
  refine ⟨?_, ?_, ?_, ?_⟩
  . intro xs hxs
    apply batchInvert_eq
    rintro x hx rfl
    exact hxs hx
  . intro B toRepr msgs
    refine ⟨_, walkBatch_eq cs toRepr msgs, List.length_map _, ?_⟩
    intro i msg hmsg
    rw [List.getElem?_map, hmsg, ← chain_eq_none_iff]
    simp [walked]
  . intro B toRepr msgs msgs' i j hij
    simp [walkBatch_eq, hij]
  . intro N toRepr up layers lefts rights hlefts hrights
    refine ⟨_, orchardCombineBatchCpu_eq cs toRepr up hlefts hrights, ?_, ?_⟩
    . simp [← hlefts, ← hrights]
    intro i layer left right hlayer hleft hright
    have hinput : (layers.zip (lefts.zip rights))[i]? = some (layer, left, right) := by
      simp [List.zip, List.getElem?_zipWith, hlayer, hleft, hright]
    rw [List.getElem?_map, hinput, Option.map_some]
    refine ⟨?_, ?_, ?_⟩
    . intro acc hacc
      rw [combined_of_chain toRepr up hacc]
    . intro hdegenerate
      rw [combined_of_degenerate toRepr up hdegenerate]
    . intro hsame hcanonical hcanonical'
      rw [combined_eq_scalarCombine hsame hcanonical hcanonical']

def sameGenerators : Consts ℚ where
  q := (1, 2)
  s _ := (1, 2)

theorem batch_walks_each_chain_rat
    : batchInvert ([2, -3] : List ℚ) = some [2⁻¹, (-3)⁻¹]
      ∧ ∃ out, walkBatch sameGenerators id [Vector.replicate CHUNKS 0] = some out
          ∧ out[0]? = some none := by
  have hbatch := batch_walks_each_chain sameGenerators
  obtain ⟨out, hout, -, helements⟩ := hbatch.2.1 ℚ id [Vector.replicate CHUNKS 0]
  refine ⟨hbatch.1 [2, -3] (by decide +kernel), out, hout, ?_⟩
  exact (helements 0 _ rfl).2.mpr ⟨0, (1, 2), 0, rfl, rfl, .inl rfl⟩

end Sinsemilla
end Slipstream
