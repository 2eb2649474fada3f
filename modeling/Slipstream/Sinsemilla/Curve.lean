import Slipstream.Sinsemilla.Batch
import Mathlib.AlgebraicGeometry.EllipticCurve.Affine.Point

/-!
This module contains the meaning of the chain on the curve: its incomplete additions are additions of
the curve's group.
-/

namespace Slipstream
namespace Sinsemilla

open WeierstrassCurve

variable {F : Type} [Field F] [DecidableEq F] {b : F}

def curve (b : F) : Affine F := ⟨0, 0, 0, 0, b⟩

def IsPoint (p : F × F) (P : (curve b).Point) : Prop :=
  ∃ h : (curve b).Nonsingular p.1 p.2, P = .some p.1 p.2 h

theorem IsPoint.incompleteAdd {p r t : F × F} {P R : (curve b).Point} (hp : IsPoint p P)
    (hr : IsPoint r R) (h : incompleteAdd p r = some t) : IsPoint t (P + R) := by
  obtain ⟨hpoint, rfl⟩ := hp
  obtain ⟨hpoint', rfl⟩ := hr
  by_cases hx : p.1 = r.1
  . rw [(incompleteAdd_eq_none_iff p r).mpr hx] at h
    cases h
  . have hslope : (curve b).slope p.1 r.1 p.2 r.2 = (r.2 - p.2) * (r.1 - p.1)⁻¹ := by
      rw [Affine.slope_of_X_ne hx, ← neg_sub r.2, ← neg_sub r.1, neg_div_neg_eq, div_eq_mul_inv]
    have ht : t = ((curve b).addX p.1 r.1 ((curve b).slope p.1 r.1 p.2 r.2),
        (curve b).addY p.1 r.1 p.2 ((curve b).slope p.1 r.1 p.2 r.2)) := by
      rw [Sinsemilla.incompleteAdd, if_neg hx] at h
      rw [← Option.some.inj h, hslope, Affine.addY, Affine.negY, Affine.negAddY, Affine.addX]
      ext <;> simp only [curve] <;> ring
    subst ht
    rw [Affine.Point.add_of_X_ne hx]
    exact ⟨_, rfl⟩

theorem IsPoint.eq_or_add_eq_zero {p r : F × F} {P R : (curve b).Point} (hp : IsPoint p P)
    (hr : IsPoint r R) (hx : p.1 = r.1) : P = R ∨ P + R = 0 := by
  obtain ⟨hpoint, rfl⟩ := hp
  obtain ⟨hpoint', rfl⟩ := hr
  rcases Affine.Y_eq_of_X_eq hpoint.1 hpoint'.1 hx with hy | hy
  . apply Or.inl
    simp only [hx, hy]
  . exact Or.inr (Affine.Point.add_of_Y_eq hx hy)

omit [DecidableEq F] in
theorem negY_eq (x y : F) : (curve b).negY x y = -y := by
  simp [Affine.negY, curve]

theorem IsPoint.add_self_eq_zero {p : F × F} {P : (curve b).Point} (hp : IsPoint p P) (hy : p.2 = 0)
    : P + P = 0 := by
  obtain ⟨hpoint, rfl⟩ := hp
  apply Affine.Point.add_self_of_Y_eq
  rw [negY_eq, hy, neg_zero]

theorem IsPoint.add_self {p : F × F} {P : (curve b).Point} (hp : IsPoint p P) (htwo : (2 : F) ≠ 0)
    (hy : p.2 ≠ 0) {l : F} (hl : l * (2 * p.2) = 3 * p.1 ^ 2)
    : IsPoint (l ^ 2 - 2 * p.1, l * (p.1 - (l ^ 2 - 2 * p.1)) - p.2) (P + P) := by
  obtain ⟨hpoint, rfl⟩ := hp
  have hne : p.2 ≠ (curve b).negY p.1 p.2 := by
    rw [negY_eq]
    intro heq
    have hdouble : 2 * p.2 = 0 := by linear_combination heq
    exact mul_ne_zero htwo hy hdouble
  have hrise : p.2 - (curve b).negY p.1 p.2 ≠ 0 := sub_ne_zero_of_ne hne
  have hslope : (curve b).slope p.1 p.1 p.2 p.2 = l := by
    rw [Affine.slope_of_Y_ne rfl hne, div_eq_iff hrise, negY_eq]
    simp only [curve]
    linear_combination -hl
  have hpoints : (l ^ 2 - 2 * p.1, l * (p.1 - (l ^ 2 - 2 * p.1)) - p.2)
      = ((curve b).addX p.1 p.1 ((curve b).slope p.1 p.1 p.2 p.2),
        (curve b).addY p.1 p.1 p.2 ((curve b).slope p.1 p.1 p.2 p.2)) := by
    rw [hslope, Affine.addY, Affine.negY, Affine.negAddY, Affine.addX]
    ext <;> simp only [curve] <;> ring
  rw [hpoints, Affine.Point.add_self_of_Y_ne hne]
  exact ⟨_, rfl⟩

def groupChain (Q : (curve b).Point) (S : Fin (2 ^ K) → (curve b).Point) (ms : List (Fin (2 ^ K)))
    : (curve b).Point :=
  ms.foldl (fun acc m => (acc + S m) + acc) Q

theorem IsPoint.foldlM_chunkStep {cs : Consts F} {Q : (curve b).Point}
    {S : Fin (2 ^ K) → (curve b).Point} (hs : ∀ m, IsPoint (cs.s m) (S m)) {p acc : F × F}
    (hp : IsPoint p Q) {ms : List (Fin (2 ^ K))} (h : ms.foldlM (chunkStep cs) p = some acc)
    : IsPoint acc (groupChain Q S ms) := by
  induction ms generalizing p Q with
  | nil =>
    cases h
    exact hp
  | cons m ms ih =>
    rw [List.foldlM_cons, Option.bind_eq_bind, Option.bind_eq_some_iff] at h
    obtain ⟨next, hnext, hrest⟩ := h
    rw [chunkStep, Option.bind_eq_bind, Option.bind_eq_some_iff] at hnext
    obtain ⟨t, ht, hadd⟩ := hnext
    exact ih ((hp.incompleteAdd (hs m) ht).incompleteAdd hp hadd) hrest

theorem chain_isPoint {cs : Consts F} {Q : (curve b).Point} {S : Fin (2 ^ K) → (curve b).Point}
    (hq : IsPoint cs.q Q) (hs : ∀ m, IsPoint (cs.s m) (S m)) {msg : Message} {acc : F × F}
    (h : chain cs msg = some acc) : IsPoint acc (groupChain Q S msg.toList) :=
  hq.foldlM_chunkStep hs h

theorem walkBatch_isPoint {B : Type} {cs : Consts F} {Q : (curve b).Point}
    {S : Fin (2 ^ K) → (curve b).Point} (hq : IsPoint cs.q Q) (hs : ∀ m, IsPoint (cs.s m) (S m))
    (toRepr : F → B) (msgs : List Message)
    : ∃ out, walkBatch cs toRepr msgs = some out ∧ out.length = msgs.length
      ∧ ∀ (i : Nat) (msg : Message), msgs[i]? = some msg →
        (Degenerate cs msg ∧ out[i]? = some none)
          ∨ (¬Degenerate cs msg ∧ ∃ acc, IsPoint acc (groupChain Q S msg.toList)
            ∧ out[i]? = some (some (toRepr acc.1))) := by
  refine ⟨_, walkBatch_eq cs toRepr msgs, List.length_map _, ?_⟩
  intro i msg hmsg
  rw [List.getElem?_map, hmsg, Option.map_some, walked, ← chain_eq_none_iff]
  cases hchain : chain cs msg with
  | none => exact Or.inl ⟨rfl, rfl⟩
  | some acc => exact Or.inr ⟨Option.some_ne_none acc, acc, chain_isPoint hq hs hchain, rfl⟩

-- On `y ^ 2 = x ^ 3 + 9` the sum of these two points has order three, so two chunks lead back.
def orderThree : Consts ℚ where
  q := (-2, 1)
  s _ := (6, -15)

theorem orderThree_chunks {n : Nat} {ms : List (Fin (2 ^ K))} (h : ms.length = 2 * n)
    : ms.foldlM (chunkStep orderThree) (-2, 1) = some (-2, 1) := by
  induction n generalizing ms with
  | zero =>
    rw [List.eq_nil_of_length_eq_zero h]
    rfl
  | succ n ih =>
    match ms, h with
    | m :: m' :: ms, h =>
      have hfirst : chunkStep orderThree (-2, 1) m = some (3, -6) := by
        norm_num [chunkStep, incompleteAdd, orderThree]
      have hsecond : chunkStep orderThree (3, -6) m' = some (-2, 1) := by
        norm_num [chunkStep, incompleteAdd, orderThree]
      rw [List.foldlM_cons, hfirst, Option.bind_eq_bind, Option.bind_some, List.foldlM_cons, hsecond,
        Option.bind_eq_bind, Option.bind_some]
      apply ih
      simp only [List.length_cons] at h
      omega

theorem walkBatch_isPoint_orderThree
    : ∃ (Q S : (curve (9 : ℚ)).Point) (out : List (Option ℚ)) (acc : ℚ × ℚ),
      walkBatch orderThree id [Vector.replicate CHUNKS 5] = some out ∧ out[0]? = some (some acc.1)
        ∧ IsPoint acc (groupChain Q (fun _ => S) (List.replicate CHUNKS 5)) := by
  have hq : (curve (9 : ℚ)).Nonsingular (-2) 1 := by
    rw [Affine.nonsingular_iff, Affine.equation_iff]
    norm_num [curve]
  have hs : (curve (9 : ℚ)).Nonsingular 6 (-15) := by
    rw [Affine.nonsingular_iff, Affine.equation_iff]
    norm_num [curve]
  have hstart : IsPoint orderThree.q (.some (-2) 1 hq) := ⟨hq, rfl⟩
  have hgenerators : ∀ m, IsPoint (orderThree.s m) (.some 6 (-15) hs) := fun _ => ⟨hs, rfl⟩
  obtain ⟨out, hout, -, hall⟩ := walkBatch_isPoint hstart hgenerators id [Vector.replicate CHUNKS 5]
  rcases hall 0 _ rfl with ⟨hdegenerate, -⟩ | ⟨-, acc, hacc, hfirst⟩
  . rw [← chain_eq_none_iff, chain, Vector.toList_replicate] at hdegenerate
    cases (orderThree_chunks (n := 26) (List.length_replicate ..)).symm.trans hdegenerate
  . rw [Vector.toList_replicate] at hacc
    exact ⟨_, _, out, acc, hout, hfirst, hacc⟩

end Sinsemilla
end Slipstream
