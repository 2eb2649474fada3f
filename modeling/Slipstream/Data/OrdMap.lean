import Mathlib.Data.Finset.Max
import Mathlib.Data.List.Induction

/-!
This module contains finite maps over a linear order, as their set of keys together with the lookup.
-/

structure OrdMap (K V : Type) where
  keys : Finset K
  get? : K → Option V
  mem_keys : ∀ k, k ∈ keys ↔ (get? k).isSome = true

namespace OrdMap

variable {K V : Type}

theorem mem_keys_iff {m : OrdMap K V} : k ∈ m.keys ↔ ∃ v, m.get? k = some v := by
  rw [m.mem_keys, Option.isSome_iff_exists]

theorem get?_eq_none {m : OrdMap K V} (h : k ∉ m.keys) : m.get? k = none := by
  rwa [m.mem_keys, Bool.not_eq_true, Option.isSome_eq_false_iff, Option.isNone_iff_eq_none] at h

theorem ext_get? {m n : OrdMap K V} (h : ∀ k, m.get? k = n.get? k) : m = n := by
  obtain ⟨mkeys, mget, mmem⟩ := m
  obtain ⟨nkeys, nget, nmem⟩ := n
  obtain rfl : mget = nget := funext h
  obtain rfl : mkeys = nkeys := Finset.ext fun k => (mmem k).trans (nmem k).symm
  rfl

def empty : OrdMap K V where
  keys := ∅
  get? _ := none
  mem_keys := by simp

def filter (m : OrdMap K V) (p : K → Bool) : OrdMap K V where
  keys := m.keys.filter (p · = true)
  get? k := if p k then m.get? k else none
  mem_keys k := by
    rw [Finset.mem_filter, m.mem_keys]
    split <;> simp_all

@[simp]
theorem keys_filter (m : OrdMap K V) (p : K → Bool)
    : (m.filter p).keys = m.keys.filter (p · = true) := rfl

theorem get?_filter (m : OrdMap K V) (p : K → Bool) (k : K)
    : (m.filter p).get? k = if p k then m.get? k else none := rfl

section DecidableEq

variable [DecidableEq K]

def insert (m : OrdMap K V) (k : K) (v : V) : OrdMap K V where
  keys := Insert.insert k m.keys
  get? j := if j = k then some v else m.get? j
  mem_keys j := by
    rw [Finset.mem_insert, m.mem_keys]
    split <;> simp_all

@[simp]
theorem keys_insert (m : OrdMap K V) (k : K) (v : V)
    : (m.insert k v).keys = Insert.insert k m.keys := rfl

theorem get?_insert (m : OrdMap K V) (k : K) (v : V) (j : K)
    : (m.insert k v).get? j = if j = k then some v else m.get? j := rfl

@[simp]
theorem get?_insert_self (m : OrdMap K V) (k : K) (v : V) : (m.insert k v).get? k = some v := by
  simp [get?_insert]

theorem get?_insert_of_ne (m : OrdMap K V) (v : V) (h : j ≠ k)
    : (m.insert k v).get? j = m.get? j := by
  simp [get?_insert, h]

def insertAll (m : OrdMap K V) (entries : List (K × V)) : OrdMap K V :=
  entries.foldl (fun m e => m.insert e.1 e.2) m

def ofList (entries : List (K × V)) : OrdMap K V := empty.insertAll entries

theorem insertAll_cons (m : OrdMap K V) (e : K × V) (entries : List (K × V))
    : m.insertAll (e :: entries) = (m.insert e.1 e.2).insertAll entries := rfl

theorem mem_keys_insertAll (m : OrdMap K V) (entries : List (K × V))
    : k ∈ (m.insertAll entries).keys ↔ k ∈ m.keys ∨ k ∈ entries.map Prod.fst := by
  induction entries generalizing m with
  | nil => simp [insertAll]
  | cons e entries ih =>
    rw [insertAll_cons, ih, keys_insert, Finset.mem_insert, List.map_cons, List.mem_cons]
    tauto

theorem mem_keys_ofList (entries : List (K × V))
    : k ∈ (ofList entries).keys ↔ k ∈ entries.map Prod.fst := by
  rw [ofList, mem_keys_insertAll]
  simp [empty]

theorem get?_insertAll_of_not_mem (m : OrdMap K V) {entries : List (K × V)}
    (h : k ∉ entries.map Prod.fst) : (m.insertAll entries).get? k = m.get? k := by
  induction entries generalizing m with
  | nil => rfl
  | cons e entries ih =>
    rw [List.map_cons, List.mem_cons, not_or] at h
    rw [insertAll_cons, ih _ h.2, get?_insert_of_ne _ _ h.1]

theorem get?_insertAll_cases (m : OrdMap K V) {entries : List (K × V)}
    (h : (m.insertAll entries).get? k = some v)
    : (k, v) ∈ entries ∨ k ∉ entries.map Prod.fst ∧ m.get? k = some v := by
  induction entries generalizing m with
  | nil => exact Or.inr ⟨by simp, h⟩
  | cons e entries ih =>
    rw [insertAll_cons] at h
    rcases ih _ h with hmem | ⟨hnot, hget⟩
    . exact Or.inl (List.mem_cons_of_mem _ hmem)
    . rw [get?_insert] at hget
      split at hget
      . next heq =>
        cases hget
        rw [heq]
        exact Or.inl List.mem_cons_self
      . next hne =>
        apply Or.inr
        rw [List.map_cons, List.mem_cons, not_or]
        exact ⟨⟨hne, hnot⟩, hget⟩

theorem insertAll_concat (m : OrdMap K V) (entries : List (K × V)) (e : K × V)
    : m.insertAll (entries ++ [e]) = (m.insertAll entries).insert e.1 e.2 :=
  List.foldl_append

theorem get?_insertAll_map (m : OrdMap K V) (key : α → K) (val : α → V) (xs : List α) (k : K)
    : (m.insertAll (xs.map fun x => (key x, val x))).get? k
      = ((xs.reverse.find? fun x => key x = k).map val).or (m.get? k) := by
  induction xs using List.reverseRecOn with
  | nil => rfl
  | append_singleton xs x ih =>
    rw [List.map_append, List.map_singleton, insertAll_concat, get?_insert, ih, List.reverse_append,
      List.reverse_singleton, List.singleton_append, List.find?_cons]
    by_cases h : key x = k
    . simp [h]
    . simp [h, Ne.symm h]

theorem insertAll_twice (m : OrdMap K V) (entries : List (K × V))
    : (m.insertAll entries).insertAll entries = m.insertAll entries := by
  have hentries : entries = entries.map fun e => (e.1, e.2) := (List.map_id _).symm
  apply ext_get?
  intro k
  rw [hentries, get?_insertAll_map, get?_insertAll_map]
  cases entries.reverse.find? fun e => e.1 = k <;> rfl

theorem exists_get?_insertAll (m : OrdMap K V) {entries : List (K × V)}
    (h : k ∈ entries.map Prod.fst)
    : ∃ v, (m.insertAll entries).get? k = some v ∧ (k, v) ∈ entries := by
  obtain ⟨v, hv⟩ := mem_keys_iff.mp ((m.mem_keys_insertAll entries).mpr (Or.inr h))
  rcases m.get?_insertAll_cases hv with hmem | ⟨hnot, -⟩
  . exact ⟨v, hv, hmem⟩
  . exact absurd h hnot

theorem get?_ofList_iff {entries : List (K × V)}
    (huniq : ∀ v w, (k, v) ∈ entries → (k, w) ∈ entries → v = w)
    : (ofList entries).get? k = some v ↔ (k, v) ∈ entries := by
  have hget : ∀ w, (ofList entries).get? k = some w → (k, w) ∈ entries := by
    intro w hw
    exact (get?_insertAll_cases _ hw).elim id fun h => absurd h.2 (by simp [empty])
  refine ⟨hget v, fun hv => ?_⟩
  have hkey : k ∈ (ofList entries).keys :=
    (mem_keys_insertAll _ _).mpr (Or.inr (List.mem_map_of_mem hv))
  obtain ⟨w, hw⟩ := mem_keys_iff.mp hkey
  rw [hw, huniq v w hv (hget w hw)]

def overlay (m n : OrdMap K V) : OrdMap K V where
  keys := m.keys ∪ n.keys
  get? k := (n.get? k).or (m.get? k)
  mem_keys k := by
    rw [Finset.mem_union, m.mem_keys, n.mem_keys, Option.isSome_or, Bool.or_eq_true, or_comm]

theorem get?_overlay (m n : OrdMap K V) (k : K)
    : (m.overlay n).get? k = (n.get? k).or (m.get? k) := rfl

end DecidableEq

section LinearOrder

variable [LinearOrder K]

def minKey? (m : OrdMap K V) : Option K :=
  if h : m.keys.Nonempty then some (m.keys.min' h) else none

theorem minKey?_congr {m n : OrdMap K V} (h : m.keys = n.keys) : m.minKey? = n.minKey? := by
  unfold minKey?
  simp only [h]

theorem minKey?_eq_some {m : OrdMap K V} (h : m.minKey? = some k)
    : k ∈ m.keys ∧ ∀ j ∈ m.keys, k ≤ j := by
  unfold minKey? at h
  split at h
  . cases h
    exact ⟨Finset.min'_mem _ _, fun j hj => Finset.min'_le _ j hj⟩
  . cases h

def maxKey? (m : OrdMap K V) : Option K :=
  if h : m.keys.Nonempty then some (m.keys.max' h) else none

def floor? (m : OrdMap K V) (k : K) : Option V :=
  if h : (m.keys.filter (· ≤ k)).Nonempty then
    m.get? ((m.keys.filter (· ≤ k)).max' h)
  else
    none

theorem floor?_eq_none {m : OrdMap K V} (h : ∀ j ∈ m.keys, k < j) : m.floor? k = none := by
  unfold floor?
  split
  . next hne =>
    obtain ⟨j, hj⟩ := hne
    rw [Finset.mem_filter] at hj
    exact absurd hj.2 (not_le.mpr (h j hj.1))
  . rfl

theorem floor?_eq_some {m : OrdMap K V} (hj : m.get? j = some v) (hle : j ≤ k)
    (hmax : ∀ i ∈ m.keys, i ≤ k → i ≤ j) : m.floor? k = some v := by
  have hmem : j ∈ m.keys.filter (· ≤ k) :=
    Finset.mem_filter.mpr ⟨mem_keys_iff.mpr ⟨v, hj⟩, hle⟩
  have hne : (m.keys.filter (· ≤ k)).Nonempty := ⟨j, hmem⟩
  have heq : (m.keys.filter (· ≤ k)).max' hne = j := by
    apply le_antisymm
    . have := Finset.mem_filter.mp (Finset.max'_mem _ hne)
      exact hmax _ this.1 this.2
    . exact Finset.le_max' _ j hmem
  unfold floor?
  rw [dif_pos hne, heq, hj]

theorem exists_of_floor? {m : OrdMap K V} (h : m.floor? k = some v)
    : ∃ j ≤ k, m.get? j = some v := by
  unfold floor? at h
  split at h
  . next hne => exact ⟨_, (Finset.mem_filter.mp (Finset.max'_mem _ hne)).2, h⟩
  . cases h

end LinearOrder

end OrdMap
