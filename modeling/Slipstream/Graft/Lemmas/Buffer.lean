import Slipstream.Data.Except
import Slipstream.Graft.Impl.Buffer
import Slipstream.Graft.Lemmas.Accumulator
import Mathlib.Data.List.TakeWhile

/-!
This module contains what is read back from the graft buffer: a shard's rows in ascending order, and
the run of them that a range can resume.
-/

namespace Slipstream

variable {H B : Type}

namespace PoolBuffer

variable {ser : HashSer H B} {t : PoolBuffer B}

theorem decodeRow_position (h : decodeRow ser p row = .ok r) : r.position = p := by
  unfold decodeRow at h
  split at h
  . cases h
  . next hash _ =>
    cases hdec : decodeRetention row.retentionKind row.checkpointHeight row.marking with
    | error e =>
      rw [hdec] at h
      cases h
    | ok retention =>
      rw [hdec] at h
      cases h
      rfl

theorem loadShard_positions (h : t.loadShard ser shard = .ok rows)
    : rows.map AccRow.position = t.bufferedPositions shard := by
  have hrows := forall₂_of_mapM h
  clear h
  generalize t.bufferedPositions shard = ps at hrows
  induction hrows with
  | nil => rfl
  | cons hr _ ih =>
    rw [List.map_cons, ih]
    congr 1
    split at hr
    . exact decodeRow_position hr
    . cases hr

theorem loadShard_stored (h : t.loadShard ser shard = .ok rows) (hr : r ∈ rows)
    : ∃ row, t.get? (shard, r.position) = some row ∧ decodeRow ser r.position row = .ok r := by
  have hrows := forall₂_of_mapM h
  clear h
  generalize t.bufferedPositions shard = ps at hrows
  induction hrows with
  | nil => cases hr
  | cons hread _ ih =>
    rcases List.mem_cons.mp hr with rfl | hr
    . split at hread
      . next row hrow =>
        rw [← decodeRow_position hread] at hrow hread
        exact ⟨row, hrow, hread⟩
      . cases hread
    . exact ih hr

theorem mem_bufferedPositions : p ∈ t.bufferedPositions shard ↔ (shard, p) ∈ t.keys := by
  unfold bufferedPositions
  rw [Finset.mem_sort, Finset.mem_image]
  constructor
  . rintro ⟨⟨k, q⟩, hmem, rfl⟩
    rw [Finset.mem_filter] at hmem
    obtain ⟨hmem, rfl⟩ := hmem
    exact hmem
  . intro hmem
    exact ⟨(shard, p), Finset.mem_filter.mpr ⟨hmem, rfl⟩, rfl⟩

theorem loadShard_ascending (h : t.loadShard ser shard = .ok rows)
    : rows.Pairwise fun a b => a.position < b.position := by
  have hsorted : (t.bufferedPositions shard).Pairwise (· < ·) := Finset.sortedLT_sort _ |>.pairwise
  rwa [← loadShard_positions h, List.pairwise_map] at hsorted

def Filed (t : PoolBuffer B) : Prop := ∀ k ∈ t.keys, shardOf k.2 = k.1

theorem filed_empty : Filed (.empty : PoolBuffer B) := by
  simp [Filed, OrdMap.empty]

theorem loadShard_shard (hfiled : t.Filed) (h : t.loadShard ser shard = .ok rows) (hr : r ∈ rows)
    : shardOf r.position = shard := by
  have hmem : r.position ∈ rows.map AccRow.position := List.mem_map_of_mem hr
  rw [loadShard_positions h, mem_bufferedPositions] at hmem
  exact hfiled (shard, r.position) hmem

theorem appendRows_stored {rows : List (AccRow H)} {t' : PoolBuffer B}
    (h : t.appendRows ser shard rows = .ok t')
    : ∃ stored, t' = t.insertAll stored
      ∧ stored.map Prod.fst = rows.map (fun r => (shard, r.position))
      ∧ ∀ e ∈ stored, ∃ r ∈ rows, e.1 = (shard, r.position) ∧ encodeRow ser r = .ok e.2 := by
  unfold appendRows at h
  obtain ⟨stored, hstored, hok⟩ := bind_eq_ok.mp h
  cases hok
  refine ⟨stored, rfl, ?_⟩
  have hrows := forall₂_of_mapM hstored
  clear h hstored
  induction hrows with
  | nil => exact ⟨rfl, by simp⟩
  | @cons r e rows stored he _ ih =>
    obtain ⟨row, hrow, he⟩ := bind_eq_ok.mp he
    cases he
    refine ⟨by rw [List.map_cons, List.map_cons, ih.1], ?_⟩
    intro e he
    rcases List.mem_cons.mp he with rfl | he
    . exact ⟨r, List.mem_cons_self, rfl, hrow⟩
    . obtain ⟨r', hr', hentry⟩ := ih.2 e he
      exact ⟨r', List.mem_cons_of_mem _ hr', hentry⟩

theorem mem_keys_appendRows {k : Nat × Nat} {rows : List (AccRow H)} {t' : PoolBuffer B}
    (h : t.appendRows ser shard rows = .ok t')
    : k ∈ t'.keys ↔ k ∈ t.keys ∨ k.1 = shard ∧ ∃ r ∈ rows, r.position = k.2 := by
  obtain ⟨stored, rfl, hkeys, -⟩ := appendRows_stored h
  rw [OrdMap.mem_keys_insertAll, hkeys, List.mem_map]
  apply or_congr_right
  constructor
  . rintro ⟨r, hr, rfl⟩
    exact ⟨rfl, r, hr, rfl⟩
  . rintro ⟨rfl, r, hr, hp⟩
    exact ⟨r, hr, by rw [hp]⟩

theorem get?_appendRows_of_not_mem {k : Nat × Nat} {rows : List (AccRow H)} {t' : PoolBuffer B}
    (h : t.appendRows ser shard rows = .ok t') (hk : ∀ r ∈ rows, (shard, r.position) ≠ k)
    : t'.get? k = t.get? k := by
  obtain ⟨stored, rfl, hkeys, -⟩ := appendRows_stored h
  apply OrdMap.get?_insertAll_of_not_mem
  rw [hkeys, List.mem_map]
  rintro ⟨r, hr, heq⟩
  exact hk r hr heq

theorem get?_appendRows {rows : List (AccRow H)} {t' : PoolBuffer B}
    (h : t.appendRows ser shard rows = .ok t') (hr : r ∈ rows)
    : ∃ r' ∈ rows, r'.position = r.position
      ∧ ∃ v, encodeRow ser r' = .ok v ∧ t'.get? (shard, r.position) = some v := by
  obtain ⟨stored, rfl, hkeys, hentries⟩ := appendRows_stored h
  have hkey : (shard, r.position) ∈ stored.map Prod.fst := by
    rw [hkeys]
    exact List.mem_map_of_mem hr
  obtain ⟨v, hv, hmem⟩ := t.exists_get?_insertAll hkey
  obtain ⟨r', hr', heq, hencode⟩ := hentries _ hmem
  exact ⟨r', hr', (congrArg Prod.snd heq).symm, v, hencode, hv⟩

theorem mem_keys_deleteRowsIn {k : Nat × Nat}
    : k ∈ (t.deleteRowsIn shard start stop).keys
        ↔
      k ∈ t.keys ∧ ¬(k.1 = shard ∧ start ≤ k.2 ∧ k.2 < stop) := by
  unfold deleteRowsIn
  rw [OrdMap.keys_filter, Finset.mem_filter]
  apply and_congr_right
  intro _
  rw [Bool.not_eq_true', Bool.eq_false_iff, ne_eq, not_iff_not]
  simp [and_assoc]

theorem get?_deleteRowsIn {k : Nat × Nat} (h : ¬(k.1 = shard ∧ start ≤ k.2 ∧ k.2 < stop))
    : (t.deleteRowsIn shard start stop).get? k = t.get? k := by
  rw [deleteRowsIn, OrdMap.get?_filter, if_pos]
  rw [Bool.not_eq_true', Bool.eq_false_iff]
  simpa [and_assoc] using h

theorem bufferedPositions_congr {t t' : PoolBuffer B} (h : ∀ p, t.get? (shard, p) = t'.get? (shard, p))
    : t.bufferedPositions shard = t'.bufferedPositions shard := by
  have hset : (t.keys.filter (·.1 = shard)).image Prod.snd
      = (t'.keys.filter (·.1 = shard)).image Prod.snd := by
    ext p
    have hp : p ∈ t.bufferedPositions shard ↔ _ := mem_bufferedPositions
    have hp' : p ∈ t'.bufferedPositions shard ↔ _ := mem_bufferedPositions
    rw [bufferedPositions, Finset.mem_sort] at hp hp'
    rw [hp, hp', OrdMap.mem_keys, OrdMap.mem_keys, h p]
  rw [bufferedPositions, hset, bufferedPositions]

theorem loadShard_congr {t t' : PoolBuffer B} (h : ∀ p, t.get? (shard, p) = t'.get? (shard, p))
    : t.loadShard ser shard = t'.loadShard ser shard := by
  rw [loadShard, loadShard, bufferedPositions_congr h]
  simp only [h]

theorem mem_keys_deleteFromPosition {k : Nat × Nat}
    : k ∈ (t.deleteFromPosition minPosition).keys ↔ k ∈ t.keys ∧ k.2 < minPosition := by
  simp [deleteFromPosition]

end PoolBuffer

theorem contiguousFront_subset (rows : List (AccRow H)) : contiguousFront rows ⊆ rows := by
  induction rows using contiguousFront.induct with
  | case1 => exact fun _ h => h
  | case2 r => exact fun _ h => h
  | case3 r prev rest _ ih =>
    rw [contiguousFront, if_pos ‹_›]
    exact List.cons_subset_cons _ ih
  | case4 r prev rest _ =>
    rw [contiguousFront, if_neg ‹_›]
    simp

theorem contiguousFront_run (r : AccRow H) (rest : List (AccRow H))
    : ∃ first, RunFrom first (contiguousFront (r :: rest)).reverse
      ∧ first + (contiguousFront (r :: rest)).length = r.position + 1 := by
  induction rest generalizing r with
  | nil => exact ⟨r.position, rfl, rfl⟩
  | cons prev rest ih =>
    rw [contiguousFront]
    split
    . next hnext =>
      obtain ⟨first, hrun, hlen⟩ := ih prev
      refine ⟨first, ?_, ?_⟩
      . rw [List.reverse_cons]
        apply hrun.append
        rw [List.length_reverse, hlen, hnext]
        rfl
      . rw [List.length_cons]
        omega
    . exact ⟨r.position, rfl, rfl⟩

theorem resumableRun_spec [DecidableEq H] (rows : List (AccRow H)) (start : Nat)
    (leaf : Option (Nat × H))
    : (∃ first, RunFrom first (resumableRun rows start leaf).1
        ∧ first + (resumableRun rows start leaf).1.length = start)
      ∧ ∀ r ∈ (resumableRun rows start leaf).1, r ∈ rows ∧ r.position < start := by
  have hbelow : ∀ r ∈ rows.takeWhile (·.position < start), r ∈ rows ∧ r.position < start :=
    fun r hr => ⟨(List.takeWhile_prefix _).subset hr, by simpa using List.mem_takeWhile_imp hr⟩
  have hnone : (∃ first, RunFrom first ([] : List (AccRow H)) ∧ first + 0 = start)
      ∧ ∀ r ∈ ([] : List (AccRow H)), r ∈ rows ∧ r.position < start := ⟨⟨start, rfl, rfl⟩, by simp⟩
  unfold resumableRun
  dsimp only
  generalize rows.takeWhile (·.position < start) = below at hbelow
  cases hlast : below.getLast? with
  | none => exact hnone
  | some r =>
    cases leaf with
    | none => exact hnone
    | some leaf =>
      dsimp only
      split
      . exact hnone
      . next hends =>
        obtain ⟨front, rfl⟩ := List.getLast?_eq_some_iff.mp hlast
        have hpos : r.position + 1 = start := by
          by_contra hne
          simp [hne] at hends
        rw [List.reverse_append, List.reverse_singleton, List.singleton_append]
        obtain ⟨first, hrun, hlen⟩ := contiguousFront_run r front.reverse
        refine ⟨⟨first, hrun, ?_⟩, ?_⟩
        . rw [List.length_reverse, hlen, hpos]
        . intro x hx
          apply hbelow
          have := contiguousFront_subset _ (List.mem_reverse.mp hx)
          simpa [or_comm] using this

end Slipstream
