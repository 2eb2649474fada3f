import Slipstream.Graft.Impl.Table
import Slipstream.Graft.Lemmas.Buffer

/-!
This module contains the verification of the graft buffer's table: it keeps one buffer for each pool,
and a shard's rows are those last written and not deleted since.
-/

namespace Slipstream

variable {H B : Type}

section Codec

theorem asI64_of_lt {n : Nat} (h : n < 2 ^ 63) : asI64 n = n := by
  unfold asI64
  rw [Int.bmod_def]
  omega

theorem asU64_natCast {n : Nat} (h : n < 2 ^ 64) : asU64 (n : Int) = n := by
  unfold asU64
  omega

/-- The heights of a retention have 32 bits. -/
def Retention.Fits : Retention → Prop
  | .checkpoint id _ => id < 2 ^ 32
  | _ => True

theorem decodeRetention_encodeRetention (r : Retention) (h : r.Fits)
    : decodeRetention (encodeRetention r).1 (encodeRetention r).2.1 (encodeRetention r).2.2 = .ok r := by
  cases r with
  | checkpoint id marking =>
    have hrange : ¬((id : Int) < 0 || 2 ^ 32 ≤ (id : Int)) = true := by
      have hid : id < 2 ^ 32 := h
      simp only [Bool.or_eq_true, decide_eq_true_eq]
      omega
    cases marking <;> simp only [encodeRetention, decodeRetention, Option.getD_some] <;>
      exact (if_neg hrange).trans rfl
  | _ => rfl

end Codec

section View

def GraftTable.view (t : GraftTable B) (pool : ShieldedPool) : PoolBuffer B where
  keys := (t.keys.filter fun k => k.pool = poolCode pool ∧ 0 ≤ k.shardIndex ∧ 0 ≤ k.position).image
    fun k => (k.shardIndex.toNat, k.position.toNat)
  get? k := t.get? ⟨poolCode pool, k.1, k.2⟩
  mem_keys k := by
    rw [← t.mem_keys, Finset.mem_image]
    constructor
    . rintro ⟨⟨code, shard, position⟩, hmem, rfl⟩
      obtain ⟨hkey, rfl, hshard, hposition⟩ := Finset.mem_filter.mp hmem
      dsimp only at hshard hposition ⊢
      rwa [Int.toNat_of_nonneg hshard, Int.toNat_of_nonneg hposition]
    . intro hmem
      exact ⟨_, Finset.mem_filter.mpr ⟨hmem, rfl, Int.natCast_nonneg _, Int.natCast_nonneg _⟩,
        Prod.ext (Int.toNat_natCast _) (Int.toNat_natCast _)⟩

theorem get?_view (t : GraftTable B) (pool : ShieldedPool) (k : Nat × Nat)
    : (t.view pool).get? k = t.get? ⟨poolCode pool, k.1, k.2⟩ := rfl

variable {t : GraftTable B} {pool other : ShieldedPool} {shard : Nat}

theorem poolCode_inj (pool other : ShieldedPool) : poolCode pool = poolCode other ↔ pool = other := by
  cases pool <;> cases other <;> decide

theorem view_insert (t : GraftTable B) (pool : ShieldedPool) (shard position : Nat)
    (row : StoredRow B)
    : GraftTable.view (t.insert ⟨poolCode pool, shard, position⟩ row) pool
      = (t.view pool).insert (shard, position) row := by
  apply OrdMap.ext_get?
  intro k
  rw [get?_view, OrdMap.get?_insert, OrdMap.get?_insert]
  have hkey : (⟨poolCode pool, k.1, k.2⟩ : TableKey) = ⟨poolCode pool, shard, position⟩
      ↔ k = (shard, position) := by
    simp [Prod.ext_iff]
  simp only [hkey]
  rfl

theorem view_insert_of_ne (t : GraftTable B) (h : other ≠ pool) (shard position : Int)
    (row : StoredRow B)
    : GraftTable.view (t.insert ⟨poolCode pool, shard, position⟩ row) other = t.view other := by
  apply OrdMap.ext_get?
  intro k
  apply OrdMap.get?_insert_of_ne
  simp [poolCode_inj, h]

/-- The table's integers are those of 63-bit numbers. -/
def GraftTable.InRange (t : GraftTable B) : Prop :=
  ∀ k ∈ t.keys, ∃ shard position : Nat,
    shard < 2 ^ 63 ∧ position < 2 ^ 63 ∧ k.shardIndex = shard ∧ k.position = position

theorem inRange_empty : GraftTable.InRange (.empty : GraftTable B) := by
  simp [GraftTable.InRange, OrdMap.empty]

theorem inRange_filter (h : t.InRange) (p : TableKey → Bool) : GraftTable.InRange (t.filter p) := by
  intro k hk
  rw [OrdMap.keys_filter, Finset.mem_filter] at hk
  exact h k hk.1

theorem view_deleteRowsIn (t : GraftTable B) (pool : ShieldedPool) (hshard : shard < 2 ^ 63)
    (hstart : start < 2 ^ 63) (hstop : stop < 2 ^ 63)
    : (t.deleteRowsIn pool shard start stop).view pool
      = (t.view pool).deleteRowsIn shard start stop := by
  apply OrdMap.ext_get?
  intro k
  rw [get?_view, GraftTable.deleteRowsIn, PoolBuffer.deleteRowsIn, OrdMap.get?_filter,
    OrdMap.get?_filter, asI64_of_lt hshard, asI64_of_lt hstart, asI64_of_lt hstop]
  have hcond : (!((poolCode pool == poolCode pool) && ((k.1 : Int) == (shard : Int))
      && decide ((start : Int) ≤ k.2) && decide ((k.2 : Int) < stop)))
      = !(k.1 == shard && decide (start ≤ k.2) && decide (k.2 < stop)) := by
    rw [Bool.eq_iff_iff]
    simp
  rw [hcond]
  rfl

theorem view_deleteRowsIn_of_ne (t : GraftTable B) (h : other ≠ pool) (shard start stop : Nat)
    : (t.deleteRowsIn pool shard start stop).view other = t.view other := by
  apply OrdMap.ext_get?
  intro k
  rw [get?_view, GraftTable.deleteRowsIn, OrdMap.get?_filter, if_pos (by simp [poolCode_inj, h])]
  rfl

theorem view_deleteFromPosition (t : GraftTable B) (pool : ShieldedPool)
    (hmin : minPosition < 2 ^ 63)
    : (t.deleteFromPosition pool minPosition).view pool
      = (t.view pool).deleteFromPosition minPosition := by
  apply OrdMap.ext_get?
  intro k
  rw [get?_view, GraftTable.deleteFromPosition, PoolBuffer.deleteFromPosition, OrdMap.get?_filter,
    OrdMap.get?_filter, asI64_of_lt hmin]
  have hcond : (!((poolCode pool == poolCode pool) && decide ((minPosition : Int) ≤ k.2)))
      = decide (k.2 < minPosition) := by
    rw [Bool.eq_iff_iff]
    simp
  rw [hcond]
  rfl

theorem view_deleteFromPosition_of_ne (t : GraftTable B) (h : other ≠ pool) (minPosition : Nat)
    : (t.deleteFromPosition pool minPosition).view other = t.view other := by
  apply OrdMap.ext_get?
  intro k
  rw [get?_view, GraftTable.deleteFromPosition, OrdMap.get?_filter,
    if_pos (by simp [poolCode_inj, h])]
  rfl

theorem storedPositions_eq (h : t.InRange) (pool : ShieldedPool) (hshard : shard < 2 ^ 63)
    : t.storedPositions pool shard
      = ((t.view pool).bufferedPositions shard).map fun p : Nat => (p : Int) := by
  have hset : (t.keys.filter fun k => k.pool = poolCode pool ∧ k.shardIndex = asI64 shard).image
        TableKey.position
      = (((t.view pool).keys.filter (·.1 = shard)).image Prod.snd).map
        ⟨fun p : Nat => (p : Int), Int.ofNat_injective⟩ := by
    ext i
    simp only [Finset.mem_image, Finset.mem_map, Finset.mem_filter, asI64_of_lt hshard]
    constructor
    . rintro ⟨⟨code, index, position⟩, ⟨hmem, rfl, rfl⟩, rfl⟩
      obtain ⟨-, p, -, -, -, rfl⟩ := h _ hmem
      refine ⟨p, ⟨(shard, p), ⟨?_, rfl⟩, rfl⟩, rfl⟩
      rwa [OrdMap.mem_keys, get?_view, ← OrdMap.mem_keys]
    . rintro ⟨p, ⟨⟨index, p'⟩, ⟨hmem, rfl⟩, rfl⟩, rfl⟩
      rw [OrdMap.mem_keys, get?_view, ← OrdMap.mem_keys] at hmem
      exact ⟨_, ⟨hmem, rfl, rfl⟩, rfl⟩
  rw [GraftTable.storedPositions, hset, PoolBuffer.bufferedPositions]
  exact (Finset.map_sort ⟨fun p : Nat => (p : Int), Int.ofNat_injective⟩ _ (· ≤ ·) (· ≤ ·)
    fun a _ b _ => Int.ofNat_le.symm).symm

theorem lt_of_mem_bufferedPositions (h : t.InRange)
    (hp : p ∈ (t.view pool).bufferedPositions shard) : p < 2 ^ 63 := by
  rw [PoolBuffer.mem_bufferedPositions, OrdMap.mem_keys, get?_view, ← OrdMap.mem_keys] at hp
  obtain ⟨-, q, -, hq, -, heq⟩ := h _ hp
  dsimp only at heq
  omega

theorem loadShard_view (ser : HashSer H B) (h : t.InRange) (pool : ShieldedPool)
    (hshard : shard < 2 ^ 63)
    : t.loadShard ser pool shard = (t.view pool).loadShard ser shard := by
  rw [GraftTable.loadShard, storedPositions_eq h pool hshard, List.mapM_map, PoolBuffer.loadShard]
  apply mapM_congr
  intro p hp
  have hlt := lt_of_mem_bufferedPositions h hp
  rw [Function.comp_apply, asI64_of_lt hshard, asU64_natCast (by omega)]
  rfl

theorem bufferedPositions_view (h : t.InRange) (pool : ShieldedPool) (hshard : shard < 2 ^ 63)
    : t.bufferedPositions pool shard = (t.view pool).bufferedPositions shard := by
  rw [GraftTable.bufferedPositions, storedPositions_eq h pool hshard, List.map_map]
  conv => rhs; rw [← List.map_id ((t.view pool).bufferedPositions shard)]
  apply List.map_congr_left
  intro p hp
  have hlt := lt_of_mem_bufferedPositions h hp
  exact asU64_natCast (by omega)

end View

structure HashSer.RoundTrips (ser : HashSer H B) (bytes : H → B) : Prop where
  write : ∀ hash, ser.write hash = .ok (bytes hash)
  read : ∀ hash, ser.read (bytes hash) = .ok hash

section Rows

variable {ser : HashSer H B} {bytes : H → B} {t t' : GraftTable B}

def storedRow (bytes : H → B) (r : AccRow H) : StoredRow B where
  commitment := bytes r.hash
  retentionKind := (encodeRetention r.retention).1
  checkpointHeight := (encodeRetention r.retention).2.1
  marking := (encodeRetention r.retention).2.2

theorem encodeRow_eq (h : ser.RoundTrips bytes) (r : AccRow H)
    : PoolBuffer.encodeRow ser r = .ok (storedRow bytes r) := by
  simp only [PoolBuffer.encodeRow, h.write]
  rfl

theorem decodeRow_storedRow (h : ser.RoundTrips bytes) (r : AccRow H) (hfits : r.retention.Fits)
    : PoolBuffer.decodeRow ser r.position (storedRow bytes r) = .ok r := by
  have hretention := decodeRetention_encodeRetention r.retention hfits
  simp only [PoolBuffer.decodeRow, storedRow, h.read, hretention]
  rfl

def tableEntry (bytes : H → B) (pool : ShieldedPool) (shard : Nat) (r : AccRow H)
    : TableKey × StoredRow B :=
  (⟨poolCode pool, asI64 shard, asI64 r.position⟩, storedRow bytes r)

theorem appendRows_eq (h : ser.RoundTrips bytes) (t : GraftTable B) (pool : ShieldedPool)
    (shard : Nat) (rows : List (AccRow H))
    : t.appendRows ser pool shard rows
      = .ok (t.insertAll (rows.map (tableEntry bytes pool shard))) := by
  have hentries : (rows.mapM fun r => do
        return ((⟨poolCode pool, asI64 shard, asI64 r.position⟩ : TableKey),
          ← PoolBuffer.encodeRow ser r))
      = .ok (rows.map (tableEntry bytes pool shard)) := by
    simp only [encodeRow_eq h]
    exact List.mapM_pure
  rw [GraftTable.appendRows, hentries]
  rfl

theorem PoolBuffer.appendRows_eq (h : ser.RoundTrips bytes) (b : PoolBuffer B) (shard : Nat)
    (rows : List (AccRow H))
    : b.appendRows ser shard rows
      = .ok (b.insertAll (rows.map fun r => ((shard, r.position), storedRow bytes r))) := by
  have hentries : (rows.mapM fun r => do
        return ((shard, r.position), ← PoolBuffer.encodeRow ser r))
      = .ok (rows.map fun r => ((shard, r.position), storedRow bytes r)) := by
    simp only [encodeRow_eq h]
    exact List.mapM_pure
  rw [PoolBuffer.appendRows, hentries]
  rfl

theorem view_insertAll (bytes : H → B) (t : GraftTable B) (pool : ShieldedPool) {shard : Nat}
    {rows : List (AccRow H)} (hshard : shard < 2 ^ 63) (hrows : ∀ r ∈ rows, r.position < 2 ^ 63)
    : GraftTable.view (t.insertAll (rows.map (tableEntry bytes pool shard))) pool
      = (t.view pool).insertAll (rows.map fun r => ((shard, r.position), storedRow bytes r)) := by
  induction rows generalizing t with
  | nil => rfl
  | cons r rest ih =>
    have hr := hrows r List.mem_cons_self
    rw [List.map_cons, OrdMap.insertAll_cons, ih _ fun x hx => hrows x (List.mem_cons_of_mem _ hx),
      tableEntry, asI64_of_lt hshard, asI64_of_lt hr, view_insert]
    rfl

theorem view_insertAll_of_ne (bytes : H → B) (t : GraftTable B) {pool other : ShieldedPool}
    (h : other ≠ pool) (shard : Nat) (rows : List (AccRow H))
    : GraftTable.view (t.insertAll (rows.map (tableEntry bytes pool shard))) other
      = t.view other := by
  induction rows generalizing t with
  | nil => rfl
  | cons r rest ih => rw [List.map_cons, OrdMap.insertAll_cons, ih, tableEntry, view_insert_of_ne _ h]

theorem inRange_insertAll (bytes : H → B) {t : GraftTable B} (h : t.InRange) (pool : ShieldedPool)
    {shard : Nat} {rows : List (AccRow H)} (hshard : shard < 2 ^ 63)
    (hrows : ∀ r ∈ rows, r.position < 2 ^ 63)
    : GraftTable.InRange (t.insertAll (rows.map (tableEntry bytes pool shard))) := by
  intro k hk
  rw [OrdMap.mem_keys_insertAll, List.map_map, List.mem_map] at hk
  rcases hk with hk | ⟨r, hr, rfl⟩
  . exact h k hk
  . have hposition := hrows r hr
    refine ⟨shard, r.position, hshard, hposition, ?_⟩
    rw [Function.comp_apply, tableEntry, asI64_of_lt hshard, asI64_of_lt hposition]
    exact ⟨rfl, rfl⟩

end Rows

namespace GraftOp

variable {ser : HashSer H B} {bytes : H → B} {t : GraftTable B}

def InRange : GraftOp H → Prop
  | .appendRows _ shard rows =>
    shard < 2 ^ 63 ∧ ∀ r ∈ rows, r.position < 2 ^ 63 ∧ r.retention.Fits
  | .deleteRowsIn _ shard start stop => shard < 2 ^ 63 ∧ start < 2 ^ 63 ∧ stop < 2 ^ 63
  | .deleteFromPosition _ minPosition => minPosition < 2 ^ 63

def onPool (ser : HashSer H B) (pool : ShieldedPool) (b : PoolBuffer B)
    : GraftOp H → Except String (PoolBuffer B)
  | .appendRows p shard rows => if p = pool then b.appendRows ser shard rows else .ok b
  | .deleteRowsIn p shard start stop =>
    .ok (if p = pool then b.deleteRowsIn shard start stop else b)
  | .deleteFromPosition p minPosition =>
    .ok (if p = pool then b.deleteFromPosition minPosition else b)

theorem apply_view (hser : ser.RoundTrips bytes) (h : t.InRange) {op : GraftOp H} (hop : op.InRange)
    : ∃ t', op.apply ser t = .ok t' ∧ t'.InRange
      ∧ ∀ pool, op.onPool ser pool (t.view pool) = .ok (t'.view pool) := by
  cases op with
  | appendRows p shard rows =>
    obtain ⟨hshard, hrows⟩ := hop
    have hpositions := fun r hr => (hrows r hr).1
    refine ⟨_, appendRows_eq hser t p shard rows, inRange_insertAll bytes h p hshard hpositions, ?_⟩
    intro pool
    by_cases hp : p = pool
    . rw [← hp, view_insertAll bytes t p hshard hpositions, onPool, if_pos rfl,
        PoolBuffer.appendRows_eq hser]
    . rw [view_insertAll_of_ne bytes t (Ne.symm hp), onPool, if_neg hp]
  | deleteRowsIn p shard start stop =>
    obtain ⟨hshard, hstart, hstop⟩ := hop
    refine ⟨_, rfl, inRange_filter h _, fun pool => congrArg Except.ok ?_⟩
    split
    . next heq => rw [← heq, view_deleteRowsIn t p hshard hstart hstop]
    . next hne => rw [view_deleteRowsIn_of_ne t (Ne.symm hne)]
  | deleteFromPosition p minPosition =>
    refine ⟨_, rfl, inRange_filter h _, fun pool => congrArg Except.ok ?_⟩
    split
    . next heq => rw [← heq, view_deleteFromPosition t p hop]
    . next hne => rw [view_deleteFromPosition_of_ne t (Ne.symm hne)]

def Writes (op : GraftOp H) (pool : ShieldedPool) (shard : Nat) (row : AccRow H) : Prop :=
  ∃ rows, op = .appendRows pool shard rows
    ∧ rows.reverse.find? (fun r => r.position = row.position) = some row

def Touches (pool : ShieldedPool) (shard position : Nat) : GraftOp H → Prop
  | .appendRows p s rows => p = pool ∧ s = shard ∧ ∃ r ∈ rows, r.position = position
  | .deleteRowsIn p s start stop => p = pool ∧ s = shard ∧ start ≤ position ∧ position < stop
  | .deleteFromPosition p minPosition => p = pool ∧ minPosition ≤ position

theorem touches_of_writes {op : GraftOp H} (h : op.Writes pool shard row)
    : op.Touches pool shard row.position := by
  obtain ⟨rows, rfl, hlast⟩ := h
  exact ⟨rfl, rfl, row, List.mem_reverse.mp (List.mem_of_find?_eq_some hlast), rfl⟩

theorem get?_onPool_of_touches (hser : ser.RoundTrips bytes) {op : GraftOp H} {b b' : PoolBuffer B}
    (h : op.onPool ser pool b = .ok b') (htouches : op.Touches pool shard position)
    : b'.get? (shard, position) = some v
        ↔
      ∃ row, op.Writes pool shard row ∧ row.position = position ∧ v = storedRow bytes row := by
  cases op with
  | appendRows p s rows =>
    obtain ⟨rfl, rfl, r, hr, hposition⟩ := htouches
    rw [onPool, if_pos rfl, PoolBuffer.appendRows_eq hser] at h
    cases h
    obtain ⟨row, hlast⟩ : ∃ row, rows.reverse.find? (fun r => r.position = position) = some row := by
      rw [← Option.isSome_iff_exists, List.find?_isSome]
      exact ⟨r, List.mem_reverse.mpr hr, by simpa using hposition⟩
    have hrow : row.position = position := by simpa using List.find?_some hlast
    have hkey : ∀ r : AccRow H, (s, r.position) = (s, position) ↔ r.position = position := by simp
    rw [OrdMap.get?_insertAll_map]
    simp only [hkey, hlast, Option.map_some, Option.some_or, Option.some.injEq]
    constructor
    . rintro rfl
      exact ⟨row, ⟨rows, rfl, by rw [hrow, hlast]⟩, hrow, rfl⟩
    . rintro ⟨row', ⟨rows', heq, hlast'⟩, hrow', rfl⟩
      cases heq
      rw [hrow', hlast] at hlast'
      cases hlast'
      rfl
  | deleteRowsIn p s start stop =>
    obtain ⟨rfl, rfl, hstart, hstop⟩ := htouches
    rw [onPool, if_pos rfl] at h
    cases h
    have hnone : (b.deleteRowsIn s start stop).get? (s, position) = none :=
      OrdMap.get?_eq_none fun hmem =>
        (PoolBuffer.mem_keys_deleteRowsIn.mp hmem).2 ⟨rfl, hstart, hstop⟩
    simp [hnone, Writes]
  | deleteFromPosition p minPosition =>
    obtain ⟨rfl, hmin⟩ := htouches
    rw [onPool, if_pos rfl] at h
    cases h
    have hnone : (b.deleteFromPosition minPosition).get? (shard, position) = none :=
      OrdMap.get?_eq_none fun hmem =>
        absurd (PoolBuffer.mem_keys_deleteFromPosition.mp hmem).2 (Nat.not_lt.mpr hmin)
    simp [hnone, Writes]

theorem get?_onPool_of_not_touches (hser : ser.RoundTrips bytes) {op : GraftOp H}
    {b b' : PoolBuffer B} (h : op.onPool ser pool b = .ok b')
    (htouches : ¬op.Touches pool shard position)
    : b'.get? (shard, position) = b.get? (shard, position) := by
  cases op with
  | appendRows p s rows =>
    rw [onPool] at h
    split at h
    . next hp =>
      rw [PoolBuffer.appendRows_eq hser] at h
      cases h
      apply OrdMap.get?_insertAll_of_not_mem
      simp only [List.map_map, List.mem_map, Function.comp_apply, Prod.mk.injEq]
      rintro ⟨r, hr, hshard, hposition⟩
      exact htouches ⟨hp, hshard, r, hr, hposition⟩
    . cases h
      rfl
  | deleteRowsIn p s start stop =>
    cases h
    split
    . next hp => exact PoolBuffer.get?_deleteRowsIn fun hin => htouches ⟨hp, hin.1.symm, hin.2⟩
    . rfl
  | deleteFromPosition p minPosition =>
    cases h
    split
    . next hp =>
      have hlt : position < minPosition := Nat.lt_of_not_le fun hle => htouches ⟨hp, hle⟩
      rw [PoolBuffer.deleteFromPosition, OrdMap.get?_filter, if_pos (decide_eq_true hlt)]
    . rfl

def Live (ops : List (GraftOp H)) (pool : ShieldedPool) (shard : Nat) (row : AccRow H) : Prop :=
  ∃ before op after, ops = before ++ op :: after ∧ op.Writes pool shard row
    ∧ ∀ later ∈ after, ¬later.Touches pool shard row.position

theorem live_concat {ops : List (GraftOp H)} {op : GraftOp H}
    : Live (ops ++ [op]) pool shard row
        ↔
      op.Writes pool shard row ∨ Live ops pool shard row ∧ ¬op.Touches pool shard row.position := by
  constructor
  . rintro ⟨before, writer, after, hops, hwrites, hafter⟩
    rcases List.eq_nil_or_concat after with rfl | ⟨front, last, rfl⟩
    . obtain ⟨-, hlast⟩ := List.append_inj' hops rfl
      cases hlast
      exact Or.inl hwrites
    . have hops' : ops ++ [op] = (before ++ writer :: front) ++ [last] := by simp [hops]
      obtain ⟨rfl, hlast⟩ := List.append_inj' hops' rfl
      cases hlast
      rw [List.concat_eq_append] at hafter
      exact Or.inr ⟨⟨before, writer, front, rfl, hwrites, fun later hlater =>
        hafter later (List.mem_append_left _ hlater)⟩, hafter op (by simp)⟩
  . rintro (hwrites | ⟨⟨before, writer, after, rfl, hwrites, hafter⟩, huntouched⟩)
    . exact ⟨ops, op, [], rfl, hwrites, by simp⟩
    . refine ⟨before, writer, after ++ [op], by simp, hwrites, ?_⟩
      intro later hlater
      rcases List.mem_append.mp hlater with hlater | hlater
      . exact hafter later hlater
      . rwa [List.mem_singleton.mp hlater]

structure Holds (bytes : H → B) (ops : List (GraftOp H)) (t : GraftTable B) : Prop where
  inRange : t.InRange
  get? : ∀ pool shard position v, (t.view pool).get? (shard, position) = some v
    ↔ ∃ row, Live ops pool shard row ∧ row.position = position ∧ v = storedRow bytes row

theorem Holds.apply (hser : ser.RoundTrips bytes) {ops : List (GraftOp H)} (h : Holds bytes ops t)
    {op : GraftOp H} (hop : op.InRange)
    : ∃ t', op.apply ser t = .ok t' ∧ Holds bytes (ops ++ [op]) t' := by
  obtain ⟨t', ht', hrange, hviews⟩ := apply_view hser h.inRange hop
  refine ⟨t', ht', hrange, ?_⟩
  intro pool shard position v
  by_cases htouches : op.Touches pool shard position
  . rw [get?_onPool_of_touches hser (hviews pool) htouches]
    apply exists_congr
    intro row
    rw [live_concat]
    constructor
    . rintro ⟨hwrites, hrow⟩
      exact ⟨Or.inl hwrites, hrow⟩
    . rintro ⟨hwrites | ⟨-, huntouched⟩, rfl, hv⟩
      . exact ⟨hwrites, rfl, hv⟩
      . exact absurd htouches huntouched
  . rw [get?_onPool_of_not_touches hser (hviews pool) htouches, h.get?]
    apply exists_congr
    intro row
    rw [live_concat]
    constructor
    . rintro ⟨hlive, rfl, hv⟩
      exact ⟨Or.inr ⟨hlive, htouches⟩, rfl, hv⟩
    . rintro ⟨hwrites | ⟨hlive, -⟩, rfl, hv⟩
      . exact absurd (touches_of_writes hwrites) htouches
      . exact ⟨hlive, rfl, hv⟩

theorem run_concat (ser : HashSer H B) {ops : List (GraftOp H)} (h : run ser ops = .ok t)
    (op : GraftOp H) : run ser (ops ++ [op]) = op.apply ser t := by
  unfold run at h ⊢
  rw [List.foldlM_append, h]
  exact bind_pure (op.apply ser t)

theorem holds_empty : Holds bytes ([] : List (GraftOp H)) .empty where
  inRange := inRange_empty
  get? := by simp [get?_view, OrdMap.empty, Live]

theorem run_holds (hser : ser.RoundTrips bytes) {ops : List (GraftOp H)}
    (hops : ∀ op ∈ ops, op.InRange) : ∃ t, run ser ops = .ok t ∧ Holds bytes ops t := by
  induction ops using List.reverseRecOn with
  | nil => exact ⟨.empty, rfl, holds_empty⟩
  | append_singleton ops op ih =>
    obtain ⟨t, ht, hholds⟩ := ih fun op hop => hops op (List.mem_append_left _ hop)
    obtain ⟨t', ht', hholds'⟩ := hholds.apply hser (hops op (by simp))
    exact ⟨t', by rw [run_concat ser ht, ht'], hholds'⟩

theorem fits_of_live {ops : List (GraftOp H)} (hops : ∀ op ∈ ops, op.InRange)
    (h : Live ops pool shard row) : row.retention.Fits := by
  obtain ⟨before, op, after, rfl, ⟨rows, rfl, hlast⟩, -⟩ := h
  have hop := hops (.appendRows pool shard rows) (by simp)
  exact (hop.2 row (List.mem_reverse.mp (List.mem_of_find?_eq_some hlast))).2

theorem Holds.loadShard (hser : ser.RoundTrips bytes) {ops : List (GraftOp H)}
    (hops : ∀ op ∈ ops, op.InRange) (h : Holds bytes ops t) (pool : ShieldedPool)
    (hshard : shard < 2 ^ 63)
    : ∃ rows, t.loadShard ser pool shard = .ok rows
      ∧ rows.Pairwise (fun r r' => r.position < r'.position)
      ∧ (∀ row, row ∈ rows ↔ Live ops pool shard row)
      ∧ t.bufferedPositions pool shard = rows.map AccRow.position := by
  have hdecodes : ∀ p row, Live ops pool shard row → row.position = p →
      PoolBuffer.decodeRow ser p (storedRow bytes row) = .ok row := by
    rintro _ row hlive rfl
    exact decodeRow_storedRow hser row (fits_of_live hops hlive)
  obtain ⟨rows, hrows⟩ : ∃ rows, (t.view pool).loadShard ser shard = .ok rows := by
    apply exists_mapM
    intro p hp
    rw [PoolBuffer.mem_bufferedPositions, OrdMap.mem_keys_iff] at hp
    obtain ⟨v, hv⟩ := hp
    obtain ⟨row, hlive, hposition, rfl⟩ := (h.get? pool shard p v).mp hv
    exact ⟨row, by rw [hv]; exact hdecodes p row hlive hposition⟩
  refine ⟨rows, ?_, PoolBuffer.loadShard_ascending hrows, ?_, ?_⟩
  . rw [loadShard_view ser h.inRange pool hshard, hrows]
  . intro row
    constructor
    . intro hrow
      obtain ⟨v, hv, hdecode⟩ := PoolBuffer.loadShard_stored hrows hrow
      obtain ⟨live, hlive, hposition, rfl⟩ := (h.get? pool shard _ v).mp hv
      rw [hdecodes _ live hlive hposition] at hdecode
      cases hdecode
      exact hlive
    . intro hlive
      have hv := (h.get? pool shard row.position _).mpr ⟨row, hlive, rfl, rfl⟩
      have hp : row.position ∈ rows.map AccRow.position := by
        rw [PoolBuffer.loadShard_positions hrows, PoolBuffer.mem_bufferedPositions,
          OrdMap.mem_keys_iff]
        exact ⟨_, hv⟩
      obtain ⟨r, hr, hposition⟩ := List.mem_map.mp hp
      obtain ⟨v, hv', hdecode⟩ := PoolBuffer.loadShard_stored hrows hr
      rw [hposition, hv] at hv'
      cases hv'
      rw [hdecodes _ row hlive hposition.symm] at hdecode
      cases hdecode
      exact hr
  . rw [bufferedPositions_view h.inRange pool hshard, PoolBuffer.loadShard_positions hrows]

def pool : GraftOp H → ShieldedPool
  | .appendRows pool _ _ => pool
  | .deleteRowsIn pool _ _ _ => pool
  | .deleteFromPosition pool _ => pool

theorem onPool_of_ne {op : GraftOp H} {other : ShieldedPool} (h : op.pool ≠ other)
    (b : PoolBuffer B) : op.onPool ser other b = .ok b := by
  cases op with
  | appendRows p _ _ => exact if_neg h
  | deleteRowsIn p _ _ _ => exact congrArg Except.ok (if_neg h)
  | deleteFromPosition p _ => exact congrArg Except.ok (if_neg h)

theorem view_of_own_statements (hser : ser.RoundTrips bytes) (pool : ShieldedPool)
    {ops : List (GraftOp H)} (hops : ∀ op ∈ ops, op.InRange)
    : ∃ t own, run ser ops = .ok t ∧ run ser (ops.filter (·.pool = pool)) = .ok own
      ∧ t.InRange ∧ own.InRange ∧ t.view pool = own.view pool := by
  induction ops using List.reverseRecOn with
  | nil => exact ⟨.empty, .empty, rfl, rfl, inRange_empty, inRange_empty, rfl⟩
  | append_singleton ops op ih =>
    obtain ⟨t, own, ht, hown, hrange, hownRange, hview⟩ :=
      ih fun op hop => hops op (List.mem_append_left _ hop)
    have hop := hops op (by simp)
    obtain ⟨t', ht', hrange', hviews⟩ := apply_view hser hrange hop
    have hrun := run_concat ser ht op
    rw [ht'] at hrun
    by_cases hpool : op.pool = pool
    . obtain ⟨own', hown', hownRange', hownViews⟩ := apply_view hser hownRange hop
      refine ⟨t', own', hrun, ?_, hrange', hownRange', ?_⟩
      . rw [List.filter_append, List.filter_cons_of_pos (by simpa using hpool), List.filter_nil,
          run_concat ser hown, hown']
      . have heq := hviews pool
        rw [hview, hownViews pool] at heq
        exact (Except.ok.inj heq).symm
    . refine ⟨t', own, hrun, ?_, hrange', hownRange, ?_⟩
      . rw [List.filter_append, List.filter_cons_of_neg (by simpa using hpool), List.filter_nil,
          List.append_nil, hown]
      . have heq := hviews pool
        rw [onPool_of_ne hpool] at heq
        rw [← hview, Except.ok.inj heq]

end GraftOp

open GraftOp in
theorem graft_table_keeps_last_written {ser : HashSer H B} {bytes : H → B}
    (hser : ser.RoundTrips bytes) {ops : List (GraftOp H)} (hops : ∀ op ∈ ops, op.InRange)
    : ∃ t, run ser ops = .ok t
      -- What is read back is what was last written and not deleted since.
      ∧ (∀ pool shard, shard < 2 ^ 63 →
        ∃ rows, t.loadShard ser pool shard = .ok rows
          ∧ rows.Pairwise (fun r r' => r.position < r'.position)
          ∧ (∀ row, row ∈ rows ↔ Live ops pool shard row)
          ∧ t.bufferedPositions pool shard = rows.map AccRow.position)
      -- An append that is repeated leaves the table as the first one did.
      ∧ (∀ pool shard rows, (GraftOp.appendRows pool shard rows).InRange →
        ∃ t', run ser (ops ++ [.appendRows pool shard rows]) = .ok t'
          ∧ run ser (ops ++ [.appendRows pool shard rows, .appendRows pool shard rows]) = .ok t')
      -- A pool's answers are those of the statements on this pool alone.
      ∧ ∀ pool, ∃ own, run ser (ops.filter (·.pool = pool)) = .ok own
        ∧ ∀ shard < 2 ^ 63, t.loadShard ser pool shard = own.loadShard ser pool shard
          ∧ t.bufferedPositions pool shard = own.bufferedPositions pool shard := by
  obtain ⟨t, ht, hholds⟩ := run_holds hser hops
  refine ⟨t, ht, ?_, ?_, ?_⟩
  . intro pool shard hshard
    exact hholds.loadShard hser hops pool hshard
  . intro pool shard rows hop
    have honce := run_concat ser ht (.appendRows pool shard rows)
    rw [GraftOp.apply, appendRows_eq hser] at honce
    refine ⟨_, honce, ?_⟩
    rw [← List.singleton_append, ← List.append_assoc, run_concat ser honce, GraftOp.apply,
      appendRows_eq hser, OrdMap.insertAll_twice]
  . intro pool
    obtain ⟨t', own, ht', hown, hrange, hownRange, hview⟩ := view_of_own_statements hser pool hops
    rw [ht] at ht'
    cases ht'
    refine ⟨own, hown, ?_⟩
    intro shard hshard
    rw [loadShard_view ser hrange pool hshard, loadShard_view ser hownRange pool hshard,
      bufferedPositions_view hrange pool hshard, bufferedPositions_view hownRange pool hshard, hview]
    exact ⟨rfl, rfl⟩

def overwritten : List (GraftOp Nat) :=
  [.appendRows .sapling 0 [⟨4, 7, .ephemeral⟩, ⟨5, 8, .marked⟩],
    .appendRows .orchard 0 [⟨4, 9, .reference⟩],
    .appendRows .sapling 0 [⟨4, 6, .checkpoint 100 .marked⟩],
    .deleteFromPosition .sapling 5]

open GraftOp in
theorem graft_table_keeps_last_written_overwritten
    : (∀ op ∈ overwritten, op.InRange)
      ∧ ∃ t, run (B := Nat) ⟨.ok, .ok⟩ overwritten = .ok t
        ∧ t.bufferedPositions .sapling 0 = [4]
        ∧ ∃ rows, t.loadShard ⟨.ok, .ok⟩ .sapling 0 = .ok rows
          ∧ ∀ row, row ∈ rows ↔ Live overwritten .sapling 0 row := by
  have hops : ∀ op ∈ overwritten, op.InRange := by
    simp [overwritten, InRange, Retention.Fits]
  have hser : (⟨.ok, .ok⟩ : HashSer Nat Nat).RoundTrips id := ⟨fun _ => rfl, fun _ => rfl⟩
  obtain ⟨t, ht, hload, -⟩ := graft_table_keeps_last_written hser hops
  obtain ⟨rows, hrows, -, hmem, -⟩ := hload .sapling 0 (by decide)
  have hpositions : (run (B := Nat) ⟨.ok, .ok⟩ overwritten).map (·.bufferedPositions .sapling 0)
      = .ok [4] := by decide +kernel
  rw [ht] at hpositions
  exact ⟨hops, t, ht, Except.ok.inj hpositions, rows, hrows, hmem⟩

end Slipstream
