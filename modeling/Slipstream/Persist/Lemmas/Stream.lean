import Slipstream.Persist.Impl.PutBlocks
import Slipstream.Graft.Lemmas.Accumulator

/-!
This module contains the checkpoints a commitment stream carries: which heights they are for and
which positions they sit on, before and after a downgrade.
-/

namespace Slipstream

variable {H : Type}

theorem checkpointEntries_append (xs ys : List (AccRow H))
    : checkpointEntries (xs ++ ys) = checkpointEntries xs ++ checkpointEntries ys :=
  List.filterMap_append

theorem mem_checkpointEntries {rows : List (AccRow H)} {e : Nat × Nat}
    : e ∈ checkpointEntries rows
        ↔
      ∃ r ∈ rows, r.retention.checkpointId = some e.1 ∧ r.position = e.2 := by
  unfold checkpointEntries
  rw [List.mem_filterMap]
  constructor
  . rintro ⟨r, hr, he⟩
    rw [Option.map_eq_some_iff] at he
    obtain ⟨id, hid, rfl⟩ := he
    exact ⟨r, hr, hid, rfl⟩
  . rintro ⟨r, hr, hid, hpos⟩
    refine ⟨r, hr, ?_⟩
    rw [hid, hpos]
    rfl

theorem rowsFrom_of_run {rows : List (AccRow H)} (h : RunFrom first rows)
    : rowsFrom first (rows.map fun r => (r.hash, r.retention)) = rows := by
  induction rows generalizing first with
  | nil => rfl
  | cons r rest ih =>
    simp only [RunFrom, List.map_cons, List.length_cons, List.range'_succ, List.cons.injEq] at h
    obtain ⟨rfl, hrest⟩ := h
    rw [List.map_cons, rowsFrom, ih hrest]

theorem mem_rowsFrom {start : Nat} {items : List (H × Retention)} {r : AccRow H}
    : r ∈ rowsFrom start items ↔ ∃ i c, items[i]? = some c ∧ r = ⟨start + i, c.1, c.2⟩ := by
  induction items generalizing start with
  | nil => simp [rowsFrom]
  | cons c rest ih =>
    rw [rowsFrom, List.mem_cons, ih]
    constructor
    . rintro (rfl | ⟨i, d, hd, rfl⟩)
      . exact ⟨0, c, rfl, rfl⟩
      . refine ⟨i + 1, d, by simpa using hd, ?_⟩
        rw [Nat.add_right_comm, Nat.add_assoc]
    . rintro ⟨i, d, hd, rfl⟩
      cases i with
      | zero =>
        obtain rfl : c = d := by simpa using hd
        exact Or.inl rfl
      | succ i =>
        refine Or.inr ⟨i, d, by simpa using hd, ?_⟩
        rw [Nat.add_right_comm, Nat.add_assoc]

theorem exists_mem_entries {start : Nat} {items : List (H × Retention)} {id : Nat}
    : (∃ p, (id, p) ∈ checkpointEntries (rowsFrom start items))
        ↔
      ∃ c ∈ items, c.2.checkpointId = some id := by
  constructor
  . rintro ⟨p, hp⟩
    obtain ⟨r, hr, hid, -⟩ := mem_checkpointEntries.mp hp
    obtain ⟨i, c, hc, rfl⟩ := mem_rowsFrom.mp hr
    exact ⟨c, List.mem_of_getElem? hc, hid⟩
  . rintro ⟨c, hc, hid⟩
    obtain ⟨i, hi⟩ := List.getElem?_of_mem hc
    exact ⟨start + i, mem_checkpointEntries.mpr ⟨_, mem_rowsFrom.mpr ⟨i, c, hi, rfl⟩, hid, rfl⟩⟩

section Downgrade

variable (policy : Option AnchorRetention)

def spares (cutoff id : Nat) : Bool := decide (cutoff ≤ id) || shouldRetainAnchor policy id

theorem downgradeIfDoomed_checkpointId (retention : Retention) (cutoff : Nat)
    : (downgradeIfDoomed retention cutoff policy).1.checkpointId
        =
      retention.checkpointId.filter (spares policy cutoff) := by
  cases retention with
  | checkpoint id marking =>
    have hdoomed : (decide (id < cutoff) && !shouldRetainAnchor policy id)
        = !spares policy cutoff id := by
      rw [Bool.eq_iff_iff]
      simp [spares]
    simp only [downgradeIfDoomed, hdoomed, Retention.checkpointId]
    cases hkeep : spares policy cutoff id
    . cases marking <;> simp [Option.filter, hkeep]
    . simp [Option.filter, hkeep]
  | _ => rfl

theorem checkpointEntries_downgrade (start : Nat) (commitments : List (H × Retention))
    (cutoff : Nat)
    : checkpointEntries (rowsFrom start (downgradeDoomedCheckpoints commitments cutoff policy).1)
        =
      (checkpointEntries (rowsFrom start commitments)).filter fun e => spares policy cutoff e.1 := by
  induction commitments generalizing start with
  | nil => rfl
  | cons c rest ih =>
    have htail := ih (start + 1)
    simp only [downgradeDoomedCheckpoints, checkpointEntries] at htail
    simp only [downgradeDoomedCheckpoints, checkpointEntries, List.map_cons, rowsFrom,
      List.filterMap_cons, downgradeIfDoomed_checkpointId]
    rw [htail]
    cases hid : c.2.checkpointId with
    | none => rfl
    | some id =>
      cases hkeep : spares policy cutoff id <;> simp [Option.filter, hkeep]

theorem mem_entries_downgradeBelow {start : Nat} {commitments : List (H × Retention)}
    {cutoff : Option Nat} {e : Nat × Nat}
    : e ∈ checkpointEntries (rowsFrom start (downgradeBelow commitments cutoff policy))
        ↔
      e ∈ checkpointEntries (rowsFrom start commitments)
        ∧ ∀ c, cutoff = some c → spares policy c e.1 = true := by
  cases cutoff with
  | none => simp [downgradeBelow]
  | some c => simp [downgradeBelow, checkpointEntries_downgrade, List.mem_filter]

theorem spared_iff {existing newIds : Finset Nat}
    {frontierId id : Nat}
    : (∀ c, doomedCheckpointCutoff existing frontierId newIds = some c → spares policy c id = true)
        ↔
      shouldRetainAnchor policy id = true
        ∨ ((insert frontierId existing ∪ newIds).filter (id < ·)).card
            < SPARSE_CHECKPOINT_WINDOW := by
  unfold doomedCheckpointCutoff
  generalize insert frontierId existing ∪ newIds = ids
  generalize hc : (ids.sort (· ≥ ·))[SPARSE_CHECKPOINT_WINDOW - 1]? = cutoff
  cases cutoff with
  | none =>
    have hfew := Newest.card_le_of_getElem?_none hc
    have hle := Finset.card_filter_le ids (id < ·)
    have hroom : (ids.filter (id < ·)).card < SPARSE_CHECKPOINT_WINDOW := by
      unfold SPARSE_CHECKPOINT_WINDOW at *
      omega
    simp [hroom]
  | some c =>
    have hroom : c ≤ id ↔ (ids.filter (id < ·)).card < SPARSE_CHECKPOINT_WINDOW := by
      rw [Newest.le_iff_card_above hc]
      exact (Nat.lt_iff_le_pred (by decide)).symm
    rw [← hroom, or_comm]
    simp [spares]

end Downgrade

section Blocks

variable (pool : ShieldedPool)

def commitmentsUpTo (blocks : List (ScannedBlock H)) (h : Nat) : Nat :=
  ((blocks.filter (·.height ≤ h)).map fun b => (b.pool pool).commitments.length).sum

theorem mem_entries_block {start : Nat} (b : ScannedBlock H) {e : Nat × Nat}
    : e ∈ checkpointEntries (rowsFrom start (b.pool pool).commitments)
        ↔
      (b.pool pool).commitments ≠ [] ∧ e.1 = b.height
        ∧ e.2 + 1 = start + (b.pool pool).commitments.length := by
  have hspec := b.checkpointed pool
  generalize (b.pool pool).commitments = cs at hspec ⊢
  rw [mem_checkpointEntries]
  constructor
  . rintro ⟨r, hr, hid, hpos⟩
    obtain ⟨i, c, hc, rfl⟩ := mem_rowsFrom.mp hr
    rw [hspec i c hc] at hid
    split at hid
    . next hlast =>
      have hid := Option.some.inj hid
      dsimp only at hpos
      refine ⟨?_, hid.symm, by omega⟩
      rintro rfl
      simp at hc
    . cases hid
  . rintro ⟨hne, hid, hpos⟩
    have hlen := List.length_pos_of_ne_nil hne
    have hlast : cs[cs.length - 1]? = some (cs[cs.length - 1]) := List.getElem?_eq_getElem _
    refine ⟨_, mem_rowsFrom.mpr ⟨_, _, hlast, rfl⟩, ?_, ?_⟩
    . rw [hspec _ _ hlast, if_pos (by omega), hid]
    . dsimp only
      omega

theorem commitmentsUpTo_cons (b : ScannedBlock H) (rest : List (ScannedBlock H)) (h : Nat)
    : commitmentsUpTo pool (b :: rest) h
        =
      (if b.height ≤ h then (b.pool pool).commitments.length else 0)
        + commitmentsUpTo pool rest h := by
  unfold commitmentsUpTo
  rw [List.filter_cons]
  split <;> simp_all

theorem commitmentsUpTo_eq_zero {blocks : List (ScannedBlock H)}
    (h : ∀ b ∈ blocks, b.height ≤ k → (b.pool pool).commitments = [])
    : commitmentsUpTo pool blocks k = 0 := by
  induction blocks with
  | nil => rfl
  | cons b rest ih =>
    rw [commitmentsUpTo_cons, ih fun c hc => h c (List.mem_cons_of_mem _ hc)]
    split
    . next hle => rw [h b List.mem_cons_self hle, List.length_nil]
    . rfl

theorem commitmentsUpTo_congr {blocks : List (ScannedBlock H)} (hle : k ≤ h)
    (hbare : ∀ b ∈ blocks, k < b.height → b.height ≤ h → (b.pool pool).commitments = [])
    : commitmentsUpTo pool blocks h = commitmentsUpTo pool blocks k := by
  induction blocks with
  | nil => rfl
  | cons b rest ih =>
    rw [commitmentsUpTo_cons, commitmentsUpTo_cons,
      ih fun c hc => hbare c (List.mem_cons_of_mem _ hc)]
    congr 1
    by_cases hk : b.height ≤ k
    . rw [if_pos hk, if_pos (Nat.le_trans hk hle)]
    . rw [if_neg hk]
      split
      . next hh => rw [hbare b List.mem_cons_self (Nat.lt_of_not_le hk) hh, List.length_nil]
      . rfl

theorem commitmentsUpTo_mono (blocks : List (ScannedBlock H)) (hle : k ≤ h)
    : commitmentsUpTo pool blocks k ≤ commitmentsUpTo pool blocks h := by
  induction blocks with
  | nil => exact Nat.le_refl _
  | cons b rest ih =>
    rw [commitmentsUpTo_cons, commitmentsUpTo_cons]
    apply Nat.add_le_add _ ih
    split
    . next hk => rw [if_pos (Nat.le_trans hk hle)]
    . exact Nat.zero_le _

theorem commitmentsUpTo_lt {blocks : List (ScannedBlock H)} (hb : b ∈ blocks) (hk : k < b.height)
    (hh : b.height ≤ h) (hne : (b.pool pool).commitments ≠ [])
    : commitmentsUpTo pool blocks k < commitmentsUpTo pool blocks h := by
  induction blocks with
  | nil => cases hb
  | cons c rest ih =>
    rw [commitmentsUpTo_cons, commitmentsUpTo_cons]
    have hle : k ≤ h := Nat.le_trans (Nat.le_of_lt hk) hh
    rcases List.mem_cons.mp hb with rfl | hb
    . rw [if_neg (Nat.not_le.mpr hk), if_pos hh]
      have := commitmentsUpTo_mono pool rest hle
      have := List.length_pos_of_ne_nil hne
      omega
    . have := ih hb
      split
      . next hc =>
        rw [if_pos (Nat.le_trans hc hle)]
        omega
      . omega

structure LastCommitted (blocks : List (ScannedBlock H)) (h : Nat) (b : ScannedBlock H) : Prop where
  mem : b ∈ blocks
  le : b.height ≤ h
  committed : (b.pool pool).commitments ≠ []
  last : ∀ c ∈ blocks, b.height < c.height → c.height ≤ h → (c.pool pool).commitments = []

theorem lastCommitted_or (blocks : List (ScannedBlock H))
    (hasc : blocks.Pairwise fun a b => a.height < b.height) (h : Nat)
    : (∃ b, LastCommitted pool blocks h b)
      ∨ ∀ b ∈ blocks, b.height ≤ h → (b.pool pool).commitments = [] := by
  induction blocks with
  | nil => exact Or.inr fun b hb => by cases hb
  | cons b rest ih =>
    rw [List.pairwise_cons] at hasc
    rcases ih hasc.2 with ⟨c, hc⟩ | hbare
    . apply Or.inl
      refine ⟨c, List.mem_cons_of_mem _ hc.mem, hc.le, hc.committed, ?_⟩
      intro d hd hlt hle
      rcases List.mem_cons.mp hd with rfl | hd
      . have := hasc.1 c hc.mem
        omega
      . exact hc.last d hd hlt hle
    . by_cases hb : b.height ≤ h ∧ (b.pool pool).commitments ≠ []
      . apply Or.inl
        refine ⟨b, List.mem_cons_self, hb.1, hb.2, ?_⟩
        intro d hd hlt hle
        rcases List.mem_cons.mp hd with rfl | hd
        . omega
        . exact hbare d hd hle
      . apply Or.inr
        intro d hd hle
        rcases List.mem_cons.mp hd with rfl | hd
        . by_contra hne
          exact hb ⟨hle, hne⟩
        . exact hbare d hd hle

theorem mem_entries_blocks {start : Nat} {blocks : List (ScannedBlock H)}
    (hasc : blocks.Pairwise fun a b => a.height < b.height) {e : Nat × Nat}
    : e ∈ checkpointEntries (rowsFrom start (blocks.flatMap fun b => (b.pool pool).commitments))
        ↔
      (∃ b ∈ blocks, b.height = e.1 ∧ (b.pool pool).commitments ≠ [])
        ∧ e.2 + 1 = start + commitmentsUpTo pool blocks e.1 := by
  induction blocks generalizing start with
  | nil => simp [rowsFrom, checkpointEntries]
  | cons b rest ih =>
    rw [List.pairwise_cons] at hasc
    obtain ⟨hb, hrest⟩ := hasc
    rw [List.flatMap_cons, rowsFrom_append, checkpointEntries_append, List.mem_append,
      mem_entries_block, ih hrest, commitmentsUpTo_cons]
    constructor
    . rintro (⟨hne, hid, hpos⟩ | ⟨⟨c, hc, hid, hne⟩, hpos⟩)
      . refine ⟨⟨b, List.mem_cons_self, hid.symm, hne⟩, ?_⟩
        have hzero : commitmentsUpTo pool rest e.1 = 0 := by
          apply commitmentsUpTo_eq_zero
          intro c hc hle
          have := hb c hc
          omega
        rw [if_pos (by omega), hzero]
        omega
      . refine ⟨⟨c, List.mem_cons_of_mem _ hc, hid, hne⟩, ?_⟩
        have := hb c hc
        rw [if_pos (by omega)]
        omega
    . rintro ⟨⟨c, hc, hid, hne⟩, hpos⟩
      rcases List.mem_cons.mp hc with rfl | hc
      . apply Or.inl
        have hzero : commitmentsUpTo pool rest e.1 = 0 := by
          apply commitmentsUpTo_eq_zero
          intro d hd hle
          have := hb d hd
          omega
        rw [if_pos (by omega), hzero] at hpos
        exact ⟨hne, hid.symm, by omega⟩
      . apply Or.inr
        have := hb c hc
        rw [if_pos (by omega)] at hpos
        exact ⟨⟨c, hc, hid, hne⟩, by omega⟩

end Blocks

theorem PutBlocks.doomedStream_length (call : PutBlocks H) (policy : Option AnchorRetention)
    (pool : ShieldedPool) : (call.doomedStream policy pool).length = (call.stream pool).length := by
  unfold doomedStream downgradeDoomedCheckpoints
  split <;> simp

end Slipstream
