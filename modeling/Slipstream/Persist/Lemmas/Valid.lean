import Slipstream.Persist.Lemmas.Stream

/-!
This module contains the calls the wallet library accepts and where the checkpoints of their streams
sit.
-/

namespace Slipstream

variable {H : Type}

namespace PutBlocks

variable (call : PutBlocks H)

def lastHeight : Nat := call.fromState.blockHeight + call.blocks.length

def sizeAt (pool : ShieldedPool) (h : Nat) : Nat :=
  (call.frontier pool).treeSize + commitmentsUpTo pool call.blocks h

structure Valid : Prop where
  nonempty : call.blocks ≠ []
  consecutive : call.blocks.map (·.height)
    = List.range' (call.fromState.blockHeight + 1) call.blocks.length
  continues : ∀ b, call.blocks.head? = some b → call.continues b = true
  tip_lt : ∀ tip, call.chainTip = some tip → tip < 2 ^ 32

theorem putBlocksRows_go {blocks : List (ScannedBlock H)}
    (h : blocks.map (·.height) = List.range' (prev + 1) blocks.length)
    : putBlocksRows.go prev blocks = .ok (prev + blocks.length) := by
  induction blocks generalizing prev with
  | nil => rfl
  | cons b rest ih =>
    rw [List.map_cons, List.length_cons, List.range'_succ, List.cons.injEq] at h
    rw [putBlocksRows.go, if_pos h.1.symm, ih (by rw [h.1]; exact h.2), h.1, List.length_cons]
    congr 1
    omega

variable {call}

theorem Valid.rows (h : call.Valid) : call.putBlocksRows = .ok call.lastHeight :=
  putBlocksRows_go h.consecutive

theorem Valid.ascending (h : call.Valid) : call.blocks.Pairwise fun a b => a.height < b.height := by
  have hlt : (List.range' (call.fromState.blockHeight + 1) call.blocks.length).Pairwise (· < ·) :=
    List.pairwise_lt_range'
  rwa [← h.consecutive, List.pairwise_map] at hlt

theorem Valid.mem_height (h : call.Valid) (hb : b ∈ call.blocks)
    : call.fromState.blockHeight < b.height ∧ b.height ≤ call.lastHeight := by
  have hmem : b.height ∈ call.blocks.map (·.height) := List.mem_map_of_mem hb
  rw [h.consecutive, List.mem_range'_1] at hmem
  unfold lastHeight
  omega

theorem Valid.exists_block (h : call.Valid) (hlo : call.fromState.blockHeight < k)
    (hhi : k ≤ call.lastHeight) : ∃ b ∈ call.blocks, b.height = k := by
  unfold lastHeight at hhi
  have hmem : k ∈ List.range' (call.fromState.blockHeight + 1) call.blocks.length := by
    rw [List.mem_range'_1]
    omega
  rw [← h.consecutive, List.mem_map] at hmem
  exact hmem

theorem Valid.isDeep_iff (h : call.Valid)
    : call.isDeep = isDeepHistory call.chainTip call.lastHeight := by
  obtain ⟨last, hlast⟩ := Option.isSome_iff_exists.mp (List.getLast?_isSome.mpr h.nonempty)
  have hheight : (call.blocks.map (·.height)).getLast? = some last.height := by
    rw [List.getLast?_map, hlast]
    rfl
  rw [h.consecutive, List.getLast?_range'] at hheight
  have hlen := List.length_pos_of_ne_nil h.nonempty
  rw [if_neg (by omega)] at hheight
  have hheight := Option.some.inj hheight
  unfold isDeep lastHeight
  rw [hlast, Option.any_some]
  congr 1
  omega

theorem Valid.lt_doomAll (h : call.Valid) (hdeep : call.isDeep = true)
    : call.lastHeight < DOOM_ALL := by
  rw [h.isDeep_iff] at hdeep
  unfold isDeepHistory at hdeep
  rw [Option.any_eq_true] at hdeep
  obtain ⟨tip, htip, hlt⟩ := hdeep
  have := h.tip_lt tip htip
  rw [decide_eq_true_eq] at hlt
  unfold DOOM_ALL
  omega

section Positions

variable {policy : Option AnchorRetention} {pool : ShieldedPool}

theorem Valid.mem_entries (h : call.Valid) {e : Nat × Nat}
    : e ∈ checkpointEntries (rowsFrom (call.frontier pool).treeSize (call.doomedStream policy pool))
        ↔
      (∃ b ∈ call.blocks, b.height = e.1 ∧ (b.pool pool).commitments ≠ [])
        ∧ e.2 + 1 = call.sizeAt pool e.1
        ∧ (call.isDeep = true → shouldRetainAnchor policy e.1 = true) := by
  unfold doomedStream sizeAt
  split
  . next hdeep =>
    rw [checkpointEntries_downgrade, List.mem_filter, stream,
      mem_entries_blocks pool h.ascending, and_assoc]
    apply and_congr_right
    rintro ⟨b, hb, hheight, -⟩
    apply and_congr_right
    intro _
    have := (h.mem_height hb).2
    have := h.lt_doomAll hdeep
    simp [spares, hdeep, show ¬DOOM_ALL ≤ e.1 by omega]
  . next hdeep =>
    rw [stream, mem_entries_blocks pool h.ascending]
    simp [hdeep]

theorem Valid.get?_cpPos (h : call.Valid)
    : (call.cpPos policy pool).get? k = some p
        ↔
      (∃ b ∈ call.blocks, b.height = k ∧ (b.pool pool).commitments ≠ [])
        ∧ p + 1 = call.sizeAt pool k
        ∧ (call.isDeep = true → shouldRetainAnchor policy k = true) := by
  unfold cpPos streamCheckpointPositions
  rw [OrdMap.get?_ofList_iff, h.mem_entries]
  intro v w hv hw
  have := (h.mem_entries.mp hv).2.1
  have := (h.mem_entries.mp hw).2.1
  dsimp only at *
  omega

theorem Valid.mem_cpPos (h : call.Valid)
    : k ∈ (call.cpPos policy pool).keys
        ↔
      (∃ b ∈ call.blocks, b.height = k ∧ (b.pool pool).commitments ≠ [])
        ∧ (call.isDeep = true → shouldRetainAnchor policy k = true) := by
  rw [OrdMap.mem_keys_iff]
  constructor
  . rintro ⟨p, hp⟩
    have := h.get?_cpPos.mp hp
    exact ⟨this.1, this.2.2⟩
  . rintro ⟨⟨b, hb, rfl, hne⟩, hkeep⟩
    have hpos : 0 < call.sizeAt pool b.height := by
      have := commitmentsUpTo_lt pool hb (h.mem_height hb).1 (Nat.le_refl _) hne
      unfold sizeAt
      omega
    exact ⟨call.sizeAt pool b.height - 1,
      h.get?_cpPos.mpr ⟨⟨b, hb, rfl, hne⟩, Nat.sub_add_cancel hpos, hkeep⟩⟩

end Positions

theorem mem_batchEnsureHeights {keys : ShieldedPool → Finset Nat} {policy : Option AnchorRetention}
    {pool : ShieldedPool}
    : k ∈ batchEnsureHeights keys policy first last pool
        ↔
      (∃ p, p ≠ pool ∧ k ∈ keys p)
        ∨ (first ≤ k ∧ k ≤ last) ∧ shouldRetainAnchor policy k = true := by
  have hothers : ∀ ps : List ShieldedPool, ∀ s, k ∈ ps.foldl (fun s p => s ∪ keys p) s
      ↔ k ∈ s ∨ ∃ p ∈ ps, k ∈ keys p := by
    intro ps
    induction ps with
    | nil => simp
    | cons p ps ih => simp [ih, or_assoc]
  have hall : ∀ p, p ∈ ShieldedPool.all := by
    intro p
    cases p <;> simp [ShieldedPool.all]
  unfold batchEnsureHeights
  simp [hothers, hall]

theorem Valid.ensured_height {policy : Option AnchorRetention} {pool : ShieldedPool} (h : call.Valid)
    (hk : k ∈ batchEnsureHeights (fun p => (call.cpPos policy p).keys) policy
      (call.fromState.blockHeight + 1) call.lastHeight pool)
    : call.fromState.blockHeight < k ∧ k ≤ call.lastHeight := by
  rcases mem_batchEnsureHeights.mp hk with ⟨p, -, hp⟩ | ⟨hrange, -⟩
  . obtain ⟨⟨b, hb, rfl, -⟩, -⟩ := h.mem_cpPos.mp hp
    exact h.mem_height hb
  . exact hrange

def ensuredAt (call : PutBlocks H) (policy : Option AnchorRetention) (pool : ShieldedPool)
    (h : Nat) : Checkpoint :=
  match (call.cpPos policy pool).floor? h with
  | some position => .atPosition position
  | none => .ofSize (call.frontier pool).treeSize

theorem mem_missing {call : PutBlocks H} {policy : Option AnchorRetention} {pool : ShieldedPool}
    : e ∈ call.missing policy last pool
        ↔
      (e.1 ∈ batchEnsureHeights (fun p => (call.cpPos policy p).keys) policy
          (call.fromState.blockHeight + 1) last pool
        ∧ e.1 ∉ (call.cpPos policy pool).keys)
        ∧ e.2 = call.ensuredAt policy pool e.1 := by
  unfold missing ensureCheckpoints ensuredAt
  dsimp only
  rw [List.mem_map]
  simp only [Finset.mem_sort, Finset.mem_sdiff]
  constructor
  . rintro ⟨h, hmem, rfl⟩
    cases hfloor : (call.cpPos policy pool).floor? h <;> simp [hmem, hfloor]
  . rintro ⟨hmem, hcp⟩
    refine ⟨e.1, hmem, ?_⟩
    cases hfloor : (call.cpPos policy pool).floor? e.1 <;> simp [hfloor] at hcp <;> simp [← hcp]

end PutBlocks
end Slipstream
