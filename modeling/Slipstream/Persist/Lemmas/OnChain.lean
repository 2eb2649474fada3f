import Slipstream.Persist.Lemmas.Range

/-!
This module contains the calls that scan one chain: a call's commitments sit at the positions that the
chain's tree sizes give their blocks.
-/

namespace Slipstream

variable {H : Type}

def ScannedAt (sizes : Nat → Nat) (scanned : Finset Nat) (p : Nat) : Prop :=
  ∃ h ∈ scanned, sizes (h - 1) ≤ p ∧ p < sizes h

theorem ScannedAt.mono {sizes : Nat → Nat} {scanned scanned' : Finset Nat}
    (hsub : scanned ⊆ scanned') (h : ScannedAt sizes scanned p) : ScannedAt sizes scanned' p := by
  obtain ⟨height, hmem, hp⟩ := h
  exact ⟨height, hsub hmem, hp⟩

theorem scannedAt_union {sizes : Nat → Nat} {scanned scanned' : Finset Nat}
    : ScannedAt sizes (scanned ∪ scanned') p ↔ ScannedAt sizes scanned p ∨ ScannedAt sizes scanned' p := by
  simp [ScannedAt, or_and_right, exists_or]

namespace PutBlocks

variable {call : PutBlocks H} {sizes : ShieldedPool → Nat → Nat} {pool : ShieldedPool}

def heights (call : PutBlocks H) : Finset Nat :=
  Finset.Icc (call.fromState.blockHeight + 1) call.lastHeight

def stop (call : PutBlocks H) (pool : ShieldedPool) : Nat :=
  (call.frontier pool).treeSize + (call.stream pool).length

def OnChain (sizes : ShieldedPool → Nat → Nat) (call : PutBlocks H) : Prop :=
  ∀ pool h, call.fromState.blockHeight ≤ h → h ≤ call.lastHeight → call.sizeAt pool h = sizes pool h

theorem Valid.sizeAt_from (h : call.Valid)
    : call.sizeAt pool call.fromState.blockHeight = (call.frontier pool).treeSize := by
  unfold sizeAt
  rw [commitmentsUpTo_eq_zero, Nat.add_zero]
  intro b hb hle
  have := (h.mem_height hb).1
  omega

theorem Valid.sizeAt_last (h : call.Valid) : call.sizeAt pool call.lastHeight = call.stop pool := by
  unfold sizeAt stop
  congr 1
  unfold commitmentsUpTo stream
  rw [List.length_flatMap, List.filter_eq_self.mpr]
  intro b hb
  simpa using (h.mem_height hb).2

theorem sizeAt_mono (call : PutBlocks H) (pool : ShieldedPool) (hle : h ≤ k)
    : call.sizeAt pool h ≤ call.sizeAt pool k :=
  Nat.add_le_add_left (commitmentsUpTo_mono pool call.blocks hle) _

theorem OnChain.scannedAt_heights (h : call.OnChain sizes) (hcall : call.Valid)
    (hp : ScannedAt (sizes pool) call.heights p)
    : (call.frontier pool).treeSize ≤ p ∧ p < call.stop pool := by
  obtain ⟨height, hmem, hlo, hhi⟩ := hp
  obtain ⟨hfrom, hlast⟩ := Finset.mem_Icc.mp hmem
  have hbelow := h pool (height - 1) (by omega) (by omega)
  have habove := h pool height (by omega) hlast
  rw [← hbelow] at hlo
  rw [← habove] at hhi
  rw [← hcall.sizeAt_from, ← hcall.sizeAt_last]
  constructor
  . have := call.sizeAt_mono pool (show call.fromState.blockHeight ≤ height - 1 by omega)
    omega
  . have := call.sizeAt_mono pool hlast
    omega

end PutBlocks
end Slipstream
