import Slipstream.Reconcile.Impl.Views
import Mathlib.Data.Finset.Card

/-!
This module contains the boundary check of `scheduler.rs` that bumps `tx_set_version`: which changes
of the visible transaction list the two counts of the signature can tell apart.
-/

namespace Slipstream
namespace Reconcile

structure TxSetWatch where
  lastTxSig : Option (Nat × Nat)
  txSetVersion : Nat

namespace TxSetWatch

def passStart (sig : Option (Nat × Nat)) (txSetVersion : Nat) : TxSetWatch where
  lastTxSig := sig
  txSetVersion

/-- The check at a range boundary; `none` is a signature that could not be read. -/
def boundary (w : TxSetWatch) (sig : Option (Nat × Nat)) : TxSetWatch :=
  match sig with
  | none => w
  | some sig =>
    if w.lastTxSig ≠ some sig then
      { lastTxSig := some sig
        txSetVersion := if w.lastTxSig.isSome then w.txSetVersion + 1 else w.txSetVersion }
    else
      w

def after (txSetVersion : Nat) (start : WalletTables) (boundaries : List WalletTables)
    : TxSetWatch :=
  boundaries.foldl (fun w t => w.boundary (some t.txSetSignature))
    (passStart (some start.txSetSignature) txSetVersion)

end TxSetWatch

namespace WalletTables

def visible (t : WalletTables) : Finset ReconciledRow := t.reconcileView.toFinset

def txids (t : WalletTables) : Finset Blob := (t.reconcileView.map ReconciledRow.txid).toFinset

def unreconciled (t : WalletTables) : Finset Blob :=
  ((t.reconcileView.filter (·.reconciled == false)).map ReconciledRow.txid).toFinset

theorem txids_nodup (t : WalletTables) : (t.reconcileView.map ReconciledRow.txid).Nodup := by
  have h := t.txid_unique
  simpa only [reconcileView, List.map_map, Function.comp_def] using h

theorem txSetSignature_eq (t : WalletTables)
    : t.txSetSignature = (t.txids.card, t.unreconciled.card) := by
  have hsub : ((t.reconcileView.filter (·.reconciled == false)).map ReconciledRow.txid).Nodup :=
    t.txids_nodup.sublist (List.filter_sublist.map _)
  unfold txSetSignature txids unreconciled
  rw [List.toFinset_card_of_nodup t.txids_nodup, List.toFinset_card_of_nodup hsub, List.length_map,
    List.length_map, List.countP_eq_length_filter]

end WalletTables

theorem card_eq_iff_sdiff {α : Type} [DecidableEq α] (a b : Finset α)
    : a.card = b.card ↔ (b \ a).card = (a \ b).card := by
  have ha := Finset.card_sdiff_add_card_inter a b
  have hb := Finset.card_sdiff_add_card_inter b a
  rw [Finset.inter_comm] at hb
  omega

def Noticed (before after : WalletTables) : Prop :=
  before.visible = after.visible
    ∨ (after.txids \ before.txids).card ≠ (before.txids \ after.txids).card
    ∨ (after.unreconciled \ before.unreconciled).card
      ≠ (before.unreconciled \ after.unreconciled).card

theorem noticed_iff (before after : WalletTables)
    : Noticed before after
      ↔ (before.visible ≠ after.visible → before.txSetSignature ≠ after.txSetSignature) := by
  have hsig : before.txSetSignature = after.txSetSignature
      ↔ (after.txids \ before.txids).card = (before.txids \ after.txids).card
        ∧ (after.unreconciled \ before.unreconciled).card
          = (before.unreconciled \ after.unreconciled).card := by
    rw [WalletTables.txSetSignature_eq, WalletTables.txSetSignature_eq, Prod.mk.injEq,
      card_eq_iff_sdiff before.txids after.txids,
      card_eq_iff_sdiff before.unreconciled after.unreconciled]
  rw [Noticed, Ne, Ne, Ne, Ne, hsig]
  tauto

namespace TxSetWatch

theorem after_concat (version : Nat) (start : WalletTables) (boundaries : List WalletTables)
    (t : WalletTables)
    : after version start (boundaries ++ [t])
      = (after version start boundaries).boundary (some t.txSetSignature) := by
  simp [after]

theorem after_lastTxSig (version : Nat) (start : WalletTables) (boundaries : List WalletTables)
    : (after version start boundaries).lastTxSig
      = some ((boundaries.getLast?.getD start).txSetSignature) := by
  cases hlast : boundaries.getLast? with
  | none =>
    rw [List.getLast?_eq_none_iff] at hlast
    subst hlast
    rfl
  | some t =>
    obtain ⟨before, rfl⟩ := List.getLast?_eq_some_iff.mp hlast
    rw [after_concat]
    unfold boundary
    dsimp only
    split
    . rfl
    . next hsame => simpa using hsame

def walletAt (start : WalletTables) (boundaries : List WalletTables) (i : Nat) : WalletTables :=
  (boundaries.take i).getLast?.getD start

def versionAt (version : Nat) (start : WalletTables) (boundaries : List WalletTables) (i : Nat)
    : Nat :=
  (after version start (boundaries.take i)).txSetVersion

theorem versionAt_succ (version : Nat) (start : WalletTables) (h : i < boundaries.length)
    : versionAt version start boundaries (i + 1)
      = versionAt version start boundaries i
        + if (walletAt start boundaries i).txSetSignature
            = (walletAt start boundaries (i + 1)).txSetSignature then 0 else 1 := by
  have hnext : walletAt start boundaries (i + 1) = boundaries[i] := by
    rw [walletAt, List.take_succ_eq_append_getElem h, List.getLast?_concat, Option.getD_some]
  have hlast : (after version start (boundaries.take i)).lastTxSig
      = some (walletAt start boundaries i).txSetSignature := after_lastTxSig ..
  rw [hnext, versionAt, List.take_succ_eq_append_getElem h, after_concat, boundary, hlast]
  by_cases hsame : (walletAt start boundaries i).txSetSignature = boundaries[i].txSetSignature
  . rw [if_pos hsame, if_neg (by simp [hsame])]
    rfl
  . rw [if_neg hsame, if_pos (by simp [hsame])]
    rfl

theorem visible_of_versionAt (version : Nat) {boundaries : List WalletTables}
    (hnoticed : ∀ i < boundaries.length,
      Noticed (walletAt start boundaries i) (walletAt start boundaries (i + 1)))
    (hle : i ≤ j) (hj : j ≤ boundaries.length)
    : versionAt version start boundaries i ≤ versionAt version start boundaries j
      ∧ (versionAt version start boundaries i = versionAt version start boundaries j →
        (walletAt start boundaries i).visible = (walletAt start boundaries j).visible) := by
  induction j, hle using Nat.le_induction with
  | base => exact ⟨Nat.le_refl _, fun _ => rfl⟩
  | succ j hle ih =>
    obtain ⟨hmono, hsame⟩ := ih (by omega)
    have hstep := versionAt_succ version start (show j < boundaries.length by omega)
    refine ⟨by omega, fun heq => ?_⟩
    have hsig : (walletAt start boundaries j).txSetSignature
        = (walletAt start boundaries (j + 1)).txSetSignature := by
      by_contra hne
      rw [if_neg hne] at hstep
      omega
    have hlast : (walletAt start boundaries j).visible = (walletAt start boundaries (j + 1)).visible := by
      by_contra hne
      exact (noticed_iff _ _).mp (hnoticed j (by omega)) hne hsig
    rw [hsame (by omega), hlast]

end TxSetWatch

open TxSetWatch in
/--
In a pass without other writers the version has moved between any two boundaries whose visible lists
differ exactly if no range makes a change that leaves both counts as they were.
-/
theorem txSet_reported_iff (version : Nat) (start : WalletTables) (boundaries : List WalletTables)
    : (∀ i j, i < j → j ≤ boundaries.length →
        (walletAt start boundaries i).visible ≠ (walletAt start boundaries j).visible →
        versionAt version start boundaries i < versionAt version start boundaries j)
      ↔ ∀ i < boundaries.length,
          Noticed (walletAt start boundaries i) (walletAt start boundaries (i + 1)) := by
  constructor
  . intro h i hi
    rw [noticed_iff]
    intro hvisible hsig
    have hlt := h i (i + 1) (Nat.lt_succ_self i) hi hvisible
    rw [versionAt_succ version start hi, if_pos hsig] at hlt
    omega
  . intro hnoticed i j hlt hj hvisible
    obtain ⟨hmono, hsame⟩ := visible_of_versionAt version hnoticed (Nat.le_of_lt hlt) hj
    refine Nat.lt_of_le_of_ne hmono ?_
    intro heq
    exact hvisible (hsame heq)

def oneTransaction (minedHeight : Option Nat) : WalletTables where
  transactions := [⟨[1], minedHeight⟩]
  nullifierMap := []
  txLocatorMap := []
  saplingReceivedNotes := []
  orchardReceivedNotes := []
  ironwoodReceivedNotes := []
  vTransactions := []
  txid_unique := by simp

/-- A range that finds a stored pending transaction mined leaves the version as it was. -/
theorem mined_unnoticed
    : (oneTransaction none).visible ≠ (oneTransaction (some 100)).visible
      ∧ (TxSetWatch.after 7 (oneTransaction none) [oneTransaction (some 100)]).txSetVersion = 7 := by
  decide

end Reconcile
end Slipstream
