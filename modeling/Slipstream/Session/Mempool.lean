import Mathlib.Data.List.Nodup
import Slipstream.Session.Impl.Mempool

/-!
This module contains the verification of the mempool sessions: however often the server sends a
transaction again, the wallet is given it once until so many others were seen that the set is cleared.
-/

namespace Slipstream
namespace Mempool

variable {TxId : Type}

def Monitor.given (m : Monitor TxId) : Nat := (m.past.map List.length).sum + m.handling.length

structure Deduped (enhanced version : Nat) (m : Monitor TxId) : Prop where
  seen : m.seen = m.handling.reverse
  once : m.handling.Nodup
  past : ∀ epoch ∈ m.past, epoch.Nodup ∧ SEEN_TXIDS_CAP < epoch.length
  hits : m.enhancedTxs ≤ enhanced + m.given
  bumps : m.txSetVersion + enhanced = m.enhancedTxs + version

namespace Deduped

variable {enhanced version : Nat} {m : Monitor TxId}

theorem fresh : Deduped enhanced version (.fresh enhanced version : Monitor TxId) where
  seen := rfl
  once := List.nodup_nil
  past := by simp [Monitor.fresh]
  hits := Nat.le_add_right _ _
  bumps := Nat.add_comm _ _

theorem clearSeen (h : Deduped enhanced version m) : Deduped enhanced version m.clearSeen := by
  unfold Monitor.clearSeen
  split
  . next hfull =>
    constructor
    case seen => rfl
    case once => exact List.nodup_nil
    case past =>
      intro epoch hepoch
      rcases List.mem_append.mp hepoch with hepoch | hepoch
      . exact h.past epoch hepoch
      . cases List.mem_singleton.mp hepoch
        rw [h.seen, List.length_reverse] at hfull
        exact ⟨h.once, hfull⟩
    case hits =>
      have := h.hits
      simp only [Monitor.given, List.map_append, List.sum_append, List.map_cons, List.map_nil,
        List.sum_singleton, List.length_nil] at this ⊢
      omega
    case bumps => exact h.bumps
  . exact h

theorem give (h : Deduped enhanced version m) {txid : TxId} (hnew : txid ∉ m.seen) (n : Nat)
    (hn : n ≤ 1)
    : Deduped enhanced version
      { m with
        seen := txid :: m.seen
        handling := m.handling ++ [txid]
        enhancedTxs := m.enhancedTxs + n
        txSetVersion := m.txSetVersion + n } := by
  constructor
  case seen => simp [h.seen]
  case once =>
    rw [h.seen, List.mem_reverse] at hnew
    exact List.nodup_append.mpr ⟨h.once, List.nodup_singleton txid, by
      rintro a ha _ hb rfl
      cases List.mem_singleton.mp hb
      exact hnew ha⟩
  case past => exact h.past
  case hits =>
    have := h.hits
    simp only [Monitor.given, List.length_append, List.length_singleton] at this ⊢
    omega
  case bumps =>
    have := h.bumps
    dsimp only
    omega

variable [DecidableEq TxId]

theorem pump (h : Deduped enhanced version m) (stats : SessionStats) (nexts : List (Next TxId))
    : Deduped enhanced version (m.pump stats nexts).1
      ∧ (m.pump stats nexts).1.seen.length ≤ m.seen.length + nexts.length := by
  induction nexts generalizing m stats with
  | nil => exact ⟨h, Nat.le_refl _⟩
  | cons next nexts ih =>
    have hgiven : ∀ {m' : Monitor TxId} (stats' : SessionStats), Deduped enhanced version m' →
        m'.seen.length ≤ m.seen.length + 1 → Deduped enhanced version (m'.pump stats' nexts).1
          ∧ (m'.pump stats' nexts).1.seen.length ≤ m.seen.length + (nexts.length + 1) := by
      intro m' stats' h' hlength'
      obtain ⟨hnext, hlength⟩ := ih h' stats'
      exact ⟨hnext, by omega⟩
    cases next with
    | elapsed | closed | status => exact ⟨h, Nat.le_add_right _ _⟩
    | unreadable => exact hgiven _ h (Nat.le_succ _)
    | transaction txid stored found =>
      rw [Monitor.pump]
      dsimp only
      split
      . exact hgiven _ h (Nat.le_succ _)
      . next hnew =>
        -- The transaction counts as seen before the wallet has said whether it could store it.
        have hseen := h.give hnew 0 (Nat.zero_le 1)
        split
        . exact ⟨hseen, by simp⟩
        . exact ⟨hseen, by simp⟩
        . exact hgiven _ (h.give hnew 1 (Nat.le_refl 1)) (Nat.le_refl _)
        . exact hgiven _ hseen (Nat.le_refl _)

theorem runSession (h : Deduped enhanced version m) (inp : SessionInput TxId)
    : Deduped enhanced version (m.runSession inp).1
      ∧ (m.runSession inp).1.seen.length ≤ SEEN_TXIDS_CAP + inp.nexts.length := by
  have hcut : m.clearSeen.seen.length ≤ SEEN_TXIDS_CAP := by
    unfold Monitor.clearSeen
    split
    . exact Nat.zero_le _
    . next hfew => exact Nat.le_of_not_lt hfew
  unfold Monitor.runSession
  dsimp only
  split
  all_goals try exact ⟨h.clearSeen, Nat.le_add_right_of_le hcut⟩
  obtain ⟨hpumped, hlength⟩ := h.clearSeen.pump ⟨0, 0⟩ inp.nexts
  exact ⟨hpumped, by omega⟩

theorem follow (h : Deduped enhanced version m) (sessions : List (SessionInput TxId))
    : Deduped enhanced version (m.follow sessions) := by
  induction sessions generalizing m with
  | nil => exact h
  | cons inp sessions ih => exact ih (h.runSession inp).1

end Deduped

theorem follow_gives_once [DecidableEq TxId] (enhanced version : Nat)
    (sessions : List (SessionInput TxId)) (last : SessionInput TxId)
    : let m := (Monitor.fresh enhanced version).follow (sessions ++ [last])
      (∀ epoch ∈ m.past ++ [m.handling], epoch.Nodup)
      ∧ (∀ epoch ∈ m.past, SEEN_TXIDS_CAP < epoch.length)
      ∧ m.seen.length ≤ SEEN_TXIDS_CAP + last.nexts.length
      ∧ m.enhancedTxs ≤ enhanced + m.given
      ∧ m.txSetVersion + enhanced = m.enhancedTxs + version := by
  have hbefore : Deduped enhanced version ((Monitor.fresh enhanced version).follow sessions) :=
    Deduped.fresh.follow sessions
  obtain ⟨h, hlength⟩ := hbefore.runSession last
  intro m
  have hm : m = (((Monitor.fresh enhanced version).follow sessions).runSession last).1 := by
    simp only [m, Monitor.follow, List.foldl_append, List.foldl_cons, List.foldl_nil]
  rw [hm]
  refine ⟨?_, fun epoch hepoch => (h.past epoch hepoch).2, hlength, h.hits, h.bumps⟩
  intro epoch hepoch
  rcases List.mem_append.mp hepoch with hepoch | hepoch
  . exact (h.past epoch hepoch).1
  . cases List.mem_singleton.mp hepoch
    exact h.once

end Mempool
end Slipstream
