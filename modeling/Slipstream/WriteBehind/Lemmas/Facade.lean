import Slipstream.WriteBehind.Impl.Facade

/-!
This module contains what the writes of the write-behind facade do to it, and that its deltas update
the unspent items as a commit does.
-/

namespace Slipstream
namespace WriteBehind

theorem ReadFaults.ok_of_bind {α β : Type} {faults : ReadFaults} {which : DbRead} {value : α}
    {f : α → Except String β} {result : β} (h : (faults.read which value >>= f) = .ok result)
    : f value = .ok result := by
  unfold read at h
  split at h
  . cases h
  . exact h

section Deltas

variable {A N K : Type}

theorem applyNullifierDelta_updated [DecidableEq N] (set : List (A × N)) (spent : List N)
    (found : List (A × N)) : NullifiersUpdated set spent found (applyNullifierDelta set spent found) := by
  intro x
  simp [applyNullifierDelta]

theorem NullifiersUpdated.same {before before' after after' : List (A × N)} {spent : List N}
    {found : List (A × N)} (h : NullifiersUpdated before spent found after)
    (h' : NullifiersUpdated before' spent found after') (hsame : ∀ x, x ∈ before ↔ x ∈ before')
    (x : A × N) : x ∈ after ↔ x ∈ after' := by
  rw [h x, h' x, hsame x]

variable [DecidableEq K]

theorem mem_foldl_remove (spent : List K) (set : List (K × A)) (x : K × A)
    : x ∈ spent.foldl applyOutpointDelta.remove set ↔ x ∈ set ∧ x.1 ∉ spent := by
  induction spent generalizing set with
  | nil => simp
  | cons key spent ih =>
    rw [List.foldl_cons, ih]
    simp only [applyOutpointDelta.remove, List.mem_filter, decide_eq_true_eq, List.mem_cons, not_or,
      and_assoc]

theorem mem_foldl_insert (found : List (K × A)) (set : List (K × A)) (x : K × A)
    : x ∈ found.foldl applyOutpointDelta.insert set
      ↔ (x ∈ set ∧ x.1 ∉ found.map Prod.fst)
        ∨ found.reverse.find? (fun entry => decide (entry.1 = x.1)) = some x := by
  induction found generalizing set with
  | nil => simp
  | cons entry found ih =>
    rw [List.foldl_cons, ih]
    simp only [applyOutpointDelta.insert, applyOutpointDelta.remove, List.mem_append,
      List.mem_filter, decide_eq_true_eq, List.map_cons, List.mem_cons, not_or, List.reverse_cons,
      List.find?_append]
    by_cases hlater : x.1 ∈ found.map Prod.fst
    . -- A later entry of the same key decides.
      have hsome : (found.reverse.find? fun entry => decide (entry.1 = x.1)).isSome = true := by
        rw [List.find?_isSome]
        obtain ⟨later, hmem, hkey⟩ := List.mem_map.mp hlater
        exact ⟨later, List.mem_reverse.mpr hmem, by simpa using hkey⟩
      obtain ⟨later, hfind⟩ := Option.isSome_iff_exists.mp hsome
      simp [hlater, hfind]
    . have hnone : (found.reverse.find? fun entry => decide (entry.1 = x.1)) = none := by
        rw [List.find?_eq_none]
        intro later hmem hkey
        exact hlater (List.mem_map.mpr ⟨later, List.mem_reverse.mp hmem, by simpa using hkey⟩)
      by_cases hkey : entry.1 = x.1
      . have hcomm : x = entry ↔ entry = x := eq_comm
        simp [hlater, hnone, hkey, hcomm]
      . have hne : x ≠ entry := fun heq => hkey (heq ▸ rfl)
        have hkey' : x.1 ≠ entry.1 := fun heq => hkey heq.symm
        simp [hlater, hnone, hkey, hkey', hne]

theorem applyOutpointDelta_updated (set : List (K × A)) (spent : List K) (found : List (K × A))
    : OutpointsUpdated set spent found (applyOutpointDelta set spent found) := by
  intro x
  rw [applyOutpointDelta, mem_foldl_insert, mem_foldl_remove, and_assoc]

theorem OutpointsUpdated.same {before before' after after' : List (K × A)} {spent : List K}
    {found : List (K × A)} (h : OutpointsUpdated before spent found after)
    (h' : OutpointsUpdated before' spent found after') (hsame : ∀ x, x ∈ before ↔ x ∈ before')
    (x : K × A) : x ∈ after ↔ x ∈ after' := by
  rw [h x, h' x, hsame x]

end Deltas

namespace Views

variable {v v' w w' : Views}

theorem Same.refl (v : Views) : v.Same v :=
  ⟨fun _ => .rfl, fun _ => .rfl, fun _ => .rfl, fun _ => .rfl⟩

theorem Same.trans (h : v.Same v') (h' : v'.Same w) : v.Same w :=
  ⟨fun x => (h.sapling x).trans (h'.sapling x), fun x => (h.orchard x).trans (h'.orchard x),
    fun x => (h.ironwood x).trans (h'.ironwood x), fun x => (h.outpoints x).trans (h'.outpoints x)⟩

theorem advance_updated (v : Views) (block : ScannedBlock) : v.Updated block (v.advance block) :=
  ⟨applyNullifierDelta_updated _ _ _, applyNullifierDelta_updated _ _ _,
    applyNullifierDelta_updated _ _ _, applyOutpointDelta_updated _ _ _⟩

theorem Updated.same (h : v.Updated block w) (h' : v'.Updated block w') (hsame : v.Same v')
    : w.Same w' :=
  ⟨h.sapling.same h'.sapling hsame.sapling, h.orchard.same h'.orchard hsame.orchard,
    h.ironwood.same h'.ironwood hsame.ironwood, h.outpoints.same h'.outpoints hsame.outpoints⟩

theorem UpdatedBy.foldl_advance (h : v.UpdatedBy blocks w) (hsame : v'.Same v)
    : (blocks.foldl advance v').Same w := by
  induction h generalizing v' with
  | nil h => exact hsame.trans h
  | cons h _ ih => exact ih ((advance_updated ..).same h hsame)

theorem updatedBy_foldl_advance (v : Views) (blocks : List ScannedBlock)
    : v.UpdatedBy blocks (blocks.foldl advance v) := by
  induction blocks generalizing v with
  | nil => exact .nil (.refl v)
  | cons block blocks ih => exact .cons (v.advance_updated block) (ih (v.advance block))

end Views

namespace Facade

variable {F D E : Type}

inductive Put (facade : Facade F) (fromState : Scan.ChainState F) (blocks : List ScannedBlock)
    : Facade F × Except String Unit → Prop where
  | occupied (hstash : facade.stash.isSome = true) (detail : String)
    : Put facade fromState blocks (facade, .error detail)
  | empty (hstash : facade.stash = none) (hblocks : blocks = [])
    : Put facade fromState blocks (facade, .ok ())
  | stashed (hstash : facade.stash = none) (hfirst : blocks.head? = some first)
      (hlast : blocks.getLast? = some last)
    : Put facade fromState blocks
        ({ facade with
            priorMetaHeight := last.height
            priorMeta := some last.metadata
            views := blocks.foldl Views.advance facade.views
            stash := some {
              fromState
              blocks
              firstHeight := first.height
              lastHeight := last.height } },
          .ok ())

theorem put_of_putBlocks (facade : Facade F) (fromState : Scan.ChainState F)
    (blocks : List ScannedBlock)
    : Put facade fromState blocks (facade.putBlocks fromState blocks) := by
  unfold putBlocks
  split
  . next hstash => exact .occupied hstash _
  . next hstash =>
    have hstash : facade.stash = none := by simpa using hstash
    split
    . next first last hfirst hlast => exact .stashed hstash hfirst hlast
    . next hnone =>
      refine .empty hstash ?_
      cases blocks with
      | nil => rfl
      | cons block blocks =>
        exact absurd rfl
          (hnone block _ · (List.getLast?_eq_some_getLast (List.cons_ne_nil block blocks)))

theorem seed_ok {api : WalletDb D E} {faults : ReadFaults} {db : D} {rangeStart : Nat}
    {facade : Facade F} (h : seed api faults db rangeStart = .ok facade)
    : facade = {
        ufvks := api.unifiedFullViewingKeys db
        priorMetaHeight := rangeStart - 1
        priorMeta := api.blockMetadata db (rangeStart - 1)
        views := api.unspent db
        transparentReceivers := api.transparentReceivers db
        stash := none } := by
  unfold seed at h
  split at h
  . cases h
  . iterate 7
      replace h := ReadFaults.ok_of_bind h
    cases h
    rfl

theorem reseedNullifiers_frame {api : WalletDb D E} {faults : ReadFaults} {db : D}
    {facade facade' : Facade F} {result : Except String Unit}
    (h : facade.reseedNullifiers api faults db = (facade', result))
    : facade'.stash = facade.stash ∧ facade'.priorMetaHeight = facade.priorMetaHeight
      ∧ facade'.priorMeta = facade.priorMeta := by
  unfold reseedNullifiers at h
  grind

theorem reseedNullifiers_ok {api : WalletDb D E} {faults : ReadFaults} {db : D}
    {facade facade' : Facade F} (h : facade.reseedNullifiers api faults db = (facade', .ok ()))
    : facade' = { facade with
        views := api.unspent db
        transparentReceivers := api.transparentReceivers db } := by
  unfold reseedNullifiers at h
  dsimp only at h
  -- The stash is empty and none of the five reads fails.
  iterate 6
    split at h
    . cases h
  cases h
  rfl

end Facade
end WriteBehind
end Slipstream
