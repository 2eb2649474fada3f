import Mathlib.Data.Finset.Card
import Mathlib.Data.Finset.Max
import Mathlib.Data.Finset.Sort

/-!
This module contains bounded histories: sets of ids that are cut back to the newest few whenever new
ids come in, while pinned ids are never dropped and do not count.
-/

namespace Newest

variable {K : Type} [LinearOrder K]

def keep (n : Nat) (pinned s : Finset K) : Finset K :=
  s.filter fun x => x ∈ pinned ∨ ((s \ pinned).filter (x < ·)).card < n

theorem keep_subset (n : Nat) (pinned s : Finset K) : keep n pinned s ⊆ s :=
  Finset.filter_subset _ _

theorem mem_keep_of_pinned {pinned s : Finset K} (hx : x ∈ s) (hp : x ∈ pinned)
    : x ∈ keep n pinned s :=
  Finset.mem_filter.mpr ⟨hx, Or.inl hp⟩

theorem exists_le_keep {pinned s : Finset K}
    : (∃ x ∈ keep n pinned s, x ≤ h)
        ↔
      (∃ x ∈ s, x ∈ pinned ∧ x ≤ h)
        ∨ (∃ x ∈ s, x ≤ h) ∧ ((s \ pinned).filter (h < ·)).card < n := by
  constructor
  . rintro ⟨x, hx, hle⟩
    obtain ⟨hs, hkept⟩ := Finset.mem_filter.mp hx
    rcases hkept with hpinned | hroom
    . exact Or.inl ⟨x, hs, hpinned, hle⟩
    . apply Or.inr
      refine ⟨⟨x, hs, hle⟩, lt_of_le_of_lt (Finset.card_le_card ?_) hroom⟩
      exact Finset.monotone_filter_right _ fun y _ hy => lt_of_le_of_lt hle hy
  . rintro (⟨x, hs, hpinned, hle⟩ | ⟨⟨x, hs, hle⟩, hroom⟩)
    . exact ⟨x, mem_keep_of_pinned hs hpinned, hle⟩
    . by_cases hpinned : x ∈ pinned
      . exact ⟨x, mem_keep_of_pinned hs hpinned, hle⟩
      . -- The newest unpinned id at or below `h` has only the ids above `h` before it.
        have hne : ((s \ pinned).filter (· ≤ h)).Nonempty :=
          ⟨x, Finset.mem_filter.mpr ⟨Finset.mem_sdiff.mpr ⟨hs, hpinned⟩, hle⟩⟩
        obtain ⟨htop, htoph⟩ := Finset.mem_filter.mp (Finset.max'_mem _ hne)
        refine ⟨_, Finset.mem_filter.mpr ⟨(Finset.mem_sdiff.mp htop).1, Or.inr ?_⟩, htoph⟩
        refine lt_of_le_of_lt (Finset.card_le_card ?_) hroom
        intro y hy
        rw [Finset.mem_filter] at hy ⊢
        refine ⟨hy.1, not_le.mp fun hyh => ?_⟩
        have hmem : y ∈ (s \ pinned).filter (· ≤ h) := Finset.mem_filter.mpr ⟨hy.1, hyh⟩
        exact absurd hy.2 (not_lt.mpr (Finset.le_max' _ y hmem))

theorem keep_nonempty (hn : 0 < n) (pinned : Finset K) {s : Finset K} (h : s.Nonempty)
    : (keep n pinned s).Nonempty := by
  -- Nothing lies above the greatest id.
  have hnone : (s \ pinned).filter (s.max' h < ·) = ∅ := by
    rw [Finset.filter_eq_empty_iff]
    intro x hx
    exact not_lt.mpr (s.le_max' x (Finset.mem_sdiff.mp hx).1)
  have hmax : ∃ x ∈ keep n pinned s, x ≤ s.max' h := by
    apply exists_le_keep.mpr
    refine Or.inr ⟨⟨_, s.max'_mem h, le_refl _⟩, ?_⟩
    rwa [hnone, Finset.card_empty]
  obtain ⟨x, hx, -⟩ := hmax
  exact ⟨x, hx⟩

theorem keep_above {pinned s : Finset K}
    (hroom : ((keep n pinned s \ pinned).filter (h < ·)).card < n) (hx : x ∈ s) (hlt : h < x)
    : x ∈ keep n pinned s := by
  by_contra hcut
  have hne : (s.filter fun y => h < y ∧ y ∉ keep n pinned s).Nonempty :=
    ⟨x, Finset.mem_filter.mpr ⟨hx, hlt, hcut⟩⟩
  -- Everything above the newest cut id was kept, and that is `n` ids at least.
  generalize hnewest : (s.filter fun y => h < y ∧ y ∉ keep n pinned s).max' hne = newest
  have hmem := Finset.max'_mem _ hne
  rw [hnewest, Finset.mem_filter] at hmem
  obtain ⟨hs, hgt, hnot⟩ := hmem
  apply hnot
  refine Finset.mem_filter.mpr ⟨hs, Or.inr (lt_of_le_of_lt (Finset.card_le_card ?_) hroom)⟩
  intro y hy
  rw [Finset.mem_filter, Finset.mem_sdiff] at hy ⊢
  refine ⟨⟨?_, hy.1.2⟩, lt_trans hgt hy.2⟩
  by_contra hycut
  have hmem : y ∈ s.filter fun y => h < y ∧ y ∉ keep n pinned s :=
    Finset.mem_filter.mpr ⟨hy.1.1, lt_trans hgt hy.2, hycut⟩
  have hle := Finset.le_max' _ y hmem
  rw [hnewest] at hle
  exact absurd hy.2 (not_lt.mpr hle)

theorem card_above_keep (pinned s t : Finset K) (h : K)
    : (((keep n pinned s \ pinned) ∪ t).filter (h < ·)).card < n
        ↔
      (((s \ pinned) ∪ t).filter (h < ·)).card < n := by
  constructor
  . intro hlt
    have hroom : ((keep n pinned s \ pinned).filter (h < ·)).card < n := by
      refine lt_of_le_of_lt (Finset.card_le_card ?_) hlt
      exact Finset.filter_subset_filter _ Finset.subset_union_left
    refine lt_of_le_of_lt (Finset.card_le_card ?_) hlt
    intro x hx
    simp only [Finset.mem_filter, Finset.mem_union, Finset.mem_sdiff] at hx ⊢
    obtain ⟨⟨hs, hpinned⟩ | ht, hgt⟩ := hx
    . exact ⟨Or.inl ⟨keep_above hroom hs hgt, hpinned⟩, hgt⟩
    . exact ⟨Or.inr ht, hgt⟩
  . intro hlt
    refine lt_of_le_of_lt (Finset.card_le_card ?_) hlt
    apply Finset.filter_subset_filter
    apply Finset.union_subset_union_left
    exact Finset.sdiff_subset_sdiff (keep_subset _ _ _) (Finset.Subset.refl _)

theorem keep_low {pinned s : Finset K} (hlow : ∃ x ∈ keep n pinned s, x ≤ h)
    : (∃ x ∈ keep n pinned s, x ∈ pinned ∧ x ≤ h)
      ∨ ((keep n pinned s \ pinned).filter (h < ·)).card < n := by
  rcases exists_le_keep.mp hlow with ⟨x, hx, hin, hle⟩ | ⟨-, hfree⟩
  . exact Or.inl ⟨x, mem_keep_of_pinned hx hin, hin, hle⟩
  . apply Or.inr
    have := card_above_keep (n := n) pinned s ∅ h
    rw [Finset.union_empty, Finset.union_empty] at this
    exact this.mpr hfree

def pin (p : K → Bool) (pinned batch : Finset K) : Finset K := pinned ∪ batch.filter (p · = true)

theorem mem_pin {p : K → Bool} : x ∈ pin p pinned batch ↔ x ∈ pinned ∨ x ∈ batch ∧ p x = true := by
  rw [pin, Finset.mem_union, Finset.mem_filter]

def absorb (n : Nat) (p : K → Bool) (st : Finset K × Finset K) (batch : Finset K)
    : Finset K × Finset K :=
  (pin p st.1 batch, keep n (pin p st.1 batch) (st.2 ∪ batch))

section Absorb

variable {p : K → Bool} {pinned s batch : Finset K} {h : K} {n : Nat}

theorem pin_spec (hpinned : ∀ x ∈ pinned, p x = true) : ∀ x ∈ pin p pinned batch, p x = true := by
  intro x hx
  exact (mem_pin.mp hx).elim (hpinned x) And.right

theorem keep_plain (hplain : ∀ x ∈ s, h < x → x ∉ pinned → p x = false)
    : ∀ x ∈ keep n (pin p pinned batch) (s ∪ batch), h < x → x ∉ pin p pinned batch →
      p x = false := by
  intro x hx hlt hnot
  rw [mem_pin, not_or] at hnot
  rcases Finset.mem_union.mp (keep_subset _ _ _ hx) with hs | hb
  . exact hplain x hs hlt hnot.1
  . simpa [hb] using hnot.2

theorem exists_pinned_absorb (hpinned : ∀ x ∈ pinned, p x = true)
    : (∃ x ∈ keep n (pin p pinned batch) (s ∪ batch), x ∈ pin p pinned batch ∧ x ≤ h)
        ↔
      (∃ x ∈ s, x ∈ pinned ∧ x ≤ h) ∨ ∃ x ∈ batch, p x = true ∧ x ≤ h := by
  constructor
  . rintro ⟨x, hx, hin, hle⟩
    rcases Finset.mem_union.mp (keep_subset _ _ _ hx) with hs | hb
    . rcases mem_pin.mp hin with hin | ⟨hb, hp⟩
      . exact Or.inl ⟨x, hs, hin, hle⟩
      . exact Or.inr ⟨x, hb, hp, hle⟩
    . exact Or.inr ⟨x, hb, pin_spec hpinned x hin, hle⟩
  . rintro (⟨x, hs, hin, hle⟩ | ⟨x, hb, hp, hle⟩)
    . have hin : x ∈ pin p pinned batch := mem_pin.mpr (Or.inl hin)
      exact ⟨x, mem_keep_of_pinned (Finset.mem_union_left _ hs) hin, hin, hle⟩
    . have hin : x ∈ pin p pinned batch := mem_pin.mpr (Or.inr ⟨hb, hp⟩)
      exact ⟨x, mem_keep_of_pinned (Finset.mem_union_right _ hb) hin, hin, hle⟩

theorem unpinned_absorb (hpinned : ∀ x ∈ pinned, p x = true)
    (hplain : ∀ x ∈ s, h < x → x ∉ pinned → p x = false) (rest : Finset K)
    : (((s ∪ batch) \ pin p pinned batch) ∪ rest.filter (p · = false)).filter (h < ·)
        =
      ((s \ pinned) ∪ (batch ∪ rest).filter (p · = false)).filter (h < ·) := by
  ext x
  simp only [Finset.mem_filter, Finset.mem_union, Finset.mem_sdiff, mem_pin]
  have := hpinned x
  have := hplain x
  grind

theorem exists_le_of_room (t : Finset K)
    (hroom : ((((s ∪ batch) \ pin p pinned batch) ∪ t).filter (h < ·)).card < n)
    (hlow : ∃ x ∈ s ∪ batch, x ≤ h)
    : ∃ x ∈ keep n (pin p pinned batch) (s ∪ batch), x ≤ h := by
  apply exists_le_keep.mpr
  refine Or.inr ⟨hlow, lt_of_le_of_lt (Finset.card_le_card ?_) hroom⟩
  exact Finset.filter_subset_filter _ Finset.subset_union_left

theorem mem_absorb_of_pinned (batches : List (Finset K)) {st : Finset K × Finset K}
    (hx : x ∈ st.2) (hpin : x ∈ st.1)
    : x ∈ (batches.foldl (absorb n p) st).2 ∧ x ∈ (batches.foldl (absorb n p) st).1 := by
  induction batches generalizing st with
  | nil => exact ⟨hx, hpin⟩
  | cons batch rest ih =>
    have hpin' : x ∈ pin p st.1 batch := mem_pin.mpr (Or.inl hpin)
    exact ih (mem_keep_of_pinned (Finset.mem_union_left _ hx) hpin') hpin'

theorem mem_absorb_of_batch {batches : List (Finset K)} (hbatch : batch ∈ batches) (hx : x ∈ batch)
    (hp : p x = true) (st : Finset K × Finset K)
    : x ∈ (batches.foldl (absorb n p) st).2 ∧ x ∈ (batches.foldl (absorb n p) st).1 := by
  induction batches generalizing st with
  | nil => cases hbatch
  | cons first rest ih =>
    rcases List.mem_cons.mp hbatch with rfl | hbatch
    . have hpin : x ∈ pin p st.1 batch := mem_pin.mpr (Or.inr ⟨hx, hp⟩)
      exact mem_absorb_of_pinned rest
        (mem_keep_of_pinned (Finset.mem_union_right _ hx) hpin) hpin
    . exact ih hbatch _

theorem absorb_nonempty (hn : 0 < n) (p : K → Bool) (batches : List (Finset K))
    {st : Finset K × Finset K} (h : st.2.Nonempty)
    : (batches.foldl (absorb n p) st).2.Nonempty := by
  induction batches generalizing st with
  | nil => exact h
  | cons batch rest ih =>
    apply ih
    apply keep_nonempty hn
    exact h.mono Finset.subset_union_left

end Absorb

def total (batches : List (Finset K)) : Finset K := batches.foldr (· ∪ ·) ∅

@[simp]
theorem total_cons (batch : Finset K) (batches : List (Finset K))
    : total (batch :: batches) = batch ∪ total batches := rfl

theorem mem_total {batches : List (Finset K)} : x ∈ total batches ↔ ∃ batch ∈ batches, x ∈ batch := by
  induction batches with
  | nil => simp [total]
  | cons batch rest ih => rw [total_cons, Finset.mem_union, ih, List.exists_mem_cons_iff]

theorem mem_pins_absorb {p : K → Bool} (batches : List (Finset K)) {st : Finset K × Finset K}
    : x ∈ (batches.foldl (absorb n p) st).1 ↔ x ∈ st.1 ∨ x ∈ total batches ∧ p x = true := by
  induction batches generalizing st with
  | nil => simp [total]
  | cons batch rest ih =>
    rw [List.foldl_cons, ih, absorb, mem_pin, total_cons, Finset.mem_union, or_assoc, or_and_right]

theorem mem_of_mem_absorb {p : K → Bool} {batches : List (Finset K)} {st : Finset K × Finset K}
    (h : x ∈ (batches.foldl (absorb n p) st).2) : x ∈ st.2 ∨ x ∈ total batches := by
  induction batches generalizing st with
  | nil => exact Or.inl h
  | cons batch rest ih =>
    rw [total_cons, Finset.mem_union]
    rcases ih h with hkept | hrest
    . rcases Finset.mem_union.mp (keep_subset _ _ _ hkept) with hs | hb
      . exact Or.inl hs
      . exact Or.inr (Or.inl hb)
    . exact Or.inr (Or.inr hrest)

theorem exists_le_absorb {p : K → Bool} (batches : List (Finset K)) {pinned s : Finset K}
    (hpinned : ∀ x ∈ pinned, p x = true)
    (hplain : ∀ x ∈ s, h < x → x ∉ pinned → p x = false)
    (hcut : batches = [] → (∃ x ∈ s, x ≤ h) →
      (∃ x ∈ s, x ∈ pinned ∧ x ≤ h) ∨ ((s \ pinned).filter (h < ·)).card < n)
    : (∃ x ∈ (batches.foldl (absorb n p) (pinned, s)).2, x ≤ h)
        ↔
      (∃ x ∈ s, x ∈ pinned ∧ x ≤ h)
        ∨ (∃ x ∈ total batches, p x = true ∧ x ≤ h)
        ∨ (((s \ pinned) ∪ (total batches).filter (p · = false)).filter (h < ·)).card < n
          ∧ ∃ x ∈ s ∪ total batches, x ≤ h := by
  induction batches generalizing pinned s with
  | nil =>
    simp only [List.foldl_nil, total, List.foldr_nil, Finset.union_empty, Finset.filter_empty,
      Finset.notMem_empty, false_and, exists_false, false_or]
    constructor
    . intro hlow
      exact (hcut rfl hlow).imp id fun hroom => ⟨hroom, hlow⟩
    . rintro (⟨x, hx, -, hle⟩ | ⟨-, hlow⟩)
      . exact ⟨x, hx, hle⟩
      . exact hlow
  | cons batch batches ih =>
    rw [List.foldl_cons, absorb, ih (pin_spec hpinned) (keep_plain hplain) fun _ => keep_low,
      exists_pinned_absorb hpinned, card_above_keep, unpinned_absorb hpinned hplain, total_cons,
      or_assoc]
    apply or_congr Iff.rfl
    rw [← or_assoc]
    apply or_congr
    case h₁ => simp only [Finset.mem_union, or_and_right, exists_or]
    case h₂ =>
      apply and_congr_right
      intro hroom
      rw [← unpinned_absorb hpinned hplain] at hroom
      constructor
      . rintro ⟨x, hx, hle⟩
        refine ⟨x, ?_, hle⟩
        rw [← Finset.union_assoc]
        exact Finset.union_subset_union_left (keep_subset _ _ _) hx
      . rintro ⟨x, hx, hle⟩
        rw [← Finset.union_assoc, Finset.mem_union] at hx
        rcases hx with hx | hx
        . obtain ⟨y, hy, hyle⟩ := exists_le_of_room _ hroom ⟨x, hx, hle⟩
          exact ⟨y, Finset.mem_union_left _ hy, hyle⟩
        . exact ⟨x, Finset.mem_union_right _ hx, hle⟩

section Plain

variable {s t : Finset K}

theorem mem_keep_empty : x ∈ keep n ∅ s ↔ x ∈ s ∧ (s.filter (x < ·)).card < n := by
  simp [keep]

theorem keep_keep_union (n : Nat) (s t : Finset K) : keep n ∅ (keep n ∅ s ∪ t) = keep n ∅ (s ∪ t) := by
  have hroom := card_above_keep (n := n) ∅ s t
  simp only [Finset.sdiff_empty] at hroom
  ext x
  rw [mem_keep_empty, mem_keep_empty, hroom x]
  apply and_congr_left
  intro hx
  have hs : (s.filter (x < ·)).card < n :=
    lt_of_le_of_lt (Finset.card_le_card (Finset.filter_subset_filter _ Finset.subset_union_left)) hx
  simp only [Finset.mem_union, mem_keep_empty, hs, and_true]

theorem keep_eq_self (h : s.card ≤ n) : keep n ∅ s = s := by
  ext x
  rw [mem_keep_empty, and_iff_left_iff_imp]
  intro hx
  apply lt_of_lt_of_le (Finset.card_lt_card _) h
  rw [Finset.filter_ssubset]
  exact ⟨x, hx, lt_irrefl x⟩

theorem card_keep_le (n : Nat) (s : Finset K) : (keep n ∅ s).card ≤ n := by
  rcases (keep n ∅ s).eq_empty_or_nonempty with hempty | hne
  . simp [hempty]
  . -- All the others lie above the oldest one that is kept.
    have hmin := (mem_keep_empty.mp ((keep n ∅ s).min'_mem hne)).2
    have hsub : (keep n ∅ s).erase ((keep n ∅ s).min' hne)
        ⊆ s.filter ((keep n ∅ s).min' hne < ·) := by
      intro x hx
      rw [Finset.mem_erase] at hx
      have hle := (keep n ∅ s).min'_le x hx.2
      exact Finset.mem_filter.mpr ⟨keep_subset _ _ _ hx.2, lt_of_le_of_ne hle (Ne.symm hx.1)⟩
    have hcard := Finset.card_le_card hsub
    rw [Finset.card_erase_of_mem ((keep n ∅ s).min'_mem hne)] at hcard
    omega

theorem card_above_of_mem_keep (hx : x ∈ keep n ∅ s) : ((keep n ∅ s).filter (x < ·)).card < n :=
  lt_of_le_of_lt (Finset.card_le_card (Finset.filter_subset_filter _ (keep_subset n ∅ s)))
    (mem_keep_empty.mp hx).2

theorem eq_keep (hsub : ∀ x ∈ s, n ≤ (t.filter (x < ·)).card ∨ x ∈ t)
    (hhas : ∀ x ∈ t, n ≤ (t.filter (x < ·)).card ∨ x ∈ s)
    (hroom : ∀ x ∈ s, (s.filter (x < ·)).card < n) : s = keep n ∅ t := by
  have hkeep : keep n ∅ t ⊆ s := by
    intro x hx
    obtain ⟨hmem, hfew⟩ := mem_keep_empty.mp hx
    exact (hhas x hmem).resolve_left (not_le.mpr hfew)
  have habove : ∀ x ∈ s, (t.filter (x < ·)).card < n := by
    intro x hx
    have hiff := card_above_keep (n := n) ∅ t ∅ x
    simp only [Finset.sdiff_empty, Finset.union_empty] at hiff
    apply hiff.mp
    exact lt_of_le_of_lt (Finset.card_le_card (Finset.filter_subset_filter _ hkeep)) (hroom x hx)
  apply Finset.Subset.antisymm _ hkeep
  intro x hx
  exact mem_keep_empty.mpr ⟨(hsub x hx).resolve_left (not_le.mpr (habove x hx)), habove x hx⟩

theorem keep_union_eq {t' : Finset K} (hsub : t' ⊆ t)
    (hcut : ∀ x ∈ t, x ∉ t' → x ∈ s ∨ n ≤ ((s ∪ t).filter (x < ·)).card)
    : keep n ∅ (s ∪ t') = keep n ∅ (s ∪ t) := by
  have hkept : keep n ∅ (s ∪ t) ⊆ s ∪ t' := by
    intro x hx
    obtain ⟨hmem, hroom⟩ := mem_keep_empty.mp hx
    rw [Finset.mem_union] at hmem ⊢
    rcases hmem with hs | ht
    . exact Or.inl hs
    . by_cases hin : x ∈ t'
      . exact Or.inr hin
      . exact (hcut x ht hin).elim Or.inl fun hfull => absurd hroom (not_lt.mpr hfull)
  -- Taking what is left out in later changes nothing, and neither does taking it in first.
  calc keep n ∅ (s ∪ t') = keep n ∅ (keep n ∅ (s ∪ t) ∪ (s ∪ t')) := by
        rw [Finset.union_eq_right.mpr hkept]
    _ = keep n ∅ (s ∪ t ∪ (s ∪ t')) := keep_keep_union n (s ∪ t) (s ∪ t')
    _ = keep n ∅ (s ∪ t) := by
        rw [Finset.union_eq_left.mpr (Finset.union_subset_union_right hsub)]

def plain (p : K → Bool) (s : Finset K) : Finset K := s.filter (p · = false)

theorem plain_union (p : K → Bool) (s t : Finset K) : plain p (s ∪ t) = plain p s ∪ plain p t :=
  Finset.filter_union _ _ _

structure PinsExactly (p : K → Bool) (st : Finset K × Finset K) : Prop where
  pass : ∀ x ∈ st.1, p x = true
  pinned : ∀ x ∈ st.2, p x = true → x ∈ st.1

theorem PinsExactly.sdiff {p : K → Bool} {st : Finset K × Finset K} (h : PinsExactly p st)
    : st.2 \ st.1 = plain p st.2 := by
  ext x
  rw [Finset.mem_sdiff, plain, Finset.mem_filter]
  apply and_congr_right
  intro hx
  have := h.pass x
  have := h.pinned x hx
  grind

theorem plain_keep {p : K → Bool} {pinned : Finset K} (h : PinsExactly p (pinned, s))
    : plain p (keep n pinned s) = keep n ∅ (plain p s) := by
  have hsdiff : s \ pinned = plain p s := h.sdiff
  ext x
  rw [plain, Finset.mem_filter, keep, Finset.mem_filter, hsdiff, mem_keep_empty, plain,
    Finset.mem_filter]
  have := h.pass x
  grind

theorem PinsExactly.union {p : K → Bool} {st : Finset K × Finset K} (h : PinsExactly p st)
    (batch : Finset K) : PinsExactly p (pin p st.1 batch, st.2 ∪ batch) where
  pass := pin_spec h.pass
  pinned x hx hp := by
    rw [mem_pin]
    rcases Finset.mem_union.mp hx with hs | hb
    . exact Or.inl (h.pinned x hs hp)
    . exact Or.inr ⟨hb, hp⟩

theorem PinsExactly.absorb {p : K → Bool} {st : Finset K × Finset K} (h : PinsExactly p st)
    (n : Nat) (batch : Finset K) : PinsExactly p (absorb n p st batch) where
  pass := (h.union batch).pass
  pinned x hx := (h.union batch).pinned x (keep_subset _ _ _ hx)

theorem PinsExactly.mem_foldl_absorb {p : K → Bool} {batches : List (Finset K)}
    {st : Finset K × Finset K} (h : PinsExactly p st) (hp : p x = true)
    : x ∈ (batches.foldl (Newest.absorb n p) st).2 ↔ x ∈ st.2 ∨ x ∈ total batches := by
  refine ⟨mem_of_mem_absorb, ?_⟩
  rintro (hx | hx)
  . exact (mem_absorb_of_pinned batches hx (h.pinned x hx hp)).1
  . obtain ⟨batch, hbatch, hx⟩ := mem_total.mp hx
    exact (mem_absorb_of_batch hbatch hx hp st).1

theorem foldl_absorb_congr {p q : K → Bool} {batches : List (Finset K)}
    (h : ∀ x ∈ total batches, p x = q x) (st : Finset K × Finset K)
    : batches.foldl (absorb n p) st = batches.foldl (absorb n q) st := by
  induction batches generalizing st with
  | nil => rfl
  | cons batch rest ih =>
    have hpin : pin p st.1 batch = pin q st.1 batch := by
      ext x
      rw [mem_pin, mem_pin]
      apply or_congr_right
      apply and_congr_right
      intro hx
      rw [h x (Finset.mem_union_left _ hx)]
    rw [List.foldl_cons, List.foldl_cons, ih fun x hx => h x (Finset.mem_union_right _ hx), absorb,
      absorb, hpin]

theorem plain_foldl_absorb {p : K → Bool} (batches : List (Finset K)) {st : Finset K × Finset K}
    (h : PinsExactly p st) (hcard : batches = [] → (plain p st.2).card ≤ n)
    : plain p (batches.foldl (absorb n p) st).2
        =
      keep n ∅ (plain p st.2 ∪ plain p (total batches)) := by
  induction batches generalizing st with
  | nil =>
    simp only [List.foldl_nil, total, List.foldr_nil, plain, Finset.filter_empty, Finset.union_empty]
    exact (keep_eq_self (hcard rfl)).symm
  | cons batch rest ih =>
    have hplain : plain p (absorb n p st batch).2 = keep n ∅ (plain p st.2 ∪ plain p batch) := by
      rw [← plain_union]
      exact plain_keep (h.union batch)
    rw [List.foldl_cons, ih (h.absorb n batch), hplain, keep_keep_union, total_cons, plain_union,
      Finset.union_assoc]
    . intro _
      rw [hplain]
      exact card_keep_le _ _

theorem foldl_absorb_unpinned {p : K → Bool} (hp : ∀ x, p x = false) (batches : List (Finset K))
    (s : Finset K)
    : (batches.foldl (absorb n p) (∅, s)).2
        =
      if batches = [] then s else keep n ∅ (s ∪ total batches) := by
  have hplain : ∀ t, plain p t = t := fun t => Finset.filter_true_of_mem fun x _ => hp x
  have hpins : PinsExactly p (∅, s) := by
    constructor
    . simp
    . intro x _ hx
      rw [hp] at hx
      cases hx
  split
  . next hnil =>
    rw [hnil]
    rfl
  . next hne =>
    have := plain_foldl_absorb (n := n) batches hpins fun hnil => absurd hnil hne
    rwa [hplain, hplain, hplain] at this

end Plain

theorem lt_iff_of_getElem? {l : List K} (hl : l.Pairwise (· > ·)) (hc : l[i]? = some c)
    : x < c ↔ i < l.countP (x < ·) := by
  induction l generalizing i with
  | nil => simp at hc
  | cons y rest ih =>
    rw [List.pairwise_cons] at hl
    have hnone : ¬x < y → rest.countP (x < ·) = 0 := by
      intro hy
      rw [List.countP_eq_zero]
      intro z hz
      simpa using le_trans (le_of_lt (hl.1 z hz)) (not_lt.mp hy)
    cases i with
    | zero =>
      obtain rfl : y = c := by simpa using hc
      by_cases hy : x < y
      . simp [hy]
      . simp [hy, hnone hy]
    | succ i =>
      rw [List.getElem?_cons_succ] at hc
      rw [ih hl.2 hc]
      by_cases hy : x < y
      . simp [hy]
      . simp [hy, hnone hy]

theorem le_iff_card_above {s : Finset K} (hc : (s.sort (· ≥ ·))[n]? = some c)
    : c ≤ x ↔ (s.filter (x < ·)).card ≤ n := by
  have hcount : (s.filter (x < ·)).card = (s.sort (· ≥ ·)).countP (x < ·) := by
    rw [Finset.card_def, Finset.filter_val, ← Multiset.countP_eq_card_filter,
      ← Finset.sort_eq s (· ≥ ·), Multiset.coe_countP]
  rw [← not_lt, lt_iff_of_getElem? (s.sortedGT_sort.pairwise) hc, hcount, not_lt]

theorem card_le_of_getElem?_none {s : Finset K} (hc : (s.sort (· ≥ ·))[n]? = none)
    : s.card ≤ n := by
  rw [List.getElem?_eq_none_iff, Finset.length_sort] at hc
  exact hc

end Newest
