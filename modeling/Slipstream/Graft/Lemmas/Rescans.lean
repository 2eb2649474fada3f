import Slipstream.Graft.Lemmas.Sweep

/-!
This module contains where the blocks of a run lie: the placement that both walks of the sweep find
when the sizes on their way are known, and the blocks that it holds.
-/

namespace Slipstream

variable {E : Type}

section Answers

variable {α β : Type}

def Answers (x y : Except E (Option α)) : Prop := ∀ a, x = .ok (some a) → y = .ok (some a)

theorem Answers.refl (x : Except E (Option α)) : Answers x x := fun _ h => h

theorem Answers.bind {x y : Except E (Option α)} {f g : Option α → Except E (Option β)}
    (h : Answers x y) (hnone : f none = .ok none) (hsome : ∀ a, Answers (f (some a)) (g (some a)))
    : Answers (x >>= f) (y >>= g) := by
  intro b hb
  obtain ⟨a, ha, hb⟩ := bind_eq_ok.mp hb
  cases a with
  | none =>
    rw [hnone] at hb
    cases hb
  | some a => exact bind_eq_ok.mpr ⟨some a, h a ha, hsome a b hb⟩

theorem Answers.ite {x y x' y' : Except E (Option α)} {p : Prop} [Decidable p] (h : Answers x y)
    (h' : Answers x' y') : Answers (if p then x else x') (if p then y else y') := by
  split
  . exact h
  . exact h'

end Answers

section Reads

def Answered (held : Nat → Prop) (sizeAt sizeAt' : Nat → Except E (Option Nat)) : Prop :=
  ∀ h, held h → Answers (sizeAt h) (sizeAt' h)

variable {held : Nat → Prop} {sizeAt sizeAt' : Nat → Except E (Option Nat)} {run : Run}

theorem firstBlockPast.search_answered (h : Answered held sizeAt sizeAt')
    (hheld : ∀ b, lo ≤ b → b ≤ hi → held b)
    : Answers (search sizeAt position fuel lo hi) (search sizeAt' position fuel lo hi) := by
  induction fuel generalizing lo hi with
  | zero => exact .refl _
  | succ fuel ih =>
    unfold search
    by_cases hlt : lo < hi
    . rw [if_pos hlt, if_pos hlt]
      refine .bind (h _ (hheld _ (by omega) (by omega))) rfl fun size => .ite ?_ ?_
      . exact ih fun b hlo hhi => hheld b hlo (by omega)
      . exact ih fun b hlo hhi => hheld b (by omega) hhi
    . rw [if_neg hlt, if_neg hlt]
      exact .refl _

theorem firstBlockPast_answered {stretch : Span} (h : Answered held sizeAt sizeAt')
    (hheld : ∀ b, stretch.Mem b → held b) (hne : stretch.start < stretch.stop) (position : Nat)
    : Answers (firstBlockPast sizeAt position stretch) (firstBlockPast sizeAt' position stretch) := by
  refine .bind (h _ (hheld _ ⟨by omega, by omega⟩)) rfl fun size => .ite (.refl _) ?_
  exact firstBlockPast.search_answered h fun b hlo hhi => hheld b ⟨hlo, by omega⟩

theorem walkFromOldest_answered {stretches : List Span} (h : Answered held sizeAt sizeAt')
    (hheld : ∀ s ∈ stretches, ∀ b, s.Mem b → held b) (hne : ∀ s ∈ stretches, s.start < s.stop)
    : Answers (walkFromOldest sizeAt run stretches) (walkFromOldest sizeAt' run stretches) := by
  induction stretches with
  | nil => exact .refl _
  | cons stretch newer ih =>
    have hstretch := hne stretch List.mem_cons_self
    have hblocks := hheld stretch List.mem_cons_self
    have hpast := firstBlockPast_answered h hblocks hstretch
    have hnewer := ih (fun s hs => hheld s (List.mem_cons_of_mem _ hs))
      (fun s hs => hne s (List.mem_cons_of_mem _ hs))
    refine .bind (h _ (hblocks _ ⟨by omega, by omega⟩)) rfl fun endSize => .ite hnewer ?_
    refine .bind (hpast run.first) rfl fun start => .ite ?_ ?_
    . exact .bind (hpast run.last) rfl fun last => .refl _
    . exact .bind hnewer rfl fun rescans => .refl _

theorem walkFromNewest.go_answered {older : List Span} (h : Answered held sizeAt sizeAt')
    (hheld : ∀ s ∈ older, ∀ b, s.Mem b → held b) (hne : ∀ s ∈ older, s.start < s.stop)
    (rescans : List Span) (pastLast : Option Span)
    : Answers (go sizeAt run rescans pastLast older) (go sizeAt' run rescans pastLast older) := by
  induction older generalizing rescans pastLast with
  | nil => exact .refl _
  | cons stretch older ih =>
    have hstretch := hne stretch List.mem_cons_self
    have hblocks := hheld stretch List.mem_cons_self
    have hpast := firstBlockPast_answered h hblocks hstretch
    have holder := ih (fun s hs => hheld s (List.mem_cons_of_mem _ hs))
      (fun s hs => hne s (List.mem_cons_of_mem _ hs))
    refine .bind (h _ (hblocks _ ⟨by omega, by omega⟩)) rfl fun endSize => .ite (.refl _) ?_
    refine .bind (hpast run.first) rfl fun start => .ite ?_ ?_
    . exact .bind (hpast run.last) rfl fun last => .ite (.refl _) (holder _ _)
    . exact .ite (.refl _) (holder _ _)

theorem walkFromNewest_answered {stretches : List Span} (h : Answered held sizeAt sizeAt')
    (hheld : ∀ s ∈ stretches, ∀ b, s.Mem b → held b) (hne : ∀ s ∈ stretches, s.start < s.stop)
    : Answers (walkFromNewest sizeAt run stretches) (walkFromNewest sizeAt' run stretches) := by
  apply walkFromNewest.go_answered h
  . intro s hs
    exact hheld s (List.mem_reverse.mp hs)
  . intro s hs
    exact hne s (List.mem_reverse.mp hs)

end Reads

section Placement

def knownSizes (stop : Nat → Nat) (h : Nat) : Except E (Option Nat) := .ok (some (stop h))

structure IsFirstPast (stop : Nat → Nat) (position lo hi r : Nat) : Prop where
  ge : lo ≤ r
  le : r ≤ hi
  past : position < stop r
  below : ∀ b, lo ≤ b → b < r → stop b ≤ position

variable {held : Nat → Prop} {stop : Nat → Nat} {run : Run}

theorem IsFirstPast.unique (h : IsFirstPast stop position lo hi r)
    (h' : IsFirstPast stop position lo hi r') : r = r' := by
  have hpast := h.past
  have hpast' := h'.past
  rcases Nat.lt_trichotomy r r' with hlt | heq | hlt
  . have := h'.below r h.ge hlt
    omega
  . exact heq
  . have := h.below r' h'.ge hlt
    omega

def firstPastFrom (stop : Nat → Nat) (position lo : Nat) : Nat → Nat
  | 0 => lo
  | n + 1 => if position < stop lo then lo else firstPastFrom stop position (lo + 1) n

theorem IsFirstPast.self (h : position < stop lo) (hle : lo ≤ hi) : IsFirstPast stop position lo hi lo :=
  ⟨Nat.le_refl _, hle, h, fun b hlo hhi => by omega⟩

theorem isFirstPast_firstPastFrom (lo n : Nat) (h : position < stop (lo + n))
    : IsFirstPast stop position lo (lo + n) (firstPastFrom stop position lo n) := by
  induction n generalizing lo with
  | zero => exact .self h (Nat.le_refl _)
  | succ n ih =>
    rw [firstPastFrom]
    split
    . next hpast => exact .self hpast (Nat.le_add_right _ _)
    . next hpast =>
      have hnext := ih (lo + 1) (by rwa [Nat.add_right_comm])
      refine ⟨by have := hnext.ge; omega, by have := hnext.le; omega, hnext.past, ?_⟩
      intro b hlo hhi
      by_cases hb : b = lo
      . subst hb
        omega
      . exact hnext.below b (by omega) hhi

def firstPast (stop : Nat → Nat) (position : Nat) (s : Span) : Nat :=
  firstPastFrom stop position s.start (s.stop - 1 - s.start)

theorem isFirstPast_firstPast {s : Span} (hne : s.start < s.stop)
    (h : position < stop (s.stop - 1))
    : IsFirstPast stop position s.start (s.stop - 1) (firstPast stop position s) := by
  have hlast : s.start + (s.stop - 1 - s.start) = s.stop - 1 := by omega
  have hfirst := isFirstPast_firstPastFrom s.start (s.stop - 1 - s.start) (by rwa [hlast])
  rwa [hlast] at hfirst

def placement (stop : Nat → Nat) (run : Run) : List Span → List Span
  | [] => []
  | s :: newer =>
    if stop (s.stop - 1) ≤ run.first then
      placement stop run newer
    else if run.last < stop (s.stop - 1) then
      [⟨firstPast stop run.first s, firstPast stop run.last s + 1⟩]
    else
      ⟨firstPast stop run.first s, s.stop⟩ :: placement stop run newer

def Grows (held : Nat → Prop) (stop : Nat → Nat) : Prop :=
  ∀ a b, held a → held b → a ≤ b → stop a ≤ stop b

theorem firstBlockPast.search_known (hgrows : Grows held stop)
    (hheld : ∀ b, lo ≤ b → b ≤ hi → held b) (hle : lo ≤ hi) (hfuel : hi - lo ≤ fuel)
    (hpast : position < stop hi)
    : ∃ r, search (knownSizes (E := E) stop) position fuel lo hi = .ok (some r)
      ∧ IsFirstPast stop position lo hi r := by
  induction fuel generalizing lo hi with
  | zero =>
    obtain rfl : lo = hi := by omega
    exact ⟨lo, rfl, .self hpast (Nat.le_refl _)⟩
  | succ fuel ih =>
    unfold search
    by_cases hlt : lo < hi
    . rw [if_pos hlt]
      change ∃ r, (if position < stop (lo + (hi - lo) / 2)
        then search (knownSizes (E := E) stop) position fuel lo (lo + (hi - lo) / 2)
        else search (knownSizes (E := E) stop) position fuel (lo + (hi - lo) / 2 + 1) hi) = _ ∧ _
      split
      . next hmid =>
        obtain ⟨r, hr, hfirst⟩ := ih (fun b hlo hhi => hheld b hlo (by omega)) (by omega)
          (by omega) hmid
        exact ⟨r, hr, hfirst.ge, by have := hfirst.le; omega, hfirst.past, hfirst.below⟩
      . next hmid =>
        obtain ⟨r, hr, hfirst⟩ := @ih (lo + (hi - lo) / 2 + 1) hi
          (fun b hlo hhi => hheld b (by omega) hhi) (by omega) (by omega) hpast
        refine ⟨r, hr, by have := hfirst.ge; omega, hfirst.le, hfirst.past, ?_⟩
        intro b hlo hhi
        by_cases hb : b ≤ lo + (hi - lo) / 2
        . have := hgrows b _ (hheld b hlo (by omega)) (hheld _ (by omega) (by omega)) hb
          omega
        . exact hfirst.below b (by omega) hhi
    . obtain rfl : lo = hi := by omega
      rw [if_neg hlt]
      exact ⟨lo, rfl, .self hpast (Nat.le_refl _)⟩

theorem firstBlockPast_known {s : Span} (hgrows : Grows held stop) (hheld : ∀ b, s.Mem b → held b)
    (hne : s.start < s.stop) (hpast : position < stop (s.stop - 1))
    : firstBlockPast (knownSizes (E := E) stop) position s = .ok (some (firstPast stop position s)) := by
  obtain ⟨r, hr, hfirst⟩ := firstBlockPast.search_known (E := E) hgrows
    (fun b hlo hhi => hheld b ⟨hlo, by omega⟩) (by omega) (Nat.le_refl _) hpast
  change (if stop (s.stop - 1) ≤ position then .ok none
    else firstBlockPast.search (knownSizes stop) position _ s.start (s.stop - 1)) = _
  rw [if_neg (by omega), hr, hfirst.unique (isFirstPast_firstPast hne hpast)]

theorem walkFromOldest_known {stretches : List Span} (hgrows : Grows held stop)
    (hheld : ∀ s ∈ stretches, ∀ b, s.Mem b → held b) (hne : ∀ s ∈ stretches, s.start < s.stop)
    : walkFromOldest (knownSizes (E := E) stop) run stretches
      = .ok (some (placement stop run stretches)) := by
  induction stretches with
  | nil => rfl
  | cons s newer ih =>
    have hstretch := hne s List.mem_cons_self
    have hblocks := hheld s List.mem_cons_self
    have hnewer := ih (fun s hs => hheld s (List.mem_cons_of_mem _ hs))
      (fun s hs => hne s (List.mem_cons_of_mem _ hs))
    have hread : knownSizes (E := E) stop (s.stop - 1) = .ok (some (stop (s.stop - 1))) := rfl
    rw [walkFromOldest, placement, hread, hnewer]
    change (if stop (s.stop - 1) ≤ run.first then _ else _) = _
    split
    . rfl
    . next hfirst =>
      rw [firstBlockPast_known hgrows hblocks hstretch (by omega)]
      change (if run.last < stop (s.stop - 1) then _ else _) = _
      split
      . next hlast =>
        rw [firstBlockPast_known hgrows hblocks hstretch hlast]
        rfl
      . rfl

theorem placement_append {older : List Span} (h : ∀ s ∈ older, stop (s.stop - 1) ≤ run.first)
    (newer : List Span) : placement stop run (older ++ newer) = placement stop run newer := by
  induction older with
  | nil => rfl
  | cons s older ih =>
    rw [List.cons_append, placement, if_pos (h s List.mem_cons_self)]
    exact ih fun s hs => h s (List.mem_cons_of_mem _ hs)

structure Ordered (held : Nat → Prop) (stretches : List Span) : Prop where
  ascending : stretches.Pairwise fun a b => a.stop ≤ b.start
  proper : ∀ s ∈ stretches, s.start < s.stop
  held : ∀ s ∈ stretches, ∀ b, s.Mem b → held b

theorem Ordered.last {stretches : List Span} (h : Ordered held stretches) (hs : s ∈ stretches)
    : held (s.stop - 1) := by
  have hne := h.proper s hs
  exact h.held s hs _ ⟨by omega, by omega⟩

theorem Ordered.below {older newer : List Span} (hgrows : Grows held stop)
    (h : Ordered held (older ++ s :: newer)) (hb : s.Mem b) (hend : stop b ≤ run.first)
    : ∀ a ∈ older, stop (a.stop - 1) ≤ run.first := by
  intro a ha
  have horder := (List.pairwise_append.mp h.ascending).2.2 a ha s List.mem_cons_self
  have hgrow := hgrows (a.stop - 1) b (h.last (List.mem_append_left _ ha))
    (h.held s (List.mem_append_right _ List.mem_cons_self) b hb) (by have := hb.1; omega)
  omega

theorem walkFromNewest.go_known {older newer : List Span} (hgrows : Grows held stop)
    (hordered : Ordered held (older.reverse ++ newer))
    (hdone : done rescans pastLast = placement stop run newer)
    (hrescans : (∀ t ∈ newer, run.last < stop (t.stop - 1)) → rescans = [])
    : go (knownSizes (E := E) stop) run rescans pastLast older
      = .ok (some (placement stop run (older.reverse ++ newer))) := by
  induction older generalizing rescans pastLast newer with
  | nil => exact congrArg (fun out => Except.ok (some out)) hdone
  | cons s older ih =>
    rw [List.reverse_cons, List.append_assoc, List.singleton_append] at hordered ⊢
    have hmem : s ∈ older.reverse ++ s :: newer := List.mem_append_right _ List.mem_cons_self
    have hstretch := hordered.proper s hmem
    have hblocks := hordered.held s hmem
    have hlastMem : s.Mem (s.stop - 1) := ⟨by omega, by omega⟩
    have hread : knownSizes (E := E) stop (s.stop - 1) = .ok (some (stop (s.stop - 1))) := rfl
    rw [go, hread]
    change (if stop (s.stop - 1) ≤ run.first then _ else _) = _
    split
    . next hend =>
      rw [placement_append (hordered.below hgrows hlastMem hend), placement, if_pos hend, ← hdone]
      rfl
    . next hend =>
      have hfirst := isFirstPast_firstPast hstretch (show run.first < stop (s.stop - 1) by omega)
      rw [firstBlockPast_known hgrows hblocks hstretch (by omega)]
      -- The run begins in this stretch: nothing of it lies below.
      have hbegins : s.start < firstPast stop run.first s →
          placement stop run (older.reverse ++ s :: newer) = placement stop run (s :: newer) := by
        intro hlt
        apply placement_append
        have hle := hfirst.le
        exact hordered.below hgrows (b := firstPast stop run.first s - 1) ⟨by omega, by omega⟩
          (hfirst.below _ (by omega) (by omega))
      change (if run.last < stop (s.stop - 1) then _ else _) = _
      split
      . next hpast =>
        rw [firstBlockPast_known hgrows hblocks hstretch hpast]
        have hempty : rescans = [] := by
          apply hrescans
          intro t ht
          have hnewer := (List.pairwise_append.mp hordered.ascending).2.1
          have horder := (List.pairwise_cons.mp hnewer).1 t ht
          have ht' : t ∈ older.reverse ++ s :: newer :=
            List.mem_append_right _ (List.mem_cons_of_mem _ ht)
          have hproper := hordered.proper t ht'
          have hgrow := hgrows _ _ (hordered.last hmem) (hordered.last ht') (by omega)
          omega
        have hplaced : done rescans (some ⟨firstPast stop run.first s, firstPast stop run.last s + 1⟩)
            = placement stop run (s :: newer) := by
          rw [placement, if_neg hend, if_pos hpast, hempty]
          rfl
        change (if s.start < firstPast stop run.first s then _ else _) = _
        split
        . next hlt =>
          rw [hbegins hlt, ← hplaced]
          rfl
        . exact ih hordered hplaced fun _ => hempty
      . next hpast =>
        have hplaced : done
            (rescans ++ pastLast.toList ++ [⟨firstPast stop run.first s, s.stop⟩]) none
            = placement stop run (s :: newer) := by
          rw [placement, if_neg hend, if_neg hpast, ← hdone]
          simp [done]
        change (if s.start < firstPast stop run.first s then _ else _) = _
        split
        . next hlt =>
          rw [hbegins hlt, ← hplaced]
          rfl
        . apply ih hordered hplaced
          intro hall
          exact absurd (hall s List.mem_cons_self) hpast

theorem walkFromNewest_known {stretches : List Span} (hgrows : Grows held stop)
    (hordered : Ordered held stretches)
    : walkFromNewest (knownSizes (E := E) stop) run stretches
      = .ok (some (placement stop run stretches)) := by
  have hwalk : walkFromNewest.go (knownSizes (E := E) stop) run [] none stretches.reverse
      = .ok (some (placement stop run (stretches.reverse.reverse ++ []))) := by
    apply walkFromNewest.go_known hgrows _ rfl (by simp)
    rwa [List.reverse_reverse, List.append_nil]
  rw [walkFromNewest, hwalk, List.reverse_reverse, List.append_nil]

theorem Ordered.tail {stretches : List Span} (h : Ordered held (s :: stretches))
    : Ordered held stretches where
  ascending := (List.pairwise_cons.mp h.ascending).2
  proper s hs := h.proper s (List.mem_cons_of_mem _ hs)
  held s hs := h.held s (List.mem_cons_of_mem _ hs)

theorem placement_inside {stretches : List Span} (h : Ordered held stretches)
    (hrun : run.first ≤ run.last) (hr : r ∈ placement stop run stretches)
    : r.start < r.stop ∧ ∃ s ∈ stretches, s.start ≤ r.start ∧ r.stop ≤ s.stop := by
  induction stretches with
  | nil => cases hr
  | cons s newer ih =>
    have hnewer : r ∈ placement stop run newer →
        r.start < r.stop ∧ ∃ s' ∈ s :: newer, s'.start ≤ r.start ∧ r.stop ≤ s'.stop := by
      intro hr
      obtain ⟨hproper, s', hs', hinside⟩ := ih h.tail hr
      exact ⟨hproper, s', List.mem_cons_of_mem _ hs', hinside⟩
    rw [placement] at hr
    split at hr
    . exact hnewer hr
    . next hend =>
      have hstretch := h.proper s List.mem_cons_self
      have hfirst := isFirstPast_firstPast hstretch (show run.first < stop (s.stop - 1) by omega)
      have hge := hfirst.ge
      have hle := hfirst.le
      split at hr
      . next hlast =>
        have hto := isFirstPast_firstPast hstretch hlast
        have hle' := hto.le
        cases List.mem_singleton.mp hr
        refine ⟨?_, s, List.mem_cons_self, hge, by dsimp only; omega⟩
        -- The block that ends past the last position ends past the first one.
        apply Nat.lt_succ_of_le
        apply Nat.le_of_not_lt
        intro hlt
        have hbelow := hfirst.below _ hto.ge hlt
        have hpast := hto.past
        omega
      . cases List.mem_cons.mp hr with
        | inl hr =>
          subst hr
          exact ⟨by dsimp only; omega, s, List.mem_cons_self, hge, Nat.le_refl _⟩
        | inr hr => exact hnewer hr

theorem placement_ascending {stretches : List Span} (h : Ordered held stretches)
    (hrun : run.first ≤ run.last)
    : (placement stop run stretches).Pairwise fun a b => a.stop ≤ b.start := by
  induction stretches with
  | nil => exact .nil
  | cons s newer ih =>
    rw [placement]
    split
    . exact ih h.tail
    . split
      . exact List.pairwise_singleton _ _
      . rw [List.pairwise_cons]
        refine ⟨?_, ih h.tail⟩
        intro r hr
        obtain ⟨-, s', hs', hstart, -⟩ := placement_inside h.tail hrun hr
        exact Nat.le_trans ((List.pairwise_cons.mp h.ascending).1 s' hs') hstart

theorem placement_sizes (run : Run) {stretches : List Span} (hgrows : Grows held stop)
    (h : Ordered held stretches)
    : ∃ e, ∀ r ∈ placement stop run stretches, ∀ b, r.Mem b →
        run.first < stop b ∧ (b = e ∨ stop b ≤ run.last) := by
  induction stretches with
  | nil => exact ⟨0, by simp [placement]⟩
  | cons s newer ih =>
    obtain ⟨e, hnewer⟩ := ih h.tail
    rw [placement]
    split
    . exact ⟨e, hnewer⟩
    . next hend =>
      have hmem : s ∈ s :: newer := List.mem_cons_self
      have hstretch := h.proper s hmem
      have hfirst := isFirstPast_firstPast hstretch (show run.first < stop (s.stop - 1) by omega)
      have hge := hfirst.ge
      have hpast : ∀ b, firstPast stop run.first s ≤ b → b < s.stop → run.first < stop b := by
        intro b hlo hhi
        exact Nat.lt_of_lt_of_le hfirst.past (hgrows _ _ (h.held s hmem _ ⟨hge, by omega⟩)
          (h.held s hmem b ⟨by omega, hhi⟩) hlo)
      split
      . next hlast =>
        have hto := isFirstPast_firstPast hstretch hlast
        have hle := hto.le
        refine ⟨firstPast stop run.last s, ?_⟩
        intro r hr b hb
        cases List.mem_singleton.mp hr
        have hhi : b < firstPast stop run.last s + 1 := hb.2
        refine ⟨hpast b hb.1 (by omega), ?_⟩
        by_cases hb' : b = firstPast stop run.last s
        . exact .inl hb'
        . exact .inr (hto.below b (Nat.le_trans hge hb.1) (by omega))
      . next hlast =>
        refine ⟨e, ?_⟩
        intro r hr b hb
        cases List.mem_cons.mp hr with
        | inl hr =>
          subst hr
          have hhi : b < s.stop := hb.2
          have hgrow := hgrows b _ (h.held s hmem b ⟨Nat.le_trans hge hb.1, hhi⟩) (h.last hmem)
            (by omega)
          exact ⟨hpast b hb.1 hhi, .inr (by omega)⟩
        | inr hr => exact hnewer r hr b hb

end Placement

section Covers

structure Layout (held : Nat → Prop) (first stop : Nat → Nat) : Prop where
  le : ∀ b, held b → first b ≤ stop b
  next : ∀ a b, held a → held b → a < b → stop a ≤ first b

variable {held : Nat → Prop} {first stop : Nat → Nat} {sizeAt : Nat → Except E (Option Nat)} {run : Run}

theorem Layout.grows (h : Layout held first stop) : Grows held stop := by
  intro a b ha hb hle
  cases Nat.lt_or_eq_of_le hle with
  | inl hlt => exact Nat.le_trans (h.next a b ha hb hlt) (h.le b hb)
  | inr heq => rw [heq]

def AnswersTo (held : Nat → Prop) (stop : Nat → Nat) (sizeAt : Nat → Except E (Option Nat)) : Prop :=
  ∀ h n, held h → sizeAt h = .ok (some n) → n = stop h

theorem AnswersTo.answered (h : AnswersTo held stop sizeAt)
    : Answered held sizeAt (knownSizes stop) := by
  intro b hb n hn
  rw [h b n hb hn]
  rfl

theorem walkFromNewest_eq {stretches : List Span} (hgrows : Grows held stop)
    (hanswers : AnswersTo held stop sizeAt) (hordered : Ordered held stretches)
    (h : walkFromNewest sizeAt run stretches = .ok (some out)) : out = placement stop run stretches := by
  have hknown := walkFromNewest_answered hanswers.answered hordered.held hordered.proper out h
  rw [walkFromNewest_known hgrows hordered] at hknown
  cases hknown
  rfl

theorem walkFromOldest_eq {stretches : List Span} (hgrows : Grows held stop)
    (hanswers : AnswersTo held stop sizeAt) (hordered : Ordered held stretches)
    (h : walkFromOldest sizeAt run stretches = .ok (some out)) : out = placement stop run stretches := by
  have hknown := walkFromOldest_answered hanswers.answered hordered.held hordered.proper out h
  rw [walkFromOldest_known hgrows hordered.held hordered.proper] at hknown
  cases hknown
  rfl

theorem rescansFor_eq {stretches : List Span} (hgrows : Grows held stop)
    (hanswers : AnswersTo held stop sizeAt) (hordered : Ordered held stretches)
    (h : rescansFor sizeAt run stretches = .ok (some out)) : out = placement stop run stretches := by
  unfold rescansFor at h
  obtain ⟨newest, hnewest, h⟩ := bind_eq_ok.mp h
  cases newest with
  | none => exact walkFromOldest_eq hgrows hanswers hordered h
  | some rescans =>
    cases h
    exact walkFromNewest_eq hgrows hanswers hordered hnewest

def Run.Touches (first stop : Nat → Nat) (run : Run) (b : Nat) : Prop :=
  first b ≤ run.last ∧ run.first < stop b

theorem placement_covers {stretches : List Span} (hlayout : Layout held first stop)
    (h : Ordered held stretches) (hs : s ∈ stretches) (hb : s.Mem b)
    (htouches : run.Touches first stop b) : ∃ r ∈ placement stop run stretches, r.Mem b := by
  induction stretches with
  | nil => cases hs
  | cons t newer ih =>
    have hmem : t ∈ t :: newer := List.mem_cons_self
    have hstretch := h.proper t hmem
    have hbheld := h.held s hs b hb
    have hend : ¬stop (t.stop - 1) ≤ run.first ∨ s ∈ newer := by
      cases List.mem_cons.mp hs with
      | inl hs =>
        subst hs
        have hgrow := hlayout.grows b _ hbheld (h.last hmem) (by have := hb.2; omega)
        have hfirst := htouches.2
        exact .inl (by omega)
      | inr hs => exact .inr hs
    rw [placement]
    split
    . next hbelow => exact ih h.tail (hend.resolve_left (not_not.mpr hbelow))
    . next hbelow =>
      have hfirst := isFirstPast_firstPast hstretch (show run.first < stop (t.stop - 1) by omega)
      have hlo : t.Mem b → firstPast stop run.first t ≤ b := by
        intro hb
        apply Nat.le_of_not_lt
        intro hlt
        have hsmall := hfirst.below b hb.1 hlt
        have hlarge := htouches.2
        omega
      -- A block that starts at or before the run's last position is not above one that ends past it.
      have hhi : ∀ a, held a → run.last < stop a → b ≤ a := by
        intro a ha hpast
        apply Nat.le_of_not_lt
        intro hlt
        have hnext := hlayout.next a b ha hbheld hlt
        have hlast := htouches.1
        omega
      split
      . next hlast =>
        have hto := isFirstPast_firstPast hstretch hlast
        have hbt : t.Mem b := by
          cases List.mem_cons.mp hs with
          | inl hs => exact hs ▸ hb
          | inr hs' =>
            have horder := (List.pairwise_cons.mp h.ascending).1 s hs'
            have hbelow := hhi _ (h.last hmem) hlast
            have hge := hb.1
            omega
        have hle := hhi _ (h.held t hmem _ ⟨hto.ge, by have := hto.le; omega⟩) hto.past
        exact ⟨_, List.mem_singleton_self _, hlo hbt, Nat.lt_succ_of_le hle⟩
      . cases List.mem_cons.mp hs with
        | inl hs =>
          subst hs
          exact ⟨_, List.mem_cons_self, hlo hb, hb.2⟩
        | inr hs =>
          obtain ⟨r, hr, hrb⟩ := ih h.tail hs
          exact ⟨r, List.mem_cons_of_mem _ hr, hrb⟩

theorem rescansFor_covers (hlayout : Layout held first stop)
    (hanswers : AnswersTo held stop sizeAt) {stretches : List Span} (hordered : Ordered held stretches)
    (h : rescansFor sizeAt run stretches = .ok (some out)) (hs : s ∈ stretches) (hb : s.Mem b)
    (htouches : run.Touches first stop b) : ∃ r ∈ out, r.Mem b := by
  rw [rescansFor_eq hlayout.grows hanswers hordered h]
  exact placement_covers hlayout hordered hs hb htouches

end Covers

end Slipstream
