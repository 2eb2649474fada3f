import Slipstream.Graft.Lemmas.Rescans

/-!
This module contains the verification of the sweep's search for the blocks of a run: both walks give
one answer whatever sizes are missing, and with the sizes of the scanned blocks known that answer is
a minimal cover of the run.
-/

namespace Slipstream

variable {E : Type}

/--
Under sizes that are all known both walks answer alike, and whatever either answers with sizes
missing is that answer.
-/
theorem walks_agree (stretches : List Span)
    (hascending : stretches.Pairwise fun a b => a.stop ≤ b.start)
    (hne : ∀ s ∈ stretches, s.start < s.stop) (size : Nat → Nat)
    (hsize : ∀ a b, a ≤ b → size a ≤ size b) (sizeAt : Nat → Except E (Option Nat))
    (hincomplete : ∀ h n, sizeAt h = .ok (some n) → n = size h) (run : Run)
    : ∃ answer, walkFromNewest (knownSizes (E := E) size) run stretches = .ok (some answer)
        ∧ walkFromOldest (knownSizes (E := E) size) run stretches = .ok (some answer)
        ∧ ∀ out, walkFromNewest sizeAt run stretches = .ok (some out)
            ∨ walkFromOldest sizeAt run stretches = .ok (some out) → out = answer := by
  have hgrows : Grows (fun _ => True) size := fun a b _ _ => hsize a b
  have hanswers : AnswersTo (fun _ => True) size sizeAt := fun h n _ => hincomplete h n
  have hordered : Ordered (fun _ => True) stretches := ⟨hascending, hne, fun _ _ _ _ => trivial⟩
  refine ⟨placement size run stretches, walkFromNewest_known hgrows hordered,
    walkFromOldest_known hgrows hordered.held hordered.proper, ?_⟩
  rintro out (hout | hout)
  . exact walkFromNewest_eq hgrows hanswers hordered hout
  . exact walkFromOldest_eq hgrows hanswers hordered hout

def threeStretches : List Span := [⟨10, 20⟩, ⟨30, 40⟩, ⟨50, 60⟩]

def sizesBelow50 (h : Nat) : Except Unit (Option Nat) :=
  if h < 50 then .ok (some (h + 1)) else .ok none

theorem walks_agree_threeStretches
    : walkFromNewest sizesBelow50 ⟨32, 35⟩ threeStretches = .ok none
      ∧ walkFromOldest sizesBelow50 ⟨32, 35⟩ threeStretches = .ok (some [⟨32, 36⟩])
      ∧ walkFromNewest (knownSizes (E := Unit) (· + 1)) ⟨32, 35⟩ threeStretches
        = .ok (some [⟨32, 36⟩]) := by
  have hincomplete : ∀ h n, sizesBelow50 h = .ok (some n) → n = h + 1 := by
    intro h n hn
    rw [sizesBelow50] at hn
    split at hn
    . cases hn
      rfl
    . cases hn
  obtain ⟨answer, hnewest, -, hanswer⟩ := walks_agree threeStretches (by decide) (by decide)
    (· + 1) (fun _ _ => Nat.succ_le_succ) sizesBelow50 hincomplete ⟨32, 35⟩
  refine ⟨rfl, rfl, ?_⟩
  rw [hnewest, ← hanswer [⟨32, 36⟩] (.inr rfl)]

def sizeBefore (size : Nat → Nat) : Nat → Nat
  | 0 => 0
  | b + 1 => size b

def HoldsPartOf (size : Nat → Nat) (run : Run) (b : Nat) : Prop :=
  ∃ p, run.contains p = true ∧ sizeBefore size b ≤ p ∧ p < size b

section Chain

variable {size : Nat → Nat} {run : Run}

theorem layout_of_chain (hsize : ∀ a b, a ≤ b → size a ≤ size b)
    : Layout (fun _ => True) (sizeBefore size) size where
  le b _ := by
    cases b with
    | zero => exact Nat.zero_le _
    | succ b => exact hsize b (b + 1) (Nat.le_succ b)
  next a b _ _ hlt := by
    cases b with
    | zero => cases hlt
    | succ b => exact hsize a b (Nat.le_of_lt_succ hlt)

theorem HoldsPartOf.touches (h : HoldsPartOf size run b) : run.Touches (sizeBefore size) size b := by
  obtain ⟨p, hp, hlo, hhi⟩ := h
  obtain ⟨hfirst, hlast⟩ := (run.contains_iff p).mp hp
  exact ⟨Nat.le_trans hlo hlast, Nat.lt_of_le_of_lt hfirst hhi⟩

theorem between_of_sizes (hsize : ∀ a b, a ≤ b → size a ≤ size b) (hrun : run.first ≤ run.last)
    (hchain : ∀ p, run.contains p = true → ∃ b, sizeBefore size b ≤ p ∧ p < size b)
    (hb : ¬HoldsPartOf size run b) (hfirst : run.first < size b) (hlast : size b ≤ run.last)
    : ∃ a c, a < b ∧ b < c ∧ HoldsPartOf size run a ∧ HoldsPartOf size run c := by
  have hlayout := layout_of_chain hsize
  have hfirstMem := (run.contains_iff run.first).mpr ⟨Nat.le_refl _, hrun⟩
  have hlastMem := (run.contains_iff run.last).mpr ⟨hrun, Nat.le_refl _⟩
  obtain ⟨a, ha⟩ := hchain run.first hfirstMem
  obtain ⟨c, hc⟩ := hchain run.last hlastMem
  have hholds : HoldsPartOf size run a := ⟨run.first, hfirstMem, ha⟩
  refine ⟨a, c, ?_, ?_, hholds, ⟨run.last, hlastMem, hc⟩⟩
  . apply Nat.lt_of_le_of_ne
    . apply Nat.le_of_not_lt
      intro hlt
      have hnext := hlayout.next b a trivial trivial hlt
      omega
    . rintro rfl
      exact hb hholds
  . apply Nat.lt_of_not_le
    intro hle
    have hgrow := hsize c b hle
    omega

end Chain

/--
The scanned stretches are exactly the heights that no pending range covers, and the rescans of a run
are a cover of its scanned blocks that goes beyond the run by one block at most.
-/
theorem rescans_cover_run (pending : List Span) (hpending : ∀ range ∈ pending, range.start ≤ range.stop)
    (floor stop : Nat) (size : Nat → Nat) (hsize : ∀ a b, a ≤ b → size a ≤ size b)
    (sizeAt : Nat → Except E (Option Nat))
    (hknown : ∀ b, floor ≤ b → b < stop → (∀ range ∈ pending, ¬range.Mem b) →
      sizeAt b = .ok (some (size b)))
    (run : Run) (hrun : run.first ≤ run.last)
    : (scannedStretches pending floor stop).Pairwise (fun a b => a.stop ≤ b.start)
      ∧ (∀ s ∈ scannedStretches pending floor stop, s.start < s.stop)
      ∧ (∀ b, (∃ s ∈ scannedStretches pending floor stop, s.Mem b) ↔
          floor ≤ b ∧ b < stop ∧ ∀ range ∈ pending, ¬range.Mem b)
      ∧ ∃ rescans, rescansFor sizeAt run (scannedStretches pending floor stop) = .ok (some rescans)
        ∧ rescans.Pairwise (fun a b => a.stop ≤ b.start)
        ∧ (∀ r ∈ rescans, r.start < r.stop
            ∧ ∃ s ∈ scannedStretches pending floor stop, s.start ≤ r.start ∧ r.stop ≤ s.stop)
        ∧ (∀ s ∈ scannedStretches pending floor stop, ∀ b, s.Mem b → HoldsPartOf size run b →
            ∃ r ∈ rescans, r.Mem b)
        ∧ ((∀ p, run.contains p = true → ∃ b, sizeBefore size b ≤ p ∧ p < size b) →
            ∃ exception, ∀ r ∈ rescans, ∀ b, r.Mem b → ¬HoldsPartOf size run b → b ≠ exception →
              ∃ a c, a < b ∧ b < c ∧ HoldsPartOf size run a ∧ HoldsPartOf size run c) := by
  obtain ⟨hascending, hne⟩ := scannedStretches_ascending hpending floor stop
  have hlayout := layout_of_chain hsize
  have hordered : Ordered (fun _ => True) (scannedStretches pending floor stop) :=
    ⟨hascending, hne, fun _ _ _ _ => trivial⟩
  refine ⟨hascending, hne, ?_, placement size run (scannedStretches pending floor stop), ?_,
    placement_ascending hordered hrun, fun r => placement_inside hordered hrun, ?_, ?_⟩
  . intro b
    constructor
    . rintro ⟨s, hs, hb⟩
      exact scannedStretches_mem hs hb
    . rintro ⟨hlo, hhi, hnot⟩
      exact scannedStretches_cover hlo hhi hnot
  . -- The sizes of the scanned blocks are all the walk reads.
    have hanswered : Answered (fun b => ∃ s ∈ scannedStretches pending floor stop, s.Mem b)
        (knownSizes size) sizeAt := by
      rintro b ⟨s, hs, hb⟩ n hn
      obtain ⟨hlo, hhi, hnot⟩ := scannedStretches_mem hs hb
      rw [hknown b hlo hhi hnot]
      exact hn
    have hwalk : walkFromNewest sizeAt run (scannedStretches pending floor stop)
        = .ok (some (placement size run (scannedStretches pending floor stop))) :=
      walkFromNewest_answered hanswered (fun s hs b hb => ⟨s, hs, hb⟩) hne _
        (walkFromNewest_known hlayout.grows hordered)
    rw [rescansFor, hwalk]
    rfl
  . intro s hs b hb hholds
    exact placement_covers hlayout hordered hs hb hholds.touches
  . intro hchain
    obtain ⟨exception, hsizes⟩ := placement_sizes run hlayout.grows hordered
    refine ⟨exception, ?_⟩
    intro r hr b hb hholds hexception
    obtain ⟨hfirst, hlast⟩ := hsizes r hr b hb
    exact between_of_sizes hsize hrun hchain hholds hfirst (hlast.resolve_left hexception)

theorem rescans_cover_run_gap
    : scannedStretches [⟨20, 30⟩] 10 40 = [⟨10, 20⟩, ⟨30, 40⟩]
      ∧ ∃ rescans, rescansFor (knownSizes (E := Unit) (· + 1)) ⟨15, 35⟩
          (scannedStretches [⟨20, 30⟩] 10 40) = .ok (some rescans)
        ∧ rescans.Pairwise fun a b => a.stop ≤ b.start := by
  obtain ⟨-, -, -, rescans, hrescans, hascending, -⟩ := rescans_cover_run [⟨20, 30⟩] (by decide) 10 40
    (· + 1) (fun _ _ => Nat.succ_le_succ) (knownSizes (E := Unit) (· + 1)) (fun _ _ _ _ => rfl)
    ⟨15, 35⟩ (by decide)
  exact ⟨rfl, rescans, hrescans, hascending⟩

/-- A range whose end lies below its start covers no height, and yet the stretches overlap. -/
theorem inverted_range_overlaps
    : (∀ b, ¬(⟨10, 5⟩ : Span).Mem b)
      ∧ scannedStretches [⟨10, 5⟩] 0 20 = [⟨0, 10⟩, ⟨5, 20⟩]
      ∧ (⟨0, 10⟩ : Span).Mem 7 ∧ (⟨5, 20⟩ : Span).Mem 7 := by
  refine ⟨?_, rfl, ⟨by decide, by decide⟩, by decide, by decide⟩
  rintro b ⟨hlo, hhi⟩
  dsimp only at hlo hhi
  omega

end Slipstream
