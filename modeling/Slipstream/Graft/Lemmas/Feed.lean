import Slipstream.Graft.Lemmas.Accumulator

/-!
This module contains the specification of one feed on its own, from whatever shard the calls before
it left open.
-/

namespace Slipstream

variable {H : Type} {notes : List Nat} {o o' : OpenShard H} {items : List (H × Retention)}
  {acts : List (FeedAction H)}

abbrev Fed (pos : Nat) (items : List (H × Retention)) (notes : List Nat) (o : OpenShard H)
    (acts : List (FeedAction H)) (o' : OpenShard H) : Prop :=
  AccInv pos o items (fun n => n ∈ notes ∧ pos ≤ n ∧ n < pos + items.length) acts o'

theorem Fed.waiting (h : Fed pos items notes o acts o') (hr : r ∈ o'.rows) (hpos : pos ≤ r.position)
    : ∃ a ∈ acts, r ∈ a.bufferRows := by
  have hnew : r ∉ o.rows := fun hold => Nat.not_lt.mpr hpos (h.start_open.position_lt hold)
  cases hpass : o'.passthrough with
  | true => exact absurd (h.open_resumed hpass r hr) hnew
  | false =>
    have hfed : r ∈ o.rows ++ rowsFrom pos items := by
      rw [← h.conserved]
      exact List.mem_append_right _ hr
    have hmem : r ∈ (rowsFrom pos items).filter (inShard o'.index) := by
      rw [List.mem_filter]
      refine ⟨(List.mem_append.mp hfed).resolve_left hnew, ?_⟩
      simp [inShard, h.opened.shard r hr]
    rw [← h.buffered hpass, List.mem_filter, List.mem_flatMap] at hmem
    exact hmem.1

theorem ShardAccumulator.feed_fed {acc : ShardAccumulator H} (hopen : acc.openShard = some o)
    (h : OpenAt pos o) (items : List (H × Retention)) (notes : List Nat)
    : ∃ o', (acc.feed pos items notes).1 = { nextPosition := pos + items.length, openShard := some o' }
      ∧ Fed pos items notes o (acc.feed pos items notes).2 o' := by
  unfold feed
  dsimp only
  rw [hopen]
  obtain ⟨o', ho', hinv, -⟩ := (AccInv.refl h).go (Or.inl rfl) items (Nat.le_refl _)
    (Eq.refl (feed.go notes _ _ _ _))
  dsimp only [List.length_nil, Nat.add_zero] at ho' hinv
  rw [ho']
  exact ⟨o', rfl, hinv.congr_noted fun n => (false_or _).symm.to_iff⟩

def OpenShard.Reaches (o : OpenShard H) (pos : Nat) : Prop :=
  o.index = shardOf pos ∨ pos = shardOf pos * 65536

structure Buffers (pos : Nat) (items : List (H × Retention)) (o : OpenShard H)
    (acts : List (FeedAction H)) (o' : OpenShard H) : Prop where
  spans : ∀ rows, .buffer rows ∈ acts → ∃ first, RunFrom first rows
    ∧ (∀ r ∈ rows, shardOf r.position = shardOf first)
    ∧ (first = shardOf first * 65536
      ∨ first = pos ∧ o.index = shardOf pos ∧ o.passthrough = false)
  reaches : o'.Reaches (pos + items.length)
  idle : items = [] → o' = o ∧ acts = []
  last : items ≠ [] → o'.passthrough = false →
    ∃ rows, .buffer rows ∈ acts ∧ ∃ r ∈ rows, r.position + 1 = pos + items.length

namespace ShardAccumulator

theorem transition_buffers (o : OpenShard H) (shard : Nat) (rows : List (AccRow H))
    : .buffer rows ∉ (transition (some o) shard).2 := by
  by_cases hindex : o.index = shard
  . simp [transition_self hindex]
  . rcases (transition_ne hindex).2 with ⟨hclosing, -⟩ | ⟨-, hclosing | ⟨hclosing, -⟩⟩
    all_goals simp [hclosing]

theorem Turn.reaches {piece rest : List (H × Retention)} (h : Turn notes pos piece rest hasNote)
    (hindex : o.index = shardOf pos) : o.Reaches (pos + piece.length) := by
  have hstart := (shardOf_eq_iff pos _).mp rfl
  have hfits := h.fits
  unfold OpenShard.Reaches
  rw [hindex]
  by_cases heq : pos + piece.length = (shardOf pos + 1) * 65536
  . have hshard : shardOf (pos + piece.length) = shardOf pos + 1 :=
      (shardOf_eq_iff _ _).mpr ⟨by omega, by omega⟩
    rw [hshard, heq]
    exact Or.inr rfl
  . exact Or.inl ((shardOf_eq_iff _ _).mpr ⟨by omega, by omega⟩).symm

theorem absorb_buffer {span : List (AccRow H)}
    (h : (absorb (transition (some o) shard).1 span hasNote).2 = .buffer rows)
    : rows = span ∧ (o.index = shard → o.passthrough = false) := by
  rw [absorb_eq] at h
  split at h
  . cases h
  . next hclean =>
    cases h
    refine ⟨rfl, fun heq => ?_⟩
    rw [transition_self heq, Bool.or_eq_true, not_or, Bool.not_eq_true] at hclean
    exact hclean.1

theorem absorb_waits {span : List (AccRow H)} (h : (absorb o span hasNote).1.passthrough = false)
    : (absorb o span hasNote).2 = .buffer span := by
  rw [absorb_eq] at h ⊢
  split
  . next hbuilds =>
    rw [if_pos hbuilds] at h
    cases h
  . rfl

theorem go_buffers (notes : List Nat) (o : OpenShard H) (items : List (H × Retention))
    (hfuel : items.length ≤ fuel) (hreaches : o.Reaches pos)
    : ∃ o', (feed.go notes fuel (some o) pos items).1 = some o'
      ∧ Buffers pos items o (feed.go notes fuel (some o) pos items).2 o' := by
  refine go_induction notes (motive := fun pos items openShard res => ∀ o, o.Reaches pos →
    some o = openShard → ∃ o', res.1 = some o' ∧ Buffers pos items o res.2 o') ?nil ?turn (some o) pos
    items hfuel o hreaches rfl
  case nil =>
    rintro pos - o hreaches rfl
    exact ⟨o, rfl, by simp, hreaches, fun _ => ⟨rfl, rfl⟩, by simp⟩
  case turn =>
    rintro pos piece rest - hasNote res hturn ih o hreaches rfl
    have htaken : (absorb (transition (some o) (shardOf pos)).1 (rowsFrom pos piece) hasNote).1.index
        = shardOf pos := by
      rw [absorb_index, transition_index]
    obtain ⟨o', ho', hrest⟩ := ih _ (hturn.reaches htaken) rfl
    have hpos := hturn.nonempty
    refine ⟨o', ho', ?_, ?_, ?_, ?_⟩
    . intro rows hrows
      rcases List.mem_append.mp hrows with hrows | hrows
      . exact absurd hrows (transition_buffers _ _ _)
      rcases List.mem_cons.mp hrows with hrows | hrows
      . obtain ⟨rfl, hclean⟩ := absorb_buffer hrows.symm
        refine ⟨pos, RunFrom.rowsFrom _ _, hturn.rows_shard, ?_⟩
        cases hreaches with
        | inl heq => exact Or.inr ⟨rfl, heq, hclean heq⟩
        | inr heq => exact Or.inl heq
      . obtain ⟨first, hrun, hshard, hfirst⟩ := hrest.spans rows hrows
        refine ⟨first, hrun, hshard, Or.inl ?_⟩
        rcases hfirst with hfirst | ⟨rfl, hsame, -⟩
        . exact hfirst
        . -- Only a span that ends its shard is followed by another.
          rcases hturn.ends with hnil | hends
          . rw [(hrest.idle hnil).2] at hrows
            cases hrows
          . rw [htaken] at hsame
            have hin := (shardOf_eq_iff (pos + piece.length) _).mp hsame.symm
            exact absurd hends (Nat.ne_of_lt hin.2)
    . have := hrest.reaches
      rwa [Nat.add_assoc, ← List.length_append] at this
    . intro hnil
      simp [(List.append_eq_nil_iff.mp hnil).1] at hpos
    . intro _ hclean
      rw [List.length_append]
      by_cases hmore : rest = []
      . rw [(hrest.idle hmore).1] at hclean
        have hlast : pos + piece.length - 1 ∈ (rowsFrom pos piece).map AccRow.position := by
          rw [(RunFrom.rowsFrom _ _).mem_iff, rowsFrom_length]
          omega
        obtain ⟨r, hr, hp⟩ := List.mem_map.mp hlast
        refine ⟨_, ?_, r, hr, ?_⟩
        . simp [absorb_waits hclean]
        . simp [hmore]
          omega
      . obtain ⟨rows, hrows, r, hr, hp⟩ := hrest.last hmore hclean
        exact ⟨rows, by simp [hrows], r, hr, by omega⟩

theorem feed_buffers {acc : ShardAccumulator H} (hopen : acc.openShard = some o)
    (hreaches : o.Reaches pos) (items : List (H × Retention)) (notes : List Nat)
    : ∃ o', (acc.feed pos items notes).1 = { nextPosition := pos + items.length, openShard := some o' }
      ∧ Buffers pos items o (acc.feed pos items notes).2 o' := by
  unfold feed
  rw [hopen]
  obtain ⟨o', ho', hbuffers⟩ := go_buffers notes o items (Nat.le_refl _) hreaches
  refine ⟨o', ?_, hbuffers⟩
  dsimp only
  rw [ho']

end ShardAccumulator

def EndsRun (pos : Nat) (openShard : Option (OpenShard H)) : Prop :=
  ∀ o, openShard = some o → ∃ first, RunFrom first o.rows ∧ first + o.rows.length = pos

structure FeedsRuns (pos : Nat) (items : List (H × Retention)) (acts : List (FeedAction H)) : Prop where
  built : ∀ a ∈ acts, ∃ first, RunFrom first a.builtRows
  buffered : ∀ a ∈ acts, ∀ r ∈ a.bufferRows, r ∈ rowsFrom pos items
  shard : ∀ a ∈ acts, ∃ shard, ∀ r ∈ a.bufferRows, shardOf r.position = shard

theorem FeedsRuns.nil : FeedsRuns pos items ([] : List (FeedAction H)) := by
  constructor <;> simp

namespace ShardAccumulator

theorem transition_runs {openShard : Option (OpenShard H)} (h : EndsRun pos openShard) (shard : Nat)
    : EndsRun pos (some (transition openShard shard).1)
      ∧ ∀ a ∈ (transition openShard shard).2,
        (∃ first, RunFrom first a.builtRows) ∧ a.bufferRows = [] := by
  have hfresh : EndsRun pos
      (some ({ index := shard, rows := [], passthrough := false } : OpenShard H)) := by
    intro o ho
    cases ho
    exact ⟨pos, RunFrom.nil _, rfl⟩
  unfold transition
  cases openShard with
  | none => exact ⟨hfresh, by simp⟩
  | some o =>
    obtain ⟨first, hrun, -⟩ := h o rfl
    dsimp only
    split
    . split
      . refine ⟨hfresh, fun a ha => ?_⟩
        cases List.mem_singleton.mp ha
        exact ⟨⟨first, hrun⟩, rfl⟩
      . split
        . refine ⟨hfresh, fun a ha => ?_⟩
          cases List.mem_singleton.mp ha
          exact ⟨⟨first, hrun⟩, rfl⟩
        . exact ⟨hfresh, by simp⟩
    . exact ⟨h, by simp⟩

theorem absorb_runs {o : OpenShard H} {span : List (AccRow H)} (h : EndsRun pos (some o))
    (hspan : RunFrom pos span) (hasNote : Bool)
    : EndsRun (pos + span.length) (some (absorb o span hasNote).1)
      ∧ (∃ first, RunFrom first (absorb o span hasNote).2.builtRows)
      ∧ (absorb o span hasNote).2.bufferRows ⊆ span := by
  obtain ⟨first, hrun, rfl⟩ := h o rfl
  have hall := hrun.append hspan
  rw [absorb_eq]
  split
  . refine ⟨?_, ⟨first, hall⟩, by simp [FeedAction.bufferRows]⟩
    intro o ho
    cases ho
    exact ⟨_, RunFrom.nil _, rfl⟩
  . refine ⟨?_, ⟨first, RunFrom.nil _⟩, List.Subset.refl _⟩
    intro o ho
    cases ho
    exact ⟨first, hall, by rw [List.length_append, Nat.add_assoc]⟩

theorem go_runs (notes : List Nat) {openShard : Option (OpenShard H)} (items : List (H × Retention))
    (hfuel : items.length ≤ fuel) (h : EndsRun pos openShard)
    : EndsRun (pos + items.length) (feed.go notes fuel openShard pos items).1
      ∧ FeedsRuns pos items (feed.go notes fuel openShard pos items).2 := by
  refine go_induction notes (motive := fun pos items openShard res => EndsRun pos openShard →
    EndsRun (pos + items.length) res.1 ∧ FeedsRuns pos items res.2) ?nil ?turn openShard pos items
    hfuel h
  case nil =>
    intro pos o h
    exact ⟨h, .nil⟩
  case turn =>
    intro pos piece rest o hasNote res hturn ih h
    obtain ⟨hopened, hclosing⟩ := transition_runs h (shardOf pos)
    obtain ⟨htaken, hbuilt, hbuffered⟩ := absorb_runs hopened (RunFrom.rowsFrom pos piece) hasNote
    rw [rowsFrom_length] at htaken
    obtain ⟨hrest, hruns⟩ := ih htaken
    rw [Nat.add_assoc, ← List.length_append] at hrest
    refine ⟨hrest, ?_, ?_, ?_⟩
    . intro a ha
      rcases List.mem_append.mp ha with ha | ha
      . exact (hclosing a ha).1
      . rcases List.mem_cons.mp ha with rfl | ha
        . exact hbuilt
        . exact hruns.built a ha
    . intro a ha r hr
      rw [rowsFrom_append]
      rcases List.mem_append.mp ha with ha | ha
      . rw [(hclosing a ha).2] at hr
        cases hr
      . rcases List.mem_cons.mp ha with rfl | ha
        . exact List.mem_append_left _ (hbuffered hr)
        . exact List.mem_append_right _ (hruns.buffered a ha r hr)
    . intro a ha
      rcases List.mem_append.mp ha with ha | ha
      . exact ⟨0, by simp [(hclosing a ha).2]⟩
      . rcases List.mem_cons.mp ha with rfl | ha
        . exact ⟨shardOf pos, fun r hr => hturn.rows_shard r (hbuffered hr)⟩
        . exact hruns.shard a ha

theorem feed_runs {acc : ShardAccumulator H} (h : EndsRun pos acc.openShard)
    (items : List (H × Retention)) (notes : List Nat)
    : EndsRun (pos + items.length) (acc.feed pos items notes).1.openShard
      ∧ FeedsRuns pos items (acc.feed pos items notes).2 :=
  go_runs notes items (Nat.le_refl _) h

end ShardAccumulator

end Slipstream
