import Slipstream.Graft.Impl.Accumulator

/-!
This module contains the contract of the shard accumulator: what a seed followed by any sequence of
feeds and a finish emits, in total and feed by feed.
-/

namespace Slipstream

theorem shardOf_eq_iff (p k : Nat) : shardOf p = k ↔ k * 65536 ≤ p ∧ p < (k + 1) * 65536 := by
  simp only [shardOf, SHARD_BITS, Nat.shiftRight_eq_div_pow]
  omega

theorem shardEnd_eq (k : Nat) : (k + 1) <<< SHARD_BITS = (k + 1) * 65536 := by
  simp [SHARD_BITS, Nat.shiftLeft_eq]

theorem rowsFrom_append (pos : Nat) (xs ys : List (H × Retention))
    : rowsFrom pos (xs ++ ys) = rowsFrom pos xs ++ rowsFrom (pos + xs.length) ys := by
  induction xs generalizing pos with
  | nil => simp [rowsFrom]
  | cons x xs ih =>
    simp only [List.cons_append, rowsFrom, ih, List.length_cons]
    congr 3
    omega

@[simp]
theorem rowsFrom_length (pos : Nat) (items : List (H × Retention))
    : (rowsFrom pos items).length = items.length := by
  induction items generalizing pos with
  | nil => rfl
  | cons x xs ih => simp [rowsFrom, ih]

def RunFrom (first : Nat) (rows : List (AccRow H)) : Prop :=
  rows.map AccRow.position = List.range' first rows.length

namespace RunFrom

theorem nil (first : Nat) : RunFrom first ([] : List (AccRow H)) := rfl

theorem rowsFrom (pos : Nat) (items : List (H × Retention))
    : RunFrom pos (Slipstream.rowsFrom pos items) := by
  unfold RunFrom
  induction items generalizing pos with
  | nil => rfl
  | cons x xs ih => simpa [Slipstream.rowsFrom, List.range'_succ] using ih (pos + 1)

theorem append {xs ys : List (AccRow H)} (hxs : RunFrom first xs)
    (hys : RunFrom (first + xs.length) ys) : RunFrom first (xs ++ ys) := by
  unfold RunFrom at *
  rw [List.map_append, hxs, hys, List.length_append, List.range'_append_1]

theorem of_append_right {xs ys : List (AccRow H)} (h : RunFrom first (xs ++ ys))
    : RunFrom (first + xs.length) ys := by
  unfold RunFrom at *
  rw [List.map_append, List.length_append, ← List.range'_append_1] at h
  exact (List.append_inj h (by simp)).2

theorem mem_iff {rows : List (AccRow H)} (h : RunFrom first rows) (p : Nat)
    : p ∈ rows.map AccRow.position ↔ first ≤ p ∧ p < first + rows.length := by
  rw [h, List.mem_range'_1]

theorem position_mem {rows : List (AccRow H)} (h : RunFrom first rows) (hr : r ∈ rows)
    : first ≤ r.position ∧ r.position < first + rows.length := by
  rw [← h.mem_iff]
  exact List.mem_map_of_mem hr

end RunFrom

namespace FeedAction

def builtRows : FeedAction H → List (AccRow H)
  | .build rows => rows
  | .closeCleanShard _ rows => rows
  | .buffer _ => []

def bufferRows : FeedAction H → List (AccRow H)
  | .buffer rows => rows
  | _ => []

def buildRows : FeedAction H → List (AccRow H)
  | .build rows => rows
  | _ => []

def rows : FeedAction H → List (AccRow H)
  | .build rows => rows
  | .closeCleanShard _ rows => rows
  | .buffer rows => rows

def Placed (a : FeedAction H) : Prop :=
  ∃ first shard, RunFrom first a.rows
    ∧ (∀ r ∈ a.rows, shardOf r.position = shard)
    ∧ ∀ index rows, a = .closeCleanShard index rows → index = shard

end FeedAction

structure AccSeed (H : Type) where
  start : Nat
  resume : List (AccRow H)
  passthrough : Bool
  resume_le : resume.length ≤ start
  resume_run : RunFrom (start - resume.length) resume
  resume_shard : ∀ r ∈ resume, shardOf r.position = shardOf start

def AccSeed.acc (seed : AccSeed H) : ShardAccumulator H :=
  ShardAccumulator.seed seed.start seed.resume seed.passthrough

structure Feed (H : Type) where
  items : List (H × Retention)
  notes : List Nat

namespace ShardAccumulator

def feedAll (acc : ShardAccumulator H)
    : List (Feed H) → ShardAccumulator H × List (FeedAction H)
  | [] => (acc, [])
  | f :: fs =>
    let fed := acc.feed acc.nextPosition f.items f.notes
    let rest := fed.1.feedAll fs
    (rest.1, fed.2 ++ rest.2)

theorem feedAll_append (acc : ShardAccumulator H) (xs ys : List (Feed H))
    : acc.feedAll (xs ++ ys)
        =
      (((acc.feedAll xs).1.feedAll ys).1,
        (acc.feedAll xs).2 ++ ((acc.feedAll xs).1.feedAll ys).2) := by
  induction xs generalizing acc with
  | nil => simp [feedAll]
  | cons x xs ih => simp [feedAll, ih]

end ShardAccumulator

def NotesInSpan : Nat → List (Feed H) → Prop
  | _, [] => True
  | pos, f :: fs =>
    (∀ n ∈ f.notes, pos ≤ n ∧ n < pos + f.items.length) ∧ NotesInSpan (pos + f.items.length) fs

theorem notesInSpan_append (pos : Nat) (xs ys : List (Feed H))
    : NotesInSpan pos (xs ++ ys)
        ↔
      NotesInSpan pos xs ∧ NotesInSpan (pos + (xs.flatMap Feed.items).length) ys := by
  induction xs generalizing pos with
  | nil => simp [NotesInSpan]
  | cons x xs ih =>
    simp only [List.cons_append, NotesInSpan, ih, List.flatMap_cons, List.length_append,
      Nat.add_assoc, and_assoc]

def fedRows (start : Nat) (feeds : List (Feed H)) : List (AccRow H) :=
  rowsFrom start (feeds.flatMap Feed.items)

structure OpenAt (pos : Nat) (o : OpenShard H) : Prop where
  run : ∃ first, RunFrom first o.rows ∧ first + o.rows.length = pos
  shard : ∀ r ∈ o.rows, shardOf r.position = o.index
  lower : o.index * 65536 ≤ pos
  upper : pos ≤ (o.index + 1) * 65536

theorem OpenAt.position_lt {o : OpenShard H} (h : OpenAt pos o) (hr : r ∈ o.rows)
    : r.position < pos := by
  obtain ⟨first, hrun, hlen⟩ := h.run
  have := (hrun.position_mem hr).2
  omega

namespace AccSeed

def opened (seed : AccSeed H) : OpenShard H where
  index := shardOf seed.start
  rows := seed.resume
  passthrough := seed.passthrough

theorem openAt (seed : AccSeed H) : OpenAt seed.start seed.opened where
  run := ⟨_, seed.resume_run, Nat.sub_add_cancel seed.resume_le⟩
  shard := seed.resume_shard
  lower := ((shardOf_eq_iff seed.start _).mp rfl).1
  upper := Nat.le_of_lt ((shardOf_eq_iff seed.start _).mp rfl).2

end AccSeed

def Unclean (o : OpenShard H) (noted : Nat → Prop) (shard : Nat) : Prop :=
  (o.passthrough = true ∧ shard = o.index) ∨ ∃ n, noted n ∧ shardOf n = shard

def inShard (shard : Nat) (r : AccRow H) : Bool := shardOf r.position == shard

theorem filter_inShard_eq_self {rows : List (AccRow H)} (h : ∀ r ∈ rows, shardOf r.position = k)
    : rows.filter (inShard k) = rows := by
  rw [List.filter_eq_self]
  intro r hr
  simp [inShard, h r hr]

theorem filter_inShard_eq_nil {rows : List (AccRow H)} (h : ∀ r ∈ rows, shardOf r.position ≠ k)
    : rows.filter (inShard k) = [] := by
  rw [List.filter_eq_nil_iff]
  intro r hr
  simp [inShard, h r hr]

namespace FeedAction

theorem rows_sub_built (a : FeedAction H) : r ∈ a.buildRows → r ∈ a.rows := by
  cases a <;> simp [buildRows, rows]

theorem rows_sub_taken (a : FeedAction H) : r ∈ a.builtRows → r ∈ a.rows := by
  cases a <;> simp [builtRows, rows]

theorem rows_sub_buffer (a : FeedAction H) : r ∈ a.bufferRows → r ∈ a.rows := by
  cases a <;> simp [bufferRows, rows]

structure Acted (o : OpenShard H) (fed : List (AccRow H)) (pos index : Nat) (a : FeedAction H)
    : Prop where
  placed : a.Placed
  below : ∀ r ∈ a.rows, r.position < pos
  buffered : ∀ r ∈ a.bufferRows, r ∈ fed
  closed : ∀ k rows, a = .closeCleanShard k rows → o.index ≤ k ∧ k < index
    ∧ rows = (o.rows ++ fed).filter (inShard k)

theorem Acted.extend {o : OpenShard H} {fed span : List (AccRow H)} {a : FeedAction H}
    (h : a.Acted o fed pos index) (hpos : pos ≤ pos') (hindex : index ≤ index')
    (hspan : ∀ r ∈ span, shardOf r.position = index) : a.Acted o (fed ++ span) pos' index' where
  placed := h.placed
  below r hr := Nat.lt_of_lt_of_le (h.below r hr) hpos
  buffered r hr := List.mem_append_left _ (h.buffered r hr)
  closed k rows heq := by
    obtain ⟨hge, hlt, hrows⟩ := h.closed k rows heq
    refine ⟨hge, Nat.lt_of_lt_of_le hlt hindex, ?_⟩
    rw [← List.append_assoc, List.filter_append, ← hrows, filter_inShard_eq_nil, List.append_nil]
    intro r hr
    rw [hspan r hr]
    exact Nat.ne_of_gt hlt

end FeedAction

structure AccInv (start : Nat) (o₀ : OpenShard H) (items : List (H × Retention)) (noted : Nat → Prop)
    (acts : List (FeedAction H)) (o : OpenShard H) : Prop where
  start_open : OpenAt start o₀
  opened : OpenAt (start + items.length) o
  index_le : o₀.index ≤ o.index
  noted_lt : ∀ n, noted n → n < start + items.length
  conserved : acts.flatMap FeedAction.builtRows ++ o.rows = o₀.rows ++ rowsFrom start items
  acted : ∀ a ∈ acts, a.Acted o₀ (rowsFrom start items) (start + items.length) o.index
  closed : ∀ k, o₀.index ≤ k → k < o.index →
    ((∃ rows, .closeCleanShard k rows ∈ acts) ↔ ¬Unclean o₀ noted k)
  passthrough_iff : o.passthrough = true ↔ Unclean o₀ noted o.index
  buffered : o.passthrough = false → (acts.flatMap FeedAction.bufferRows).filter (inShard o.index)
    = (rowsFrom start items).filter (inShard o.index)
  unbuilt : o.passthrough = false →
    ∀ r ∈ acts.flatMap FeedAction.buildRows, shardOf r.position ≠ o.index
  open_rows : o.passthrough = false → o.rows = (o₀.rows ++ rowsFrom start items).filter (inShard o.index)
  open_resumed : o.passthrough = true → ∀ r ∈ o.rows, r ∈ o₀.rows

namespace AccInv

variable {o₀ o o' : OpenShard H} {items piece : List (H × Retention)} {noted noted' : Nat → Prop}
  {acts closing : List (FeedAction H)} {notes : List Nat}

theorem refl (h : OpenAt start o) : AccInv start o [] (fun _ => False) [] o := by
  constructor
  case start_open => exact h
  case opened => exact h
  case open_rows => simp [rowsFrom, filter_inShard_eq_self h.shard]
  all_goals simp [rowsFrom, Unclean]
  all_goals omega

theorem congr_noted (h : AccInv start o₀ items noted acts o) (hiff : ∀ n, noted' n ↔ noted n)
    : AccInv start o₀ items noted' acts o := by
  have : noted' = noted := funext fun n => propext (hiff n)
  rwa [this]

theorem reopen (h : AccInv start o₀ items noted acts o)
    (hne : o.index ≠ shardOf (start + items.length))
    (hclosing : closing = [.closeCleanShard o.index o.rows] ∧ o.passthrough = false
      ∨ o.passthrough = true ∧ (closing = [.build o.rows] ∨ closing = [] ∧ o.rows = []))
    : AccInv start o₀ items noted (acts ++ closing)
        { index := shardOf (start + items.length), rows := [], passthrough := false } := by
  have hlower := h.opened.lower
  have hupper := h.opened.upper
  have hpos : start + items.length = (o.index + 1) * 65536 := by
    by_contra hcontra
    exact hne ((shardOf_eq_iff _ _).mpr ⟨hlower, by omega⟩).symm
  have hshard : shardOf (start + items.length) = o.index + 1 := (shardOf_eq_iff _ _).mpr (by omega)
  have hbuilt : closing.flatMap FeedAction.builtRows = o.rows := by
    rcases hclosing with ⟨rfl, -⟩ | ⟨-, rfl | ⟨rfl, hnil⟩⟩
    . simp [FeedAction.builtRows]
    . simp [FeedAction.builtRows]
    . simp [hnil]
  have hrows : ∀ a ∈ closing, a.rows = o.rows ∧ a.bufferRows = [] := by
    rcases hclosing with ⟨rfl, -⟩ | ⟨-, rfl | ⟨rfl, hnil⟩⟩
    all_goals simp [FeedAction.rows, FeedAction.bufferRows]
  have hclosed : ∀ k rows, .closeCleanShard k rows ∈ closing
      ↔ k = o.index ∧ rows = o.rows ∧ o.passthrough = false := by
    rcases hclosing with ⟨rfl, hpass⟩ | ⟨hpass, rfl | ⟨rfl, hnil⟩⟩
    all_goals simp [hpass]
  have hacted : ∀ a ∈ acts ++ closing,
      a.Acted o₀ (rowsFrom start items) (start + items.length) (o.index + 1) := by
    intro a ha
    rcases List.mem_append.mp ha with ha | ha
    . rw [← List.append_nil (rowsFrom start items)]
      exact (h.acted a ha).extend (Nat.le_refl _) (Nat.le_succ _) (by simp)
    . obtain ⟨first, hrun, -⟩ := h.opened.run
      obtain ⟨hsame, hnone⟩ := hrows a ha
      refine ⟨⟨first, o.index, hsame ▸ hrun, hsame ▸ h.opened.shard, ?_⟩, ?_, by simp [hnone], ?_⟩
      . rintro k rows rfl
        exact ((hclosed k rows).mp ha).1
      . intro r hr
        exact h.opened.position_lt (hsame ▸ hr)
      . rintro k rows rfl
        obtain ⟨rfl, rfl, hclean⟩ := (hclosed k rows).mp ha
        exact ⟨h.index_le, Nat.lt_succ_self _, h.open_rows hclean⟩
  -- Everything so far lies below the new shard.
  have hbelow : ∀ p, p < start + items.length → shardOf p ≠ o.index + 1 := by
    intro p hp heq
    have := (shardOf_eq_iff p _).mp heq
    omega
  have hfed : ∀ r ∈ rowsFrom start items, shardOf r.position ≠ o.index + 1 := by
    intro r hr
    have := ((RunFrom.rowsFrom start items).position_mem hr).2
    rw [rowsFrom_length] at this
    exact hbelow _ this
  rw [hshard]
  constructor
  case start_open => exact h.start_open
  case opened =>
    exact ⟨⟨_, RunFrom.nil _, rfl⟩, by simp, Nat.le_of_eq hpos.symm,
      Nat.le_trans hupper (Nat.mul_le_mul_right _ (Nat.le_succ _))⟩
  case index_le => exact Nat.le_succ_of_le h.index_le
  case noted_lt => exact h.noted_lt
  case conserved => simpa [hbuilt] using h.conserved
  case acted => exact hacted
  case closed =>
    intro k hk hlt
    simp only [List.mem_append, exists_or, hclosed]
    by_cases heq : k = o.index
    . subst heq
      have hnone : ¬∃ rows, .closeCleanShard o.index rows ∈ acts := by
        rintro ⟨rows, hmem⟩
        exact Nat.lt_irrefl _ ((h.acted _ hmem).closed _ _ rfl).2.1
      rw [← h.passthrough_iff]
      simp [hnone]
    . simpa [heq] using h.closed k hk (Nat.lt_of_le_of_ne (Nat.le_of_lt_succ hlt) heq)
  case passthrough_iff =>
    constructor
    . simp
    . rintro (⟨-, heq⟩ | ⟨n, hn, heq⟩)
      . have := h.index_le
        dsimp only at heq
        omega
      . exact absurd heq (hbelow n (h.noted_lt n hn))
  case buffered =>
    intro _
    rw [filter_inShard_eq_nil hfed, filter_inShard_eq_nil]
    intro r hr
    obtain ⟨a, ha, hr⟩ := List.mem_flatMap.mp hr
    exact hbelow _ ((hacted a ha).below r (a.rows_sub_buffer hr))
  case unbuilt =>
    intro _ r hr
    obtain ⟨a, ha, hr⟩ := List.mem_flatMap.mp hr
    exact hbelow _ ((hacted a ha).below r (a.rows_sub_built hr))
  case open_rows =>
    intro _
    rw [eq_comm, filter_inShard_eq_nil]
    intro r hr
    rw [← h.conserved, List.mem_append, List.mem_flatMap] at hr
    rcases hr with ⟨a, ha, hr⟩ | hr
    . exact hbelow _ ((h.acted a ha).below r (a.rows_sub_taken hr))
    . exact hbelow _ (h.opened.position_lt hr)
  case open_resumed => simp

end AccInv

namespace ShardAccumulator

variable {o : OpenShard H}

theorem transition_self (hindex : o.index = shard) : transition (some o) shard = (o, []) := by
  simp [transition, hindex]

theorem transition_ne (hne : o.index ≠ shard)
    : (transition (some o) shard).1 = { index := shard, rows := [], passthrough := false }
      ∧ ((transition (some o) shard).2 = [.closeCleanShard o.index o.rows] ∧ o.passthrough = false
        ∨ o.passthrough = true ∧ ((transition (some o) shard).2 = [.build o.rows]
          ∨ (transition (some o) shard).2 = [] ∧ o.rows = [])) := by
  unfold transition
  dsimp only
  rw [if_pos hne]
  cases hpass : o.passthrough with
  | false => simp
  | true =>
    cases hrows : o.rows with
    | nil => simp
    | cons r rest => simp

theorem transition_index (o : OpenShard H) (shard : Nat)
    : (transition (some o) shard).1.index = shard := by
  by_cases hindex : o.index = shard
  . rw [transition_self hindex]
    exact hindex
  . rw [(transition_ne hindex).1]

theorem absorb_eq (o : OpenShard H) (span : List (AccRow H)) (hasNote : Bool)
    : absorb o span hasNote
        =
      if o.passthrough || hasNote then
        ({ index := o.index, rows := [], passthrough := true }, .build (o.rows ++ span))
      else
        ({ o with rows := o.rows ++ span }, .buffer span) := by
  obtain ⟨index, rows, passthrough⟩ := o
  cases passthrough with
  | true =>
    cases rows with
    | nil => simp [absorb]
    | cons r rs => simp [absorb]
  | false => cases hasNote <;> simp [absorb]

theorem absorb_index (o : OpenShard H) (span : List (AccRow H)) (hasNote : Bool)
    : (absorb o span hasNote).1.index = o.index := by
  rw [absorb_eq]
  split <;> rfl

theorem go_nil (notes : List Nat) (fuel : Nat) (o : Option (OpenShard H)) (pos : Nat)
    : feed.go notes fuel o pos [] = (o, []) := by
  cases fuel <;> rfl

/-- A turn of the loop takes a piece of the items that goes to their end or to the end of the shard. -/
structure Turn (notes : List Nat) (pos : Nat) (piece rest : List (H × Retention)) (hasNote : Bool)
    : Prop where
  nonempty : 0 < piece.length
  fits : pos + piece.length ≤ (shardOf pos + 1) * 65536
  ends : rest = [] ∨ pos + piece.length = (shardOf pos + 1) * 65536
  noted : hasNote = true ↔ ∃ n ∈ notes, pos ≤ n ∧ n < pos + piece.length

theorem Turn.shard {notes : List Nat} {piece rest : List (H × Retention)}
    (h : Turn notes pos piece rest hasNote) (hlo : pos ≤ p) (hhi : p < pos + piece.length)
    : shardOf p = shardOf pos := by
  have := (shardOf_eq_iff pos _).mp rfl
  have := h.fits
  exact (shardOf_eq_iff _ _).mpr (by omega)

theorem Turn.rows_shard {notes : List Nat} {piece rest : List (H × Retention)}
    (h : Turn notes pos piece rest hasNote)
    : ∀ r ∈ rowsFrom pos piece, shardOf r.position = shardOf pos := by
  intro r hr
  have := (RunFrom.rowsFrom pos piece).position_mem hr
  rw [rowsFrom_length] at this
  exact h.shard this.1 this.2

theorem go_induction (notes : List Nat) {motive : Nat → List (H × Retention) → Option (OpenShard H) →
      Option (OpenShard H) × List (FeedAction H) → Prop}
    (nil : ∀ pos o, motive pos [] o (o, []))
    (turn : ∀ pos piece rest o hasNote res, Turn notes pos piece rest hasNote →
      motive (pos + piece.length) rest
        (some (absorb (transition o (shardOf pos)).1 (rowsFrom pos piece) hasNote).1) res →
      motive pos (piece ++ rest) o (res.1, (transition o (shardOf pos)).2
        ++ (absorb (transition o (shardOf pos)).1 (rowsFrom pos piece) hasNote).2 :: res.2))
    (o : Option (OpenShard H)) (pos : Nat) (items : List (H × Retention)) (hfuel : items.length ≤ fuel)
    : motive pos items o (feed.go notes fuel o pos items) := by
  induction fuel generalizing pos items o with
  | zero =>
    cases List.length_eq_zero_iff.mp (Nat.le_zero.mp hfuel)
    exact nil pos o
  | succ fuel ih =>
    by_cases hne : items = []
    . subst hne
      rw [go_nil]
      exact nil pos o
    have hlen := List.length_pos_iff.mpr hne
    have hstart := (shardOf_eq_iff pos _).mp rfl
    rw [feed.go]
    simp only [List.isEmpty_iff, hne, if_false, shardEnd_eq]
    generalize hn : min (pos + items.length) ((shardOf pos + 1) * 65536) - pos = n
    have hstop : min (pos + items.length) ((shardOf pos + 1) * 65536) = pos + n := by omega
    have htake : (items.take n).length = n := List.length_take_of_le (by omega)
    have hrest := ih (some (absorb (transition o (shardOf pos)).1 (rowsFrom pos (items.take n))
      (notes.any fun p => pos ≤ p && p < pos + n)).1) (pos + n) (items.drop n) (by
        rw [List.length_drop]
        omega)
    rw [hstop]
    have hstep := turn pos (items.take n) (items.drop n) o
      (notes.any fun p => pos ≤ p && p < pos + n) _ (by
        refine ⟨by omega, by omega, ?_, by simp [htake]⟩
        rw [htake, List.drop_eq_nil_iff]
        omega) (by rwa [htake])
    rwa [List.take_append_drop] at hstep

end ShardAccumulator

namespace AccInv

open ShardAccumulator

variable {o₀ o o' : OpenShard H} {items piece rest : List (H × Retention)} {noted noted' : Nat → Prop}
  {acts : List (FeedAction H)} {notes : List Nat}

theorem transition (h : AccInv start o₀ items noted acts o)
    : AccInv start o₀ items noted
        (acts ++ (ShardAccumulator.transition (some o) (shardOf (start + items.length))).2)
        (ShardAccumulator.transition (some o) (shardOf (start + items.length))).1 := by
  by_cases hindex : o.index = shardOf (start + items.length)
  . rw [transition_self hindex, List.append_nil]
    exact h
  . obtain ⟨hfresh, hclosing⟩ := transition_ne hindex
    rw [hfresh]
    exact h.reopen hindex hclosing

theorem unclean_iff (hturn : Turn notes (start + items.length) piece rest hasNote)
    (hindex : o.index = shardOf (start + items.length))
    (hnoted : ∀ n, noted' n ↔ noted n
      ∨ n ∈ notes ∧ start + items.length ≤ n ∧ n < start + items.length + piece.length)
    : Unclean o₀ noted' k ↔ Unclean o₀ noted k ∨ k = o.index ∧ hasNote = true := by
  unfold Unclean
  rw [hturn.noted]
  constructor
  . rintro (hseed | ⟨n, hn, hk⟩)
    . exact Or.inl (Or.inl hseed)
    . rcases (hnoted n).mp hn with hn | ⟨hmem, hlo, hhi⟩
      . exact Or.inl (Or.inr ⟨n, hn, hk⟩)
      . exact Or.inr ⟨by rw [← hk, hindex, hturn.shard hlo hhi], n, hmem, hlo, hhi⟩
  . rintro ((hseed | ⟨n, hn, hk⟩) | ⟨hk, n, hmem, hlo, hhi⟩)
    . exact Or.inl hseed
    . exact Or.inr ⟨n, (hnoted n).mpr (Or.inl hn), hk⟩
    . refine Or.inr ⟨n, (hnoted n).mpr (Or.inr ⟨hmem, hlo, hhi⟩), ?_⟩
      rw [hk, hindex, hturn.shard hlo hhi]

theorem extend (h : AccInv start o₀ items noted acts o)
    (hturn : Turn notes (start + items.length) piece rest hasNote)
    (hindex : o.index = shardOf (start + items.length))
    (hnoted : ∀ n, noted' n ↔ noted n
      ∨ n ∈ notes ∧ start + items.length ≤ n ∧ n < start + items.length + piece.length)
    (hsame : o'.index = o.index)
    (hkept : a.builtRows ++ o'.rows = o.rows ++ rowsFrom (start + items.length) piece)
    (hrows : ∃ before, before ++ a.rows = o.rows ++ rowsFrom (start + items.length) piece)
    (hleft : ∃ before, before ++ o'.rows = o.rows ++ rowsFrom (start + items.length) piece)
    (hopen : ∀ k rows, a ≠ .closeCleanShard k rows)
    (hpass : o'.passthrough = (o.passthrough || hasNote))
    (hbuffer : o'.passthrough = false → a = .buffer (rowsFrom (start + items.length) piece))
    (hbuilt : o'.passthrough = true → o'.rows = [])
    (hfed : ∀ r ∈ a.bufferRows, r ∈ rowsFrom (start + items.length) piece)
    : AccInv start o₀ (items ++ piece) noted' (acts ++ [a]) o' := by
  have hlen : start + (items ++ piece).length = start + items.length + piece.length := by
    rw [List.length_append, Nat.add_assoc]
  have hfits := hturn.fits
  have hlower := h.opened.lower
  have hspan : ∀ r ∈ rowsFrom (start + items.length) piece, shardOf r.position = o.index := by
    rw [hindex]
    exact hturn.rows_shard
  -- Both what the action takes and what stays open is an end piece of this run.
  obtain ⟨first, hrun, hfirst⟩ := h.opened.run
  have hall : RunFrom first (o.rows ++ rowsFrom (start + items.length) piece) :=
    hrun.append (hfirst ▸ RunFrom.rowsFrom _ _)
  have hshard : ∀ r ∈ o.rows ++ rowsFrom (start + items.length) piece, shardOf r.position = o.index := by
    intro r hr
    exact (List.mem_append.mp hr).elim (h.opened.shard r) (hspan r)
  obtain ⟨before, hrows⟩ := hrows
  obtain ⟨gone, hleft⟩ := hleft
  have hclean : o'.passthrough = false → o.passthrough = false := by
    intro hp
    rw [hpass, Bool.or_eq_false_iff] at hp
    exact hp.1
  have hunclean : ∀ k, Unclean o₀ noted' k ↔ Unclean o₀ noted k ∨ k = o.index ∧ hasNote = true :=
    fun k => unclean_iff hturn hindex hnoted
  have hfrom : rowsFrom start (items ++ piece)
      = rowsFrom start items ++ rowsFrom (start + items.length) piece := rowsFrom_append _ _ _
  constructor
  case start_open => exact h.start_open
  case opened =>
    have hlengths : gone.length + o'.rows.length = o.rows.length + piece.length := by
      simpa using congrArg List.length hleft
    rw [← hindex, ← hsame] at hfits
    rw [← hsame] at hlower
    rw [hlen]
    refine ⟨?_, ?_, Nat.le_add_right_of_le hlower, hfits⟩
    . rw [← hleft] at hall
      exact ⟨_, hall.of_append_right, by omega⟩
    . intro r hr
      rw [hsame]
      exact hshard r (hleft ▸ List.mem_append_right _ hr)
  case index_le => exact hsame ▸ h.index_le
  case noted_lt =>
    intro n hn
    rcases (hnoted n).mp hn with hn | ⟨-, -, hn⟩
    . have := h.noted_lt n hn
      omega
    . omega
  case conserved =>
    simp only [List.flatMap_append, List.flatMap_cons, List.flatMap_nil, List.append_nil,
      List.append_assoc, hkept, hfrom]
    rw [← List.append_assoc, h.conserved, List.append_assoc]
  case acted =>
    intro b hb
    rw [hfrom, hsame]
    rcases List.mem_append.mp hb with hb | hb
    . exact (h.acted b hb).extend (by omega) (Nat.le_refl _) hspan
    . cases List.mem_singleton.mp hb
      have hmem : ∀ r ∈ a.rows, r ∈ o.rows ++ rowsFrom (start + items.length) piece := fun r hr =>
        hrows ▸ List.mem_append_right _ hr
      have htaken : RunFrom (first + before.length) a.rows := by
        rw [← hrows] at hall
        exact hall.of_append_right
      refine ⟨⟨_, o.index, htaken, fun r hr => hshard r (hmem r hr), ?_⟩, ?_, ?_, ?_⟩
      . exact fun k rows heq => absurd heq (hopen k rows)
      . intro r hr
        have := (hall.position_mem (hmem r hr)).2
        rw [List.length_append, rowsFrom_length] at this
        omega
      . exact fun r hr => List.mem_append_right _ (hfed r hr)
      . exact fun k rows heq => absurd heq (hopen k rows)
  case closed =>
    intro k hk hlt
    rw [hsame] at hlt
    rw [hunclean, ← not_congr (or_iff_left fun hnote => Nat.ne_of_lt hlt hnote.1).symm,
      ← h.closed k hk hlt]
    simp [(hopen k _).symm]
  case passthrough_iff =>
    rw [hsame, hunclean, hpass, Bool.or_eq_true, h.passthrough_iff]
    simp
  case buffered =>
    intro hp
    cases hbuffer hp
    simp [hsame, h.buffered (hclean hp), FeedAction.bufferRows, hfrom]
  case unbuilt =>
    intro hp
    cases hbuffer hp
    simpa [hsame, FeedAction.buildRows] using h.unbuilt (hclean hp)
  case open_rows =>
    intro hp
    cases hbuffer hp
    rw [hfrom, ← List.append_assoc, List.filter_append, hsame, ← h.open_rows (hclean hp),
      filter_inShard_eq_self hspan]
    exact hkept
  case open_resumed =>
    intro hp
    simp [hbuilt hp]

theorem absorb (h : AccInv start o₀ items noted acts o)
    (hturn : Turn notes (start + items.length) piece rest hasNote)
    (hindex : o.index = shardOf (start + items.length))
    (hnoted : ∀ n, noted' n ↔ noted n
      ∨ n ∈ notes ∧ start + items.length ≤ n ∧ n < start + items.length + piece.length)
    : AccInv start o₀ (items ++ piece) noted'
        (acts ++ [(ShardAccumulator.absorb o (rowsFrom (start + items.length) piece) hasNote).2])
        (ShardAccumulator.absorb o (rowsFrom (start + items.length) piece) hasNote).1 := by
  rw [absorb_eq]
  split
  . next hbuild =>
    apply h.extend hturn hindex hnoted
    case hrows => exact ⟨[], rfl⟩
    all_goals simp [FeedAction.builtRows, FeedAction.bufferRows, hbuild]
  . next hclean =>
    rw [Bool.not_eq_true, Bool.or_eq_false_iff] at hclean
    apply h.extend hturn hindex hnoted
    case hrows => exact ⟨o.rows, rfl⟩
    case hleft => exact ⟨[], rfl⟩
    all_goals simp [FeedAction.builtRows, FeedAction.bufferRows, hclean.1, hclean.2]

def Reached (start : Nat) (o₀ : OpenShard H) (items : List (H × Retention)) (o : OpenShard H) : Prop :=
  o.index = o₀.index ∨ o.index * 65536 < start + items.length

theorem go (h : AccInv start o₀ items noted acts o) (hreached : Reached start o₀ items o)
    (more : List (H × Retention)) (hfuel : more.length ≤ fuel)
    (hres : feed.go notes fuel (some o) (start + items.length) more = res)
    : ∃ o', res.1 = some o'
      ∧ AccInv start o₀ (items ++ more) (fun n => noted n ∨ n ∈ notes ∧ start + items.length ≤ n
          ∧ n < start + items.length + more.length) (acts ++ res.2) o'
      ∧ Reached start o₀ (items ++ more) o' := by
  subst hres
  refine go_induction notes (motive := fun pos more openShard res => ∀ items noted acts o,
    AccInv start o₀ items noted acts o → Reached start o₀ items o → start + items.length = pos →
    some o = openShard → ∃ o', res.1 = some o'
      ∧ AccInv start o₀ (items ++ more) (fun n => noted n ∨ n ∈ notes ∧ pos ≤ n
          ∧ n < pos + more.length) (acts ++ res.2) o'
      ∧ Reached start o₀ (items ++ more) o') ?nil ?turn (some o) _ more hfuel items noted acts o h
    hreached rfl rfl
  case nil =>
    rintro pos - items noted acts o h hreached rfl rfl
    rw [List.append_nil, List.append_nil]
    refine ⟨o, rfl, h.congr_noted fun n => or_iff_left ?_, hreached⟩
    rintro ⟨-, hlo, hhi⟩
    exact Nat.not_le.mpr hhi hlo
  case turn =>
    rintro pos piece rest - hasNote res hturn ih items noted acts o h hreached rfl rfl
    have hindex := transition_index o (shardOf (start + items.length))
    have htaken := h.transition.absorb hturn hindex fun _ => Iff.rfl
    have hlen : start + (items ++ piece).length = start + items.length + piece.length := by
      rw [List.length_append, Nat.add_assoc]
    obtain ⟨o', ho', hinv, hlast⟩ := ih _ _ _ _ htaken (by
      apply Or.inr
      have := (shardOf_eq_iff (start + items.length) _).mp rfl
      have := hturn.nonempty
      rw [hlen, absorb_index, hindex]
      omega) hlen rfl
    rw [List.append_assoc] at hinv hlast
    refine ⟨o', ho', ?_, hlast⟩
    simp only [List.append_assoc, List.singleton_append] at hinv ⊢
    refine hinv.congr_noted fun n => ?_
    rw [List.length_append]
    constructor
    . rintro (hn | ⟨hmem, hlo, hhi⟩)
      . exact Or.inl (Or.inl hn)
      . by_cases hmid : n < start + items.length + piece.length
        . exact Or.inl (Or.inr ⟨hmem, hlo, hmid⟩)
        . exact Or.inr ⟨hmem, by omega, by omega⟩
    . rintro ((hn | ⟨hmem, hlo, hhi⟩) | ⟨hmem, hlo, hhi⟩)
      . exact Or.inl hn
      . exact Or.inr ⟨hmem, hlo, by omega⟩
      . exact Or.inr ⟨hmem, by omega, by omega⟩

end AccInv

theorem ShardAccumulator.go_eager {notes : List Nat} {o : OpenShard H} (items : List (H × Retention))
    (hn : n ∈ notes) (hlo : pos ≤ n) (hhi : n < pos + items.length)
    (hindex : o.index ≤ shardOf pos) (hfuel : items.length ≤ fuel)
    : .build ((if o.index = shardOf n then o.rows else [])
        ++ (rowsFrom pos items).filter (inShard (shardOf n)))
      ∈ (feed.go notes fuel (some o) pos items).2 := by
  refine go_induction notes (motive := fun pos items openShard res => pos ≤ n →
    n < pos + items.length → ∀ o : OpenShard H, o.index ≤ shardOf pos → some o = openShard →
      .build ((if o.index = shardOf n then o.rows else [])
        ++ (rowsFrom pos items).filter (inShard (shardOf n))) ∈ res.2) ?nil ?turn (some o) pos items
    hfuel hlo hhi o hindex rfl
  case nil =>
    intro pos _ hlo hhi
    exact absurd hhi (Nat.not_lt.mpr hlo)
  case turn =>
    rintro pos piece rest - hasNote res hturn ih hlo hhi o hindex rfl
    have hshard := (shardOf_eq_iff pos _).mp rfl
    have hfits := hturn.fits
    rw [rowsFrom_append, List.filter_append]
    rw [List.length_append] at hhi
    by_cases hin : n < pos + piece.length
    . -- The note's own span: the rest of the feed lies past the shard.
      have hsame : shardOf n = shardOf pos := hturn.shard hlo hin
      have hlater : (rowsFrom (pos + piece.length) rest).filter (inShard (shardOf n)) = [] := by
        apply filter_inShard_eq_nil
        intro r hr heq
        have hr := ((RunFrom.rowsFrom _ _).position_mem hr).1
        have := (shardOf_eq_iff _ _).mp (heq.trans hsame)
        rcases hturn.ends with rfl | hends
        . simp [rowsFrom] at *
        . omega
      have hrows : (transition (some o) (shardOf pos)).1.rows
          = if o.index = shardOf n then o.rows else [] := by
        rw [hsame]
        split
        . next heq => rw [transition_self heq]
        . next hne => rw [(transition_ne hne).1]
      rw [hlater, List.append_nil, filter_inShard_eq_self (hsame ▸ hturn.rows_shard), absorb_eq,
        hturn.noted.mpr ⟨n, hn, hlo, hin⟩, Bool.or_true, if_pos rfl, hrows]
      simp
    . have hends : pos + piece.length = (shardOf pos + 1) * 65536 := by
        apply hturn.ends.resolve_left
        rintro rfl
        simp at hhi
        omega
      have hlater : shardOf pos < shardOf n := by
        have := (shardOf_eq_iff n _).mp rfl
        omega
      have hnext : shardOf pos ≤ shardOf (pos + piece.length) := by
        have := (shardOf_eq_iff (pos + piece.length) _).mp rfl
        omega
      have htaken : (absorb (transition (some o) (shardOf pos)).1 (rowsFrom pos piece) hasNote).1.index
          = shardOf pos := by
        rw [absorb_index, transition_index]
      have hbuild := ih (by omega) (by omega) _ (by omega) rfl
      rw [if_neg (by omega)] at hbuild
      rw [if_neg (by omega), filter_inShard_eq_nil fun r hr => by
        rw [hturn.rows_shard r hr]
        exact Nat.ne_of_lt hlater]
      exact List.mem_append_right _ (List.mem_cons_of_mem _ hbuild)

end Slipstream
