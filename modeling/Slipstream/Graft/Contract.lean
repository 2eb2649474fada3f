import Slipstream.Graft.Lemmas.Accumulator
import Mathlib.Data.List.Induction

/-!
This module contains the contract of a whole life of the shard accumulator: seed, any feeds, finish.
-/

namespace Slipstream

variable {H : Type}

namespace AccSeed

def actions (seed : AccSeed H) (feeds : List (Feed H)) : List (FeedAction H) :=
  (seed.acc.feedAll feeds).2

def nextActions (seed : AccSeed H) (feeds : List (Feed H)) (f : Feed H) : List (FeedAction H) :=
  let acc := (seed.acc.feedAll feeds).1
  (acc.feed acc.nextPosition f.items f.notes).2

def openShard (seed : AccSeed H) (feeds : List (Feed H)) : Option (OpenShard H) :=
  (seed.acc.feedAll feeds).1.openShard

def finish (seed : AccSeed H) (feeds : List (Feed H)) : Option (FeedAction H) :=
  (seed.acc.feedAll feeds).1.finish

theorem actions_append_singleton (seed : AccSeed H) (feeds : List (Feed H)) (f : Feed H)
    : seed.actions (feeds ++ [f]) = seed.actions feeds ++ seed.nextActions feeds f := by
  simp [actions, nextActions, ShardAccumulator.feedAll_append, ShardAccumulator.feedAll]

end AccSeed

def noteOf (feeds : List (Feed H)) (n : Nat) : Prop := ∃ f ∈ feeds, n ∈ f.notes

structure AccReady (seed : AccSeed H) (feeds : List (Feed H)) (o : OpenShard H) : Prop where
  next : (seed.acc.feedAll feeds).1.nextPosition = seed.start + (feeds.flatMap Feed.items).length
  opened : seed.openShard feeds = some o
  inv : AccInv seed.start seed.opened (feeds.flatMap Feed.items) (noteOf feeds) (seed.actions feeds) o
  reached : AccInv.Reached seed.start seed.opened (feeds.flatMap Feed.items) o

theorem AccReady.feed {seed : AccSeed H} {f : Feed H} (h : AccReady seed feeds o)
    (hnotes : ∀ n ∈ f.notes, seed.start + (feeds.flatMap Feed.items).length ≤ n
      ∧ n < seed.start + (feeds.flatMap Feed.items).length + f.items.length)
    : ∃ o', AccReady seed (feeds ++ [f]) o' := by
  obtain ⟨o', ho', hinv, hreached⟩ := h.inv.go h.reached f.items (Nat.le_refl _)
    (Eq.refl (ShardAccumulator.feed.go f.notes _ _ _ _))
  have hopened := h.opened
  unfold AccSeed.openShard at hopened
  have hitems : (feeds ++ [f]).flatMap Feed.items = feeds.flatMap Feed.items ++ f.items := by simp
  refine ⟨o', ?_, ?_, ?_, ?_⟩
  . rw [hitems, List.length_append, ← Nat.add_assoc, ← h.next]
    simp [ShardAccumulator.feedAll_append, ShardAccumulator.feedAll, ShardAccumulator.feed]
  . simpa [AccSeed.openShard, ShardAccumulator.feedAll_append, ShardAccumulator.feedAll,
      ShardAccumulator.feed, h.next, hopened] using ho'
  . rw [hitems, AccSeed.actions_append_singleton]
    simp only [AccSeed.nextActions, ShardAccumulator.feed, h.next, hopened]
    refine hinv.congr_noted fun n => ?_
    simp only [noteOf, List.mem_append, List.mem_singleton, or_and_right, exists_or,
      exists_eq_left]
    refine or_congr Iff.rfl ⟨fun hn => ⟨hn, hnotes n hn⟩, fun hn => hn.1⟩
  . rwa [hitems]

theorem AccSeed.ready (seed : AccSeed H) (feeds : List (Feed H))
    (hnotes : NotesInSpan seed.start feeds) : ∃ o, AccReady seed feeds o := by
  induction feeds using List.reverseRecOn with
  | nil =>
    refine ⟨_, rfl, rfl, ?_, Or.inl rfl⟩
    exact (AccInv.refl seed.openAt).congr_noted fun n => by simp [noteOf]
  | append_singleton feeds f ih =>
    rw [notesInSpan_append] at hnotes
    obtain ⟨o, ho⟩ := ih hnotes.1
    exact ho.feed hnotes.2.1

def MovedPast (seed : AccSeed H) (feeds : List (Feed H)) (shard : Nat) : Prop :=
  shardOf seed.start ≤ shard ∧ ∃ r ∈ fedRows seed.start feeds, shard < shardOf r.position

def positions (rows : List (AccRow H)) : List Nat := rows.map AccRow.position

structure AccumulatorContract (seed : AccSeed H) (feeds : List (Feed H)) : Prop where
  conserved : (seed.actions feeds ++ (seed.finish feeds).toList).flatMap FeedAction.builtRows
    = seed.resume ++ fedRows seed.start feeds
  ordered : RunFrom (seed.start - seed.resume.length) (seed.resume ++ fedRows seed.start feeds)
  placed : ∀ a ∈ seed.actions feeds ++ (seed.finish feeds).toList, a.Placed
  verdict : ∀ shard, MovedPast seed feeds shard →
    ((∃ rows, .closeCleanShard shard rows ∈ seed.actions feeds)
      ↔ ¬(seed.passthrough = true ∧ shard = shardOf seed.start)
        ∧ ∀ f ∈ feeds, ∀ n ∈ f.notes, shardOf n ≠ shard)
  finish_builds : ∀ a, seed.finish feeds = some a → ∃ rows, a = .build rows
  buffered : ∀ done rest o, feeds = done ++ rest → seed.openShard done = some o →
    o.passthrough = false →
    ((seed.actions done).flatMap FeedAction.bufferRows).filter (inShard o.index)
      = (fedRows seed.start done).filter fun r => inShard o.index r
          && !(positions ((seed.actions done).flatMap FeedAction.buildRows)).contains r.position
  eager : ∀ done f rest, feeds = done ++ f :: rest → ∀ n ∈ f.notes,
    .build ((seed.resume ++ fedRows seed.start (done ++ [f])).filter fun r =>
        inShard (shardOf n) r
          && !(positions ((seed.actions done).flatMap FeedAction.builtRows)).contains r.position)
      ∈ seed.nextActions done f

namespace AccReady

variable {seed : AccSeed H} {feeds : List (Feed H)} {o : OpenShard H}

theorem finish_eq (h : AccReady seed feeds o)
    : seed.finish feeds = if o.rows.isEmpty then none else some (.build o.rows) := by
  have := h.opened
  unfold AccSeed.openShard at this
  simp [AccSeed.finish, ShardAccumulator.finish, this]

theorem finish_builtRows (h : AccReady seed feeds o)
    : (seed.finish feeds).toList.flatMap FeedAction.builtRows = o.rows := by
  rw [h.finish_eq]
  split
  . next hempty => simpa using hempty.symm
  . simp [FeedAction.builtRows]

theorem finish_placed (h : AccReady seed feeds o) (ha : a ∈ (seed.finish feeds).toList)
    : a.Placed := by
  rw [h.finish_eq] at ha
  split at ha
  . simp at ha
  . obtain rfl : a = .build o.rows := by simpa using ha
    obtain ⟨first, hrun, -⟩ := h.inv.opened.run
    exact ⟨first, o.index, hrun, h.inv.opened.shard, by simp⟩

theorem run (seed : AccSeed H) (feeds : List (Feed H))
    : RunFrom (seed.start - seed.resume.length) (seed.resume ++ fedRows seed.start feeds) := by
  apply seed.resume_run.append
  rw [Nat.sub_add_cancel seed.resume_le]
  exact RunFrom.rowsFrom _ _

theorem movedPast_iff (h : AccReady seed feeds o) (hk : shardOf seed.start ≤ k)
    : MovedPast seed feeds k ↔ k < o.index := by
  have hrun := RunFrom.rowsFrom seed.start (feeds.flatMap Feed.items)
  constructor
  . rintro ⟨-, r, hr, hlt⟩
    have hupper := h.inv.opened.upper
    have hlast := (hrun.position_mem hr).2
    have := (shardOf_eq_iff r.position _).mp rfl
    rw [rowsFrom_length] at hlast
    omega
  . intro hlt
    refine ⟨hk, ?_⟩
    -- The open shard is not the seed's, so its last fed row lies in it.
    have hreached := h.reached.resolve_left (Nat.ne_of_gt (Nat.lt_of_le_of_lt hk hlt))
    have hseed := (shardOf_eq_iff seed.start _).mp rfl
    have hmem := (hrun.mem_iff (seed.start + (feeds.flatMap Feed.items).length - 1)).mpr (by
      rw [rowsFrom_length]
      omega)
    obtain ⟨r, hr, hpos⟩ := List.mem_map.mp hmem
    refine ⟨r, hr, ?_⟩
    have := (shardOf_eq_iff r.position _).mp rfl
    omega

theorem open_not_built (h : AccReady seed feeds o) (hr : r ∈ o.rows)
    : r.position ∉ positions ((seed.actions feeds).flatMap FeedAction.builtRows) := by
  have hrun : RunFrom _ ((seed.actions feeds).flatMap FeedAction.builtRows ++ o.rows) :=
    h.inv.conserved ▸ run seed feeds
  have hnodup : ((seed.actions feeds).flatMap FeedAction.builtRows ++ o.rows).map
      AccRow.position |>.Nodup := by
    rw [hrun]
    exact List.nodup_range'
  rw [List.map_append, List.nodup_append] at hnodup
  intro hmem
  exact hnodup.2.2 _ hmem _ (List.mem_map_of_mem hr) rfl

theorem fed_not_built (h : AccReady seed feeds o)
    (hr : seed.start + (feeds.flatMap Feed.items).length ≤ p)
    : p ∉ positions ((seed.actions feeds).flatMap FeedAction.builtRows) := by
  intro hmem
  obtain ⟨b, hb, rfl⟩ := List.mem_map.mp hmem
  obtain ⟨a, ha, hba⟩ := List.mem_flatMap.mp hb
  exact Nat.not_lt.mpr hr ((h.inv.acted a ha).below b (a.rows_sub_taken hba))

theorem unbuilt_eq (h : AccReady seed feeds o) (f : Feed H) (k : Nat)
    : ((seed.resume ++ fedRows seed.start (feeds ++ [f])).filter fun r => inShard k r
          && !(positions ((seed.actions feeds).flatMap FeedAction.builtRows)).contains r.position)
        =
      (if o.index = k then o.rows else [])
        ++ (rowsFrom (seed.start + (feeds.flatMap Feed.items).length) f.items).filter
            (inShard k) := by
  have hrows : seed.resume ++ fedRows seed.start (feeds ++ [f])
      = (seed.actions feeds).flatMap FeedAction.builtRows ++ o.rows
        ++ rowsFrom (seed.start + (feeds.flatMap Feed.items).length) f.items := by
    rw [h.inv.conserved]
    simp [fedRows, rowsFrom_append, AccSeed.opened]
  rw [hrows, List.filter_append, List.filter_append]
  have hbuilt : ((seed.actions feeds).flatMap FeedAction.builtRows).filter (fun r => inShard k r
      && !(positions ((seed.actions feeds).flatMap FeedAction.builtRows)).contains r.position)
      = [] := by
    rw [List.filter_eq_nil_iff]
    intro r hr
    have : r.position ∈ positions ((seed.actions feeds).flatMap FeedAction.builtRows) :=
      List.mem_map_of_mem hr
    simp [this]
  have hopen : o.rows.filter (fun r => inShard k r
      && !(positions ((seed.actions feeds).flatMap FeedAction.builtRows)).contains r.position)
      = if o.index = k then o.rows else [] := by
    split
    . next heq =>
      rw [List.filter_eq_self]
      intro r hr
      simp [inShard, h.inv.opened.shard r hr, heq, h.open_not_built hr]
    . next hne =>
      rw [List.filter_eq_nil_iff]
      intro r hr
      simp [inShard, h.inv.opened.shard r hr, hne]
  rw [hbuilt, hopen, List.nil_append]
  congr 1
  apply List.filter_congr
  intro r hr
  simp [h.fed_not_built ((RunFrom.rowsFrom _ f.items).position_mem hr).1]

theorem eager (h : AccReady seed feeds o) (f : Feed H)
    (hnotes : ∀ n ∈ f.notes, seed.start + (feeds.flatMap Feed.items).length ≤ n
      ∧ n < seed.start + (feeds.flatMap Feed.items).length + f.items.length) (hn : n ∈ f.notes)
    : .build ((seed.resume ++ fedRows seed.start (feeds ++ [f])).filter fun r =>
          inShard (shardOf n) r
            && !(positions ((seed.actions feeds).flatMap FeedAction.builtRows)).contains r.position)
        ∈ seed.nextActions feeds f := by
  rw [h.unbuilt_eq]
  have hopened := h.opened
  unfold AccSeed.openShard at hopened
  simp only [AccSeed.nextActions, ShardAccumulator.feed, h.next, hopened]
  apply ShardAccumulator.go_eager f.items hn (hnotes n hn).1 (hnotes n hn).2 ?_ (Nat.le_refl _)
  have := h.inv.opened.lower
  have := (shardOf_eq_iff (seed.start + (feeds.flatMap Feed.items).length) _).mp rfl
  omega

theorem buffered (h : AccReady seed feeds o) (hclean : o.passthrough = false)
    : ((seed.actions feeds).flatMap FeedAction.bufferRows).filter (inShard o.index)
        =
      (fedRows seed.start feeds).filter fun r => inShard o.index r
        && !(positions ((seed.actions feeds).flatMap FeedAction.buildRows)).contains r.position := by
  rw [h.inv.buffered hclean, fedRows]
  apply List.filter_congr
  intro r hr
  cases hin : inShard o.index r with
  | false => rfl
  | true =>
    have hnot : r.position ∉ positions ((seed.actions feeds).flatMap FeedAction.buildRows) := by
      intro hmem
      obtain ⟨b, hb, hbp⟩ := List.mem_map.mp hmem
      apply h.inv.unbuilt hclean b hb
      rw [hbp]
      simpa [inShard] using hin
    simp [hnot]

end AccReady

theorem accumulator_contract (seed : AccSeed H) (feeds : List (Feed H))
    (hnotes : NotesInSpan seed.start feeds) : AccumulatorContract seed feeds := by
  obtain ⟨o, h⟩ := seed.ready feeds hnotes
  constructor
  case conserved =>
    rw [List.flatMap_append, h.finish_builtRows]
    exact h.inv.conserved
  case ordered => exact AccReady.run seed feeds
  case placed =>
    intro a ha
    rw [List.mem_append] at ha
    exact ha.elim (fun ha => (h.inv.acted a ha).placed) h.finish_placed
  case verdict =>
    intro k hmoved
    rw [h.inv.closed k hmoved.1 ((h.movedPast_iff hmoved.1).mp hmoved)]
    simp only [Unclean, not_or]
    refine and_congr Iff.rfl ⟨?_, ?_⟩
    . intro hnone f hf n hn heq
      exact hnone ⟨n, ⟨f, hf, hn⟩, heq⟩
    . rintro hnone ⟨n, ⟨f, hf, hn⟩, heq⟩
      exact hnone f hf n hn heq
  case finish_builds =>
    intro a ha
    rw [h.finish_eq] at ha
    split at ha
    . cases ha
    . exact ⟨o.rows, (Option.some.inj ha).symm⟩
  case buffered =>
    rintro done rest open' rfl hopen hclean
    rw [notesInSpan_append] at hnotes
    obtain ⟨od, hd⟩ := seed.ready done hnotes.1
    obtain rfl : od = open' := Option.some.inj (hd.opened.symm.trans hopen)
    exact hd.buffered hclean
  case eager =>
    rintro done f rest rfl n hn
    rw [notesInSpan_append] at hnotes
    obtain ⟨od, hd⟩ := seed.ready done hnotes.1
    exact hd.eager f hnotes.2.1 hn

def crossingSeed : AccSeed Nat where
  start := 65535
  resume := [⟨65534, 7, .ephemeral⟩]
  passthrough := false
  resume_le := by decide
  resume_run := rfl
  resume_shard := by decide

theorem accumulator_contract_crossing
    : NotesInSpan crossingSeed.start
        [⟨[(1, .ephemeral), (2, .marked), (3, .ephemeral)], [65536]⟩, ⟨[(4, .ephemeral)], []⟩]
      ∧ AccumulatorContract crossingSeed
        [⟨[(1, .ephemeral), (2, .marked), (3, .ephemeral)], [65536]⟩, ⟨[(4, .ephemeral)], []⟩] := by
  have h : NotesInSpan crossingSeed.start
      [⟨[(1, .ephemeral), (2, .marked), (3, .ephemeral)], [65536]⟩, ⟨[(4, .ephemeral)], []⟩] := by
    simp [NotesInSpan, crossingSeed]
  exact ⟨h, accumulator_contract _ _ h⟩

end Slipstream
