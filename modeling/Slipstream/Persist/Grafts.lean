import Slipstream.Persist.Lemmas.Accepts
import Slipstream.Persist.Lemmas.Range

/-!
This module contains which shards with a durable anchor a range may graft: the verdict sees the
anchors among the rows of a shard, and not those whose own block has no commitment.
-/

namespace Slipstream

variable {H : Type}

def HoldsAnchor (policy : Option AnchorRetention) (calls : List (PutBlocks H)) (pool : ShieldedPool)
    (shard : Nat) : Prop :=
  ∃ c ∈ calls, ∃ h p, c.fromState.blockHeight < h ∧ h ≤ c.lastHeight
    ∧ shouldRetainAnchor policy h = true ∧ c.sizeAt pool h = p + 1 ∧ shardOf p = shard

def AnchorsUngrafted [DecidableEq H] (policy : Option AnchorRetention) (calls : List (PutBlocks H))
    : Prop :=
  ∀ (B Shard : Type) (up : Upstream H B Shard) (db db' : WalletDb B Shard) (verifySample : Nat)
    (sparse' : SparseTreeState H Shard) (steps : List (CallReads H × PutBlocks H))
    (grafts : ShieldedPool → List (Nat × H)), (∀ pool, (db.buffer pool).Filed) →
    steps.map Prod.snd = calls →
    PutRange up db (.opened policy (some verifySample)) steps db' sparse' grafts →
    ∀ pool shard root, (shard, root) ∈ grafts pool → ¬HoldsAnchor policy calls pool shard

structure Exposed (policy : Option AnchorRetention) (calls : List (PutBlocks H))
    (pool : ShieldedPool) (shard : Nat) : Prop where
  grafted : pool ≠ .ironwood
  started : ∀ c, calls.head? = some c → shardOf (c.frontier pool).treeSize ≤ shard
  passed : ∃ c ∈ calls, ∃ p, (c.frontier pool).treeSize ≤ p
    ∧ p < (c.frontier pool).treeSize + (c.stream pool).length ∧ shard < shardOf p
  unnoted : ∀ c ∈ calls, ∀ n ∈ c.notePositions pool, shardOf n ≠ shard
  bare : ∀ c ∈ calls, ∀ b ∈ c.blocks, shouldRetainAnchor policy b.height = true →
    (b.pool pool).commitments ≠ [] → shardOf (c.sizeAt pool b.height - 1) ≠ shard

section Rows

variable {policy : Option AnchorRetention} {pool : ShieldedPool} {calls : List (PutBlocks H)}
  {shard : Nat}

theorem PutBlocks.Valid.anchor_rows {c : PutBlocks H} (hc : c.Valid)
    : (∃ r ∈ rowsFrom (c.frontier pool).treeSize (c.doomedStream policy pool),
          shardOf r.position = shard
          ∧ ∃ id, r.retention.checkpointId = some id ∧ shouldRetainAnchor policy id = true)
        ↔
      ∃ b ∈ c.blocks, shouldRetainAnchor policy b.height = true ∧ (b.pool pool).commitments ≠ []
        ∧ shardOf (c.sizeAt pool b.height - 1) = shard := by
  constructor
  . rintro ⟨r, hr, hshard, id, hid, hanchor⟩
    obtain ⟨⟨b, hb, hheight, hne⟩, hpos, -⟩ := (hc.mem_entries (e := (id, r.position))).mp
      (mem_checkpointEntries.mpr ⟨r, hr, hid, rfl⟩)
    dsimp only at hheight hpos
    refine ⟨b, hb, hheight ▸ hanchor, hne, ?_⟩
    rw [hheight, ← hpos]
    exact hshard
  . rintro ⟨b, hb, hanchor, hne, hshard⟩
    have hpos : 0 < c.sizeAt pool b.height := by
      have := commitmentsUpTo_lt pool hb (hc.mem_height hb).1 (Nat.le_refl _) hne
      unfold PutBlocks.sizeAt
      omega
    have hentry : (b.height, c.sizeAt pool b.height - 1) ∈ checkpointEntries
        (rowsFrom (c.frontier pool).treeSize (c.doomedStream policy pool)) :=
      hc.mem_entries.mpr ⟨⟨b, hb, rfl, hne⟩, Nat.sub_add_cancel hpos, fun _ => hanchor⟩
    obtain ⟨r, hr, hid, hposition⟩ := mem_checkpointEntries.mp hentry
    exact ⟨r, hr, by rw [hposition]; exact hshard, b.height, hid, hanchor⟩

theorem closed_of_range {seed : AccSeed H} (policy : Option AnchorRetention)
    (hcalls : RangeCalls calls) (hfirst : calls.head? = some first)
    (hstart : seed.start = (first.frontier pool).treeSize)
    : ∃ o, AccReady seed (calls.map (·.feed policy pool)) o
      ∧ ∀ r, r ∈ fedRows seed.start (calls.map (·.feed policy pool)) ↔ ∃ c ∈ calls,
          r ∈ rowsFrom (c.frontier pool).treeSize (c.doomedStream policy pool) := by
  have hhead : ∀ c, calls.head? = some c → (c.frontier pool).treeSize = seed.start := by
    intro c hc
    rw [hfirst] at hc
    cases hc
    exact hstart.symm
  obtain ⟨o, ho⟩ := seed.ready _ (hcalls.notesInSpan hhead)
  exact ⟨o, ho, fun r => hcalls.mem_fedRows hhead⟩

theorem exposed_of_closed {seed : AccSeed H} (hcalls : RangeCalls calls)
    (hpool : pool ≠ .ironwood) (hfirst : calls.head? = some first)
    (hstart : seed.start = (first.frontier pool).treeSize)
    (hclosed : .closeCleanShard shard rows ∈ seed.actions (calls.map (·.feed policy pool)))
    (hrows : ∀ r ∈ rows, ∀ id, r.retention.checkpointId = some id →
      shouldRetainAnchor policy id = false)
    : Exposed policy calls pool shard := by
  obtain ⟨o, ho, hmem⟩ := closed_of_range policy hcalls hfirst hstart
  obtain ⟨hge, hlt, hclosedRows⟩ := (ho.inv.acted _ hclosed).closed _ _ rfl
  have hclean := (ho.inv.closed shard hge hlt).mp ⟨rows, hclosed⟩
  constructor
  case grafted => exact hpool
  case started =>
    intro c hc
    rw [hfirst] at hc
    cases hc
    rwa [← hstart]
  case passed =>
    obtain ⟨-, r, hr, hbeyond⟩ := (ho.movedPast_iff hge).mpr hlt
    obtain ⟨c, hc, hr⟩ := (hmem r).mp hr
    have hpos := (RunFrom.rowsFrom _ _).position_mem hr
    rw [rowsFrom_length, PutBlocks.doomedStream_length] at hpos
    exact ⟨c, hc, r.position, hpos.1, hpos.2, hbeyond⟩
  case unnoted =>
    intro c hc n hn heq
    exact hclean (Or.inr ⟨n, ⟨_, List.mem_map_of_mem hc, hn⟩, heq⟩)
  case bare =>
    intro c hc b hb hanchor hne heq
    obtain ⟨r, hr, hshard, id, hid, hretained⟩ := ((hcalls.valid c hc).anchor_rows).mpr
      ⟨b, hb, hanchor, hne, heq⟩
    have hin : r ∈ rows := by
      rw [hclosedRows, List.mem_filter]
      refine ⟨List.mem_append_right _ ((hmem r).mpr ⟨c, hc, hr⟩), ?_⟩
      simp [inShard, hshard]
    rw [hrows r hin id hid] at hretained
    cases hretained

theorem closed_of_exposed {seed : AccSeed H} (hcalls : RangeCalls calls) (hblank : seed.Blank)
    (hfirst : calls.head? = some first) (hstart : seed.start = (first.frontier pool).treeSize)
    (h : Exposed policy calls pool shard)
    : ∃ rows, .closeCleanShard shard rows ∈ seed.actions (calls.map (·.feed policy pool))
      ∧ ∀ r ∈ rows, ∀ id, r.retention.checkpointId = some id →
        shouldRetainAnchor policy id = false := by
  obtain ⟨o, ho, hmem⟩ := closed_of_range policy hcalls hfirst hstart
  have hge : shardOf seed.start ≤ shard := hstart ▸ h.started first hfirst
  have hlt : shard < o.index := by
    rw [← ho.movedPast_iff hge]
    obtain ⟨c, hc, p, hlo, hhi, hbeyond⟩ := h.passed
    have hrow : p ∈ (rowsFrom (c.frontier pool).treeSize (c.doomedStream policy pool)).map
        AccRow.position := by
      rw [(RunFrom.rowsFrom _ _).mem_iff, rowsFrom_length, PutBlocks.doomedStream_length]
      exact ⟨hlo, hhi⟩
    obtain ⟨r, hr, rfl⟩ := List.mem_map.mp hrow
    exact ⟨hge, r, (hmem r).mpr ⟨c, hc, hr⟩, hbeyond⟩
  have hclean : ¬Unclean seed.opened (noteOf (calls.map (·.feed policy pool))) shard := by
    rintro (⟨hpass, -⟩ | ⟨n, ⟨f, hf, hn⟩, heq⟩)
    . exact absurd (hblank.passthrough.symm.trans hpass) nofun
    . obtain ⟨c, hc, rfl⟩ := List.mem_map.mp hf
      exact h.unnoted c hc n hn heq
  obtain ⟨rows, hrows⟩ := (ho.inv.closed shard hge hlt).mpr hclean
  refine ⟨rows, hrows, fun r hr id hid => ?_⟩
  rw [((ho.inv.acted _ hrows).closed _ _ rfl).2.2, AccSeed.opened, hblank.resume, List.nil_append,
    List.mem_filter] at hr
  obtain ⟨⟨c, hc, hr⟩, hshard⟩ := hr.imp_left (hmem r).mp
  by_contra hnot
  rw [Bool.not_eq_false] at hnot
  obtain ⟨b, hb, hanchor, hne, heq⟩ := ((hcalls.valid c hc).anchor_rows).mp
    ⟨r, hr, by simpa [inShard] using hshard, id, hid, hnot⟩
  exact h.bare c hc b hb hanchor hne heq

end Rows

section Range

variable [DecidableEq H] {B Shard : Type} {up : Upstream H B Shard} {db db' : WalletDb B Shard}
  {sparse sparse' : SparseTreeState H Shard} {policy : Option AnchorRetention} {pool : ShieldedPool}
  {steps : List (CallReads H × PutBlocks H)} {grafts : ShieldedPool → List (Nat × H)}

theorem PutRange.ironwood (h : PutRange up db sparse steps db' sparse' grafts)
    : grafts .ironwood = [] := by
  induction h with
  | nil => rfl
  | cons hcall hrest ih =>
    dsimp only
    rw [ih, List.append_nil]
    unfold PutBlocks.grafts
    split
    . rfl
    . rfl
    . next hpool => exact absurd rfl hpool

theorem PutRange.exposed
    (h : PutRange up db (.opened policy (some verifySample)) steps db' sparse' grafts)
    (hcalls : RangeCalls (steps.map Prod.snd)) (hfiled : (db.buffer pool).Filed)
    (hg : (shard, root) ∈ grafts pool) : Exposed policy (steps.map Prod.snd) pool shard := by
  have hpool : pool ≠ .ironwood := by
    rintro rfl
    rw [h.ironwood] at hg
    cases hg
  cases hfirst : (steps.map Prod.snd).head? with
  | none =>
    obtain rfl : steps = [] := by simpa using hfirst
    cases h
    cases hg
  | some first =>
    obtain ⟨seed, hstart, -, hgrafts⟩ := h.seeded hcalls hfiled hpool hfirst
    obtain ⟨before, step, after, rfl, rows, hclosed, hrows, -⟩ := (hgrafts _).mp hg
    have hmem : .closeCleanShard shard rows ∈ seed.actions
        (((before ++ step :: after).map Prod.snd).map (·.feed policy pool)) := by
      rw [List.map_map]
      exact ShardAccumulator.mem_feedAll_iff.mpr ⟨_, _, feedsOf policy pool after,
        by simp [feedsOf, Function.comp_def], hclosed⟩
    exact exposed_of_closed hcalls hpool hfirst hstart hmem hrows

theorem putRange_accepts (hup : up.Accepts) (root : H) {calls : List (PutBlocks H)}
    (hvalid : ∀ c ∈ calls, c.Valid) (hflush : ∀ p, (sparse.seeded db p).Flushable)
    : ∃ db' sparse' grafts, PutRange up db sparse (calls.map (CallReads.rooted root, ·)) db' sparse'
        grafts := by
  induction calls generalizing db sparse with
  | nil => exact ⟨_, _, _, .nil⟩
  | cons call calls ih =>
    have hcall := hvalid call List.mem_cons_self
    obtain ⟨⟨db₁, sparse₁⟩, hrun⟩ := sparsePutBlocks_accepts hup hcall (.rooted root) db sparse
      (fun ctx _ pool => planPool_accepts _ _ _ rfl fun shard => ⟨some root, rfl⟩) hflush
    obtain ⟨plans, hs⟩ := sparsePutBlocks_succeeded hcall.nonempty hrun
    have hflush₁ : ∀ p, (sparse₁.seeded db₁ p).Flushable := by
      intro p
      obtain ⟨staged, -, hflushed⟩ := hs.ran hcall.rows p
      rw [flush_store hflushed]
      exact Finset.empty_subset _
    obtain ⟨db', sparse', grafts, hrest⟩ :=
      ih (fun c hc => hvalid c (List.mem_cons_of_mem _ hc)) hflush₁
    exact ⟨db', sparse', _, .cons hrun hrest⟩

theorem exists_graft {calls : List (PutBlocks H)} (hcalls : RangeCalls calls)
    (h : Exposed policy calls pool shard)
    : ∃ root db' sparse' grafts, PutRange (.bare H) (.fresh H) (.opened policy (some 0))
          (calls.map (CallReads.rooted root, ·)) db' sparse' grafts
        ∧ (shard, root) ∈ grafts pool := by
  obtain ⟨c, hc, p, hlo, hhi, -⟩ := h.passed
  have hne : c.stream pool ≠ [] := by
    intro hnil
    rw [hnil, List.length_nil] at hhi
    omega
  obtain ⟨⟨root, -⟩, -, -⟩ := List.exists_cons_of_ne_nil hne
  have hflush : ∀ p, ((.opened policy (some 0) : SparseTreeState H Unit).seeded (.fresh H) p).Flushable :=
    fun _ => Finset.empty_subset _
  obtain ⟨db', sparse', grafts, hrun⟩ :=
    putRange_accepts (Upstream.bare_accepts H) root hcalls.valid hflush
  refine ⟨root, db', sparse', grafts, hrun, ?_⟩
  have hsnd : (calls.map (CallReads.rooted root, ·)).map Prod.snd = calls := by
    simp [Function.comp_def]
  obtain ⟨first, hfirst⟩ : ∃ first, calls.head? = some first := by
    obtain ⟨first, _, rfl⟩ := List.exists_cons_of_ne_nil (List.ne_nil_of_mem hc)
    exact ⟨first, rfl⟩
  obtain ⟨seed, hstart, hblank, hgrafts⟩ :=
    hrun.seeded (hsnd.symm ▸ hcalls) PoolBuffer.filed_empty h.grafted (hsnd.symm ▸ hfirst)
  have hblank := hblank rfl fun k => rfl
  obtain ⟨rows, hclosed, hrows⟩ := closed_of_exposed hcalls hblank hfirst hstart h
  obtain ⟨before, f, after, hfeeds, hclosed⟩ := ShardAccumulator.mem_feedAll_iff.mp hclosed
  obtain ⟨done, rest, rfl, rfl, hrest⟩ := List.map_eq_append_iff.mp hfeeds
  obtain ⟨last, rest, rfl, rfl, rfl⟩ := List.map_eq_cons_iff.mp hrest
  rw [hgrafts]
  refine ⟨done.map (CallReads.rooted root, ·), (CallReads.rooted root, last),
    rest.map (CallReads.rooted root, ·), by simp, rows, ?_, hrows, rfl, by simp⟩
  simpa [feedsOf, Function.comp_def] using hclosed

theorem anchorsUngrafted_iff {calls : List (PutBlocks H)} (hcalls : RangeCalls calls)
    : AnchorsUngrafted policy calls
        ↔
      ∀ pool shard, HoldsAnchor policy calls pool shard → ¬Exposed policy calls pool shard := by
  constructor
  . intro h pool shard hholds hexposed
    obtain ⟨root, db', sparse', grafts, hrun, hg⟩ := exists_graft hcalls hexposed
    refine h _ _ _ _ _ _ _ _ _ (fun _ => PoolBuffer.filed_empty) ?_ hrun pool shard root hg hholds
    simp [Function.comp_def]
  . rintro h B Shard up db db' verifySample sparse' steps grafts hfiled rfl hrun pool shard root hg hholds
    exact h pool shard hholds (hrun.exposed hcalls (hfiled pool) hg)

end Range

def crossingCall : PutBlocks Nat where
  fromState := {
    blockHeight := 100
    finalTree
      | .sapling => ⟨some { position := 65534, leaf := 0, ommers := [] }⟩
      | _ => ⟨none⟩
  }
  blocks := [saplingBlock 101 65535 [1], saplingBlock 102 65536 [], saplingBlock 103 65536 [2]]
  chainTip := none

theorem crossingCall_range : RangeCalls [crossingCall] where
  valid c hc := by
    cases List.mem_singleton.mp hc
    refine ⟨by simp [crossingCall], rfl, ?_, ?_⟩
    . intro b hb
      cases hb
      decide
    . intro tip htip
      cases htip
  follows := List.isChain_singleton _
  notes c hc pool n hn := by
    cases List.mem_singleton.mp hc
    cases pool <;> cases hn

/-- A block with a commitment of its own keeps its shard from being grafted. -/
theorem anchorsUngrafted_crossingCall
    : RangeCalls [crossingCall] ∧ AnchorsUngrafted (onlyAnchor 101) [crossingCall] := by
  refine ⟨crossingCall_range, (anchorsUngrafted_iff crossingCall_range).mpr ?_⟩
  rintro pool shard ⟨c, hc, h, p, -, -, hanchor, hsize, hshard⟩ hexposed
  cases List.mem_singleton.mp hc
  obtain rfl : h = 101 := by simpa [onlyAnchor, shouldRetainAnchor] using hanchor
  cases pool with
  | sapling =>
    have hsize : p = 65535 := by
      have : crossingCall.sizeAt .sapling 101 = 65536 := by decide
      omega
    refine hexposed.bare crossingCall List.mem_cons_self _ List.mem_cons_self (by decide) (by decide) ?_
    rw [← hshard, hsize]
    decide
  | orchard => cases hsize
  | ironwood => cases hsize

/-- The tree ends at the same place at the next block, which the verdict does not see. -/
theorem crossingCall_grafts_anchor
    : ∃ root db' sparse' grafts, PutRange (.bare Nat) (.fresh Nat) (.opened (onlyAnchor 102) (some 0))
          [(.rooted root, crossingCall)] db' sparse' grafts
        ∧ (0, root) ∈ grafts .sapling
        ∧ HoldsAnchor (onlyAnchor 102) [crossingCall] .sapling 0 := by
  have hexposed : Exposed (onlyAnchor 102) [crossingCall] .sapling 0 := by
    constructor
    case grafted => decide
    case started =>
      intro c hc
      cases hc
      decide
    case passed => exact ⟨crossingCall, List.mem_cons_self, 65536, by decide⟩
    case unnoted =>
      intro c hc n hn
      cases List.mem_singleton.mp hc
      cases hn
    case bare =>
      intro c hc b hb hanchor hne
      cases List.mem_singleton.mp hc
      have hheight : b.height = 102 := by simpa [onlyAnchor, shouldRetainAnchor] using hanchor
      simp only [crossingCall, List.mem_cons, List.not_mem_nil, or_false] at hb
      rcases hb with rfl | rfl | rfl
      . cases hheight
      . exact absurd rfl hne
      . cases hheight
  obtain ⟨root, db', sparse', grafts, hrun, hg⟩ := exists_graft crossingCall_range hexposed
  refine ⟨root, db', sparse', grafts, hrun, hg, crossingCall, List.mem_cons_self, 102, 65535, ?_⟩
  decide

end Slipstream
