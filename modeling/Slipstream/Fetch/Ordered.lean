import Slipstream.Fetch.Lemmas.System

/-!
This module contains the order of the fetch's output: with fine deliveries the blocks released to
the scanner are always the plan's heights from its start on, and all of them when the fetch succeeds.
-/

namespace Slipstream
namespace Fetch

structure GoodStream (plan : FetchPlan) (i : Nat) (blocks : List CompactBlock) : Prop where
  starts : i = 0 → ∀ b, blocks.head? = some b → b.height = plan.start
  stops : blocks.IsChain fun a b => ¬(a.height = plan.stop ∧ b.height = plan.stop + 1)

theorem GoodStream.shorten (h : GoodStream plan i blocks) (hp : blocks' <+: blocks)
    : GoodStream plan i blocks' := by
  obtain ⟨rest, rfl⟩ := hp
  refine ⟨?_, h.stops.left_of_append⟩
  intro hi b hb
  apply h.starts hi b
  cases blocks' with
  | nil => cases hb
  | cons x xs => exact hb

def planStream (plan : FetchPlan) : StreamSpec where
  good := GoodStream plan
  nil i := ⟨by simp, List.IsChain.nil⟩
  shorten := GoodStream.shorten

def deliveryOk (plan : FetchPlan) (s : FetchState) : FetchEvent → Bool
  | .input k (.block b _) =>
    match s.workers[k]? with
    | some (.streaming a sp) =>
      (!(a.cursor.planIndex == 0 && a.cursor.nextSubIndex == 0 && sp.acc.isEmpty)
        || b.height == plan.start)
      && !(expectedHeight a.cursor sp == plan.stop + 1 && b.height == plan.stop + 1)
    | _ => true
  | _ => true

section Deliveries

variable {plan : FetchPlan} {log : Log} {s : FetchState}

theorem expectedHeight_eq {a : Attempt} {sp : ChunkSplitter} (howns : OwnsChunk plan log next a.cursor)
    (h : (blocksOf (log a.cursor.planIndex) ++ sp.acc).getLast? = some x)
    (hx : x.height = plan.stop) : expectedHeight a.cursor sp = plan.stop + 1 := by
  have hstop := plan.stop_lt
  unfold expectedHeight ChunkSplitter.lastHeight
  cases hacc : sp.acc.getLast? with
  | some y =>
    have hyx : y = x := by simpa [List.getLast?_append, hacc] using h
    simp [hyx, hx]
  | none =>
    have hnil : sp.acc = [] := by simpa using hacc
    rw [hnil, List.append_nil] at h
    simp only [Option.map_none]
    rw [howns.resumeFrom, resumePoint, h]
    dsimp
    omega

theorem delivers_of_deliveryOk (h : FetchInv plan (planStream plan) log s)
    (hok : deliveryOk plan s e = true) : Delivers (planStream plan) log s e := by
  rintro k b deadline a sp rfl hk
  have hmem := List.mem_of_getElem? hk
  have howns := h.workers.owns _ hmem a.cursor rfl
  have hgood : GoodStream plan _ _ := h.workers.holds _ hmem a.cursor rfl
  simp only [deliveryOk, hk, Bool.and_eq_true, Bool.or_eq_true, Bool.not_eq_true', beq_iff_eq,
    Bool.and_eq_false_iff, beq_eq_false_iff_ne] at hok
  obtain ⟨hfirst, hpast⟩ := hok
  simp only [Worker.held] at hgood
  rw [← List.append_assoc]
  constructor
  case starts =>
    intro hi x hx
    cases hseq : blocksOf (log a.cursor.planIndex) ++ sp.acc with
    | nil =>
      rw [hseq] at hx
      obtain rfl : b = x := by simpa using hx
      rw [List.append_eq_nil_iff] at hseq
      have hzero := howns.nextSubIndex
      rw [blocksOf_eq_nil h.entries hseq.1, List.length_nil] at hzero
      rcases hfirst with hfirst | hfirst
      . simp [hi, hzero, hseq.2] at hfirst
      . exact hfirst
    | cons y ys =>
      apply hgood.starts hi
      rw [hseq] at hx ⊢
      exact hx
  case stops =>
    apply List.IsChain.append hgood.stops (List.isChain_singleton b)
    rintro x hx y hy ⟨hxs, hys⟩
    obtain rfl : b = y := by simpa using hy
    rcases hpast with hpast | hpast
    . exact hpast (expectedHeight_eq howns hx hxs)
    . exact hpast hys

end Deliveries

structure OrderedRelease (plan : FetchPlan) (s : FetchState) : Prop where
  linked : Linked (released s)
  upTo : (released s).map CompactBlock.height
    <+: List.range' plan.start (plan.stop + 1 - plan.start)
  complete : ∀ stats, s.result = some (.ok stats) →
    (released s).map CompactBlock.height = List.range' plan.start (plan.stop + 1 - plan.start)

def StopsAt (plan : FetchPlan) (blocks : List CompactBlock) : Prop :=
  blocks.IsChain fun a b => ¬(a.height = plan.stop ∧ b.height = plan.stop + 1)

theorem heights_eq {plan : FetchPlan} {blocks : List CompactBlock} {first : Nat}
    (hlinked : Linked blocks) (hstops : StopsAt plan blocks)
    (hfirst : ∀ b, blocks.head? = some b → b.height = first) (hle : first ≤ plan.stop)
    : blocks.map CompactBlock.height = List.range' first blocks.length
      ∧ first + blocks.length ≤ plan.stop + 1 := by
  induction blocks generalizing first with
  | nil => simpa using Nat.le_succ_of_le hle
  | cons b bs ih =>
    have hb : b.height = first := hfirst b rfl
    cases bs with
    | nil => simpa [hb] using hle
    | cons c cs =>
      obtain ⟨hbc, hlinked⟩ := List.isChain_cons_cons.mp hlinked
      obtain ⟨hpast, hstops⟩ := List.isChain_cons_cons.mp hstops
      have hc : c.height = first + 1 := by rw [hbc.1, hb]
      have hlt : first + 1 ≤ plan.stop := by
        by_contra hcontra
        exact hpast ⟨by omega, by omega⟩
      obtain ⟨hmap, hlen⟩ := ih hlinked hstops (by simp [hc]) hlt
      rw [List.map_cons, hmap, hb, List.length_cons (a := b), List.range'_succ]
      refine ⟨rfl, ?_⟩
      rw [List.length_cons] at hlen ⊢
      omega

section Log

variable {plan : FetchPlan} {log : Log}

theorem blocksOf_last (hlog : LogInv plan log) (hlast : (log i).getLast? = some sub)
    (his : sub.isLast = true)
    : (blocksOf (log i)).getLast?.map CompactBlock.height = some (plan.chunkRange i).2 := by
  have hsub : (log i)[(log i).length - 1]? = some sub := by
    rw [← List.getLast?_eq_getElem?]
    exact hlast
  obtain ⟨-, hheight⟩ := hlog.last hsub his
  have hne := hlog.nonempty hsub
  obtain ⟨front, hfront⟩ := List.getLast?_eq_some_iff.mp hlast
  have hb := List.getLast?_eq_some_getLast hne
  rw [hb] at hheight
  simpa [hfront, blocksOf, List.getLast?_append, hb] using hheight

theorem not_past_boundary (hi : i + 1 < plan.chunkCount) (hx : x = (plan.chunkRange i).2)
    : x ≠ plan.stop := by
  intro hstop
  rw [hx, plan.chunkRange_stop_iff (by omega)] at hstop
  omega

theorem stopsAt_range (hlog : LogInv plan log)
    (hgood : ∀ i, GoodStream plan i (blocksOf (log i)))
    (hdone : ∀ i < n, ∃ sub, (log i).getLast? = some sub ∧ sub.isLast = true)
    : StopsAt plan ((List.range n).flatMap fun k => blocksOf (log k))
      ∧ ∀ x, ((List.range n).flatMap fun k => blocksOf (log k)).getLast? = some x →
        ∃ i, n = i + 1 ∧ x.height = (plan.chunkRange i).2 := by
  induction n with
  | zero => exact ⟨List.IsChain.nil, by simp⟩
  | succ n ih =>
    obtain ⟨hchain, hlast⟩ := ih fun i hi => hdone i (by omega)
    obtain ⟨sub, hsub, his⟩ := hdone n (by omega)
    have hheight := blocksOf_last hlog hsub his
    have hbound : n < plan.chunkCount := hlog.bounded (List.ne_nil_of_mem (List.mem_of_getLast? hsub))
    rw [List.range_succ, List.flatMap_append, List.flatMap_singleton]
    constructor
    . apply List.IsChain.append hchain (hgood n).stops
      rintro x hx y - ⟨hxs, -⟩
      obtain ⟨i, rfl, hxi⟩ := hlast x hx
      exact not_past_boundary hbound hxi hxs
    . intro x hx
      refine ⟨n, rfl, ?_⟩
      rw [List.getLast?_append] at hx
      cases hb : (blocksOf (log n)).getLast? with
      | none => simp [hb] at hheight
      | some y =>
        obtain rfl : y = x := by simpa [hb] using hx
        simpa [hb] using hheight

theorem stopsAt_releasedOf (hlog : LogInv plan log)
    (hgood : ∀ i, GoodStream plan i (blocksOf (log i)))
    (hdone : ∀ i < next.1, ∃ sub, (log i).getLast? = some sub ∧ sub.isLast = true)
    : StopsAt plan (releasedOf log next) := by
  obtain ⟨hchain, hlast⟩ := stopsAt_range hlog hgood hdone
  have htake : blocksOf ((log next.1).take next.2) <+: blocksOf (log next.1) := by
    rw [← List.take_append_drop next.2 (log next.1), blocksOf_append]
    simp
  apply List.IsChain.append hchain ((hgood next.1).shorten htake).stops
  rintro x hx y hy ⟨hxs, -⟩
  obtain ⟨i, hi, hxi⟩ := hlast x hx
  have hne : log next.1 ≠ [] := by
    rintro hnil
    simp [hnil, blocksOf] at hy
  have hbound := hlog.bounded hne
  rw [hi] at hbound
  exact not_past_boundary hbound hxi hxs

theorem head_releasedOf (hlog : LogInv plan log)
    (hdone : ∀ i < next.1, ∃ sub, (log i).getLast? = some sub ∧ sub.isLast = true)
    (hb : (releasedOf log next).head? = some b) : (blocksOf (log 0)).head? = some b := by
  obtain ⟨i, j⟩ := next
  cases i with
  | zero =>
    rw [← List.take_append_drop j (log 0), blocksOf_append]
    have : (blocksOf ((log 0).take j)).head? = some b := by simpa [releasedOf] using hb
    rw [List.head?_append, this]
    rfl
  | succ i =>
    obtain ⟨sub, hsub, his⟩ := hdone 0 (Nat.succ_pos i)
    have hheight := blocksOf_last hlog hsub his
    rw [releasedOf, List.range_succ_eq_map, List.flatMap_cons, List.append_assoc,
      List.head?_append] at hb
    cases h0 : (blocksOf (log 0)).head? with
    | none => simp [List.head?_eq_none_iff.mp h0] at hheight
    | some c => simpa [h0] using hb

theorem releasedOf_last (hlog : LogInv plan log)
    (hdone : ∀ i < plan.chunkCount, ∃ sub, (log i).getLast? = some sub ∧ sub.isLast = true)
    : (releasedOf log (plan.chunkCount, j)).getLast?.map CompactBlock.height = some plan.stop := by
  have hnone : log plan.chunkCount = [] := by
    by_contra hne
    exact absurd (hlog.bounded hne) (Nat.lt_irrefl _)
  obtain ⟨n, hn⟩ : ∃ n, plan.chunkCount = n + 1 :=
    ⟨plan.chunkCount - 1, by have := plan.chunkCount_pos; omega⟩
  obtain ⟨sub, hsub, his⟩ := hdone n (by omega)
  have hheight := blocksOf_last hlog hsub his
  rw [(plan.chunkRange_stop_iff (by omega)).mpr hn.symm] at hheight
  cases hb : (blocksOf (log n)).getLast? with
  | none => simp [hb] at hheight
  | some x =>
    rw [hb] at hheight
    have hnil : blocksOf ((log plan.chunkCount).take j) = [] := by simp [hnone, blocksOf]
    rw [releasedOf, hnil, List.append_nil, hn, List.range_succ, List.flatMap_append,
      List.flatMap_singleton, List.getLast?_append, hb]
    exact hheight

end Log

theorem orderedRelease_of_inv (h : FetchInv plan (planStream plan) log s)
    : OrderedRelease plan s := by
  have hgood : ∀ i, GoodStream plan i (blocksOf (log i)) := h.workers.streams
  have hlinked : Linked (released s) := h.release.linked.left_of_append
  have hstops : StopsAt plan (released s) := by
    rw [h.release.released]
    exact stopsAt_releasedOf h.entries hgood h.release.done
  have hfirst : ∀ b, (released s).head? = some b → b.height = plan.start := by
    intro b hb
    rw [h.release.released] at hb
    exact (hgood 0).starts rfl b (head_releasedOf h.entries h.release.done hb)
  obtain ⟨hmap, hlen⟩ := heights_eq hlinked hstops hfirst plan.start_le
  constructor
  case linked => exact hlinked
  case upTo =>
    have hsize : plan.stop + 1 - plan.start
        = (released s).length + (plan.stop + 1 - plan.start - (released s).length) := by
      omega
    rw [hmap, hsize, ← List.range'_append_1]
    exact List.prefix_append _ _
  case complete =>
    intro stats hok
    have hnext : s.reorder.next.1 = plan.chunkCount := by
      rw [← h.release.plans]
      exact h.release.complete stats hok
    have hdone := h.release.done
    rw [hnext] at hdone
    have hlast := releasedOf_last h.entries hdone (j := s.reorder.next.2)
    rw [← hnext, ← h.release.released, ← List.getLast?_map, hmap, List.getLast?_range'] at hlast
    rw [hmap]
    congr 1
    split at hlast
    . cases hlast
    . have := Option.some.inj hlast
      omega

/--
In every run in which the server meets its part, what the scanner has been given is the plan's
heights in order. The first block of all is only compared with what came before it, and a stream is
never held to the range it was asked for, so without that condition neither end of the plan is safe.
-/
theorem orderedRelease_of_deliveries
    (h : (machine plan budgetBytes).Reach (fun s e => deliveryOk plan s e = true) s)
    : OrderedRelease plan s := by
  obtain ⟨log, hinv⟩ := inv_of_reach (fun _ _ _ => delivers_of_deliveryOk) h
  exact orderedRelease_of_inv hinv

def tenBlocks : FetchPlan where
  start := 100
  stop := 109
  chunkBlocks := 100
  streams := 1
  retriesPerChunk := 3
  splitBytes := 1048576
  failover := none
  start_le := by decide
  stop_lt := by decide
  chunkBlocks_pos := by decide

def blockAt (height : Nat) (h : height < 2 ^ 64) : CompactBlock where
  height
  hash := []
  prevHash := []
  encodedLen := 100
  height_lt := h

def oneStream (blocks : List CompactBlock) : List FetchEvent :=
  [.input 0 .connected, .claim 0, .input 0 .opened]
    ++ blocks.map (fun b => .input 0 (.block b false))
    ++ [.input 0 .endOfStream, .gate 0, .send 0, .recv 0.0, .drain, .release, .drain, .claim 0,
      .releaseEnds, .join 0, .finish]

def succeeded (s : FetchState) : Bool :=
  match s.result with
  | some (.ok _) => true
  | _ => false

def tenBlocksAnswer : List CompactBlock :=
  (List.range 10).pmap (fun i (h : i < 10) => blockAt (100 + i) (by omega))
    (fun i h => List.mem_range.mp h)

theorem orderedRelease_tenBlocks
    : ∃ s, (machine tenBlocks 1000000).Reach (fun s e => deliveryOk tenBlocks s e = true) s
      ∧ succeeded s = true ∧ OrderedRelease tenBlocks s := by
  have hrun : ∃ s, (machine tenBlocks 1000000).runChecked (deliveryOk tenBlocks)
      (init tenBlocks 1000000) (oneStream tenBlocksAnswer) = some s ∧ succeeded s = true :=
    ⟨_, rfl, rfl⟩
  obtain ⟨s, hs, hok⟩ := hrun
  have hreach := Machine.reach_of_runChecked (.start rfl) hs
  exact ⟨s, hreach, hok, orderedRelease_of_deliveries hreach⟩

/-- A server that answers the whole request with its last block alone gets away with it. -/
theorem lastBlock_released_alone
    : ∃ s, (machine tenBlocks 1000000).Reachable s ∧ succeeded s = true
      ∧ (released s).map CompactBlock.height = [109] ∧ ¬OrderedRelease tenBlocks s := by
  have hrun : ∃ s, (machine tenBlocks 1000000).run (init tenBlocks 1000000)
      (oneStream [blockAt 109 (by decide)]) = some s ∧ succeeded s = true
      ∧ (released s).map CompactBlock.height = [109] :=
    ⟨_, rfl, rfl, rfl⟩
  obtain ⟨s, hs, hok, hreleased⟩ := hrun
  refine ⟨s, Machine.reachable_of_run (.start rfl) hs, hok, hreleased, ?_⟩
  intro hordered
  have hstarts := hordered.upTo
  rw [hreleased] at hstarts
  exact absurd hstarts (by decide)

end Fetch
end Slipstream
