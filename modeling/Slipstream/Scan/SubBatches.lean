import Slipstream.Scan.Aligned
import Slipstream.Scan.Lemmas.Turn
import Slipstream.Fetch.Lemmas.Ranges

/-!
This module contains how the scan loop cuts chunks into sub-batches: the calls of a chunk are
non-empty, follow one another and end with the chunk, as long as the controller is not asked for a
length in a chunk shorter than the shortest batch.
-/

namespace Slipstream

def ChunksFrom (first : Nat) : List Chunk → Prop
  | [] => True
  | c :: chunks =>
    c.blocks ≠ [] ∧ Consecutive first c.blocks ∧ ChunksFrom (first + c.blocks.length) chunks

theorem ChunksFrom.heights (h : ChunksFrom first chunks) (hc : c ∈ chunks)
    : 0 < c.blocks.length ∧ ∃ start last, c.startHeight = some start ∧ c.endHeight = some last
      ∧ last + 1 = start + c.blocks.length := by
  induction chunks generalizing first with
  | nil => cases hc
  | cons d chunks ih =>
    obtain ⟨hne, hconsecutive, hrest⟩ := h
    rcases List.mem_cons.mp hc with rfl | hc
    . obtain ⟨b, hb⟩ : ∃ b, c.blocks.head? = some b := ⟨_, List.head?_eq_some_head hne⟩
      obtain ⟨x, hx⟩ : ∃ x, c.blocks.getLast? = some x := ⟨_, List.getLast?_eq_some_getLast hne⟩
      have hfirst : b.height = first := by
        rw [List.head?_eq_getElem?] at hb
        simpa using hconsecutive.getElem? hb
      refine ⟨List.length_pos_of_ne_nil hne, first, x.height, ?_, ?_, hconsecutive.last hx⟩
      . simp [Chunk.startHeight, hb, hfirst]
      . simp [Chunk.endHeight, hx]
    . exact ih hrest hc

namespace Scan

variable {T F : Type} {api : TreeStateApi T F} {cfg : ScanConfig} {s s' : ScanState T F}

def Covers (first : Nat) : List (ScanCall F) → Nat → Prop
  | [], next => first = next
  | call :: calls, next =>
    call.fromHeight = first ∧ 0 < call.limit ∧ Covers (first + call.limit) calls next

theorem Covers.concat (h : Covers first calls next) (hfrom : call.fromHeight = next)
    (hpos : 0 < call.limit) : Covers first (calls ++ [call]) (next + call.limit) := by
  induction calls generalizing first with
  | nil =>
    cases h
    exact ⟨hfrom, hpos, rfl⟩
  | cons c calls ih =>
    obtain ⟨hc, hcpos, hrest⟩ := h
    exact ⟨hc, hcpos, ih hrest⟩

theorem Covers.length_le (h : Covers first calls next) : first + calls.length ≤ next := by
  induction calls generalizing first with
  | nil => exact Nat.le_of_eq h
  | cons c calls ih =>
    obtain ⟨-, hpos, hrest⟩ := h
    have := ih hrest
    rw [List.length_cons]
    omega

structure CoversTo (chunk : Chunk) (calls : List (ScanCall F)) (next : Nat) : Prop where
  start : ∃ first, chunk.startHeight = some first ∧ Covers first calls next
  within : ∃ last, chunk.endHeight = some last ∧ next ≤ last + 1

def Tiles (chunk : Chunk) (calls : List (ScanCall F)) : Prop :=
  ∃ last, chunk.endHeight = some last ∧ CoversTo chunk calls (last + 1)

structure BatchInv (chunks : List Chunk) (s : ScanState T F)
    (done : List (Chunk × List (ScanCall F))) (now : List (ScanCall F)) : Prop where
  calls : s.calls = done.flatMap Prod.snd ++ now
  tiled : ∀ p ∈ done, Tiles p.1 p.2
  rest : ∃ rest, chunks = done.map Prod.fst ++ rest
    ∧ (now = [] ∨ ∃ chunk rest' next, rest = chunk :: rest' ∧ CoversTo chunk now next)
  panics : s.ended ≠ some .panicked
  finished : s.ended = some .finished → chunks = done.map Prod.fst ∧ now = []
  idle : s.ended = none → s.current = none → now = [] ∧ chunks = done.map Prod.fst ++ s.incoming
  busy : s.ended = none → ∀ chunk subStart, s.current = some (chunk, subStart) →
    0 < s.batchLen ∧ chunks = done.map Prod.fst ++ chunk :: s.incoming
      ∧ CoversTo chunk now subStart ∧ s.nextState ≠ none

namespace BatchInv

variable {done : List (Chunk × List (ScanCall F))} {now : List (ScanCall F)}

theorem fails (h : BatchInv chunks s done now) (hcalls : s'.calls = s.calls)
    (hended : s'.ended = some (.failed e)) : BatchInv chunks s' done now :=
  ⟨hcalls.trans h.calls, h.tiled, h.rest, by simp [hended], by simp [hended], by simp [hended],
    by simp [hended]⟩

theorem seed (h : BatchInv chunks s done now) : BatchInv chunks (seedStep s attempts) done now := by
  unfold seedStep
  split
  . exact h.fails rfl rfl
  . refine { h with busy := fun hgoing chunk subStart hcurrent => ?_ }
    obtain ⟨hlen, hrest, hcovers, -⟩ := h.busy hgoing chunk subStart hcurrent
    exact ⟨hlen, hrest, hcovers, by simp⟩

theorem recv (hchunks : ChunksFrom first chunks) (h : BatchInv chunks s done now)
    (hgoing : s.ended = none) (hstep : recvStep cfg s = some s') : BatchInv chunks s' done now := by
  unfold recvStep at hstep
  split at hstep
  . next seed chunk incoming hcurrent hseed hincoming =>
    obtain ⟨rfl, hrest⟩ := h.idle hgoing hcurrent
    split at hstep
    . next start last hstart hlast =>
      split at hstep
      . cases hstep
        exact h.fails rfl rfl
      . cases hstep
        obtain ⟨hpos, -⟩ := hchunks.heights (show chunk ∈ chunks by simp [hrest, hincoming])
        have hle : start ≤ last + 1 := by
          obtain ⟨-, start', last', hstart', hlast', heq⟩ :=
            hchunks.heights (show chunk ∈ chunks by simp [hrest, hincoming])
          rw [hstart, Option.some.injEq] at hstart'
          rw [hlast, Option.some.injEq] at hlast'
          omega
        refine ⟨h.calls, h.tiled, h.rest, by simp [hgoing], by simp [hgoing], by simp, ?_⟩
        intro _ c sub hc
        cases hc
        refine ⟨?_, by rw [hrest, hincoming], ⟨⟨start, hstart, rfl⟩, last, hlast, hle⟩, by simp [hseed]⟩
        dsimp only
        split
        . exact Nat.lt_min.mpr ⟨hpos, by decide⟩
        . next hkeep =>
          have hne : s.batchLen ≠ 0 := by
            intro hzero
            simp [hzero] at hkeep
          omega
    . cases hstep
      exact h.fails rfl rfl
  . cases hstep

theorem chunkDone (h : BatchInv chunks s done now) (hgoing : s.ended = none)
    (hstep : chunkDoneStep s interleave = some s')
    : ∃ done' now', BatchInv chunks s' done' now' := by
  unfold chunkDoneStep at hstep
  split at hstep
  . next chunk subStart hcurrent =>
    split at hstep
    . next last hlast =>
      split at hstep
      . next hthrough =>
        split at hstep
        . cases hstep
          exact ⟨done, now, h.fails rfl rfl⟩
        . cases hstep
          obtain ⟨-, hrest, hcovers, -⟩ := h.busy hgoing chunk subStart hcurrent
          obtain ⟨last', hlast', hle⟩ := hcovers.within
          rw [hlast, Option.some.injEq] at hlast'
          have hsub : subStart = last + 1 := by omega
          subst hsub
          refine ⟨done ++ [(chunk, now)], [], ?_, ?_, ⟨s.incoming, ?_, Or.inl rfl⟩, ?_, ?_, ?_, ?_⟩
          . simp [h.calls]
          . intro p hp
            rcases List.mem_append.mp hp with hp | hp
            . exact h.tiled p hp
            . rw [List.mem_singleton.mp hp]
              exact ⟨last, hlast, hcovers⟩
          . simp [hrest]
          . simp [hgoing]
          . simp [hgoing]
          . intro _ _
            exact ⟨rfl, by simp [hrest]⟩
          . simp
      . cases hstep
    . cases hstep
  . cases hstep

theorem closed [DecidableEq F] (h : BatchInv chunks s done now) (hgoing : s.ended = none)
    (hstep : closedStep api s settled = some s') : BatchInv chunks s' done now := by
  unfold closedStep at hstep
  split at hstep
  . next hcurrent hseed hincoming =>
    split at hstep
    . cases hstep
      exact h.fails rfl rfl
    . cases hstep
      obtain ⟨rfl, hrest⟩ := h.idle hgoing hcurrent
      rw [hincoming, List.append_nil] at hrest
      exact ⟨h.calls, h.tiled, h.rest, by simp, fun _ => ⟨hrest, rfl⟩, by simp, by simp⟩
  . cases hstep

end BatchInv

def controllerOk (cfg : ScanConfig) (s : ScanState T F) : ScanEvent T → Bool
  | .subBatch inp =>
    match cfg.batchTargetMs, s.current with
    | some _, some (chunk, _) => inp.elapsedMs == 0 || decide (MIN_BATCH ≤ chunk.blocks.length)
    | _, _ => true
  | _ => true

theorem nextBatchLen_eq_none_iff
    : nextBatchLen len elapsedMs targetMs MIN_BATCH (Nat.min chunkLen (2 ^ 32 - 1)) = none
      ↔ elapsedMs ≠ 0 ∧ chunkLen < MIN_BATCH := by
  have hmin : MIN_BATCH = 1000 := rfl
  have hle : Nat.min chunkLen (2 ^ 32 - 1) = min chunkLen (2 ^ 32 - 1) := rfl
  unfold nextBatchLen
  split
  . next h => simp [h]
  . next h =>
    dsimp only
    split
    . next hgt =>
      simp only [true_iff]
      omega
    . next hle =>
      simp only [reduceCtorEq, false_iff]
      omega

theorem nextBatchLen_pos (hpos : 0 < chunkLen)
    (h : nextBatchLen len elapsedMs targetMs MIN_BATCH (Nat.min chunkLen (2 ^ 32 - 1)) = some batchLen)
    : 0 < batchLen := by
  have hmin : MIN_BATCH = 1000 := rfl
  have hmax : 0 < Nat.min chunkLen (2 ^ 32 - 1) := Nat.lt_min.mpr ⟨hpos, by decide⟩
  unfold nextBatchLen at h
  split at h
  . cases h
    exact hmax
  . dsimp only at h
    split at h
    . cases h
    . cases h
      refine Nat.lt_min.mpr ⟨Nat.lt_of_lt_of_le ?_ (Nat.le_max_right _ _), hmax⟩
      rw [hmin]
      decide

theorem BatchInv.mem (h : BatchInv chunks s done now) (hgoing : s.ended = none)
    (hcurrent : s.current = some (chunk, subStart)) : chunk ∈ chunks := by
  rw [(h.busy hgoing chunk subStart hcurrent).2.1]
  simp

theorem BatchInv.subBatch [DecidableEq F] (hchunks : ChunksFrom first chunks)
    (h : BatchInv chunks s done now) (hgoing : s.ended = none)
    (hok : controllerOk cfg s (.subBatch inp) = true)
    (hstep : subBatchStep api cfg s inp = some s') : ∃ now', BatchInv chunks s' done now' := by
  obtain ⟨chunk, subStart, chunkStart, chunkEnd, hturn⟩ := turn_of_subBatchStep hstep
  obtain ⟨hpos, hrest, hcovers, hseeded⟩ := h.busy hgoing chunk subStart hturn.current
  obtain ⟨hlength, -⟩ := hchunks.heights (h.mem hgoing hturn.current)
  rcases hturn.outcome with ⟨hcalls, e, hended⟩ | ⟨call, hcalls, hfrom, hlimit, hsettled⟩
  . exact ⟨now, h.fails hcalls hended⟩
  have hwithin := hturn.within
  have hlimit : call.limit = min s.batchLen (chunkEnd + 1 - subStart) := hlimit
  have hcovers' : CoversTo chunk (now ++ [call]) (subStart + call.limit) := by
    obtain ⟨start, hstart, hnow⟩ := hcovers.start
    exact ⟨⟨start, hstart, hnow.concat hfrom (by omega)⟩, chunkEnd, hturn.last, by omega⟩
  have hcalls' : s'.calls = done.flatMap Prod.snd ++ (now ++ [call]) := by
    rw [hcalls, h.calls, List.append_assoc]
  have hrest' : ∃ rest, chunks = done.map Prod.fst ++ rest ∧ (now ++ [call] = []
      ∨ ∃ chunk rest' next, rest = chunk :: rest' ∧ CoversTo chunk (now ++ [call]) next) :=
    ⟨_, hrest, Or.inr ⟨chunk, s.incoming, _, rfl, hcovers'⟩⟩
  have hgoes : s'.ended = s.ended → s'.current = some (chunk, subStart + call.limit - 1 + 1) →
      s'.incoming = s.incoming → (s.nextState ≠ none → s'.nextState ≠ none) → 0 < s'.batchLen →
      BatchInv chunks s' done (now ++ [call]) := by
    intro hended hcurrent hincoming hseed hlen
    rw [hgoing] at hended
    refine ⟨hcalls', h.tiled, hrest', by simp [hended], by simp [hended], by simp [hcurrent], ?_⟩
    intro _ c sub hc
    rw [hcurrent] at hc
    cases hc
    have hsub : subStart + call.limit - 1 + 1 = subStart + call.limit := by omega
    rw [hsub, hincoming]
    exact ⟨hlen, hrest, hcovers', hseed hseeded⟩
  refine ⟨now ++ [call], ?_⟩
  cases hsettled with
  | failed e hended =>
    exact ⟨hcalls', h.tiled, hrest', by simp [hended], by simp [hended], by simp [hended],
      by simp [hended]⟩
  | panicked hended htarget hnext =>
    -- The condition is what keeps the controller's clamp from panicking.
    obtain ⟨helapsed, hshort⟩ := nextBatchLen_eq_none_iff.mp hnext
    simp only [controllerOk, htarget, hturn.current, Bool.or_eq_true, beq_iff_eq,
      decide_eq_true_eq] at hok
    omega
  | kept hended hcurrent hincoming hseed htarget hlen =>
    exact hgoes hended hcurrent hincoming hseed (hlen ▸ hpos)
  | steered hended hcurrent hincoming hseed htarget hnext =>
    exact hgoes hended hcurrent hincoming hseed (nextBatchLen_pos hlength hnext)

theorem BatchInv.step [DecidableEq F] (hchunks : ChunksFrom first chunks)
    (h : BatchInv chunks s done now) (hok : controllerOk cfg s e = true)
    (hstep : Scan.step api cfg s e = some s') : ∃ done' now', BatchInv chunks s' done' now' := by
  unfold Scan.step at hstep
  split at hstep
  . cases hstep
  . next hgoing =>
    have hgoing : s.ended = none := by simpa using hgoing
    cases e with
    | seed attempts =>
      dsimp only at hstep
      split at hstep
      . cases hstep
      . cases hstep
        exact ⟨done, now, h.seed⟩
    | recv => exact ⟨done, now, h.recv hchunks hgoing hstep⟩
    | subBatch inp => exact ⟨done, h.subBatch hchunks hgoing hok hstep⟩
    | chunkDone interleave => exact h.chunkDone hgoing hstep
    | closed settled => exact ⟨done, now, h.closed hgoing hstep⟩

def overChunks [DecidableEq F] (api : TreeStateApi T F) (cfg : ScanConfig) (chunks : List Chunk)
    : Machine (ScanState T F) (ScanEvent T) where
  start s := s = init chunks
  step := step api cfg

structure SubBatched (chunks : List Chunk) (s : ScanState T F) : Prop where
  noPanic : s.ended ≠ some .panicked
  cut : ∃ (done : List (Chunk × List (ScanCall F))) (now : List (ScanCall F)) (rest : List Chunk),
    s.calls = done.flatMap Prod.snd ++ now
    ∧ chunks = done.map Prod.fst ++ rest
    ∧ (∀ p ∈ done, Tiles p.1 p.2 ∧ p.2.length ≤ p.1.blocks.length)
    ∧ (now = [] ∨ ∃ chunk rest' next, rest = chunk :: rest' ∧ CoversTo chunk now next
        ∧ now.length ≤ chunk.blocks.length)
    ∧ (s.ended = some .finished → rest = [] ∧ now = [])

theorem CoversTo.length_le (h : CoversTo chunk calls next) (hchunks : ChunksFrom first chunks)
    (hchunk : chunk ∈ chunks) : calls.length ≤ chunk.blocks.length := by
  obtain ⟨-, start, last, hstart, hlast, hlength⟩ := hchunks.heights hchunk
  obtain ⟨start', hstart', hcovers⟩ := h.start
  obtain ⟨last', hlast', hle⟩ := h.within
  rw [hstart, Option.some.injEq] at hstart'
  rw [hlast, Option.some.injEq] at hlast'
  have := hcovers.length_le
  omega

theorem BatchInv.subBatched (hchunks : ChunksFrom first chunks) (h : BatchInv chunks s done now)
    : SubBatched chunks s := by
  obtain ⟨rest, hrest, hnow⟩ := h.rest
  refine ⟨h.panics, done, now, rest, h.calls, hrest, ?_, ?_, ?_⟩
  . intro p hp
    obtain ⟨last, hlast, hcovers⟩ := h.tiled p hp
    refine ⟨h.tiled p hp, hcovers.length_le hchunks ?_⟩
    rw [hrest]
    exact List.mem_append_left _ (List.mem_map.mpr ⟨p, hp, rfl⟩)
  . rcases hnow with hnil | ⟨chunk, rest', next, rfl, hcovers⟩
    . exact Or.inl hnil
    . exact Or.inr ⟨chunk, rest', next, rfl, hcovers, hcovers.length_le hchunks (by simp [hrest])⟩
  . intro hended
    obtain ⟨hall, hnil⟩ := h.finished hended
    rw [hall] at hrest
    exact ⟨by simpa using hrest, hnil⟩

theorem BatchInv.enabled [DecidableEq F] (hchunks : ChunksFrom first chunks)
    (h : BatchInv chunks s done now) (hgoing : s.ended = none)
    (hcurrent : s.current = some (chunk, subStart))
    : (∀ inp, Scan.step api cfg s (.subBatch inp) ≠ none)
      ∨ ∀ interleave, Scan.step api cfg s (.chunkDone interleave) ≠ none := by
  obtain ⟨-, -, -, hseeded⟩ := h.busy hgoing chunk subStart hcurrent
  obtain ⟨seed, hseed⟩ := Option.ne_none_iff_exists'.mp hseeded
  obtain ⟨-, start, last, hstart, hlast, -⟩ := hchunks.heights (h.mem hgoing hcurrent)
  by_cases hthrough : last + 1 - subStart = 0
  . right
    intro interleave
    cases interleave <;> simp [Scan.step, hgoing, chunkDoneStep, hcurrent, hlast, hthrough]
  . left
    intro inp
    simp only [Scan.step, hgoing, subBatchStep, hcurrent, hseed, hstart, hlast, hthrough,
      Option.isSome_none, Bool.false_eq_true, if_false]
    split
    . simp
    . split
      . simp
      . split <;> simp

theorem panicked_iff [DecidableEq F] (hgoing : s.ended = none)
    (hstep : Scan.step api cfg s (.subBatch inp) = some s')
    (hfails : ∀ e, s'.ended ≠ some (.failed e))
    : s'.ended ≠ some .panicked ↔ controllerOk cfg s (.subBatch inp) = true := by
  simp only [Scan.step, hgoing, Option.isSome_none, Bool.false_eq_true, if_false] at hstep
  obtain ⟨chunk, subStart, chunkStart, chunkEnd, hturn⟩ := turn_of_subBatchStep hstep
  have hcurrent := hturn.current
  rcases hturn.outcome with ⟨-, e, hended⟩ | ⟨call, -, -, -, hsettled⟩
  . exact absurd hended (hfails e)
  cases hsettled with
  | failed e hended => exact absurd hended (hfails e)
  | panicked hended htarget hnext =>
    obtain ⟨helapsed, hshort⟩ := nextBatchLen_eq_none_iff.mp hnext
    simp [hended, controllerOk, htarget, hcurrent, helapsed, hshort]
  | kept hended _ _ _ htarget _ => simp [hended, hgoing, controllerOk, htarget]
  | steered hended _ _ _ htarget hnext =>
    have hlen : ¬(inp.elapsedMs ≠ 0 ∧ chunk.blocks.length < MIN_BATCH) := by
      rw [← nextBatchLen_eq_none_iff, hnext]
      nofun
    simp only [hended, hgoing, ne_eq, reduceCtorEq, not_false_eq_true, controllerOk, htarget,
      hcurrent, Bool.or_eq_true, beq_iff_eq, decide_eq_true_eq, true_iff]
    omega

/--
In every scan in which no chunk shorter than the shortest batch takes a measurable time, the loop
does not panic and its calls tile the chunks, and it goes on until a chunk is through; the first turn
that breaks this panics, unless it fails otherwise.
-/
theorem subBatches_of_controller [DecidableEq F] {first : Nat} (hchunks : ChunksFrom first chunks)
    (h : (overChunks api cfg chunks).Reach (fun s e => controllerOk cfg s e = true) s)
    : SubBatched chunks s
      ∧ (s.ended = none → ∀ chunk subStart, s.current = some (chunk, subStart) →
        (∀ inp, Scan.step api cfg s (.subBatch inp) ≠ none)
          ∨ ∀ interleave, Scan.step api cfg s (.chunkDone interleave) ≠ none)
      ∧ ∀ inp s', Scan.step api cfg s (.subBatch inp) = some s' →
        (∀ e, s'.ended ≠ some (.failed e)) →
        (s'.ended ≠ some .panicked ↔ controllerOk cfg s (.subBatch inp) = true) := by
  have hinv : ∃ done now, BatchInv chunks s done now := by
    apply h.invariant
    . rintro _ rfl
      exact ⟨[], [], rfl, nofun, ⟨chunks, rfl, Or.inl rfl⟩, by simp [init], by simp [init],
        fun _ _ => ⟨rfl, rfl⟩, by simp [init]⟩
    . rintro s e s' ⟨done, now, hinv⟩ hok hstep
      exact hinv.step hchunks hok hstep
  obtain ⟨done, now, hinv⟩ := hinv
  refine ⟨hinv.subBatched hchunks, fun hgoing _ _ => hinv.enabled hchunks hgoing, ?_⟩
  intro inp s' hstep
  have hgoing : s.ended = none := by
    by_contra hended
    obtain ⟨e, he⟩ := Option.ne_none_iff_exists'.mp hended
    simp [Scan.step, he] at hstep
  exact panicked_iff hgoing hstep

def tenBlocksBatched : ScanConfig := { tenBlocksScan with batchTargetMs := some 500 }

def firstTurn (elapsedMs : Nat) : List (ScanEvent Unit) :=
  [.seed (answeredAt 99), .recv,
    .subBatch {
      scan := .ok ()
      submit := .ok ()
      elapsedMs
      boundary := answeredAt 109
      settled := fun _ => none
    }]

def tenBlocksChunk : Chunk := Chunk.fromBlocks 0 Fetch.tenBlocksAnswer

theorem subBatches_tenBlocks
    : ∃ s, (overChunks heightsOnly tenBlocksBatched [tenBlocksChunk]).Reach
        (fun s e => controllerOk tenBlocksBatched s e = true) s
      ∧ s.calls.map ScanCall.limit = [10] ∧ SubBatched [tenBlocksChunk] s := by
  have hrun : ∃ s, (overChunks heightsOnly tenBlocksBatched [tenBlocksChunk]).runChecked
      (controllerOk tenBlocksBatched) (init [tenBlocksChunk]) (firstTurn 0) = some s
      ∧ s.calls.map ScanCall.limit = [10] :=
    ⟨_, rfl, rfl⟩
  obtain ⟨s, hs, hcalls⟩ := hrun
  have hreach := Machine.reach_of_runChecked (.start rfl) hs
  have hchunks : ChunksFrom 100 [tenBlocksChunk] := ⟨by decide, by unfold Consecutive; decide, trivial⟩
  exact ⟨s, hreach, hcalls, (subBatches_of_controller hchunks hreach).1⟩

/-- A chunk of ten blocks whose only sub-batch takes a millisecond. -/
theorem shortChunk_panics
    : batchTargetAccepted tenBlocksBatched.batchTargetMs = true
      ∧ ChunksFrom 100 [tenBlocksChunk]
      ∧ ∃ s, (overChunks heightsOnly tenBlocksBatched [tenBlocksChunk]).Reachable s
        ∧ s.ended = some .panicked := by
  have hrun : ∃ s, (overChunks heightsOnly tenBlocksBatched [tenBlocksChunk]).run
      (init [tenBlocksChunk]) (firstTurn 1) = some s ∧ s.ended = some .panicked :=
    ⟨_, rfl, rfl⟩
  obtain ⟨s, hs, hended⟩ := hrun
  refine ⟨by decide, ⟨by decide, by unfold Consecutive; decide, trivial⟩, s, ?_, hended⟩
  exact Machine.reachable_of_run (.start rfl) hs

end Scan
end Slipstream
