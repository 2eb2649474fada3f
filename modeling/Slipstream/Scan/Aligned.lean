import Slipstream.Scan.Impl.Loop
import Slipstream.Fetch.Ordered

/-!
This module contains the threading of chain states through a scan: every scan call starts from the
state right below its first block as long as the server's tree states carry the heights they were
asked for.
-/

namespace Slipstream

structure Releasable (chunks : List Chunk) : Prop where
  linked : Linked (chunks.flatMap Chunk.blocks)
  nonempty : ∀ c ∈ chunks, c.blocks ≠ []

theorem Fetch.sent_releasable (h : (Fetch.machine plan budgetBytes).Reachable s)
    : Releasable s.queue.sent := by
  obtain ⟨log, hinv⟩ := Fetch.inv_of_reachable h
  exact ⟨hinv.release.linked.left_of_append, hinv.release.chunks⟩

theorem Linked.head_le_last {blocks : List CompactBlock} (h : Linked blocks)
    (hb : blocks.head? = some b) (hx : blocks.getLast? = some x) : b.height ≤ x.height := by
  induction blocks generalizing b with
  | nil => cases hb
  | cons y ys ih =>
    cases hb
    cases ys with
    | nil =>
      cases hx
      exact Nat.le_refl _
    | cons z zs =>
      obtain ⟨hfollows, hchain⟩ := List.isChain_cons_cons.mp h
      have := ih hchain rfl (by simpa using hx)
      have := hfollows.1
      omega

namespace Releasable

theorem next_start (h : Releasable (c :: d :: rest)) (hc : c.endHeight = some n)
    (hd : d.startHeight = some m) : m = n + 1 := by
  have hlinked := h.linked
  rw [List.flatMap_cons, List.flatMap_cons, ← List.append_assoc] at hlinked
  unfold Chunk.endHeight at hc
  unfold Chunk.startHeight at hd
  rw [Option.map_eq_some_iff] at hc hd
  obtain ⟨x, hx, rfl⟩ := hc
  obtain ⟨y, hy, rfl⟩ := hd
  have hboth := (List.isChain_append.mp hlinked.left_of_append).2.2
  exact (hboth x hx y hy).1

theorem start_le_end (h : Releasable (c :: rest)) (hs : c.startHeight = some n)
    (he : c.endHeight = some m) : n ≤ m := by
  have hlinked := h.linked
  rw [List.flatMap_cons] at hlinked
  unfold Chunk.startHeight at hs
  unfold Chunk.endHeight at he
  rw [Option.map_eq_some_iff] at hs he
  obtain ⟨x, hx, rfl⟩ := hs
  obtain ⟨y, hy, rfl⟩ := he
  exact Linked.head_le_last hlinked.left_of_append hx hy

theorem tail (h : Releasable (c :: rest)) : Releasable rest := by
  refine ⟨?_, fun d hd => h.nonempty d (List.mem_cons_of_mem _ hd)⟩
  have := h.linked
  rw [List.flatMap_cons] at this
  exact this.right_of_append

end Releasable

namespace Scan

variable {T F : Type} {api : TreeStateApi T F} {cfg : ScanConfig} {s s' : ScanState T F}

def requestedBoundary (s : ScanState T F) : Option Nat :=
  match s.current with
  | some (chunk, subStart) =>
    chunk.endHeight.map fun chunkEnd =>
      subStart + Nat.min s.batchLen (chunkEnd + 1 - subStart) - 1
  | none => none

def answersOk (cfg : ScanConfig) (s : ScanState T F) : ScanEvent T → Bool
  | .seed attempts =>
    match retryGetTreeState attempts, s.incoming.head?.bind Chunk.startHeight with
    | .ok ts, some first => ts.height + 1 == first
    | _, _ => true
  | .subBatch inp =>
    match retryGetTreeState inp.boundary, requestedBoundary s with
    | .ok ts, some boundary =>
      !needsServerBoundaryState cfg.localMode false boundary cfg.rangeEnd
        || ts.height == boundary
    | _, _ => true
  | _ => true

def stateHeight (s : ScanState T F) : Option Nat :=
  match s.localTs, s.localBoundary with
  | some _, some (bh, _) => some bh
  | _, _ => s.nextState.map TreeState.height

def position (s : ScanState T F) : Option Nat :=
  match s.current with
  | some (_, subStart) => some subStart
  | none => s.incoming.head?.bind Chunk.startHeight

def queued (s : ScanState T F) : List Chunk :=
  match s.current with
  | some (chunk, _) => chunk :: s.incoming
  | none => s.incoming

def Aligned (s : ScanState T F) : Prop :=
  ∀ call ∈ s.calls, call.fromState.blockHeight + 1 = call.fromHeight

structure Running (cfg : ScanConfig) (s : ScanState T F) : Prop where
  unseeded : s.nextState = none → s.current = none ∧ s.localTs = none
  queue : Releasable (queued s)
  server : cfg.localMode = false → s.localTs = none
  within : ∀ chunk n e, s.current = some (chunk, n) → chunk.endHeight = some e →
    n ≤ e + 1 ∧ e ≤ cfg.rangeEnd
  state : ∀ p h, position s = some p → p ≤ cfg.rangeEnd → stateHeight s = some h → h + 1 = p

structure ScanInv (cfg : ScanConfig) (s : ScanState T F) : Prop where
  aligned : Aligned s
  running : s.ended = none → Running cfg s

theorem fromState_height (h : fromState api s seed = .ok state) (hseed : s.nextState = some seed)
    : stateHeight s = some state.blockHeight := by
  unfold fromState at h
  split at h
  . next ts bh bhash hts hb =>
    split at h
    . cases h
      simp [stateHeight, hts, hb]
    . cases h
  . next hnot =>
    have hserver : stateHeight s = s.nextState.map TreeState.height := by
      unfold stateHeight
      split
      . next ts bh bhash hts hb => exact absurd hb (hnot ts bh bhash hts)
      . rfl
    split at h
    . next hparse =>
      cases h
      rw [hserver, hseed, Option.map_some, api.toChainState_height _ _ hparse]
    . cases h

theorem ScanInv.of_ended (haligned : Aligned s) (hended : s.ended ≠ none) : ScanInv cfg s :=
  ⟨haligned, fun hnone => absurd hnone hended⟩

theorem ScanInv.seed (h : ScanInv cfg s) (hgoing : s.ended = none) (hstart : s.nextState = none)
    (hok : answersOk cfg s (.seed attempts) = true) : ScanInv cfg (seedStep s attempts) := by
  have hrun := h.running hgoing
  obtain ⟨hcur, hts⟩ := hrun.unseeded hstart
  unfold seedStep
  split
  . exact .of_ended h.aligned (by simp [fail])
  . next ts hanswer =>
    refine ⟨h.aligned, fun _ => ⟨by simp, hrun.queue, hrun.server, hrun.within, ?_⟩⟩
    intro p n hp hle hn
    simp only [position, hcur] at hp
    simp only [stateHeight, hts, Option.map_some, Option.some.injEq] at hn
    simp only [answersOk, hanswer, hp, beq_iff_eq] at hok
    omega

theorem ScanInv.recv (h : ScanInv cfg s) (hgoing : s.ended = none)
    (hstep : recvStep cfg s = some s') : ScanInv cfg s' := by
  have hrun := h.running hgoing
  unfold recvStep at hstep
  split at hstep
  . next seed chunk rest hcur hseed hincoming =>
    have hqueue : Releasable (chunk :: rest) := by
      simpa only [queued, hcur, hincoming] using hrun.queue
    split at hstep
    . next chunkStart chunkEnd hfirst hlast =>
      split at hstep
      . cases hstep
        exact .of_ended h.aligned (by simp [fail])
      . next hle =>
        cases hstep
        refine ⟨h.aligned, fun _ => ⟨by simp [hseed], hqueue, hrun.server, ?_, ?_⟩⟩
        . intro c n e hc he
          cases hc
          rw [hlast, Option.some.injEq] at he
          have := hqueue.start_le_end hfirst hlast
          omega
        . intro p n hp
          apply hrun.state
          simpa [position, hcur, hincoming, hfirst] using hp
    . cases hstep
      exact .of_ended h.aligned (by simp [fail])
  . cases hstep

theorem ScanInv.chunkDone (h : ScanInv cfg s) (hgoing : s.ended = none)
    (hstep : chunkDoneStep s interleave = some s') : ScanInv cfg s' := by
  have hrun := h.running hgoing
  unfold chunkDoneStep at hstep
  split at hstep
  . next chunk subStart hcur =>
    split at hstep
    . next chunkEnd hend =>
      split at hstep
      . next hthrough =>
        split at hstep
        . cases hstep
          exact .of_ended h.aligned (by simp [fail])
        . cases hstep
          have hqueue : Releasable (chunk :: s.incoming) := by
            simpa only [queued, hcur] using hrun.queue
          have hwithin := hrun.within chunk subStart chunkEnd hcur hend
          refine ⟨h.aligned, fun _ => ⟨?_, hqueue.tail, hrun.server, by simp, ?_⟩⟩
          . intro hnone
            exact ⟨rfl, (hrun.unseeded hnone).2⟩
          . intro p n hp
            apply hrun.state
            simp only [position, hcur, Option.some.injEq] at hp ⊢
            -- The next chunk starts where this one ended.
            cases hin : s.incoming with
            | nil => simp [hin] at hp
            | cons d ds =>
              rw [hin] at hp hqueue
              have := hqueue.next_start hend (by simpa using hp)
              omega
      . cases hstep
    . cases hstep
  . cases hstep

theorem absorbStep_ok (h : absorbStep api s chunk chunkStart subStart len = .ok s')
    : (s.localTs = none ∧ s' = s)
      ∨ (s.localTs ≠ none ∧ ∃ ts hash, s' = {
          s with localTs := some ts, localBoundary := some (subStart + len - 1, hash) }) := by
  unfold absorbStep at h
  split at h
  . next hnone =>
    cases h
    exact Or.inl ⟨hnone, rfl⟩
  . next hsome =>
    split at h
    . cases h
    . cases h
      exact Or.inr ⟨by simp [hsome], _, _, rfl⟩

theorem boundaryStep_ok (h : boundaryStep cfg s audit subEnd attempts = .ok s')
    : (cfg.localMode = true ∧ ∃ audits, s' = { s with audits })
      ∨ (cfg.localMode = false ∧ cfg.rangeEnd ≤ subEnd ∧ s' = s)
      ∨ (cfg.localMode = false ∧ ∃ ts, retryGetTreeState attempts = .ok ts
        ∧ subEnd < cfg.rangeEnd ∧ s' = { s with nextState := some ts }) := by
  unfold boundaryStep needsServerBoundaryState at h
  cases hmode : cfg.localMode with
  | true =>
    left
    refine ⟨rfl, ?_⟩
    simp only [hmode, if_true] at h
    split at h
    . split at h
      all_goals
        cases h
        exact ⟨_, rfl⟩
    . cases h
      exact ⟨_, rfl⟩
  | false =>
    right
    simp only [hmode, Bool.false_eq_true, if_false, decide_eq_true_eq] at h
    split at h
    . next hlt =>
      split at h
      . cases h
      . next ts hanswer =>
        cases h
        exact Or.inr ⟨rfl, ts, hanswer, hlt, rfl⟩
    . next hge =>
      cases h
      exact Or.inl ⟨rfl, by omega, rfl⟩

structure Scanned (cfg : ScanConfig) (s : ScanState T F) (chunk : Chunk) (subStart len : Nat)
    : Prop where
  aligned : Aligned s
  seeded : s.nextState ≠ none
  queue : Releasable (chunk :: s.incoming)
  mode : s.localTs.isSome = cfg.localMode
  first : 1 ≤ subStart
  fits : ∀ e, chunk.endHeight = some e → subStart + len ≤ e + 1 ∧ e ≤ cfg.rangeEnd

structure Behind (cfg : ScanConfig) (s s' : ScanState T F) (subEnd : Nat) : Prop where
  calls : s'.calls = s.calls
  incoming : s'.incoming = s.incoming
  seeded : s'.nextState ≠ none
  server : cfg.localMode = false → s'.localTs = none
  state : subEnd < cfg.rangeEnd → stateHeight s' = some subEnd

theorem Scanned.behind (h : Scanned cfg s chunk subStart len)
    (habsorb : absorbStep api s chunk chunkStart subStart len = .ok s₁)
    (hboundary : boundaryStep cfg s₁ audit (subStart + len - 1) attempts = .ok s₂)
    (hok : cfg.localMode = false → subStart + len - 1 < cfg.rangeEnd → ∀ ts,
      retryGetTreeState attempts = .ok ts → ts.height = subStart + len - 1)
    : Behind cfg s s₂ (subStart + len - 1) := by
  have hmode := h.mode
  rcases absorbStep_ok habsorb with ⟨hnone, rfl⟩ | ⟨hsome, ts, hash, rfl⟩
  . -- Server mode: the running frontiers were never seeded.
    have hserver : cfg.localMode = false := by simpa [hnone] using hmode.symm
    rcases boundaryStep_ok hboundary with
      ⟨hlocal, -⟩ | ⟨-, hpast, rfl⟩ | ⟨-, ts, hanswer, hlt, rfl⟩
    . simp [hserver] at hlocal
    . exact ⟨rfl, rfl, h.seeded, fun _ => hnone, fun hlt => absurd hlt (by omega)⟩
    . refine ⟨rfl, rfl, by simp, fun _ => hnone, fun _ => ?_⟩
      simp [stateHeight, hnone, hok hserver hlt ts hanswer]
  . have hlocal : cfg.localMode = true := by
      rw [← hmode, Option.isSome_iff_ne_none]
      exact hsome
    rcases boundaryStep_ok hboundary with ⟨-, audits, rfl⟩ | ⟨hserver, -⟩ | ⟨hserver, -⟩
    . exact ⟨rfl, rfl, h.seeded, by simp [hlocal], fun _ => rfl⟩
    all_goals simp [hlocal] at hserver

theorem settle_inv [DecidableEq F] (h : Scanned cfg s chunk subStart len)
    (hok : cfg.localMode = false → subStart + len - 1 < cfg.rangeEnd → ∀ ts,
      retryGetTreeState inp.boundary = .ok ts → ts.height = subStart + len - 1)
    : ScanInv cfg (settle api cfg s chunk chunkStart subStart len audit inp) := by
  unfold settle
  dsimp only
  split
  . exact .of_ended h.aligned (by simp [fail])
  . next s₁ habsorb =>
    have hcalls : s₁.calls = s.calls := by
      rcases absorbStep_ok habsorb with ⟨-, rfl⟩ | ⟨-, ts, hash, rfl⟩ <;> rfl
    split
    . exact .of_ended (by simpa [Aligned, fail, hcalls] using h.aligned) (by simp [fail])
    . next s₂ hboundary =>
      have hbehind := h.behind habsorb hboundary hok
      have haligned : Aligned s₂ := by simpa [Aligned, hbehind.calls] using h.aligned
      split
      . exact .of_ended haligned (by simp [fail])
      . next audits hdrain =>
        have hrunning : ∀ batchLen, Running cfg {
            s₂ with audits, batchLen, current := some (chunk, subStart + len - 1 + 1) } := by
          intro batchLen
          refine ⟨fun hnone => absurd hnone hbehind.seeded, ?_, hbehind.server, ?_, ?_⟩
          . simpa only [queued, hbehind.incoming] using h.queue
          . intro c n e hc he
            cases hc
            have := h.fits e he
            have := h.first
            omega
          . intro p n hp hle hn
            have hp : subStart + len - 1 + 1 = p := by simpa [position] using hp
            have hstate : stateHeight s₂ = some n := hn
            rw [hbehind.state (by omega), Option.some.injEq] at hstate
            omega
        split
        . exact ⟨haligned, fun _ => hrunning s₂.batchLen⟩
        . split
          . exact .of_ended haligned (by simp)
          . next batchLen hnext => exact ⟨haligned, fun _ => hrunning batchLen⟩

theorem seedLocal_localTs (hserver : cfg.localMode = false → s.localTs = none)
    : (seedLocal cfg s state).localTs.isSome = cfg.localMode := by
  unfold seedLocal
  cases hmode : cfg.localMode with
  | false => simp [hserver hmode]
  | true => cases hts : s.localTs <;> simp [hts]

theorem seedLocal_frame (cfg : ScanConfig) (s : ScanState T F) (state : ChainState F)
    : (seedLocal cfg s state).calls = s.calls ∧ (seedLocal cfg s state).incoming = s.incoming
      ∧ (seedLocal cfg s state).nextState = s.nextState := by
  unfold seedLocal
  split <;> exact ⟨rfl, rfl, rfl⟩

theorem ScanInv.subBatch [DecidableEq F] (h : ScanInv cfg s) (hgoing : s.ended = none)
    (hok : answersOk cfg s (.subBatch inp) = true)
    (hstep : subBatchStep api cfg s inp = some s') : ScanInv cfg s' := by
  have hrun := h.running hgoing
  unfold subBatchStep at hstep
  split at hstep
  . next chunk subStart seed hcur hseed =>
    split at hstep
    . next chunkStart chunkEnd hfirst hlast =>
      dsimp only at hstep
      split at hstep
      . cases hstep
      . next hremaining =>
        obtain ⟨-, hrange⟩ := hrun.within chunk subStart chunkEnd hcur hlast
        have hqueue : Releasable (chunk :: s.incoming) := by
          simpa only [queued, hcur] using hrun.queue
        have hlen : Nat.min s.batchLen (chunkEnd + 1 - subStart) ≤ chunkEnd + 1 - subStart :=
          Nat.min_le_right _ _
        split at hstep
        . cases hstep
          exact .of_ended h.aligned (by simp [fail])
        . next state hstate =>
          have hheight : state.blockHeight + 1 = subStart :=
            hrun.state subStart state.blockHeight (by simp [position, hcur]) (by omega)
              (fromState_height hstate hseed)
          have hserver : cfg.localMode = false →
              { s with boundaryIndex := s.boundaryIndex + 1 }.localTs = none := hrun.server
          have hmode : (seedLocal cfg { s with boundaryIndex := s.boundaryIndex + 1 }
              state).localTs.isSome = cfg.localMode := seedLocal_localTs hserver
          obtain ⟨hcalls, hincoming, hnext⟩ :=
            seedLocal_frame cfg { s with boundaryIndex := s.boundaryIndex + 1 } state
          generalize seedLocal cfg { s with boundaryIndex := s.boundaryIndex + 1 } state = s₁
            at *
          split at hstep
          . cases hstep
            exact .of_ended (by simpa [Aligned, fail, hcalls] using h.aligned) (by simp [fail])
          . generalize hs₂ : ScanState.mk .. = s₂ at hstep
            have haligned : Aligned s₂ := by
              subst hs₂
              intro call hcall
              rw [List.mem_append, List.mem_singleton, hcalls] at hcall
              rcases hcall with hcall | rfl
              . exact h.aligned call hcall
              . exact hheight
            split at hstep
            . cases hstep
              exact .of_ended haligned (by simp [fail])
            . cases hstep
              exact .of_ended haligned (by simp [fail])
            . cases hstep
              subst hs₂
              apply settle_inv
              case h =>
                refine ⟨haligned, by simp [hnext, hseed], ?_, hmode, by omega, ?_⟩
                . simpa only [hincoming] using hqueue
                . intro e he
                  rw [hlast, Option.some.injEq] at he
                  omega
              case hok =>
                intro hmode hlt ts hanswer
                have hrequest : requestedBoundary s
                    = some (subStart + Nat.min s.batchLen (chunkEnd + 1 - subStart) - 1) := by
                  simp [requestedBoundary, hcur, hlast]
                simp only [answersOk, hanswer, hrequest, needsServerBoundaryState, hmode,
                  Bool.false_eq_true, if_false, Bool.or_eq_true, Bool.not_eq_true', beq_iff_eq,
                  decide_eq_false_iff_not] at hok
                exact hok.resolve_left (not_not_intro hlt)
    . cases hstep
  . cases hstep

theorem ScanInv.closed [DecidableEq F] (h : ScanInv cfg s)
    (hstep : closedStep api s settled = some s') : ScanInv cfg s' := by
  unfold closedStep at hstep
  split at hstep
  . split at hstep
    . cases hstep
      exact .of_ended h.aligned (by simp [fail])
    . cases hstep
      exact .of_ended h.aligned (by simp)
  . cases hstep

theorem ScanInv.step [DecidableEq F] (h : ScanInv cfg s) (hok : answersOk cfg s e = true)
    (hstep : Scan.step api cfg s e = some s') : ScanInv cfg s' := by
  unfold Scan.step at hstep
  split at hstep
  . cases hstep
  . next hgoing =>
    have hgoing : s.ended = none := by simpa using hgoing
    cases e with
    | seed attempts =>
      dsimp at hstep
      split at hstep
      . cases hstep
      . next hstart =>
        cases hstep
        exact h.seed hgoing (by simpa using hstart) hok
    | recv => exact h.recv hgoing hstep
    | subBatch inp => exact h.subBatch hgoing hok hstep
    | chunkDone interleave => exact h.chunkDone hgoing hstep
    | closed settled => exact h.closed hstep

/--
In every scan in which the tree states carry the heights they were asked for, each call starts from
the state of the block below it. The loop never compares an answer's height with anything, so a
server that answers with another height has it passed on into the call.
-/
theorem aligned_of_answers [DecidableEq F]
    (h : (machine api cfg plan budgetBytes).Reach (fun s e => answersOk cfg s e = true) s)
    : Aligned s := by
  have hinv : ScanInv cfg s := by
    apply h.invariant
    . rintro _ ⟨-, -, f, hf, rfl⟩
      refine ⟨by simp [Aligned, init], fun _ => ?_⟩
      refine ⟨by simp [init], Fetch.sent_releasable hf, by simp [init], by simp [init], ?_⟩
      intro p n hp hle hn
      simp [stateHeight, init] at hn
    . exact fun s e s' hinv hok hstep => hinv.step hok hstep
  exact hinv.aligned

/-- Tree states without content; only heights that fit in 32 bits parse. -/
def heightsOnly : TreeStateApi Unit Unit where
  toChainState ts :=
    if ts.height < 2 ^ 32 then
      .ok { blockHeight := ts.height, blockHash := [], frontiers := () }
    else
      .error "height"
  absorbBlock ts _ := .ok ts
  toChainState_height := by
    intro ts cs h
    split at h
    . cases h
      rfl
    . cases h

def tenBlocksScan : ScanConfig where
  rangeStart := Fetch.tenBlocks.start
  rangeEnd := Fetch.tenBlocks.stop
  localMode := false
  treestateVerifySample := 0
  batchTargetMs := none
  start_pos := by decide
  start_le := Fetch.tenBlocks.start_le

def answeredAt (height : Nat) (_ : Nat) : TreeStateAttempt Unit :=
  .answered (.ok { height, trees := () })

def oneChunk (seedHeight : Nat) : List (ScanEvent Unit) :=
  [.seed (answeredAt seedHeight), .recv,
    .subBatch {
      scan := .ok ()
      submit := .ok ()
      elapsedMs := 1
      boundary := answeredAt 109
      settled := fun _ => none
    },
    .chunkDone (.ok ()), .closed fun _ => none]

theorem tenBlocks_fetched
    : ∃ f, (Fetch.machine Fetch.tenBlocks 1000000).Reachable f
      ∧ f.queue.sent = [Chunk.fromBlocks 0 Fetch.tenBlocksAnswer] := by
  have hrun : ∃ f, (Fetch.machine Fetch.tenBlocks 1000000).run (Fetch.init Fetch.tenBlocks 1000000)
      (Fetch.oneStream Fetch.tenBlocksAnswer) = some f
      ∧ f.queue.sent = [Chunk.fromBlocks 0 Fetch.tenBlocksAnswer] :=
    ⟨_, rfl, rfl⟩
  obtain ⟨f, hf, hsent⟩ := hrun
  exact ⟨f, Machine.reachable_of_run (.start rfl) hf, hsent⟩

theorem aligned_tenBlocks
    : ∃ s, (machine heightsOnly tenBlocksScan Fetch.tenBlocks 1000000).Reach
        (fun s e => answersOk tenBlocksScan s e = true) s
      ∧ s.calls.length = 1 ∧ Aligned s := by
  obtain ⟨f, hf, hsent⟩ := tenBlocks_fetched
  have hrun : ∃ s, (machine heightsOnly tenBlocksScan Fetch.tenBlocks 1000000).runChecked
      (answersOk tenBlocksScan) (init [Chunk.fromBlocks 0 Fetch.tenBlocksAnswer]) (oneChunk 99)
      = some s ∧ s.calls.length = 1 :=
    ⟨_, rfl, rfl⟩
  obtain ⟨s, hs, hcalls⟩ := hrun
  rw [← hsent] at hs
  have hstart : (machine heightsOnly tenBlocksScan Fetch.tenBlocks 1000000).start
      (init f.queue.sent) := ⟨rfl, rfl, f, hf, rfl⟩
  have hreach := Machine.reach_of_runChecked (.start hstart) hs
  exact ⟨s, hreach, hcalls, aligned_of_answers hreach⟩

/-- A seed answered with the state at height 50 goes into the call that starts at height 100. -/
theorem wrongSeed_scanned
    : ∃ s, (machine heightsOnly tenBlocksScan Fetch.tenBlocks 1000000).Reachable s
      ∧ s.calls.map (fun c => (c.fromHeight, c.fromState.blockHeight)) = [(100, 50)]
      ∧ ¬Aligned s := by
  obtain ⟨f, hf, hsent⟩ := tenBlocks_fetched
  have hrun : ∃ s, (machine heightsOnly tenBlocksScan Fetch.tenBlocks 1000000).run
      (init [Chunk.fromBlocks 0 Fetch.tenBlocksAnswer]) (oneChunk 50) = some s
      ∧ s.calls = [⟨100, ⟨50, [], ()⟩, 10⟩] :=
    ⟨_, rfl, rfl⟩
  obtain ⟨s, hs, hcalls⟩ := hrun
  rw [← hsent] at hs
  refine ⟨s, Machine.reachable_of_run (.start ⟨rfl, rfl, f, hf, rfl⟩) hs, by simp [hcalls], ?_⟩
  intro haligned
  have := haligned ⟨100, ⟨50, [], ()⟩, 10⟩ (by simp [hcalls])
  simp at this

end Scan
end Slipstream
