import Slipstream.Fetch.Delivered

/-!
This module contains the height arithmetic of a fetch against a server that may send any 64-bit
height: which operations can overflow, and what becomes of a block above 32 bits.
-/

namespace Slipstream

inductive HeightOp where
  | add (a b : Nat)
  | sub (a b : Nat)
  | mul (a b : Nat)

def HeightOp.Overflows : HeightOp → Prop
  | .add a b => 2 ^ 64 ≤ a + b
  | .sub a b => a < b
  | .mul a b => 2 ^ 64 ≤ a * b

def FetchPlan.claimOps (plan : FetchPlan) (index : Nat) : List HeightOp :=
  [.sub plan.stop plan.start, .add (plan.stop - plan.start) 1] ++
    if index ≥ plan.chunkCount then
      []
    else
      let s := plan.start + index * plan.chunkBlocks
      [.mul index plan.chunkBlocks, .add plan.start (index * plan.chunkBlocks), .add s plan.chunkBlocks,
        .sub (s + plan.chunkBlocks) 1]

/-- `verify_blocks`: a block that fits 32 bits is compared with the height after the last one. -/
def Continuity.heightOps (c : Continuity) : List CompactBlock → List HeightOp
  | [] => []
  | b :: bs =>
    let compared := if b.height ≥ 2 ^ 32 then [] else (c.lastHeight.map (HeightOp.add · 1)).toList
    match c.verifyBlock b with
    | .ok c => compared ++ c.heightOps bs
    | .error _ => compared

def SubChunk.heightOps (sub : SubChunk) : List HeightOp :=
  (sub.blocks.getLast?.map fun b => HeightOp.add b.height 1).toList

namespace Fetch

/--
The operations on heights that an event's step evaluates. The splitter and the pump only compare
heights; the pump's one subtraction saturates.
-/
def heightOps (plan : FetchPlan) (s : FetchState) : FetchEvent → List HeightOp
  | .claim k =>
    match s.workers[k]? with
    | some .claiming => plan.claimOps s.next
    | _ => []
  | .send k =>
    match s.workers[k]? with
    | some (.sending _ sub _) => if s.result.isSome then [] else sub.heightOps
    | _ => []
  | .drain =>
    match s.reorder.pending.find? fun p => (p.planIndex, p.subIndex) = s.reorder.next with
    | some sub => s.reorder.continuity.heightOps sub.blocks
    | none => []
  | .release =>
    match s.reorder.phase with
    | .sending sub => if s.queue.receiverGone then [] else sub.heightOps
    | _ => []
  | _ => []

def HandsOverMax (s : FetchState) (e : FetchEvent) : Prop :=
  ∃ k a sub after b, e = .send k ∧ s.workers[k]? = some (.sending a sub after) ∧ s.result = none
    ∧ sub.blocks.getLast? = some b ∧ b.height = 2 ^ 64 - 1

def Reaches (s : FetchState) (b : CompactBlock) : Prop :=
  s.result = none ∧ s.reorder.phase = .draining
    ∧ ∃ sub before after c,
      s.reorder.pending.find? (fun p => (p.planIndex, p.subIndex) = s.reorder.next) = some sub
      ∧ sub.blocks = before ++ b :: after ∧ s.reorder.continuity.verifyBlocks before = .ok c

end Fetch

theorem FetchPlan.claimOps_fit (plan : FetchPlan) (hblocks : plan.chunkBlocks < 2 ^ 32)
    (hop : op ∈ plan.claimOps index) : ¬op.Overflows := by
  have hle := plan.start_le
  have hstop := plan.stop_lt
  have hpos := plan.chunkBlocks_pos
  unfold claimOps at hop
  rcases List.mem_append.mp hop with hop | hop
  . simp only [List.mem_cons, List.not_mem_nil, or_false] at hop
    rcases hop with rfl | rfl
    all_goals
      unfold HeightOp.Overflows
      omega
  . split at hop
    . cases hop
    . next hindex =>
      have hlt := (plan.lt_chunkCount_iff index).mp (Nat.lt_of_not_le hindex)
      simp only [List.mem_cons, List.not_mem_nil, or_false] at hop
      rcases hop with rfl | rfl | rfl | rfl
      all_goals
        unfold HeightOp.Overflows
        omega

namespace Continuity

theorem verifyBlock_lastHeight {c : Continuity} (h : c.verifyBlock b = .ok c')
    : b.height < 2 ^ 32 ∧ c'.lastHeight = some b.height := by
  unfold verifyBlock at h
  split at h
  . cases h
  . next hlt =>
    split at h
    . cases h
    . split at h
      . cases h
      . cases h
        exact ⟨Nat.lt_of_not_le hlt, rfl⟩

theorem heightOps_fit {c : Continuity} (hc : ∀ h, c.lastHeight = some h → h < 2 ^ 32)
    (hop : op ∈ c.heightOps blocks) : ¬op.Overflows := by
  have hcompared : ∀ (c : Continuity) (b : CompactBlock),
      (∀ h, c.lastHeight = some h → h < 2 ^ 32) →
      ∀ op ∈ (if b.height ≥ 2 ^ 32 then [] else (c.lastHeight.map (HeightOp.add · 1)).toList),
        ¬op.Overflows := by
    intro c b hc op hop
    split at hop
    . cases hop
    . obtain ⟨h, hlast, rfl⟩ := Option.map_eq_some_iff.mp (Option.mem_toList.mp hop)
      have := hc h hlast
      unfold HeightOp.Overflows
      omega
  induction blocks generalizing c with
  | nil => cases hop
  | cons b bs ih =>
    rw [heightOps] at hop
    split at hop
    . next c' hb =>
      obtain ⟨hlt, hlast⟩ := verifyBlock_lastHeight hb
      rcases List.mem_append.mp hop with hop | hop
      . exact hcompared c b hc op hop
      . apply ih _ hop
        intro h hh
        rw [hlast, Option.some.injEq] at hh
        omega
    . exact hcompared c b hc op hop

theorem verifyBlocks_misbehaving {c : Continuity} (h : c.verifyBlocks before = .ok c')
    (hb : 2 ^ 32 ≤ b.height) (after : List CompactBlock)
    : c.verifyBlocks (before ++ b :: after) = .error .misbehavingServer := by
  induction before generalizing c with
  | nil =>
    cases h
    rw [List.nil_append, verifyBlocks, verifyBlock, if_pos hb]
  | cons x xs ih =>
    rw [verifyBlocks] at h
    rw [List.cons_append, verifyBlocks]
    split at h
    . cases h
    . exact ih h

end Continuity

theorem SubChunk.heightOps_fit {sub : SubChunk} (h : ∀ b ∈ sub.blocks, b.height < 2 ^ 32)
    (hop : op ∈ sub.heightOps) : ¬op.Overflows := by
  obtain ⟨b, hb, rfl⟩ := Option.map_eq_some_iff.mp (Option.mem_toList.mp hop)
  have := h b (List.mem_of_getLast? hb)
  unfold HeightOp.Overflows
  omega

namespace Fetch

variable {plan : FetchPlan} {budgetBytes : Nat} {log : Log} {s s' : FetchState}

def Narrow (s : FetchState) : Prop := ∀ b ∈ released s ++ inHand s, b.height < 2 ^ 32

theorem Narrow.frame (h : Narrow s) (hsent : s'.queue.sent = s.queue.sent)
    (hphase : s'.reorder.phase = s.reorder.phase) : Narrow s' := by
  unfold Narrow at h ⊢
  have hreleased : released s' = released s := by rw [released, hsent]; rfl
  have hhand : inHand s' = inHand s := by rw [inHand, hphase]; rfl
  rwa [hreleased, hhand]

theorem Narrow.idle (h : Narrow s) (hsent : s'.queue.sent = s.queue.sent) (hidle : inHand s' = [])
    : Narrow s' := by
  intro b hb
  have hreleased : released s' = released s := by rw [released, hsent]; rfl
  rw [hreleased, hidle, List.append_nil] at hb
  exact h b (List.mem_append_left _ hb)

theorem Narrow.stage (h : Narrow s) (hinv : FetchInv plan spec log s)
    (ht : StageTrans plan s e s') : Narrow s' := by
  cases ht with
  | received hphase => exact h.idle rfl rfl
  | drained => exact h.idle rfl rfl
  | ends => exact h.idle rfl rfl
  | verified hphase hsub hkey hverify =>
    have hidle : inHand s = [] := by simp [inHand, hphase]
    have hlinked := hinv.release.linked
    have hfrontier := hinv.release.frontier
    obtain ⟨-, -, hbelow⟩ := Continuity.verifyBlocks_ok hfrontier hlinked hverify
    intro b hb
    rcases List.mem_append.mp hb with hb | hb
    . exact h b (List.mem_append_left _ hb)
    . exact hbelow b hb
  | @released sub hphase =>
    intro b hb
    have hreleased : Fetch.released (afterRelease s sub) = Fetch.released s ++ inHand s := by
      simp [Fetch.released, afterRelease, Chunk.fromBlocks, inHand, hphase]
    have hidle : inHand (afterRelease s sub) = [] := rfl
    rw [hreleased, hidle, List.append_nil] at hb
    exact h b hb
  | _ => exact h.frame rfl rfl

theorem Narrow.step (h : Narrow s) (hinv : FetchInv plan spec log s)
    (hstep : Fetch.step plan s e = some s') : Narrow s' := by
  cases trans_of_step hstep with
  | worker ht => cases ht <;> exact h.frame rfl rfl
  | stage hrunning ht => exact h.stage hinv ht
  | scannerReturns => exact h.frame rfl rfl
  | scannerGone => exact h.frame rfl rfl

theorem narrow_of_reachable (h : (machine plan budgetBytes).Reachable s)
    : Narrow s ∧ ∀ height, s.reorder.continuity.lastHeight = some height → height < 2 ^ 32 := by
  obtain ⟨hist, hlogged⟩ := logged_of_reach h
  obtain ⟨hinv, hnarrow⟩ : FetchInv plan anyStream hist.log s ∧ Narrow s :=
    logged_invariant (fun _ s => Narrow s) (fun _ _ _ _ _ _ _ _ _ _ _ => trivial)
      (by simp [Narrow, init, released, inHand, ChunkQueue.new])
      (fun _ _ _ _ hinv hnarrow hstep => hnarrow.step hinv hstep) hlogged
  refine ⟨hnarrow, fun height hheight => ?_⟩
  rw [hinv.release.frontier.2, Option.map_eq_some_iff] at hheight
  obtain ⟨b, hb, rfl⟩ := hheight
  exact hnarrow b (List.mem_of_getLast? hb)

theorem overflows_iff (hblocks : plan.chunkBlocks < 2 ^ 32) (hnarrow : Narrow s)
    (hlast : ∀ height, s.reorder.continuity.lastHeight = some height → height < 2 ^ 32)
    : (∃ op ∈ heightOps plan s e, op.Overflows) ↔ HandsOverMax s e := by
  constructor
  . rintro ⟨op, hop, hoverflows⟩
    cases e with
    | claim k =>
      rw [heightOps] at hop
      split at hop
      . exact absurd hoverflows (plan.claimOps_fit hblocks hop)
      . cases hop
    | send k =>
      rw [heightOps] at hop
      split at hop
      . next a sub after hk =>
        split at hop
        . cases hop
        . next hrunning =>
          obtain ⟨b, hb, rfl⟩ := Option.map_eq_some_iff.mp (Option.mem_toList.mp hop)
          refine ⟨k, a, sub, after, b, rfl, hk, by simpa using hrunning, hb, ?_⟩
          have := b.height_lt
          unfold HeightOp.Overflows at hoverflows
          omega
      . cases hop
    | drain =>
      rw [heightOps] at hop
      split at hop
      . exact absurd hoverflows (Continuity.heightOps_fit hlast hop)
      . cases hop
    | release =>
      rw [heightOps] at hop
      split at hop
      . next sub hphase =>
        split at hop
        . cases hop
        . apply absurd hoverflows
          apply SubChunk.heightOps_fit _ hop
          intro b hb
          apply hnarrow b
          simp [inHand, hphase, hb]
      . cases hop
    | _ => cases hop
  . rintro ⟨k, a, sub, after, b, rfl, hk, hrunning, hb, hmax⟩
    refine ⟨.add b.height 1, ?_, ?_⟩
    . simp [heightOps, hk, hrunning, SubChunk.heightOps, hb]
    . unfold HeightOp.Overflows
      omega

theorem Reaches.fails (h : Reaches s b) (hb : 2 ^ 32 ≤ b.height)
    : ∃ s', step plan s .drain = some s' ∧ s'.result = some (.error .misbehavingServer) := by
  obtain ⟨hrunning, hphase, sub, before, after, c, hfind, hblocks, hverify⟩ := h
  have hbad := Continuity.verifyBlocks_misbehaving hverify hb after
  rw [← hblocks] at hbad
  refine ⟨fail { s with reorder := { s.reorder with pending := rest s } } .misbehavingServer, ?_, rfl⟩
  change (if s.result.isSome then none else drainStep s) = _
  rw [hrunning, drainStep, hphase]
  dsimp only
  rw [hfind]
  dsimp only
  rw [hbad]
  rfl

/--
What a fetch makes of the heights a server chooses. Its only overflow is in `emit_sub_chunk`, when a
sub-chunk ends at the greatest 64-bit height; `chunk_blocks` is a `u32`. A block above 32 bits is
never released, and fails the fetch when the ordered release comes to it.
-/
theorem hostile_heights (hblocks : plan.chunkBlocks < 2 ^ 32)
    (h : (machine plan budgetBytes).Reachable s)
    : (∀ e s', step plan s e = some s' →
        ((∃ op ∈ heightOps plan s e, op.Overflows) ↔ HandsOverMax s e))
      ∧ (∀ b ∈ released s, b.height < 2 ^ 32)
      ∧ ∀ b, Reaches s b → 2 ^ 32 ≤ b.height →
        ∃ s', step plan s .drain = some s'
          ∧ ∀ es s'', (machine plan budgetBytes).run s' es = some s'' →
            s''.result = some (.error .misbehavingServer) := by
  obtain ⟨hnarrow, hlast⟩ := narrow_of_reachable h
  refine ⟨?_, ?_, ?_⟩
  . intro e s' _
    exact overflows_iff hblocks hnarrow hlast
  . intro b hb
    exact hnarrow b (List.mem_append_left _ hb)
  . intro b hreaches hb
    obtain ⟨s', hstep, hresult⟩ := hreaches.fails hb
    refine ⟨s', hstep, fun es s'' hrun => ?_⟩
    exact (result_stays_over (by simp [hresult]) hrun).trans hresult

section Samples

def highest : CompactBlock where
  height := 2 ^ 64 - 1
  hash := [1]
  prevHash := []
  encodedLen := 100
  height_lt := by decide

def sendsHighest : List FetchEvent :=
  [.input 0 .connected, .claim 0, .input 0 .opened, .input 0 (.block highest false),
    .input 0 .endOfStream, .gate 0]

theorem reachable_of_events (h : (machine plan budgetBytes).run (init plan budgetBytes) es = some s)
    : (machine plan budgetBytes).Reachable s :=
  Machine.reachable_of_run (.start rfl) h

theorem hostile_heights_twoBlocks
    : ∃ s s', (machine twoBlocks 1000000).run (init twoBlocks 1000000)
          (sendsHighest ++ [.send 0, .recv 0.0]) = some s
        ∧ step twoBlocks s .drain = some s' ∧ s'.result = some (.error .misbehavingServer)
        ∧ ¬∃ op ∈ heightOps twoBlocks s .drain, op.Overflows := by
  have hrun : ∃ s, (machine twoBlocks 1000000).run (init twoBlocks 1000000)
      (sendsHighest ++ [.send 0, .recv 0.0]) = some s ∧ Reaches s highest :=
    ⟨_, rfl, rfl, rfl, _, [], [], _, rfl, rfl, rfl⟩
  obtain ⟨s, hrun, hreaches⟩ := hrun
  obtain ⟨hoverflows, -, hfails⟩ := hostile_heights (by decide) (reachable_of_events hrun)
  obtain ⟨s', hstep, hresult⟩ := hfails highest hreaches (by decide)
  refine ⟨s, s', hrun, hstep, hresult [] s' rfl, ?_⟩
  rw [hoverflows _ _ hstep]
  rintro ⟨k, a, sub, after, b, hevent, -⟩
  cases hevent

/-- The resume height wraps to 0 in a release build; a build with overflow checks panics. -/
theorem highest_overflows
    : ∃ s s' c, (machine twoBlocks 1000000).run (init twoBlocks 1000000) sendsHighest = some s
        ∧ step twoBlocks s (.send 0) = some s'
        ∧ (∃ op ∈ heightOps twoBlocks s (.send 0), op.Overflows)
        ∧ s'.workers[0]? = some (.connecting (some (c, 0))) ∧ c.resumeFrom = 0 := by
  refine ⟨_, _, _, rfl, rfl, ⟨.add (2 ^ 64 - 1) 1, ?_, ?_⟩, rfl, rfl⟩
  . exact List.mem_singleton.mpr rfl
  . exact Nat.le_refl _

end Samples

end Fetch
end Slipstream
