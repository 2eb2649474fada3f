import Slipstream.WriteBehind.Lemmas.Walk
import Slipstream.Scan.SubBatches

/-!
This module contains where a scan of consecutive chunks goes on: every turn of the sub-batch loop
starts at the height after the last one, and its call is for the blocks from there on.
-/

namespace Slipstream
namespace WriteBehind

variable {T F : Type} {tree : Scan.TreeStateApi T F} {cfg : Scan.ScanConfig}
variable {s s' : Scan.ScanState T F} {next : Nat}

structure NextAt (s : Scan.ScanState T F) (next : Nat) : Prop where
  idle : s.ended = none → s.current = none → ChunksFrom next s.incoming
  busy : s.ended = none → ∀ chunk subStart, s.current = some (chunk, subStart) →
    subStart = next ∧ 0 < s.batchLen ∧ chunk.blocks ≠ []
      ∧ ∃ first, first ≤ next ∧ next ≤ first + chunk.blocks.length
        ∧ Consecutive first chunk.blocks ∧ ChunksFrom (first + chunk.blocks.length) s.incoming

theorem filter_range' (first count start : Nat) (hfirst : first ≤ start)
    : (List.range' first count).filter (fun n => decide (start ≤ n))
      = List.range' start (first + count - start) := by
  induction count generalizing first with
  | zero => simp [Nat.sub_eq_zero_of_le hfirst]
  | succ count ih =>
    rw [List.range'_succ]
    by_cases heq : first = start
    . subst heq
      rw [List.filter_eq_self.mpr, Nat.add_sub_cancel_left, List.range'_succ]
      intro n hn
      rcases List.mem_cons.mp hn with rfl | hn
      . simp
      . have := (List.mem_range'_1.mp hn).1
        simp only [decide_eq_true_eq]
        omega
    . rw [List.filter_cons_of_neg (by simp; omega), ih (first + 1) (by omega)]
      congr 1
      omega

theorem Call.heights_of_consecutive {call : Call F} {first : Nat}
    (h : Consecutive first call.chunk.blocks) (hfirst : first ≤ call.fromHeight)
    (hlimit : call.fromHeight + call.limit ≤ first + call.chunk.blocks.length)
    : call.heights = List.range' call.fromHeight call.limit := by
  have hfilter : (call.chunk.blocks.filter fun block => decide (call.fromHeight ≤ block.height)).map
      CompactBlock.height
      = List.range' call.fromHeight (first + call.chunk.blocks.length - call.fromHeight) := by
    rw [← filter_range' _ _ _ hfirst, ← h, List.filter_map]
    rfl
  have hsplit : first + call.chunk.blocks.length - call.fromHeight
      = call.limit + (first + call.chunk.blocks.length - call.fromHeight - call.limit) := by
    omega
  rw [Call.heights, Call.blocks, List.map_take, hfilter, hsplit, ← List.range'_append_1,
    List.take_left' List.length_range']

namespace NextAt

theorem of_ended (hended : s.ended ≠ none) : NextAt s next :=
  ⟨fun h => absurd h hended, fun h => absurd h hended⟩

theorem of_fail (s : Scan.ScanState T F) (e : SlipstreamError) (next : Nat)
    : NextAt (Scan.fail s e) next :=
  of_ended (by simp [Scan.fail])

theorem call {call : Call F} (h : NextAt s next) (hgoing : s.ended = none)
    (hcall : callOf tree s = some call)
    : call.fromHeight = next ∧ 0 < call.limit ∧ call.heights = List.range' next call.limit := by
  cases calls_of_callOf hcall with
  | @mk chunk subStart _ _ _ _ hcurrent _ _ hend hremaining _ _ =>
    obtain ⟨rfl, hlen, -, first, hfirst, -, hconsecutive, -⟩ := h.busy hgoing chunk subStart hcurrent
    obtain ⟨last, hlast, rfl⟩ := Option.map_eq_some_iff.mp hend
    have hheight := hconsecutive.last hlast
    have hpos : 0 < Nat.min s.batchLen (last.height + 1 - subStart) :=
      Nat.lt_min.mpr ⟨hlen, by omega⟩
    have hle : Nat.min s.batchLen (last.height + 1 - subStart) ≤ last.height + 1 - subStart :=
      Nat.min_le_right _ _
    refine ⟨rfl, hpos, Call.heights_of_consecutive hconsecutive hfirst ?_⟩
    dsimp only
    omega

theorem seed (h : NextAt s next) : NextAt (Scan.seedStep s attempts) next := by
  unfold Scan.seedStep
  split
  . exact of_fail ..
  . exact ⟨h.idle, h.busy⟩

theorem recv (h : NextAt s next) (hgoing : s.ended = none) (hstep : Scan.recvStep cfg s = some s')
    : NextAt s' next := by
  unfold Scan.recvStep at hstep
  split at hstep
  . next seed chunk incoming hcurrent hseed hincoming =>
    have hchunks := h.idle hgoing hcurrent
    rw [hincoming] at hchunks
    obtain ⟨hne, hconsecutive, hrest⟩ := hchunks
    split at hstep
    . next start last hstart hlast =>
      split at hstep
      . cases hstep
        exact of_fail ..
      . cases hstep
        obtain ⟨block, hblock, rfl⟩ := Option.map_eq_some_iff.mp hstart
        have hfirst : block.height = next := by
          rw [List.head?_eq_getElem?] at hblock
          simpa using hconsecutive.getElem? hblock
        refine ⟨(by simp), ?_⟩
        rintro - _ _ ⟨⟩
        refine ⟨hfirst, ?_, hne, next, Nat.le_refl _, Nat.le_add_right _ _, hconsecutive, hrest⟩
        dsimp only
        split
        . exact Nat.lt_min.mpr ⟨List.length_pos_of_ne_nil hne, by decide⟩
        . next hkeep =>
          have hlen : s.batchLen ≠ 0 := by
            intro hzero
            simp [hzero] at hkeep
          omega
    . cases hstep
      exact of_fail ..
  . cases hstep

theorem chunkDone (h : NextAt s next) (hgoing : s.ended = none)
    (hstep : Scan.chunkDoneStep s interleave = some s') : NextAt s' next := by
  unfold Scan.chunkDoneStep at hstep
  split at hstep
  . next chunk subStart hcurrent =>
    obtain ⟨rfl, -, -, first, -, hwithin, hconsecutive, hrest⟩ := h.busy hgoing chunk subStart hcurrent
    split at hstep
    . next chunkEnd hend =>
      split at hstep
      . next hthrough =>
        split at hstep
        . cases hstep
          exact of_fail ..
        . cases hstep
          obtain ⟨last, hlast, rfl⟩ := Option.map_eq_some_iff.mp hend
          have hheight := hconsecutive.last hlast
          have hplace : subStart = first + chunk.blocks.length := by omega
          exact ⟨fun _ _ => hplace ▸ hrest, nofun⟩
      . cases hstep
    . cases hstep
  . cases hstep

variable [DecidableEq F]

theorem closed (hstep : Scan.closedStep tree s settled = some s') : NextAt s' next := by
  unfold Scan.closedStep at hstep
  split at hstep
  . split at hstep
    . cases hstep
      exact of_fail ..
    . cases hstep
      exact of_ended (by simp)
  . cases hstep

theorem turn {call : Call F} (h : NextAt s next) (hcall : callOf tree s = some call)
    (hstep : Scan.step tree cfg s (.subBatch inp) = some s') : NextAt s' (next + call.limit) := by
  have hgoing := going_of_step hstep
  simp only [Scan.step, hgoing, Option.isSome_none, Bool.false_eq_true, if_false] at hstep
  obtain ⟨chunk, subStart, chunkStart, chunkEnd, hturn⟩ := Scan.turn_of_subBatchStep hstep
  obtain ⟨rfl, hlen, hne, first, hfirst, hwithin, hconsecutive, hrest⟩ :=
    h.busy hgoing chunk subStart hturn.current
  obtain ⟨last, hlast, rfl⟩ := Option.map_eq_some_iff.mp hturn.last
  have hheight := hconsecutive.last hlast
  rcases hturn.outcome with ⟨-, e, hended⟩ | ⟨made, -, -, hlimit, hsettled⟩
  . exact of_ended (by simp [hended])
  have hsame : call.limit = made.limit := by
    cases calls_of_callOf hcall with
    | mk hcurrent _ _ hend =>
      rw [hturn.current] at hcurrent
      cases hcurrent
      rw [hturn.last] at hend
      cases hend
      exact hlimit.symm
  have hpos : 0 < made.limit := hsame ▸ (h.call hgoing hcall).2.1
  have hle : made.limit ≤ last.height + 1 - subStart := hlimit ▸ Nat.min_le_right _ _
  have hgoes : s'.current = some (chunk, subStart + made.limit - 1 + 1) →
      s'.incoming = s.incoming → 0 < s'.batchLen → NextAt s' (subStart + made.limit) := by
    intro hcurrent hincoming hlen
    refine ⟨by simp [hcurrent], ?_⟩
    intro _ c sub hc
    rw [hcurrent] at hc
    cases hc
    refine ⟨by omega, hlen, hne, first, by omega, by omega, hconsecutive, hincoming ▸ hrest⟩
  rw [hsame]
  cases hsettled with
  | failed e hended => exact of_ended (by simp [hended])
  | panicked hended => exact of_ended (by simp [hended])
  | kept _ hcurrent hincoming _ _ hkept => exact hgoes hcurrent hincoming (hkept ▸ hlen)
  | steered _ hcurrent hincoming _ _ hnext =>
    exact hgoes hcurrent hincoming (Scan.nextBatchLen_pos (List.length_pos_of_ne_nil hne) hnext)

theorem ended_of_noCall (hcall : callOf tree s = none)
    (hstep : Scan.subBatchStep tree cfg s inp = some s') : s'.ended ≠ none := by
  unfold Scan.subBatchStep at hstep
  split at hstep
  . next chunk subStart seed hcurrent hseed =>
    split at hstep
    . next chunkStart chunkEnd hfirst hlast =>
      dsimp only at hstep
      split at hstep
      . cases hstep
      . next hremaining =>
        split at hstep
        . cases hstep
          nofun
        . next state hstate =>
          split at hstep
          . cases hstep
            nofun
          . next hheight =>
            have hsome : (callOf tree s).isSome = true := by
              have hstate' : Scan.fromState tree s seed = .ok state := hstate
              simp only [callOf, hcurrent, hseed, hfirst, hlast, hremaining, hstate', hheight, if_false,
                Option.isSome_some]
            rw [hcall] at hsome
            cases hsome
    . cases hstep
  . cases hstep

theorem plain (h : NextAt s next) (hplain : plainStep tree s e = true)
    (hstep : Scan.step tree cfg s e = some s') : NextAt s' next := by
  have hgoing := going_of_step hstep
  simp only [Scan.step, hgoing, Option.isSome_none, Bool.false_eq_true, if_false] at hstep
  cases e with
  | seed attempts =>
    dsimp only at hstep
    split at hstep
    . cases hstep
    . cases hstep
      exact h.seed
  | recv => exact h.recv hgoing hstep
  | subBatch inp =>
    exact of_ended (ended_of_noCall (Option.isNone_iff_eq_none.mp hplain) hstep)
  | chunkDone interleave => exact h.chunkDone hgoing hstep
  | closed settled => exact closed hstep

end NextAt

end WriteBehind
end Slipstream
