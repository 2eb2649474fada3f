import Slipstream.Scan.Impl.Loop

/-!
This module contains one turn of the sub-batch loop as a lemma: the call it makes, and how the scan
stands after it.
-/

namespace Slipstream
namespace Scan

variable {T F : Type} {api : TreeStateApi T F} {cfg : ScanConfig} {s s' : ScanState T F}

inductive Settled (cfg : ScanConfig) (s : ScanState T F) (chunk : Chunk) (subStart len elapsedMs : Nat)
    (s' : ScanState T F) : Prop where
  | failed (e : SlipstreamError) (hended : s'.ended = some (.failed e))
  | panicked (hended : s'.ended = some .panicked) (htarget : cfg.batchTargetMs = some targetMs)
      (hnext : nextBatchLen len elapsedMs targetMs MIN_BATCH (Nat.min chunk.blocks.length (2 ^ 32 - 1))
        = none)
  | kept (hended : s'.ended = s.ended) (hcurrent : s'.current = some (chunk, subStart + len - 1 + 1))
      (hincoming : s'.incoming = s.incoming) (hseed : s.nextState ≠ none → s'.nextState ≠ none)
      (htarget : cfg.batchTargetMs = none)
      (hlen : s'.batchLen = s.batchLen)
  | steered (hended : s'.ended = s.ended)
      (hcurrent : s'.current = some (chunk, subStart + len - 1 + 1))
      (hincoming : s'.incoming = s.incoming) (hseed : s.nextState ≠ none → s'.nextState ≠ none)
      (htarget : cfg.batchTargetMs = some targetMs)
      (hnext : nextBatchLen len elapsedMs targetMs MIN_BATCH (Nat.min chunk.blocks.length (2 ^ 32 - 1))
        = some s'.batchLen)

theorem absorbStep_frame (h : absorbStep api s chunk chunkStart subStart len = .ok s')
    : s'.calls = s.calls ∧ s'.incoming = s.incoming ∧ s'.ended = s.ended
      ∧ s'.batchLen = s.batchLen ∧ s'.nextState = s.nextState := by
  unfold absorbStep at h
  split at h
  . cases h
    exact ⟨rfl, rfl, rfl, rfl, rfl⟩
  . split at h
    . cases h
    . cases h
      exact ⟨rfl, rfl, rfl, rfl, rfl⟩

theorem boundaryStep_frame (h : boundaryStep cfg s audit subEnd attempts = .ok s')
    : s'.calls = s.calls ∧ s'.incoming = s.incoming ∧ s'.ended = s.ended
      ∧ s'.batchLen = s.batchLen ∧ (s.nextState ≠ none → s'.nextState ≠ none) := by
  unfold boundaryStep at h
  split at h
  . split at h
    . split at h <;> cases h <;> exact ⟨rfl, rfl, rfl, rfl, id⟩
    . split at h <;> cases h
      exact ⟨rfl, rfl, rfl, rfl, by simp⟩
  . cases h
    exact ⟨rfl, rfl, rfl, rfl, id⟩

variable (api cfg) in
theorem settle_settled [DecidableEq F] (s : ScanState T F) (chunk : Chunk)
    (chunkStart subStart len : Nat) (audit : Bool) (inp : SubBatchInput T)
    : (settle api cfg s chunk chunkStart subStart len audit inp).calls = s.calls
      ∧ Settled cfg s chunk subStart len inp.elapsedMs
          (settle api cfg s chunk chunkStart subStart len audit inp) := by
  unfold settle
  dsimp only
  split
  . exact ⟨rfl, .failed _ rfl⟩
  . next s₁ habsorb =>
    obtain ⟨hcalls₁, hincoming₁, hended₁, hlen₁, hseed₁⟩ := absorbStep_frame habsorb
    split
    . exact ⟨hcalls₁, .failed _ rfl⟩
    . next s₂ hboundary =>
      obtain ⟨hcalls₂, hincoming₂, hended₂, hlen₂, hseed₂⟩ := boundaryStep_frame hboundary
      have hcalls := hcalls₂.trans hcalls₁
      have hended := hended₂.trans hended₁
      have hincoming := hincoming₂.trans hincoming₁
      rw [hseed₁] at hseed₂
      split
      . exact ⟨hcalls, .failed _ rfl⟩
      . split
        . next htarget =>
          exact ⟨hcalls, .kept hended rfl hincoming hseed₂ htarget (hlen₂.trans hlen₁)⟩
        . next targetMs htarget =>
          split
          . next hnext => exact ⟨hcalls, .panicked rfl htarget hnext⟩
          . next batchLen hnext => exact ⟨hcalls, .steered hended rfl hincoming hseed₂ htarget hnext⟩

structure Turn (cfg : ScanConfig) (s : ScanState T F) (inp : SubBatchInput T) (s' : ScanState T F)
    (chunk : Chunk) (subStart chunkStart chunkEnd : Nat) : Prop where
  current : s.current = some (chunk, subStart)
  first : chunk.startHeight = some chunkStart
  last : chunk.endHeight = some chunkEnd
  within : subStart ≤ chunkEnd
  outcome : (s'.calls = s.calls ∧ ∃ e, s'.ended = some (.failed e))
    ∨ ∃ call, s'.calls = s.calls ++ [call] ∧ call.fromHeight = subStart
      ∧ call.limit = Nat.min s.batchLen (chunkEnd + 1 - subStart)
      ∧ Settled cfg s chunk subStart call.limit inp.elapsedMs s'

theorem turn_of_subBatchStep [DecidableEq F] (h : subBatchStep api cfg s inp = some s')
    : ∃ chunk subStart chunkStart chunkEnd, Turn cfg s inp s' chunk subStart chunkStart chunkEnd := by
  unfold subBatchStep at h
  split at h
  . next chunk subStart seed hcurrent hseed =>
    split at h
    . next chunkStart chunkEnd hfirst hlast =>
      dsimp only at h
      split at h
      . cases h
      . next hremaining =>
        refine ⟨chunk, subStart, chunkStart, chunkEnd, hcurrent, hfirst, hlast, by omega, ?_⟩
        split at h
        . cases h
          exact Or.inl ⟨rfl, _, rfl⟩
        . next state hstate =>
          have hframe : (seedLocal cfg { s with boundaryIndex := s.boundaryIndex + 1 } state).calls
                = s.calls
              ∧ (seedLocal cfg { s with boundaryIndex := s.boundaryIndex + 1 } state).incoming
                = s.incoming
              ∧ (seedLocal cfg { s with boundaryIndex := s.boundaryIndex + 1 } state).ended = s.ended
              ∧ (seedLocal cfg { s with boundaryIndex := s.boundaryIndex + 1 } state).batchLen
                = s.batchLen
              ∧ (seedLocal cfg { s with boundaryIndex := s.boundaryIndex + 1 } state).nextState
                = s.nextState := by
            unfold seedLocal
            split <;> exact ⟨rfl, rfl, rfl, rfl, rfl⟩
          generalize seedLocal cfg { s with boundaryIndex := s.boundaryIndex + 1 } state = s₁ at h hframe
          obtain ⟨hcalls, hincoming, hended, hlen, hnextState⟩ := hframe
          split at h
          . cases h
            exact Or.inl ⟨hcalls, _, rfl⟩
          . right
            refine ⟨⟨subStart, state, Nat.min s.batchLen (chunkEnd + 1 - subStart)⟩, ?_, rfl, rfl, ?_⟩
            . split at h
              . cases h
                simp [fail, hcalls]
              . cases h
                simp [fail, hcalls]
              . cases h
                rw [(settle_settled ..).1]
                simp [hcalls]
            . split at h
              . cases h
                exact .failed _ rfl
              . cases h
                exact .failed _ rfl
              . cases h
                cases (settle_settled api cfg _ chunk chunkStart subStart _ _ inp).2 with
                | failed e hend => exact .failed e hend
                | panicked hend htarget hnext => exact .panicked hend htarget hnext
                | kept hend hcur hin hse htarget hl =>
                  exact .kept (hend.trans hended) hcur (hin.trans hincoming) (hnextState ▸ hse)
                    htarget (hl.trans hlen)
                | steered hend hcur hin hse htarget hnext =>
                  exact .steered (hend.trans hended) hcur (hin.trans hincoming) (hnextState ▸ hse)
                    htarget hnext
    . cases h
  . cases h

end Scan
end Slipstream
