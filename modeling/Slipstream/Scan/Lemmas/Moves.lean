import Slipstream.Scan.SubBatches

/-!
This module contains the scan loop next to a queue that is still being filled: what each of its steps
takes from the queue, when it can take one, and that chunks which are sent later change nothing of
what it has done.
-/

namespace Slipstream
namespace Scan

variable {T F : Type} {s s' : ScanState T F} {chunks more : List Chunk}
  {done : List (Chunk × List (ScanCall F))} {now : List (ScanCall F)}

theorem BatchInv.grow (h : BatchInv chunks s done now) (hopen : s.ended = some .finished → more = [])
    : BatchInv (chunks ++ more) { s with incoming := s.incoming ++ more } done now := by
  obtain ⟨rest, hrest, hnow⟩ := h.rest
  constructor
  case calls => exact h.calls
  case tiled => exact h.tiled
  case rest =>
    refine ⟨rest ++ more, by rw [hrest, List.append_assoc], ?_⟩
    rcases hnow with hnow | ⟨chunk, rest', next, rfl, hcovers⟩
    . exact Or.inl hnow
    . exact Or.inr ⟨chunk, rest' ++ more, next, rfl, hcovers⟩
  case panics => exact h.panics
  case finished =>
    intro hended
    rw [hopen hended, List.append_nil]
    exact h.finished hended
  case idle =>
    intro hgoing hcurrent
    obtain ⟨hnil, hall⟩ := h.idle hgoing hcurrent
    exact ⟨hnil, by rw [hall, List.append_assoc]⟩
  case busy =>
    intro hgoing chunk subStart hcurrent
    obtain ⟨hlen, hall, hcovers, hseed⟩ := h.busy hgoing chunk subStart hcurrent
    exact ⟨hlen, by rw [hall, List.append_assoc]; rfl, hcovers, hseed⟩

def Halted (s : ScanState T F) : Prop := s.ended = some .panicked ∨ ∃ e, s.ended = some (.failed e)

variable [DecidableEq F] {api : TreeStateApi T F} {cfg : ScanConfig}

theorem going_of_step (hstep : Scan.step api cfg s e = some s') : s.ended = none := by
  unfold Scan.step at hstep
  split at hstep
  . cases hstep
  . next hgoing => simpa using hgoing

theorem BatchInv.next (hchunks : ChunksFrom first chunks) (h : BatchInv chunks s done now)
    (hstep : Scan.step api cfg s e = some s')
    : Halted s' ∨ ∃ done' now', BatchInv chunks s' done' now' := by
  by_cases hok : controllerOk cfg s e = true
  . exact Or.inr (h.step hchunks hok hstep)
  . left
    cases e with
    | subBatch inp =>
      by_cases hfails : ∀ e, s'.ended ≠ some (.failed e)
      . have hpanics := panicked_iff (going_of_step hstep) hstep hfails
        exact Or.inl (of_not_not fun hne => hok (hpanics.mp hne))
      . simp only [not_forall, not_not] at hfails
        exact Or.inr hfails
    | _ => exact absurd rfl hok

theorem BatchInv.goes_on (hchunks : ChunksFrom first chunks) (h : BatchInv chunks s done now)
    (hgoing : s.ended = none) (hmore : s.current ≠ none ∨ s.incoming ≠ [])
    : ∃ e, (∀ settled, e ≠ .closed settled) ∧ (Scan.step api cfg s e).isSome = true := by
  cases hcurrent : s.current with
  | some place =>
    obtain ⟨chunk, subStart⟩ := place
    rcases h.enabled hchunks hgoing hcurrent with hturn | hdone
    . let inp : SubBatchInput T := ⟨.ok (), .ok (), 0, fun _ => .connectFailed .stopped, fun _ => none⟩
      refine ⟨.subBatch inp, by simp, ?_⟩
      exact Option.isSome_iff_ne_none.mpr (hturn inp)
    . exact ⟨.chunkDone (.ok ()), by simp, Option.isSome_iff_ne_none.mpr (hdone _)⟩
  | none =>
    cases hseed : s.nextState with
    | none =>
      exact ⟨.seed fun _ => .connectFailed .stopped, by simp, by simp [Scan.step, hgoing, hseed]⟩
    | some seed =>
      cases hincoming : s.incoming with
      | nil => simp [hcurrent, hincoming] at hmore
      | cons chunk rest =>
        refine ⟨.recv, by simp, ?_⟩
        simp only [Scan.step, hgoing, Option.isSome_none, Bool.false_eq_true, if_false, recvStep,
          hcurrent, hseed, hincoming]
        repeat' split
        all_goals rfl

theorem closed_enabled (hgoing : s.ended = none) (hcurrent : s.current = none)
    (hseed : s.nextState ≠ none) (hincoming : s.incoming = [])
    : (Scan.step api cfg s (.closed fun _ => none)).isSome = true := by
  obtain ⟨seed, hseed⟩ := Option.ne_none_iff_exists'.mp hseed
  simp only [Scan.step, hgoing, Option.isSome_none, Bool.false_eq_true, if_false, closedStep,
    hcurrent, hseed, hincoming]
  split <;> rfl

inductive Moved (s t : ScanState T F) : ScanEvent T → Prop where
  | halted (h : Halted t) : Moved s t e
  | seeded (hcurrent : t.current = s.current) (hincoming : t.incoming = s.incoming)
      (hended : t.ended = none) (hunseeded : s.nextState = none) (hseed : t.nextState ≠ none)
    : Moved s t (.seed attempts)
  | received (hidle : s.current = none) (hcurrent : t.current = some (chunk, first))
      (hincoming : s.incoming = chunk :: t.incoming) (hended : t.ended = none)
      (hfirst : chunk.startHeight = some first) (hseed : t.nextState = s.nextState) : Moved s t .recv
  | turned (hbusy : s.current = some (chunk, subStart))
      (hcurrent : t.current
        = some (chunk, subStart + Nat.min s.batchLen (last + 1 - subStart) - 1 + 1))
      (hincoming : t.incoming = s.incoming) (hended : t.ended = none)
      (hlast : chunk.endHeight = some last) (hwithin : subStart ≤ last)
      (hseed : s.nextState ≠ none → t.nextState ≠ none) : Moved s t (.subBatch inp)
  | through (hbusy : s.current = some place) (hcurrent : t.current = none)
      (hincoming : t.incoming = s.incoming) (hended : t.ended = none)
      (hseed : t.nextState = s.nextState) : Moved s t (.chunkDone interleave)
  | finished (hended : t.ended = some .finished) : Moved s t (.closed settled)

omit [DecidableEq F] in
theorem moved_of_fail {t : ScanState T F} (h : fail t error = s') (e : ScanEvent T) : Moved s s' e := by
  subst h
  exact .halted (Or.inr ⟨error, rfl⟩)

theorem moved_of_step (hstep : Scan.step api cfg s e = some s') : Moved s s' e := by
  have hgoing := going_of_step hstep
  simp only [Scan.step, hgoing, Option.isSome_none, Bool.false_eq_true, if_false] at hstep
  cases e with
  | seed attempts =>
    dsimp only at hstep
    split at hstep
    . cases hstep
    . next hunseeded =>
      simp only [Option.some.injEq, seedStep] at hstep
      split at hstep
      . exact moved_of_fail hstep _
      . cases hstep
        exact .seeded rfl rfl hgoing (by simpa using hunseeded) (by simp)
  | recv =>
    simp only [recvStep] at hstep
    split at hstep
    . next hcurrent hseed hincoming =>
      split at hstep
      . next hfirst hlast =>
        split at hstep
        . exact moved_of_fail (Option.some.inj hstep) _
        . cases hstep
          exact .received hcurrent rfl hincoming hgoing hfirst rfl
      . exact moved_of_fail (Option.some.inj hstep) _
    . cases hstep
  | subBatch inp =>
    obtain ⟨chunk, subStart, chunkStart, chunkEnd, hturn⟩ := turn_of_subBatchStep hstep
    rcases hturn.outcome with ⟨-, e, hended⟩ | ⟨call, -, -, hlimit, hsettled⟩
    . exact .halted (Or.inr ⟨e, hended⟩)
    . rw [hlimit] at hsettled
      cases hsettled with
      | failed e hended => exact .halted (Or.inr ⟨e, hended⟩)
      | panicked hended htarget hnext => exact .halted (Or.inl hended)
      | kept hended hcurrent hincoming hseed htarget hlen =>
        exact .turned hturn.current hcurrent hincoming (hended.trans hgoing) hturn.last hturn.within
          hseed
      | steered hended hcurrent hincoming hseed htarget hnext =>
        exact .turned hturn.current hcurrent hincoming (hended.trans hgoing) hturn.last hturn.within
          hseed
  | chunkDone interleave =>
    simp only [chunkDoneStep] at hstep
    split at hstep
    . next hcurrent =>
      split at hstep
      . split at hstep
        . split at hstep
          . exact moved_of_fail (Option.some.inj hstep) _
          . cases hstep
            exact .through hcurrent rfl rfl hgoing rfl
        . cases hstep
      . cases hstep
    . cases hstep
  | closed settled =>
    simp only [closedStep] at hstep
    split at hstep
    . split at hstep
      . exact moved_of_fail (Option.some.inj hstep) _
      . cases hstep
        exact .finished rfl
    . cases hstep

def holding (s : ScanState T F) : Nat := (if s.current.isSome then 1 else 0) + s.incoming.length

def returned : ScanEvent T → Nat
  | .chunkDone _ => 1
  | _ => 0

theorem holding_of_step (hstep : Scan.step api cfg s e = some s') (hgoing : s'.ended = none)
    : holding s' + returned e = holding s := by
  cases moved_of_step hstep with
  | halted hhalted => simp [Halted, hgoing] at hhalted
  | seeded hcurrent hincoming => simp [holding, returned, hcurrent, hincoming]
  | received hidle hcurrent hincoming =>
    simp [holding, returned, hidle, hcurrent, hincoming, Nat.add_comm]
  | turned hbusy hcurrent hincoming => simp [holding, returned, hbusy, hcurrent, hincoming]
  | through hbusy hcurrent hincoming =>
    simp [holding, returned, hbusy, hcurrent, hincoming, Nat.add_comm]
  | finished hended => simp [hgoing] at hended

theorem closed_of_finished (hstep : Scan.step api cfg s e = some s')
    (hended : s'.ended = some .finished) : ∃ settled, e = .closed settled := by
  cases moved_of_step hstep with
  | halted hhalted => simp [Halted, hended] at hhalted
  | finished => exact ⟨_, rfl⟩
  | seeded _ _ hgoing => simp [hgoing] at hended
  | received _ _ _ hgoing => simp [hgoing] at hended
  | turned _ _ _ hgoing => simp [hgoing] at hended
  | through _ _ _ hgoing => simp [hgoing] at hended

def placeWork (chunk : Chunk) (subStart : Nat) : Nat := chunk.endHeight.getD 0 + 1 - subStart + 1

def workLeft (s : ScanState T F) : Nat :=
  match s.ended with
  | some _ => 0
  | none =>
    1 + (if s.nextState.isNone then 1 else 0)
      + (s.incoming.map fun chunk => chunk.blocks.length + 2).sum
      + (match s.current with
        | some (chunk, subStart) => placeWork chunk subStart
        | none => 0)

theorem workLeft_lt (hchunks : ChunksFrom first chunks) (h : BatchInv chunks s done now)
    (hstep : Scan.step api cfg s e = some s') : workLeft s' < workLeft s := by
  have hgoing := going_of_step hstep
  have hpos : 0 < workLeft s := by
    simp only [workLeft, hgoing]
    omega
  cases moved_of_step hstep with
  | halted hhalted =>
    rcases hhalted with hended | ⟨e, hended⟩
    all_goals simpa [workLeft, hended] using hpos
  | seeded hcurrent hincoming hended hunseeded hseed =>
    simp [workLeft, hgoing, hended, hcurrent, hincoming, hunseeded, hseed]
  | @received chunk start hidle hcurrent hincoming hended hstart hseed =>
    obtain ⟨-, hall⟩ := h.idle hgoing hidle
    obtain ⟨-, start', last, hstart', hlast, hlength⟩ :=
      hchunks.heights (show chunk ∈ chunks by simp [hall, hincoming])
    rw [hstart, Option.some.injEq] at hstart'
    simp only [workLeft, hgoing, hended, hidle, hcurrent, hincoming, hseed, placeWork, hlast,
      Option.getD_some, List.map_cons, List.sum_cons]
    omega
  | @turned chunk subStart last inp hbusy hcurrent hincoming hended hlast hwithin hseed =>
    obtain ⟨hlen, -, -, hsome⟩ := h.busy hgoing chunk subStart hbusy
    have hlimit : 0 < Nat.min s.batchLen (last + 1 - subStart) := Nat.lt_min.mpr ⟨hlen, by omega⟩
    have hmin : Nat.min s.batchLen (last + 1 - subStart) ≤ last + 1 - subStart := Nat.min_le_right _ _
    generalize Nat.min s.batchLen (last + 1 - subStart) = limit at hcurrent hlimit hmin
    simp only [workLeft, hgoing, hended, hbusy, hcurrent, hincoming, placeWork, hlast,
      Option.getD_some, Option.isNone_iff_eq_none, hsome, hseed hsome, if_false]
    omega
  | @through place interleave hbusy hcurrent hincoming hended hseed =>
    simp only [workLeft, hgoing, hended, hbusy, hcurrent, hincoming, hseed, placeWork]
    omega
  | finished hended => simpa [workLeft, hended] using hpos

end Scan
end Slipstream
