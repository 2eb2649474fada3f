import Slipstream.WriteBehind.Stop
import Slipstream.WriteBehind.Lemmas.Place

/-!
This module contains what a scan call reads through the write-behind facade: what it would read from
a wallet in which every earlier unit is committed, although the commits lag behind and enhancements
change the wallet between them.
-/

namespace Slipstream
namespace WriteBehind

variable {T F D E : Type} {tree : Scan.TreeStateApi T F} {api : WalletDb D E}
variable {cfg : Scan.ScanConfig} {outcome : Nat → CommitOutcome} {s s' : RangeState T F D}
variable {phase : Phase F}

def Phase.waits : Phase F → Bool
  | .submitting pending => pending
  | .draining | .finalDrain => true
  | _ => false

structure LaneInv (s : RangeState T F D) : Prop where
  busy : s.lane.current ≠ none → s.phase.waits = true
  failed : s.scan.ended = none → s.lane.failed = true → s.phase.waits = true
    ∧ s.lane.current = none ∧ ∃ call e, s.lane.results.getLast? = some (call, .error e)
  draining : s.phase = .draining → s.scan.ended = none ∧ s.made.getLast? = some .drain
  closing : s.phase = .finalDrain → s.scan.ended ≠ none

theorem current_of_laneResult (h : s.laneResult = some result) : s.lane.current = none := by
  unfold RangeState.laneResult at h
  split at h
  . cases h
  . next hcurrent => simpa using hcurrent

namespace LaneInv

theorem current_of_phase (h : LaneInv s) (hphase : s.phase = phase) (hwaits : phase.waits = false)
    : s.lane.current = none := by
  by_contra hcurrent
  have hbusy := h.busy hcurrent
  rw [hphase, hwaits] at hbusy
  cases hbusy

theorem failed_of_phase (h : LaneInv s) (hphase : s.phase = phase) (hwaits : phase.waits = false)
    (hgoing : s.scan.ended = none) : s.lane.failed = false := by
  by_contra hfailed
  have hbusy := (h.failed hgoing (by simpa using hfailed)).1
  rw [hphase, hwaits] at hbusy
  cases hbusy

theorem failed_of_laneResult (h : LaneInv s) (hresult : s.laneResult = some (.ok ()))
    (hgoing : s.scan.ended = none) : s.lane.failed = false := by
  by_contra hfailed
  obtain ⟨-, hcurrent, call, e, hlast⟩ := h.failed hgoing (by simpa using hfailed)
  simp [RangeState.laneResult, hcurrent, hlast] at hresult

theorem of_quiet (hcurrent : s.lane.current = none)
    (hfailed : s.scan.ended = none → s.lane.failed = false)
    (hphase : s.phase.waits = false) : LaneInv s where
  busy h := absurd hcurrent h
  failed hgoing h := absurd (h.symm.trans (hfailed hgoing)) nofun
  draining h := by
    rw [h] at hphase
    cases hphase
  closing h := by
    rw [h] at hphase
    cases hphase

theorem called (hfailed : s.scan.ended = none → s.lane.failed = false)
    (heffect : LaneSystem.Effect s.lane s'.lane) (hscan : s'.scan = s.scan)
    (hwaits : s'.phase.waits = true)
    (hdraining : s'.phase = .draining → s'.scan.ended = none ∧ s'.made.getLast? = some .drain)
    (hclosing : s'.phase = .finalDrain → s.scan.ended ≠ none) : LaneInv s' where
  busy _ := hwaits
  failed hgoing h := ⟨hwaits, heffect.failed (hfailed (hscan ▸ hgoing)) h⟩
  draining := hdraining
  closing h := hscan ▸ hclosing h

theorem polled (h : LaneInv s) (hlane : s.lane.step outcome .poll = some lane)
    : LaneInv { s with lane } := by
  obtain ⟨call, hcurrent, hpoll⟩ := Option.bind_eq_some_iff.mp hlane
  have hbusy : s.lane.current ≠ none := by simp [hcurrent]
  refine ⟨fun _ => h.busy hbusy, fun hgoing hfailed => ⟨h.busy hbusy, ?_⟩, h.draining, h.closing⟩
  refine (LaneSystem.poll_effect hpoll).failed ?_ hfailed
  by_contra hbefore
  exact hbusy (h.failed hgoing (by simpa using hbefore)).2.1

theorem taskEnds (h : LaneInv s) (hlane : s.lane.step outcome (.taskEnds i) = some lane) {db : D}
    : LaneInv { s with lane, db } := by
  simp only [LaneSystem.step] at hlane
  split at hlane
  . cases hlane
    exact ⟨h.busy, h.failed, h.draining, h.closing⟩
  . cases hlane

theorem trans [DecidableEq F] (h : LaneInv s) (hunits : UnitInv tree depth outcome s)
    (ht : RangeTrans tree api cfg outcome s s') : LaneInv s' := by
  cases ht with
  | stop => exact ⟨h.busy, h.failed, h.draining, h.closing⟩
  | same => exact h
  | loops hphase hplain hscan =>
    exact of_quiet (h.current_of_phase hphase rfl)
      (fun _ => h.failed_of_phase hphase rfl (going_of_step hscan)) rfl
  | turnFails hphase hinp hscan =>
    exact of_quiet (h.current_of_phase hphase rfl)
      (fun _ => h.failed_of_phase hphase rfl (going_of_step hscan)) rfl
  | reseeds hphase hreseed hscan =>
    exact of_quiet (h.current_of_phase hphase rfl)
      (fun _ => h.failed_of_phase hphase rfl (going_of_step hscan)) rfl
  | reseedFails hphase hreseed hscan =>
    exact of_quiet (h.current_of_phase hphase rfl)
      (fun _ => h.failed_of_phase hphase rfl (going_of_step hscan)) rfl
  | puts hphase =>
    unfold RangeState.putBlocks
    split
    . exact of_quiet (h.current_of_phase hphase rfl) (h.failed_of_phase hphase rfl) rfl
    . exact of_quiet (h.current_of_phase hphase rfl) (h.failed_of_phase hphase rfl) rfl
  | submits hphase hstash hlane =>
    exact called (h.failed_of_phase hphase rfl) (LaneSystem.call_effect outcome hlane) rfl rfl nofun
      nofun
  | polls hlane => exact h.polled hlane
  | commits _ _ hlane => exact h.taskEnds hlane
  | breaks _ hlane => exact h.taskEnds hlane
  | @turnEnds pending inp _ hphase hinp hsubmit _ hscan =>
    cases pending with
    | false =>
      exact of_quiet (h.current_of_phase hphase rfl)
        (fun _ => h.failed_of_phase hphase rfl (going_of_step hscan)) rfl
    | true =>
      have hresult := hsubmit rfl
      refine of_quiet (current_of_laneResult hresult) (fun hgoing => ?_) rfl
      cases hsubmitted : inp.submit with
      | error e =>
        -- An error of the submit is one of the turn.
        obtain ⟨call, hcall⟩ := Option.isSome_iff_exists.mp (hunits.turn (by rw [hphase]; rfl))
        have hended := ended_of_failedTurn hcall (.inr ⟨hinp, hsubmitted⟩) hscan
        exact absurd (hended.symm.trans hgoing) nofun
      | ok _ =>
        rw [hsubmitted] at hresult
        exact h.failed_of_laneResult hresult (going_of_step hscan)
  | drains hphase hdone hlane =>
    obtain ⟨scan, hscan⟩ := Option.isSome_iff_exists.mp hdone
    exact called (h.failed_of_phase hphase rfl) (LaneSystem.call_effect outcome hlane) rfl rfl
      (fun _ => ⟨going_of_step hscan, by simp⟩) nofun
  | drainFails hphase hresult hscan =>
    exact of_quiet (current_of_laneResult hresult)
      (fun hgoing => absurd hgoing (ended_of_failedChunk hscan)) rfl
  | drained hphase hresult =>
    exact of_quiet (current_of_laneResult hresult) (h.failed_of_laneResult hresult) rfl
  | barrier hphase hended hlane =>
    exact called (h.failed_of_phase hphase rfl) (LaneSystem.call_effect outcome hlane) rfl rfl nofun
      (fun _ => by simp [hended])
  | returns hphase hresult =>
    obtain ⟨laneResult, hlane, -⟩ := Option.bind_eq_some_iff.mp hresult
    exact of_quiet (current_of_laneResult hlane) (fun hgoing => absurd hgoing (h.closing hphase)) rfl
  | starts hphase | serves hphase | refuses hphase | faults hphase | faultsBefore hphase
    | walksAgain hphase | submitsNothing hphase | enhances hphase =>
    exact of_quiet (h.current_of_phase hphase rfl) (h.failed_of_phase hphase rfl) rfl

end LaneInv

def Phase.isPut : Phase F → Bool
  | .scanned | .submitting _ => true
  | _ => false

structure PlaceInv (tree : Scan.TreeStateApi T F) (s : RangeState T F D) : Prop where
  walking : ∀ call walk, s.phase = .walking call walk →
    callOf tree s.scan = some call ∧ s.scan.ended = none
  place : s.phase.isPut = false → NextAt s.scan (s.facade.priorMetaHeight + 1)
  put : s.phase.isPut = true → ∃ call next, callOf tree s.scan = some call ∧ NextAt s.scan next
    ∧ s.facade.priorMetaHeight + 1 = next + call.limit

namespace PlaceInv

theorem of_next (hnext : NextAt s.scan (s.facade.priorMetaHeight + 1)) (hphase : s.phase.isPut = false)
    (hwalking : ∀ call walk, s.phase ≠ .walking call walk) : PlaceInv tree s where
  walking call walk h := absurd h (hwalking call walk)
  place _ := hnext
  put h := absurd (h.symm.trans hphase) nofun

theorem next_of_phase (h : PlaceInv tree s) (hphase : s.phase = phase) (hput : phase.isPut = false)
    : NextAt s.scan (s.facade.priorMetaHeight + 1) :=
  h.place (hphase ▸ hput)

theorem puts {call : Call F} {walk : Walk} (h : PlaceInv tree s) (hphase : s.phase = .walking call walk)
    (hstash : s.facade.stash = none) (hblocks : walk.scanned.map ScannedBlock.height = call.heights)
    : PlaceInv tree (s.putBlocks api call walk.scanned) := by
  obtain ⟨hcall, hgoing⟩ := h.walking call walk hphase
  have hnext := h.next_of_phase hphase rfl
  obtain ⟨-, hpos, hheights⟩ := hnext.call hgoing hcall
  unfold RangeState.putBlocks
  have hput := Facade.put_of_putBlocks s.facade call.fromState walk.scanned
  split
  . next facade e hresult =>
    rw [hresult] at hput
    cases hput with
    | occupied hoccupied => rw [hstash] at hoccupied; cases hoccupied
  . next facade hresult =>
    rw [hresult] at hput
    rw [hheights] at hblocks
    refine ⟨nofun, nofun, fun _ => ⟨call, _, hcall, hnext, ?_⟩⟩
    cases hput with
    | empty _ hnil =>
      rw [hnil] at hblocks
      have hlength := congrArg List.length hblocks
      simp at hlength
      omega
    | @stashed first last _ hfirst hlast =>
      have hend : (walk.scanned.map ScannedBlock.height).getLast? = some last.height := by
        rw [List.getLast?_map, hlast]
        rfl
      rw [hblocks, List.getLast?_range', if_neg (by omega), Option.some.injEq] at hend
      dsimp only
      omega

theorem trans [DecidableEq F] (h : PlaceInv tree s) (hunits : UnitInv tree depth outcome s)
    (ht : RangeTrans tree api cfg outcome s s') : PlaceInv tree s' := by
  cases ht with
  | stop | polls | commits | breaks => exact ⟨h.walking, h.place, h.put⟩
  | same => exact h
  | loops hphase hplain hscan =>
    exact of_next ((h.next_of_phase hphase rfl).plain hplain hscan) rfl nofun
  | starts hphase hgoing hcall =>
    refine ⟨?_, fun _ => h.next_of_phase hphase rfl, nofun⟩
    rintro _ _ ⟨⟩
    exact ⟨hcall, hgoing⟩
  | serves hphase =>
    refine ⟨?_, fun _ => h.next_of_phase hphase rfl, nofun⟩
    rintro _ _ ⟨⟩
    exact h.walking _ _ hphase
  | walksAgain hphase =>
    refine ⟨?_, fun _ => h.next_of_phase hphase rfl, nofun⟩
    rintro _ _ ⟨⟩
    exact h.walking _ _ hphase
  | puts hphase hnone hsecond =>
    exact h.puts hphase (hunits.stash (by rw [hphase]; nofun))
      ((hunits.walk _ _ hphase).through hsecond hnone)
  | submitsNothing hphase => exact ⟨nofun, nofun, fun _ => h.put (by rw [hphase]; rfl)⟩
  | submits hphase => exact ⟨nofun, nofun, fun _ => h.put (by rw [hphase]; rfl)⟩
  | turnFails hphase hinp hscan =>
    obtain ⟨call, hcall⟩ := Option.isSome_iff_exists.mp (hunits.turn (by rw [hphase]; rfl))
    have hended := ended_of_failedTurn hcall (.inl hinp) hscan
    exact of_next (.of_ended (by simp [hended])) rfl nofun
  | turnEnds hphase hinp hsubmit hnothing hscan =>
    obtain ⟨call, next, hcall, hnext, hprior⟩ := h.put (by rw [hphase]; rfl)
    have hnext' := hnext.turn hcall hscan
    rw [← hprior] at hnext'
    exact of_next hnext' rfl nofun
  | drainFails hphase hresult hscan =>
    exact of_next (.of_ended (ended_of_failedChunk hscan)) rfl nofun
  | reseeds hphase hreseed hscan =>
    have hnext := (h.next_of_phase hphase rfl).plain rfl hscan
    rw [← (Facade.reseedNullifiers_frame hreseed).2.1] at hnext
    exact of_next hnext rfl nofun
  | reseedFails hphase hreseed hscan =>
    exact of_next (.of_ended (ended_of_failedChunk hscan)) rfl nofun
  | refuses hphase | faults hphase | faultsBefore hphase | drains hphase | drained hphase
    | enhances hphase | barrier hphase | returns hphase =>
    exact of_next (h.next_of_phase hphase rfl) rfl nofun

end PlaceInv

def RangeState.uncommitted (s : RangeState T F D) : List (PendingPersist F) :=
  (LaneSystem.jobs s.made).drop s.lane.committed.length ++ s.facade.stash.toList

def WalletDb.commitAll (api : WalletDb D E) (db : D) (units : List (PendingPersist F)) : D :=
  units.foldl (fun db unit => api.putBlocks db unit.blocks) db

structure ViewInv (api : WalletDb D E) (s : RangeState T F D) : Prop where
  views : s.scan.ended = none → s.phase ≠ .reseeding → s.facade.views.Same (api.unspent s.inline)
  prior : s.facade.priorMeta = api.blockMetadata s.inline s.facade.priorMetaHeight
  inline : s.inline = api.commitAll s.db s.uncommitted
  drained : s.phase = .enhancing ∨ s.phase = .reseeding → s.uncommitted = []

namespace ViewInv

theorem move {scan : Scan.ScanState T F} (h : ViewInv api s) (hphase : s.phase ≠ .reseeding)
    (hgoing : scan.ended = none → s.scan.ended = none) (henhancing : phase ≠ .enhancing)
    (hreseeding : phase ≠ .reseeding) : ViewInv api { s with scan, phase } where
  views hended _ := h.views (hgoing hended) hphase
  prior := h.prior
  inline := h.inline
  drained h := (h.elim henhancing hreseeding).elim

theorem waits (h : ViewInv api s) (hcommitted : lane.committed = s.lane.committed)
    : ViewInv api { s with lane } := by
  have hsame : RangeState.uncommitted { s with lane } = s.uncommitted := by
    rw [RangeState.uncommitted, hcommitted, RangeState.uncommitted]
  exact ⟨h.views, h.prior, hsame ▸ h.inline, fun hphase => hsame ▸ h.drained hphase⟩

theorem commits {job : PendingPersist F} (h : ViewInv api s)
    (hunits : UnitInv tree depth outcome s) (htask : s.lane.tasks[i]? = some (job, none))
    (hout : outcome i = .committed) (hlane : s.lane.step outcome (.taskEnds i) = some lane)
    : ViewInv api { s with lane, db := api.putBlocks s.db job.blocks } := by
  have hnext : s.uncommitted
      = job :: RangeState.uncommitted { s with lane, db := api.putBlocks s.db job.blocks } := by
    rw [RangeState.uncommitted, hunits.lane.commits htask hout hlane]
    rfl
  have hinline := h.inline
  rw [hnext] at hinline
  refine ⟨h.views, h.prior, hinline, fun hphase => ?_⟩
  have hnil := h.drained hphase
  rw [hnext] at hnil
  cases hnil

theorem puts {call : Call F} {blocks : List ScannedBlock} (h : ViewInv api s)
    (hphase : s.phase = .walking call walk) (hstash : s.facade.stash = none) (hne : blocks ≠ [])
    : ViewInv api (s.putBlocks api call blocks) := by
  unfold RangeState.putBlocks
  have hput := Facade.put_of_putBlocks s.facade call.fromState blocks
  split
  . next facade e hresult =>
    rw [hresult] at hput
    cases hput with
    | occupied hoccupied => rw [hstash] at hoccupied; cases hoccupied
  . next facade hresult =>
    rw [hresult] at hput
    cases hput with
    | empty _ hnil => exact absurd hnil hne
    | @stashed first last _ hfirst hlast =>
      refine ⟨fun hgoing _ => ?_, ?_, ?_, nofun⟩
      . exact (api.putBlocks_unspent s.inline blocks).foldl_advance
          (h.views hgoing (by rw [hphase]; nofun))
      . exact (api.putBlocks_blockMetadata s.inline blocks last hlast).symm
      . have hinline := h.inline
        rw [RangeState.uncommitted, hstash, Option.toList_none, List.append_nil] at hinline
        simp only [WalletDb.commitAll] at hinline
        simp only [WalletDb.commitAll, RangeState.uncommitted, Option.toList_some, List.foldl_append,
          List.foldl_cons, List.foldl_nil, ← hinline]

theorem submits {pending : PendingPersist F} (h : ViewInv api s)
    (hunits : UnitInv tree depth outcome s) (hstash : s.facade.stash = some pending)
    (hphase : s.phase = .scanned) (hcommitted : lane.committed = s.lane.committed)
    : ViewInv api { s with
        facade := s.facade.takeStash.1
        phase := .submitting true
        lane
        made := s.made ++ [.submit (pending.firstHeight, pending.lastHeight) pending] } := by
  refine ⟨fun hgoing _ => h.views hgoing (by rw [hphase]; nofun), h.prior, ?_, nofun⟩
  have hle := hunits.lane.committed_le.length_le
  have hinline := h.inline
  rw [RangeState.uncommitted, hstash] at hinline
  simp only [RangeState.uncommitted, LaneSystem.jobs_append, hcommitted]
  rw [List.drop_append_of_le_length hle]
  simpa [LaneSystem.jobs, Facade.takeStash] using hinline

theorem drains (h : ViewInv api s) (phase : Phase F) (hstash : s.facade.stash = none)
    (hphase : s.phase = .loop)
    (hcommitted : lane.committed = s.lane.committed) (henhancing : phase ≠ .enhancing)
    (hreseeding : phase ≠ .reseeding)
    : ViewInv api { s with
        facade := s.facade.takeStash.1, phase, lane, made := s.made ++ [.drain] } := by
  refine ⟨fun hgoing _ => h.views hgoing (by rw [hphase]; nofun), h.prior, ?_,
    fun h => (h.elim henhancing hreseeding).elim⟩
  have hinline := h.inline
  rw [RangeState.uncommitted, hstash] at hinline
  simp only [RangeState.uncommitted, LaneSystem.jobs_append, hcommitted]
  simpa [LaneSystem.jobs, Facade.takeStash] using hinline

theorem trans [DecidableEq F] (h : ViewInv api s) (hunits : UnitInv tree depth outcome s)
    (hlane : LaneInv s) (hplace : PlaceInv tree s) (ht : RangeTrans tree api cfg outcome s s')
    : ViewInv api s' := by
  cases ht with
  | stop => exact ⟨h.views, h.prior, h.inline, h.drained⟩
  | same => exact h
  | loops hphase _ hscan =>
    exact h.move (by simp [hphase]) (fun _ => going_of_step hscan) (by simp) (by simp)
  | turnFails hphase _ hscan =>
    exact h.move (by simp [hphase]) (fun _ => going_of_step hscan) (by simp) (by simp)
  | turnEnds hphase _ _ _ hscan =>
    exact h.move (by simp [hphase]) (fun _ => going_of_step hscan) (by simp) (by simp)
  | drainFails hphase _ hscan =>
    exact h.move (by simp [hphase]) (fun _ => going_of_step hscan) (by simp) (by simp)
  | starts hphase | serves hphase | faults hphase | faultsBefore hphase | walksAgain hphase
    | returns hphase => exact h.move (by simp [hphase]) id (by simp) (by simp)
  | refuses hphase =>
    have hmoved : ViewInv api { s with phase := .scanFailed .blockSource } :=
      h.move (by simp [hphase]) id (by simp) (by simp)
    exact ⟨hmoved.views, hmoved.prior, hmoved.inline, hmoved.drained⟩
  | @puts call walk hphase hnone hsecond =>
    have hstash := hunits.stash (by simp [hphase])
    refine h.puts hphase hstash ?_
    -- The sub-batch of a call is not empty.
    obtain ⟨hcall, hgoing⟩ := hplace.walking call walk hphase
    obtain ⟨-, hpos, hheights⟩ := (hplace.next_of_phase hphase rfl).call hgoing hcall
    have hblocks := (hunits.walk _ _ hphase).through hsecond hnone
    intro hnil
    rw [hnil, hheights] at hblocks
    have hlength := congrArg List.length hblocks
    simp at hlength
    omega
  | submitsNothing hphase hstash =>
    have hmoved : ViewInv api { s with phase := .submitting false } :=
      h.move (by simp [hphase]) id (by simp) (by simp)
    refine ⟨hmoved.views, hmoved.prior, ?_, (by simp)⟩
    have hinline := h.inline
    rw [RangeState.uncommitted, hstash] at hinline
    exact hinline
  | submits hphase hstash hcall =>
    exact h.submits hunits hstash hphase (LaneSystem.call_effect outcome hcall).committed
  | polls hpoll =>
    obtain ⟨call, -, hpoll⟩ := Option.bind_eq_some_iff.mp hpoll
    exact h.waits (LaneSystem.poll_effect hpoll).committed
  | commits htask hout hcommit => exact h.commits hunits htask hout hcommit
  | breaks hout hcommit => exact h.waits (LaneSystem.broken_effect hout hcommit).1
  | drains hphase _ hcall =>
    have hstash := hunits.stash (by simp [hphase])
    have hdrains := h.drains .draining hstash hphase
      (LaneSystem.call_effect outcome hcall).committed (by simp) (by simp)
    rwa [show s.facade.takeStash.1 = s.facade by rw [Facade.takeStash, ← hstash]] at hdrains
  | barrier hphase _ hcall =>
    exact h.drains _ (hunits.stash (by simp [hphase])) hphase
      (LaneSystem.call_effect outcome hcall).committed (by simp) (by simp)
  | drained hphase hresult =>
    refine ⟨fun hgoing _ => h.views hgoing (by simp [hphase]), h.prior, h.inline, fun _ => ?_⟩
    obtain ⟨hgoing, hdrain⟩ := hlane.draining hphase
    have hcommitted := hunits.lane.committed (hlane.failed_of_laneResult hresult hgoing) hdrain
      (current_of_laneResult hresult)
    simp [RangeState.uncommitted, hcommitted, hunits.stash (by simp [hphase])]
  | enhances hphase effect =>
    have hnil := h.drained (.inl hphase)
    have hinline := h.inline
    rw [hnil] at hinline
    refine ⟨fun _ hne => absurd rfl hne, ?_, ?_, fun _ => hnil⟩
    . rw [api.enhance_blockMetadata]
      exact h.prior
    . have hnil' : RangeState.uncommitted { s with
          db := api.enhance s.db effect
          inline := api.enhance s.inline effect
          phase := .reseeding } = [] := hnil
      rw [hnil']
      exact congrArg (api.enhance · effect) hinline
  | reseeds hphase hreseed hscan =>
    have hnil := h.drained (.inr hphase)
    have hinline := h.inline
    rw [hnil] at hinline
    rw [Facade.reseedNullifiers_ok hreseed]
    refine ⟨fun _ _ => ?_, h.prior, h.inline, (by simp)⟩
    rw [hinline]
    exact .refl _
  | reseedFails hphase hreseed hscan =>
    obtain ⟨hstash, hheight, hmeta⟩ := Facade.reseedNullifiers_frame hreseed
    refine ⟨fun hgoing => absurd hgoing (ended_of_failedChunk hscan), ?_, ?_, (by simp)⟩
    . dsimp only
      rw [hheight, hmeta]
      exact h.prior
    . have hinline := h.inline
      rw [RangeState.uncommitted, ← hstash] at hinline
      exact hinline

end ViewInv

def RangeState.callAt (tree : Scan.TreeStateApi T F) (s : RangeState T F D) : Option (Call F) :=
  match s.phase with
  | .loop => if s.scan.ended.isSome then none else callOf tree s.scan
  | .walking call _ => some call
  | _ => none

structure ReadsInline (api : WalletDb D E) (facade : Facade F) (inline : D) (call : Call F)
    : Prop where
  views : facade.views.Same (api.unspent inline)
  below : facade.blockMetadata (call.fromHeight - 1)
    = .ok (api.blockMetadata inline (call.fromHeight - 1))
  elsewhere : ∀ height ≠ call.fromHeight - 1, ∃ e, facade.blockMetadata height = .error e

theorem readsInline (hview : ViewInv api s) (hplace : PlaceInv tree s)
    (hcall : s.callAt tree = some call) : ReadsInline api s.facade s.inline call := by
  have hmade : callOf tree s.scan = some call ∧ s.scan.ended = none ∧ s.phase.isPut = false
      ∧ s.phase ≠ .reseeding := by
    unfold RangeState.callAt at hcall
    split at hcall
    . next hphase =>
      split at hcall
      . cases hcall
      . next hgoing =>
        rw [hphase]
        exact ⟨hcall, by simpa using hgoing, rfl, nofun⟩
    . next walk hphase =>
      cases hcall
      obtain ⟨hcall, hgoing⟩ := hplace.walking _ _ hphase
      rw [hphase]
      exact ⟨hcall, hgoing, rfl, nofun⟩
    . cases hcall
  obtain ⟨hcall, hgoing, hput, hreseeding⟩ := hmade
  obtain ⟨hfrom, -, -⟩ := (hplace.place hput).call hgoing hcall
  have hbelow : call.fromHeight - 1 = s.facade.priorMetaHeight := by omega
  refine ⟨hview.views hgoing hreseeding, ?_, ?_⟩
  . rw [hbelow, Facade.blockMetadata, if_pos rfl, hview.prior]
  . intro height hne
    rw [hbelow] at hne
    exact ⟨_, if_neg hne⟩

/--
In every write-behind range over consecutive chunks, whatever the timing of its commits and
enhancements and whether commits fail or not, a scan call reads what the wallet would hold if every
earlier unit had been committed inline; and an occupied stash refuses the next unit and a reseed.
-/
theorem facade_reads_inline [DecidableEq F] (hchunks : ChunksFrom cfg.rangeStart chunks)
    (h : (rangeMachine tree api cfg outcome depth chunks).Reachable s)
    : (∀ call, s.callAt tree = some call → ReadsInline api s.facade s.inline call)
      ∧ ∀ facade : Facade F, facade.stash.isSome = true →
        (∀ fromState blocks, ∃ e, facade.putBlocks fromState blocks = (facade, .error e))
        ∧ ∀ faults db, ∃ e, facade.reseedNullifiers api faults db = (facade, .error e) := by
  have hinv : UnitInv tree depth outcome s ∧ LaneInv s ∧ PlaceInv tree s ∧ ViewInv api s := by
    apply h.invariant
    . rintro _ ⟨faults, facade, db, hseed, rfl⟩
      refine ⟨.seeded hseed, .of_quiet rfl (fun _ => rfl) rfl, ?_, ?_⟩
      . refine .of_next ⟨fun _ _ => ?_, nofun⟩ rfl nofun
        dsimp only
        rwa [Facade.seed_ok hseed, Nat.sub_add_cancel cfg.start_pos]
      . rw [Facade.seed_ok hseed]
        exact ⟨fun _ _ => .refl _, rfl, rfl, nofun⟩
    . rintro s e s' ⟨hunits, hlane, hplace, hview⟩ - hstep
      have ht := trans_of_step hstep
      exact ⟨hunits.trans ht, hlane.trans hunits ht, hplace.trans hunits ht,
        hview.trans hunits hlane hplace ht⟩
  obtain ⟨-, -, hplace, hview⟩ := hinv
  refine ⟨fun call => readsInline hview hplace, fun facade hstash => ⟨?_, ?_⟩⟩
  . intro fromState blocks
    exact ⟨_, by rw [Facade.putBlocks, if_pos hstash]⟩
  . intro faults db
    exact ⟨_, by rw [Facade.reseedNullifiers, if_pos hstash]⟩

def receivedAt (height : Nat) : ScannedBlock :=
  { scannedAt height with transactions := [⟨[], [(7, some [1])], [], [], [], [], [], []⟩] }

/-- The note of the first chunk is in the view of the second while no commit has ended. -/
theorem facade_reads_inline_received
    : ∃ s call, (rangeMachine Scan.heightsOnly ledger Scan.tenBlocksScan (fun _ => .committed) 1
        twoChunks).Reachable s
      ∧ s.callAt Scan.heightsOnly = some call ∧ call.fromHeight = 102
      ∧ s.facade.views.saplingNfs = [(7, [1])] ∧ s.db = []
      ∧ ReadsInline ledger s.facade s.inline call := by
  have hrun : ∃ s call, (rangeMachine Scan.heightsOnly ledger Scan.tenBlocksScan
        (fun _ => .committed) 1 twoChunks).run twoChunksStart
        (firstChunk [scannedAt 100, receivedAt 101]) = some s
      ∧ s.callAt Scan.heightsOnly = some call ∧ call.fromHeight = 102
      ∧ s.facade.views.saplingNfs = [(7, [1])] ∧ s.db = [] :=
    ⟨_, _, rfl, rfl, rfl, rfl, rfl⟩
  obtain ⟨s, call, hs, hcall, hfrom, hviews, hdb⟩ := hrun
  have hreach := Machine.reachable_of_run (.start twoChunks_start) hs
  have hchunks : ChunksFrom Scan.tenBlocksScan.rangeStart twoChunks :=
    ⟨by decide, by unfold Consecutive; decide, by decide, by unfold Consecutive; decide, trivial⟩
  exact ⟨s, call, hreach, hcall, hfrom, hviews, hdb, (facade_reads_inline hchunks hreach).1 call hcall⟩

end WriteBehind
end Slipstream
