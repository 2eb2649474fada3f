import Slipstream.WriteBehind.Lemmas.Steps
import Slipstream.WriteBehind.Lemmas.Walk
import Slipstream.Scan.Aligned

/-!
This module contains what a host's stop for a wallet change does to a write-behind range: from which
requests it comes, that the walks hand out no block once it is there, and that the range commits
exactly the sub-batches whose scan calls were through.
-/

namespace Slipstream
namespace WriteBehind

variable {T F D E : Type}

structure StopInv (p : StopCounters) : Prop where
  session : p.stopRequests = p.sessionStopRequests + p.sinceSession
  beginning : ∀ count, p.beginning = some count → p.stopRequests = count + p.sinceRead

theorem StopInv.trans (h : StopInv p) (ht : StopTrans p p') : StopInv p' := by
  cases ht with
  | request =>
    refine ⟨by simp [StopCounters.requestStopForWalletChange, h.session, Nat.add_assoc], ?_⟩
    intro count hcount
    simp [StopCounters.requestStopForWalletChange, h.beginning count hcount, Nat.add_assoc]
  | reads hidle =>
    refine ⟨h.session, ?_⟩
    intro count hcount
    cases hcount
    rfl
  | stores hread => exact ⟨h.beginning _ hread, nofun⟩

@[simp]
def Phase.inTurn : Phase F → Bool
  | .walking _ _ | .scanFailed _ | .scanned | .submitting _ => true
  | _ => false

def PendingPersist.heights (unit : PendingPersist F) : List Nat :=
  unit.blocks.map ScannedBlock.height

def unitsOf (completed : List (Call F)) : List (List Nat) :=
  (completed.map Call.heights).filter fun heights => !heights.isEmpty

@[simp]
def Phase.isClosing : Phase F → Bool
  | .finalDrain | .returned _ => true
  | _ => false

section Units

variable {tree : Scan.TreeStateApi T F} {api : WalletDb D E} {cfg : Scan.ScanConfig}
variable {outcome : Nat → CommitOutcome} {s s' : RangeState T F D} {call : Call F} {walk : Walk}

structure UnitInv (tree : Scan.TreeStateApi T F) (depth : Nat) (outcome : Nat → CommitOutcome)
    (s : RangeState T F D) : Prop where
  lane : LaneSystem.Run depth outcome s.made s.lane
  turn : s.phase.inTurn = true → (callOf tree s.scan).isSome = true
  walk : ∀ call walk, s.phase = .walking call walk → WalkInv call walk
  stash : s.phase ≠ .scanned → s.facade.stash = none
  units : (LaneSystem.jobs s.made).map PendingPersist.heights
    ++ s.facade.stash.toList.map PendingPersist.heights = unitsOf s.completed
  drain : s.phase.isClosing = true → s.made.getLast? = some .drain
  quiet : (∃ result, s.phase = .returned result) → s.lane.current = none

namespace UnitInv

theorem seeded (h : Facade.seed api faults db rangeStart = .ok facade)
    : UnitInv tree depth outcome {
        stop := .new
        scan := Scan.init chunks
        facade
        lane := .opened depth []
        db
        phase := .loop
        made := []
        completed := []
        inline := db
        refused := false } := by
  rw [Facade.seed_ok h]
  exact ⟨.opened depth outcome, nofun, nofun, fun _ => rfl, rfl, nofun, nofun⟩

theorem move (h : UnitInv tree depth outcome s) (hphase : s.phase ≠ .scanned)
    (hturn : phase.inTurn = true → (callOf tree s.scan).isSome = true)
    (hwalk : ∀ call walk, phase = .walking call walk → WalkInv call walk)
    (hopen : phase.isClosing = false) : UnitInv tree depth outcome { s with phase } where
  lane := h.lane
  turn := hturn
  walk := hwalk
  stash _ := h.stash hphase
  units := h.units
  drain hclosing := absurd (hclosing.symm.trans hopen) nofun
  quiet := by
    rintro ⟨result, rfl⟩
    cases hopen

theorem toLoop {facade : Facade F} {scan : Scan.ScanState T F} (h : UnitInv tree depth outcome s)
    (hphase : s.phase ≠ .scanned) (hfacade : facade.stash = s.facade.stash)
    : UnitInv tree depth outcome { s with facade, scan, phase := .loop } where
  lane := h.lane
  turn := nofun
  walk := nofun
  stash _ := hfacade.trans (h.stash hphase)
  units := by
    rw [← h.units]
    exact congrArg (_ ++ List.map _ ·.toList) hfacade
  drain := nofun
  quiet := nofun

theorem put (h : UnitInv tree depth outcome s) (hphase : s.phase = .walking call walk)
    (hblocks : walk.scanned.map ScannedBlock.height = call.heights)
    : UnitInv tree depth outcome (s.putBlocks api call walk.scanned) := by
  have hcall := h.turn (by rw [hphase]; rfl)
  have hunits := h.units
  have hstash := h.stash (by rw [hphase]; nofun)
  unfold RangeState.putBlocks
  have hput := Facade.put_of_putBlocks s.facade call.fromState walk.scanned
  split
  . next facade e hresult =>
    rw [hresult] at hput
    cases hput with
    | occupied hoccupied => rw [hstash] at hoccupied; cases hoccupied
  . next facade hresult =>
    rw [hresult] at hput
    have hcompleted : unitsOf (s.completed ++ [call])
        = unitsOf s.completed ++ [call.heights].filter fun heights => !heights.isEmpty := by
      simp only [unitsOf, List.map_append, List.filter_append, List.map_cons, List.map_nil]
    refine ⟨h.lane, fun _ => hcall, nofun, fun hne => absurd rfl hne, ?_, nofun, nofun⟩
    rw [hstash, Option.toList_none, List.map_nil, List.append_nil] at hunits
    rw [hcompleted, ← hunits, ← hblocks]
    cases hput with
    | empty _ hnil => simp [hstash, hnil]
    | stashed _ hfirst _ =>
      have hne : walk.scanned ≠ [] := by
        intro hnil
        rw [hnil] at hfirst
        cases hfirst
      simp [PendingPersist.heights, hne]

theorem trans [DecidableEq F] (h : UnitInv tree depth outcome s) (ht : RangeTrans tree api cfg outcome s s')
    : UnitInv tree depth outcome s' := by
  cases ht with
  | stop => exact ⟨h.lane, h.turn, h.walk, h.stash, h.units, h.drain, h.quiet⟩
  | same => exact h
  | loops hphase => exact h.toLoop (by simp [hphase]) rfl
  | starts hphase hgoing hcall =>
    refine h.move (by simp [hphase]) (fun _ => by rw [hcall]; rfl) ?_ rfl
    rintro _ _ ⟨⟩
    exact .start _ _
  | serves hphase hnext hstop hheight =>
    refine h.move (by simp [hphase]) (fun _ => h.turn (by rw [hphase]; rfl)) ?_ rfl
    rintro _ _ ⟨⟩
    exact (h.walk _ _ hphase).serve hnext hheight
  | refuses hphase =>
    have hmoved : UnitInv tree depth outcome { s with phase := .scanFailed .blockSource } :=
      h.move (by simp [hphase]) (fun _ => h.turn (by rw [hphase]; rfl)) (by simp) rfl
    exact ⟨hmoved.lane, hmoved.turn, hmoved.walk, hmoved.stash, hmoved.units, hmoved.drain,
      hmoved.quiet⟩
  | faults hphase fault =>
    exact h.move (by simp [hphase]) (fun _ => h.turn (by rw [hphase]; rfl)) (by simp) rfl
  | faultsBefore hphase hgoing hcall fault =>
    exact h.move (by simp [hphase]) (fun _ => by rw [hcall]; rfl) (by simp) rfl
  | walksAgain hphase =>
    refine h.move (by simp [hphase]) (fun _ => h.turn (by rw [hphase]; rfl)) ?_ rfl
    rintro _ _ ⟨⟩
    exact .start _ _
  | puts hphase hnext hsecond => exact h.put hphase ((h.walk _ _ hphase).through hsecond hnext)
  | submitsNothing hphase hstash =>
    refine ⟨h.lane, fun _ => h.turn (by rw [hphase]; rfl), by simp, fun _ => rfl, ?_, by simp, by simp⟩
    rw [← h.units, hstash]
    rfl
  | @submits pending _ hphase hstash hlane =>
    refine ⟨h.lane.call hlane, fun _ => h.turn (by rw [hphase]; rfl), by simp, fun _ => rfl, ?_, by simp,
      by simp⟩
    rw [← h.units, hstash, LaneSystem.jobs_append]
    simp [LaneSystem.jobs, Facade.takeStash]
  | polls hlane =>
    refine ⟨h.lane.goes (e := .poll) (by simp) hlane, h.turn, h.walk, h.stash, h.units, h.drain, ?_⟩
    intro hreturned
    rw [LaneSystem.step, h.quiet hreturned] at hlane
    cases hlane
  | commits htask hout hlane =>
    refine ⟨h.lane.goes (e := .taskEnds _) (by simp) hlane, h.turn, h.walk, h.stash, h.units, h.drain, ?_⟩
    intro hreturned
    simp only [LaneSystem.step, htask] at hlane
    cases hlane
    exact h.quiet hreturned
  | @breaks i _ hout hlane =>
    refine ⟨h.lane.goes (e := .taskEnds _) (by simp) hlane, h.turn, h.walk, h.stash, h.units, h.drain, ?_⟩
    intro hreturned
    simp only [LaneSystem.step] at hlane
    split at hlane
    . cases hlane
      exact h.quiet hreturned
    . cases hlane
  | turnFails hphase => exact h.toLoop (by simp [hphase]) rfl
  | turnEnds hphase => exact h.toLoop (by simp [hphase]) rfl
  | drains hphase hdone hlane =>
    refine ⟨h.lane.call hlane, by simp, by simp, fun _ => h.stash (by simp [hphase]), ?_, by simp,
      by simp⟩
    rw [← h.units, LaneSystem.jobs_append]
    simp [LaneSystem.jobs]
  | drainFails hphase => exact h.toLoop (by simp [hphase]) rfl
  | drained hphase => exact h.move (by simp [hphase]) (by simp) (by simp) rfl
  | enhances hphase effect =>
    exact ⟨h.lane, by simp, by simp, fun _ => h.stash (by simp [hphase]), h.units, by simp, by simp⟩
  | reseeds hphase hreseed =>
    exact h.toLoop (by simp [hphase]) (Facade.reseedNullifiers_frame hreseed).1
  | reseedFails hphase hreseed =>
    exact h.toLoop (by simp [hphase]) (Facade.reseedNullifiers_frame hreseed).1
  | barrier hphase hended hlane =>
    refine ⟨h.lane.call hlane, by simp, by simp, fun _ => rfl, ?_, fun _ => by simp, by simp⟩
    rw [← h.units, h.stash (by simp [hphase]), LaneSystem.jobs_append]
    simp [LaneSystem.jobs, Facade.takeStash]
  | returns hphase hresult =>
    refine ⟨h.lane, by simp, by simp, fun _ => h.stash (by simp [hphase]), h.units,
      fun _ => h.drain (by rw [hphase]; rfl), fun _ => ?_⟩
    obtain ⟨result, hlane, -⟩ := Option.bind_eq_some_iff.mp hresult
    unfold RangeState.laneResult at hlane
    split at hlane
    . cases hlane
    . next hcurrent => simpa using hcurrent

end UnitInv

def Refusal (s : RangeState T F D) : Prop :=
  match s.phase with
  | .scanFailed error => error = .blockSource
  | .loop | .finalDrain => s.scan.ended = some (.failed .stoppedForWalletChange)
  | .returned result => result = .error .stoppedForWalletChange
  | _ => False

theorem laneResult_ok (h : s.lane.failed = false) (hresult : s.laneResult = some result)
    : result = .ok () := by
  unfold RangeState.laneResult at hresult
  split at hresult
  . cases hresult
  . obtain ⟨r, hlast, rfl⟩ := Option.map_eq_some_iff.mp hresult
    have hok := List.any_eq_false.mp h r (List.mem_of_getLast? hlast)
    rcases hr : r.2 with e | u
    . rw [hr] at hok
      exact absurd rfl hok
    . rfl

def Phase.isScanning : Phase F → Bool
  | .loop | .scanFailed _ | .finalDrain | .returned _ => false
  | _ => true

theorem Refusal.isScanning (h : Refusal s) : s.phase.isScanning = false := by
  unfold Refusal at h
  split at h
  . next hphase => rw [hphase]; rfl
  . next hphase => rw [hphase]; rfl
  . next hphase => rw [hphase]; rfl
  . next hphase => rw [hphase]; rfl
  . exact h.elim

theorem Refusal.not_of_phase (h : Refusal s) (hphase : s.phase = phase)
    (hscanning : phase.isScanning = true) : False := by
  have hfalse := h.isScanning
  rw [hphase, hscanning] at hfalse
  cases hfalse

theorem Refusal.not_going (h : Refusal s) (hphase : s.phase = .loop) (hgoing : s.scan.ended = none)
    : False := by
  rw [Refusal, hphase] at h
  exact absurd (h.symm.trans hgoing) nofun

theorem putBlocks_refused (api : WalletDb D E) (s : RangeState T F D) (call : Call F)
    (blocks : List ScannedBlock) : (s.putBlocks api call blocks).refused = s.refused := by
  unfold RangeState.putBlocks
  split <;> rfl

theorem UnitInv.returned (h : UnitInv tree depth outcome s) (hout : ∀ i, outcome i = .committed)
    (hphase : s.phase = .returned result)
    : s.lane.committed.map PendingPersist.heights = unitsOf s.completed := by
  have hdrain := h.drain (by rw [hphase]; rfl)
  have hunits := h.units
  rw [h.stash (by rw [hphase]; nofun), Option.toList_none, List.map_nil, List.append_nil] at hunits
  rw [h.lane.committed (h.lane.failed hout) hdrain (h.quiet ⟨result, hphase⟩), hunits]

variable [DecidableEq F]

theorem Refusal.trans (h : s.refused = true → Refusal s) (hunits : UnitInv tree depth outcome s)
    (hout : ∀ i, outcome i = .committed) (ht : RangeTrans tree api cfg outcome s s')
    (hrefused : s'.refused = true) : Refusal s' := by
  cases ht with
  | stop => exact h hrefused
  | same => exact h hrefused
  | polls => exact h hrefused
  | commits => exact h hrefused
  | breaks => exact h hrefused
  | loops hphase hplain hscan => exact ((h hrefused).not_going hphase (going_of_step hscan)).elim
  | starts hphase hgoing => exact ((h hrefused).not_going hphase hgoing).elim
  | faultsBefore hphase hgoing => exact ((h hrefused).not_going hphase hgoing).elim
  | refuses => rfl
  | puts hphase =>
    rw [putBlocks_refused] at hrefused
    exact ((h hrefused).not_of_phase hphase rfl).elim
  | serves hphase => exact ((h hrefused).not_of_phase hphase rfl).elim
  | faults hphase => exact ((h hrefused).not_of_phase hphase rfl).elim
  | walksAgain hphase => exact ((h hrefused).not_of_phase hphase rfl).elim
  | submitsNothing hphase => exact ((h hrefused).not_of_phase hphase rfl).elim
  | submits hphase => exact ((h hrefused).not_of_phase hphase rfl).elim
  | turnEnds hphase => exact ((h hrefused).not_of_phase hphase rfl).elim
  | drainFails hphase => exact ((h hrefused).not_of_phase hphase rfl).elim
  | drained hphase => exact ((h hrefused).not_of_phase hphase rfl).elim
  | enhances hphase => exact ((h hrefused).not_of_phase hphase rfl).elim
  | reseeds hphase => exact ((h hrefused).not_of_phase hphase rfl).elim
  | reseedFails hphase => exact ((h hrefused).not_of_phase hphase rfl).elim
  | turnFails hphase hinp hscan =>
    have herror := h hrefused
    rw [Refusal, hphase] at herror
    obtain ⟨call, hcall⟩ := Option.isSome_iff_exists.mp (hunits.turn (by rw [hphase]; rfl))
    rw [herror] at hinp
    exact ended_of_failedTurn hcall (.inl hinp) hscan
  | drains hphase hdone =>
    obtain ⟨scan, hscan⟩ := Option.isSome_iff_exists.mp hdone
    exact ((h hrefused).not_going hphase (going_of_step hscan)).elim
  | barrier hphase =>
    have hended := h hrefused
    rwa [Refusal, hphase] at hended
  | returns hphase hresult =>
    have hended := h hrefused
    rw [Refusal, hphase] at hended
    obtain ⟨laneResult, hlane, hresult⟩ := Option.bind_eq_some_iff.mp hresult
    rw [laneResult_ok (hunits.lane.failed hout) hlane] at hresult
    dsimp only at hresult
    rw [hended] at hresult
    cases hresult
    rfl

theorem Refusal.completed (h : Refusal s) (ht : RangeTrans tree api cfg outcome s s')
    : s'.completed = s.completed := by
  cases ht with
  | puts hphase => exact (h.not_of_phase hphase rfl).elim
  | _ => rfl

theorem walks_of_stopped (ht : RangeTrans tree api cfg outcome s s')
    (hstop : s.stop.stopRequested = true) (hphase : s'.phase = .walking call walk)
    : walk.served = 0 ∨ s.phase = .walking call walk := by
  cases ht with
  | serves _ _ hgoes => exact absurd (hgoes.symm.trans hstop) nofun
  | starts => cases hphase; exact .inl rfl
  | walksAgain => cases hphase; exact .inl rfl
  | puts =>
    unfold RangeState.putBlocks at hphase
    split at hphase <;> cases hphase
  | stop | same | polls | commits | breaks => exact .inr hphase
  | _ => cases hphase

theorem refuses_of_stopped (ht : RangeTrans tree api cfg outcome s s')
    (hstop : s.stop.stopRequested = true) (hphase : s.phase = .walking call walk)
    (hleft : nextBlock call.fromHeight call.limit walk.served walk.rest ≠ none)
    : s'.phase = s.phase ∨ s' = { s with phase := .scanFailed .blockSource, refused := true } := by
  cases ht with
  | stop | same | polls | commits | breaks => exact .inl rfl
  | refuses => exact .inr rfl
  | serves _ _ hgoes => exact absurd (hgoes.symm.trans hstop) nofun
  | faults hphase' fault hserves =>
    rw [hphase] at hphase'
    cases hphase'
    rcases hserves with hgoes | hnone
    . exact absurd (hgoes.symm.trans hstop) nofun
    . exact absurd hnone hleft
  | walksAgain hphase' hnone =>
    rw [hphase] at hphase'
    cases hphase'
    exact absurd hnone hleft
  | puts hphase' hnone =>
    rw [hphase] at hphase'
    cases hphase'
    exact absurd hnone hleft
  -- The other steps are not those of a walk.
  | _ => simp_all only [reduceCtorEq]

variable (tree api cfg outcome) in
structure Stops (s : RangeState T F D) : Prop where
  requested : s.stop.stopRequested = true ↔ 0 < s.stop.sinceSession
  walks : s.stop.stopRequested = true → ∀ e s' call walk,
    s.step tree api cfg outcome e = some s' → s'.phase = .walking call walk →
      walk.served = 0 ∨ s.phase = .walking call walk
  refuses : s.stop.stopRequested = true → ∀ call walk, s.phase = .walking call walk →
    nextBlock call.fromHeight call.limit walk.served walk.rest ≠ none →
      (∀ scanned, s.step tree api cfg outcome (.serve scanned)
        = some { s with phase := .scanFailed .blockSource, refused := true })
      ∧ ∀ e s', s.step tree api cfg outcome e = some s' →
        s'.phase = s.phase ∨ s' = { s with phase := .scanFailed .blockSource, refused := true }
  completes : s.refused = true → ∀ e s', s.step tree api cfg outcome e = some s' →
    s'.completed = s.completed
  returns : ∀ result, s.phase = .returned result →
    s.lane.committed.map PendingPersist.heights = unitsOf s.completed
    ∧ (s.refused = true → result = .error .stoppedForWalletChange)

theorem StopInv.requested (h : StopInv p) : p.stopRequested = true ↔ 0 < p.sinceSession := by
  have hsession := h.session
  simp only [StopCounters.stopRequested, ne_eq, decide_not, Bool.not_eq_true', decide_eq_false_iff_not]
  omega

/--
In every interleaving of a write-behind range in which every commit goes through, a requested stop is
one since the latest session began; it ends the walk that has a block left; and the range returns
with exactly the sub-batches committed whose scan calls completed, and with the stop as its error.
-/
theorem stop_for_wallet_change (hout : ∀ i, outcome i = .committed)
    (h : (rangeMachine tree api cfg outcome depth chunks).Reachable s)
    : Stops tree api cfg outcome s := by
  have hinv : StopInv s.stop ∧ UnitInv tree depth outcome s ∧ (s.refused = true → Refusal s) := by
    apply h.invariant
    . rintro _ ⟨faults, facade, db, hseed, rfl⟩
      exact ⟨⟨rfl, nofun⟩, .seeded hseed, nofun⟩
    . rintro s e s' ⟨hstop, hunits, hrefusal⟩ - hstep
      have ht := trans_of_step hstep
      refine ⟨?_, hunits.trans ht, Refusal.trans hrefusal hunits hout ht⟩
      rcases ht.counters with hsame | hcounts
      . rwa [hsame]
      . exact hstop.trans hcounts
  obtain ⟨hstop, hunits, hrefusal⟩ := hinv
  refine ⟨hstop.requested, ?_, ?_, ?_, ?_⟩
  . intro hrequested e s' call walk hstep hphase
    exact walks_of_stopped (trans_of_step hstep) hrequested hphase
  . intro hrequested call walk hphase hleft
    refine ⟨fun scanned => ?_, fun e s' hstep =>
      refuses_of_stopped (trans_of_step hstep) hrequested hphase hleft⟩
    obtain ⟨⟨block, rest⟩, hnext⟩ := Option.ne_none_iff_exists'.mp hleft
    simp [RangeState.step, hphase, RangeState.serve, hnext, hrequested]
  . intro hrefused e s' hstep
    exact (hrefusal hrefused).completed (trans_of_step hstep)
  . intro result hphase
    refine ⟨hunits.returned hout hphase, fun hrefused => ?_⟩
    have hresult := hrefusal hrefused
    rwa [Refusal, hphase] at hresult

end Units

def ledger : WalletDb (List ScannedBlock) Unit where
  unifiedFullViewingKeys _ := []
  blockMetadata blocks height :=
    (blocks.reverse.find? fun block => decide (block.height = height)).map ScannedBlock.metadata
  unspent blocks := blocks.foldl Views.advance ⟨[], [], [], []⟩
  transparentReceivers _ := []
  putBlocks blocks more := blocks ++ more
  enhance blocks _ := blocks
  putBlocks_unspent blocks more := by
    rw [List.foldl_append]
    exact Views.updatedBy_foldl_advance _ more
  putBlocks_blockMetadata blocks more block hlast := by
    obtain ⟨init, rfl⟩ := List.getLast?_eq_some_iff.mp hlast
    simp
  enhance_blockMetadata _ _ := rfl

def scannedAt (height : Nat) : ScannedBlock where
  height
  metadata := ⟨height, [], none, none, none⟩
  transactions := []

def twoChunks : List Chunk :=
  [.fromBlocks 0 (Fetch.tenBlocksAnswer.take 2),
    .fromBlocks 1 ((Fetch.tenBlocksAnswer.drop 2).take 2)]

def twoChunksStart : RangeState Unit Unit (List ScannedBlock) where
  stop := .new
  scan := Scan.init twoChunks
  facade := ⟨[], 99, none, ⟨[], [], [], []⟩, [], none⟩
  lane := .opened 1 []
  db := []
  phase := .loop
  made := []
  completed := []
  inline := []
  refused := false

theorem twoChunks_start
    : (rangeMachine Scan.heightsOnly ledger Scan.tenBlocksScan (fun _ => .committed) 1
        twoChunks).start twoChunksStart :=
  ⟨fun _ => none, _, [], rfl, rfl⟩

def walkOver (blocks : List ScannedBlock) : List (RangeEvent Unit Unit) :=
  blocks.map (fun block => .serve (.ok block)) ++ [.walkEnds]

def turnAt (height : Nat) : RangeEvent Unit Unit :=
  .turnEnds {
    scan := .ok ()
    submit := .ok ()
    elapsedMs := 1
    boundary := Scan.answeredAt height
    settled := fun _ => none }

def firstChunk (blocks : List ScannedBlock) : List (RangeEvent Unit Unit) :=
  [.loop (.seed (Scan.answeredAt 99)), .loop .recv, .startCall] ++ walkOver blocks
    ++ walkOver blocks ++ [.submit, .lane .poll, turnAt 101, .loop (.chunkDone (.ok ())),
      .loop .recv]

def stoppedInSecond : List (RangeEvent Unit Unit) :=
  firstChunk [scannedAt 100, scannedAt 101] ++ [.startCall, .serve (.ok (scannedAt 102)),
    .requestStop, .serve (.ok (scannedAt 103)), turnAt 103, .barrier, .lane (.taskEnds 0),
    .lane .poll, .lane .poll, .finish (.ok ())]

theorem stop_for_wallet_change_stoppedInSecond
    : ∃ s, (rangeMachine Scan.heightsOnly ledger Scan.tenBlocksScan (fun _ => .committed) 1
        twoChunks).Reachable s
      ∧ s.phase = .returned (.error .stoppedForWalletChange)
      ∧ s.refused = true
      ∧ s.lane.committed.map PendingPersist.heights = [[100, 101]]
      ∧ Stops Scan.heightsOnly ledger Scan.tenBlocksScan (fun _ => .committed) s := by
  have hrun : ∃ s, (rangeMachine Scan.heightsOnly ledger Scan.tenBlocksScan (fun _ => .committed) 1
        twoChunks).run twoChunksStart stoppedInSecond = some s
      ∧ s.phase = .returned (.error .stoppedForWalletChange) ∧ s.refused = true
      ∧ s.lane.committed.map PendingPersist.heights = [[100, 101]] :=
    ⟨_, rfl, rfl, rfl, rfl⟩
  obtain ⟨s, hs, hphase, hrefused, hcommitted⟩ := hrun
  have hreach := Machine.reachable_of_run (.start twoChunks_start) hs
  exact ⟨s, hreach, hphase, hrefused, hcommitted, stop_for_wallet_change (fun _ => rfl) hreach⟩

/-- A `begin_session` that has read the count and not stored it leaves the old stop in force. -/
theorem stop_outlives_read
    : ∃ s, (rangeMachine Scan.heightsOnly ledger Scan.tenBlocksScan (fun _ => .committed) 1
        twoChunks).Reachable s
      ∧ s.stop.sinceRead = 0 ∧ s.stop.stopRequested = true
      ∧ ¬(s.stop.stopRequested = true ↔ 0 < s.stop.sinceRead) := by
  have hrun : ∃ s, (rangeMachine Scan.heightsOnly ledger Scan.tenBlocksScan (fun _ => .committed) 1
        twoChunks).run twoChunksStart [.requestStop, .beginSessionReads] = some s
      ∧ s.stop.sinceRead = 0 ∧ s.stop.stopRequested = true :=
    ⟨_, rfl, rfl, rfl⟩
  obtain ⟨s, hs, hnone, hstop⟩ := hrun
  refine ⟨s, Machine.reachable_of_run (.start twoChunks_start) hs, hnone, hstop, ?_⟩
  rw [hnone]
  simp [hstop]

end WriteBehind
end Slipstream
