import Slipstream.Scheduler.Impl.Sync
import Slipstream.Scheduler.Range
import Slipstream.Scheduler.Recoveries

/-!
This module contains what a pass leaves of its scan queue: with a wallet that keeps a range in its
queue until the range is done, a pass that succeeds has scanned all that was suggested, block by
block, and its report counts just that.
-/

namespace Slipstream

namespace Scan

theorem Covers.sum_limit {F : Type} {calls : List (ScanCall F)} (h : Covers first calls next)
    : first + (calls.map ScanCall.limit).sum = next := by
  induction calls generalizing first with
  | nil => exact h
  | cons call calls ih =>
    obtain ⟨-, -, hrest⟩ := h
    rw [List.map_cons, List.sum_cons, ← Nat.add_assoc]
    exact ih hrest

end Scan

namespace Scheduler

def ScanRange.has (range : ScanRange) (height : Nat) : Bool :=
  range.start ≤ height && height < range.endExclusive

def heights (ranges : List ScanRange) : List Nat :=
  ranges.flatMap fun r => List.range' r.start (r.endExclusive - r.start)

theorem mem_heights {ranges : List ScanRange}
    : height ∈ heights ranges ↔ ∃ r ∈ ranges, r.has height = true := by
  simp only [heights, List.mem_flatMap, List.mem_range'_1, ScanRange.has, Bool.and_eq_true,
    decide_eq_true_eq]
  apply exists_congr
  intro r
  apply and_congr_right
  intro _
  omega

structure Ledger (F : Type) where
  completed : List (ScanRange × List (Scan.ScanCall F))
  recent : List (ScanRange × List (Scan.ScanCall F))
  latest : List ScanRange
  due : List Nat

namespace Ledger

variable {T F : Type}

def empty : Ledger F where
  completed := []
  recent := []
  latest := []
  due := []

def observe (s : SyncState T F) (e : SyncEvent T) (s' : SyncState T F) (l : Ledger F) : Ledger F :=
  match e with
  | .pass (.suggested (.ok ranges) _) => { l with latest := ranges, due := l.due ++ heights ranges }
  | .pass (.truncated (.ok ())) => { l with recent := [], latest := [], due := [] }
  | .fetchReturns =>
    match s'.pass.phase, s.work with
    | .enhancing range, some (_, r) =>
      { l with
        completed := l.completed ++ [(range, r.scan.calls)]
        recent := l.recent ++ [(range, r.scan.calls)] }
    | _, _ => l
  | _ => l

end Ledger

section Pass

variable {T F : Type} [DecidableEq F] (api : Scan.TreeStateApi T F)
  (scanConfig : FetchPlan → Scan.ScanConfig) (cfg : PipelineConfig)

def ledgerMachine : Machine (SyncState T F × Ledger F) (SyncEvent T) :=
  (syncMachine api scanConfig cfg).observed (fun _ l => l = .empty) Ledger.observe

def honest (st : SyncState T F × Ledger F) : SyncEvent T → Bool
  | .range e =>
    match st.1.work with
    | some (_, r) => streamsAnswer r e
    | none => true
  | .pass (.suggested (.ok ranges) _) =>
    (heights st.2.latest).all fun height =>
      ranges.any (·.has height) || st.2.recent.any (·.1.has height)
  | _ => true

structure WorkInv (s : SyncState T F) : Prop where
  reach : ∀ plan r, s.work = some (plan, r) →
    (rangeMachine plan api (scanConfig plan) cfg.memoryBudgetBytes).Reach
      (fun s e => streamsAnswer s e = true) r
  scanning : ∀ range, s.pass.phase = .scanning range → ∃ h r, s.work = some (cfg.plan range h, r)
  joining : ∀ range scan, s.pass.phase = .joining range scan →
    ∃ h r, s.work = some (cfg.plan range h, r)
      ∧ ∀ stats, scan = .ok stats → r.scan.ended = some .finished
        ∧ stats.blocks = scannedBlocks r.scan

def lengths (completed : List (ScanRange × List (Scan.ScanCall F))) : Nat :=
  (completed.map fun c => c.1.endExclusive - c.1.start).sum

structure LedgerInv (s : PassState) (l : Ledger F) : Prop where
  covers : ∀ c ∈ l.completed, c.1.start < c.1.endExclusive
    ∧ Scan.Covers c.1.start c.2 c.1.endExclusive
  recent : ∀ c ∈ l.recent, c ∈ l.completed
  due : ∀ height ∈ l.due, (∃ c ∈ l.recent, c.1.has height = true)
    ∨ ∃ r ∈ l.latest, r.has height = true
  drained : ∀ report, s.phase = .ended (.ok report) → report = s.report ∧ l.latest = []
  scanBlocks : s.report.scanBlocks = lengths l.completed
  processed : s.report.rangesProcessed = l.completed.length

end Pass

section Work

variable {T F : Type} [DecidableEq F] {api : Scan.TreeStateApi T F}
  {scanConfig : FetchPlan → Scan.ScanConfig} {cfg : PipelineConfig} {s s' : SyncState T F}
  {pass : PassState}

theorem range_done {r : RangeState T F} {h : range.start < range.endExclusive}
    (hreach : (rangeMachine (cfg.plan range h) api scan cfg.memoryBudgetBytes).Reach
      (fun s e => streamsAnswer s e = true) r)
    (hscan : r.scan.ended = some .finished) (hfetch : r.fetch.result = some (.ok stats))
    : Scan.Covers range.start r.scan.calls range.endExclusive
      ∧ scannedBlocks r.scan = range.endExclusive - range.start := by
  have hcovers : Scan.Covers range.start r.scan.calls (range.endExclusive - 1 + 1) :=
    covers_of_finished hreach hfetch hscan
  have hend : range.endExclusive - 1 + 1 = range.endExclusive := by omega
  rw [hend] at hcovers
  refine ⟨hcovers, ?_⟩
  have := hcovers.sum_limit
  unfold scannedBlocks
  omega

theorem scan_stays {r r' : RangeState T F} (hstep : rangeStep plan api scan r e = some r')
    (hended : r.scan.ended = some ended)
    : r'.scan.ended = some ended ∧ scannedBlocks r'.scan = scannedBlocks r.scan := by
  cases e with
  | fetch e =>
    obtain ⟨-, -, hscan⟩ := fetchStep_cases hstep
    rw [hscan]
    exact ⟨hended, rfl⟩
  | scan e =>
    obtain ⟨-, hscan, -⟩ := scanStep_cases hstep
    rw [Scan.going_of_step hscan] at hended
    cases hended

theorem phase_of_pass {p p' : PassState} (ht : PassTrans p e p') (he : ofPass e = true)
    (hbegin : e ≠ .begin)
    : p'.phase = p.phase
      ∨ (∀ range, p'.phase ≠ .scanning range) ∧ ∀ range scan, p'.phase ≠ .joining range scan := by
  cases ht with
  | progress => exact Or.inl rfl
  | began => exact absurd rfl hbegin
  | scanned => cases he
  | completed => cases he
  | broke => cases he
  | gaveUp => cases he
  | truncated hphase hdone =>
    obtain ⟨p, -, rfl⟩ := Option.map_eq_some_iff.mp hdone
    exact Or.inr ⟨nofun, nofun⟩
  | _ => exact Or.inr ⟨nofun, nofun⟩

omit [DecidableEq F] in
theorem scanResult_ok {scan : Scan.ScanState T F} (h : scanResult scan rest = some (.ok stats))
    : scan.ended = some .finished ∧ stats.blocks = scannedBlocks scan := by
  unfold scanResult at h
  split at h
  . next hended =>
    split at h
    . cases h
    . cases h
      exact ⟨hended, rfl⟩
  . cases h
  . cases h
  . cases h

namespace WorkInv

theorem idle (hreach : ∀ plan r, s.work = some (plan, r) →
      (rangeMachine plan api (scanConfig plan) cfg.memoryBudgetBytes).Reach
        (fun s e => streamsAnswer s e = true) r)
    (hscanning : ∀ range, s.pass.phase ≠ .scanning range)
    (hjoining : ∀ range scan, s.pass.phase ≠ .joining range scan) : WorkInv api scanConfig cfg s :=
  ⟨hreach, fun range h => absurd h (hscanning range),
    fun range scan h => absurd h (hjoining range scan)⟩

theorem none (hwork : s.work = none) (hscanning : ∀ range, s.pass.phase ≠ .scanning range)
    (hjoining : ∀ range scan, s.pass.phase ≠ .joining range scan) : WorkInv api scanConfig cfg s := by
  apply idle _ hscanning hjoining
  intro plan r hsome
  rw [hwork] at hsome
  cases hsome

theorem begin (hpass : s.pass.step .begin = some pass)
    : WorkInv api scanConfig cfg { pass, work := setUp cfg pass } := by
  have ht := trans_of_passStep hpass
  cases ht with
  | fails => exact none rfl nofun nofun
  | @began range hphase hlt hround =>
    constructor
    case reach =>
      intro plan r hwork
      simp only [setUp, hlt, dite_true, Option.some.injEq, Prod.mk.injEq] at hwork
      obtain ⟨rfl, rfl⟩ := hwork
      exact .start rfl
    case scanning =>
      intro range' hrange
      cases hrange
      exact ⟨hlt,
        { fetch := Fetch.init (cfg.plan range hlt) cfg.memoryBudgetBytes, scan := Scan.init [] }, by simp [setUp, hlt]⟩
    case joining => exact nofun

theorem range (h : WorkInv api scanConfig cfg s) (hwork : s.work = some (plan, r))
    (hanswers : streamsAnswer r e = true)
    (hstep : rangeStep plan api (scanConfig plan) r e = some r')
    : WorkInv api scanConfig cfg { s with work := some (plan, r') } := by
  constructor
  case reach =>
    intro plan' r'' hsome
    cases hsome
    exact .step (h.reach plan r hwork) hanswers hstep
  case scanning =>
    intro range hphase
    obtain ⟨hlt, r₀, hsome⟩ := h.scanning range hphase
    rw [hwork, Option.some.injEq, Prod.mk.injEq] at hsome
    exact ⟨hlt, r', by rw [hsome.1]⟩
  case joining =>
    intro range scan hphase
    obtain ⟨hlt, r₀, hsome, hresult⟩ := h.joining range scan hphase
    rw [hwork, Option.some.injEq, Prod.mk.injEq] at hsome
    obtain ⟨rfl, rfl⟩ := hsome
    refine ⟨hlt, r', rfl, ?_⟩
    intro stats hok
    obtain ⟨hended, hblocks⟩ := hresult stats hok
    obtain ⟨hended', hblocks'⟩ := scan_stays hstep hended
    exact ⟨hended', hblocks.trans hblocks'.symm⟩

theorem scanReturns (h : WorkInv api scanConfig cfg s) (hwork : s.work = some (plan, r))
    (hresult : scanResult r.scan rest = some result)
    (hpass : s.pass.step (.scanned result) = some pass)
    : WorkInv api scanConfig cfg { s with pass } := by
  cases trans_of_passStep hpass with
  | fails => exact idle h.reach nofun nofun
  | @scanned range _ hphase =>
    refine ⟨h.reach, nofun, ?_⟩
    intro range' scan hjoining
    cases hjoining
    obtain ⟨hlt, r₀, hsome⟩ := h.scanning range hphase
    refine ⟨hlt, r₀, hsome, ?_⟩
    rintro stats rfl
    rw [hwork, Option.some.injEq, Prod.mk.injEq] at hsome
    obtain ⟨rfl, rfl⟩ := hsome
    exact scanResult_ok hresult

theorem own (h : WorkInv api scanConfig cfg s) (he : ofPass e = true) (hbegin : e ≠ .begin)
    (hpass : s.pass.step e = some pass) : WorkInv api scanConfig cfg { s with pass } := by
  rcases phase_of_pass (trans_of_passStep hpass) he hbegin with hsame | ⟨hscanning, hjoining⟩
  . exact ⟨h.reach, fun range hphase => h.scanning range (hsame ▸ hphase),
      fun range scan hphase => h.joining range scan (hsame ▸ hphase)⟩
  . exact idle h.reach hscanning hjoining

end WorkInv

namespace LedgerInv

variable {p p' : PassState} {l : Ledger F}

omit [DecidableEq F] in
theorem frame (h : LedgerInv p l) (hscan : p'.report.scanBlocks = p.report.scanBlocks)
    (hprocessed : p'.report.rangesProcessed = p.report.rangesProcessed)
    (hphase : ∀ report, p'.phase = .ended (.ok report) → report = p'.report ∧ l.latest = [])
    : LedgerInv p' l :=
  ⟨h.covers, h.recent, h.due, hphase, hscan.trans h.scanBlocks, hprocessed.trans h.processed⟩

omit [DecidableEq F] in
theorem suggested (h : LedgerInv p l) (ht : PassTrans p (.suggested (.ok ranges) birthday) p')
    (hkeeps : ∀ height ∈ heights l.latest, (∃ r ∈ ranges, r.has height = true)
      ∨ ∃ c ∈ l.recent, c.1.has height = true)
    : LedgerInv p' { l with latest := ranges, due := l.due ++ heights ranges } := by
  have hdue : ∀ height ∈ l.due ++ heights ranges, (∃ c ∈ l.recent, c.1.has height = true)
      ∨ ∃ r ∈ ranges, r.has height = true := by
    intro height hmem
    rcases List.mem_append.mp hmem with hmem | hmem
    . rcases h.due height hmem with hdone | hlatest
      . exact Or.inl hdone
      . exact (hkeeps height (mem_heights.mpr hlatest)).symm
    . exact Or.inr (mem_heights.mp hmem)
  cases ht with
  | fails => exact ⟨h.covers, h.recent, hdue, nofun, h.scanBlocks, h.processed⟩
  | drained hphase =>
    refine ⟨h.covers, h.recent, hdue, ?_, h.scanBlocks, h.processed⟩
    intro report hended
    cases hended
    exact ⟨rfl, rfl⟩
  | suggested hphase hp =>
    exact ⟨h.covers, h.recent, hdue, nofun, h.scanBlocks, h.processed⟩

omit [DecidableEq F] in
theorem completed (h : LedgerInv p l) (hdone : p.complete range scan fetch = some p')
    (hlt : range.start < range.endExclusive)
    (hcovers : Scan.Covers range.start calls range.endExclusive)
    (hscan : scan.blocks = range.endExclusive - range.start)
    : LedgerInv p' {
        l with
        completed := l.completed ++ [(range, calls)]
        recent := l.recent ++ [(range, calls)]
      } := by
  obtain ⟨progress, -, rfl⟩ := Option.map_eq_some_iff.mp hdone
  constructor
  case covers =>
    intro c hc
    rcases List.mem_append.mp hc with hc | hc
    . exact h.covers c hc
    . rw [List.mem_singleton.mp hc]
      exact ⟨hlt, hcovers⟩
  case recent =>
    intro c hc
    rcases List.mem_append.mp hc with hc | hc
    . exact List.mem_append_left _ (h.recent c hc)
    . exact List.mem_append_right _ hc
  case due =>
    intro height hmem
    rcases h.due height hmem with ⟨c, hc, hhas⟩ | hlatest
    . exact Or.inl ⟨c, List.mem_append_left _ hc, hhas⟩
    . exact Or.inr hlatest
  case drained => exact nofun
  case scanBlocks => simp [lengths, h.scanBlocks, hscan]
  case processed => simp [h.processed]

end LedgerInv

theorem ledger_fetchReturns {l : Ledger F} (h : LedgerInv s.pass l)
    (hinv : WorkInv api scanConfig cfg s) (hwork : s.work = some (plan, r))
    (hresult : r.fetch.result = some result)
    (hpass : s.pass.step (.joined (.ok result)) = some pass)
    : LedgerInv pass (Ledger.observe s .fetchReturns { pass, work := none } l) := by
  cases trans_of_passStep hpass with
  | fails hphase => exact h.frame rfl rfl nofun
  | broke hphase hfew => exact h.frame rfl rfl nofun
  | gaveUp hphase hmany => exact h.frame rfl rfl nofun
  | @completed range scan fetch _ hphase hdone =>
    obtain ⟨hlt, r₀, hsome, hscan⟩ := hinv.joining range (.ok scan) hphase
    rw [hwork, Option.some.injEq, Prod.mk.injEq] at hsome
    obtain ⟨rfl, rfl⟩ := hsome
    obtain ⟨hended, hblocks⟩ := hscan scan rfl
    obtain ⟨hcovers, hcalls⟩ := range_done (hinv.reach _ _ hwork) hended hresult
    have hledger := h.completed hdone hlt hcovers (hblocks.trans hcalls)
    obtain ⟨progress, -, rfl⟩ := Option.map_eq_some_iff.mp hdone
    simpa [Ledger.observe, hwork] using hledger

omit [DecidableEq F] in
theorem ledger_own {p p' : PassState} {l : Ledger F} (h : LedgerInv p l) (ht : PassTrans p e p')
    (he : ofPass e = true)
    (hsuggests : ∀ ranges birthday, e ≠ .suggested (.ok ranges) birthday)
    (htruncates : e ≠ .truncated (.ok ())) : LedgerInv p' l := by
  cases ht with
  | progress => exact h.frame rfl rfl h.drained
  | fails => exact h.frame rfl rfl nofun
  | drained => exact absurd rfl (hsuggests _ _)
  | suggested => exact absurd rfl (hsuggests _ _)
  | began => exact h.frame rfl rfl nofun
  | scanned => cases he
  | completed => cases he
  | broke => cases he
  | gaveUp => cases he
  | truncated => exact absurd rfl htruncates
  | slept => exact h.frame rfl rfl nofun
  | enhanced => exact h.frame rfl rfl nofun

omit [DecidableEq F] in
theorem ledger_truncated {p p' : PassState} {l : Ledger F} (h : LedgerInv p l)
    (ht : PassTrans p (.truncated (.ok ())) p')
    : LedgerInv p' { l with recent := [], latest := [], due := [] } := by
  have hfresh : LedgerInv p { l with recent := [], latest := [], due := [] } :=
    ⟨h.covers, nofun, nofun, fun report hended => ⟨(h.drained report hended).1, rfl⟩, h.scanBlocks,
      h.processed⟩
  cases ht with
  | fails => exact hfresh.frame rfl rfl nofun
  | truncated hphase hdone =>
    obtain ⟨progress, -, rfl⟩ := Option.map_eq_some_iff.mp hdone
    exact hfresh.frame rfl rfl nofun

theorem syncStep_pass (hbegin : e ≠ .begin) (h : syncStep api scanConfig cfg s (.pass e) = some s')
    : ofPass e = true ∧ ∃ pass, s.pass.step e = some pass ∧ s' = { s with pass } := by
  unfold syncStep at h
  split at h
  . next heq =>
    cases heq
    exact absurd rfl hbegin
  . next heq =>
    cases heq
    split at h
    . next he =>
      obtain ⟨pass, hpass, rfl⟩ := Option.map_eq_some_iff.mp h
      exact ⟨he, pass, hpass, rfl⟩
    . cases h
  all_goals cases ‹SyncEvent.pass e = _›

theorem keeps_pass {l : Ledger F} (hwork : WorkInv api scanConfig cfg s) (h : LedgerInv s.pass l)
    (hok : honest (s, l) (.pass e) = true) (hstep : syncStep api scanConfig cfg s (.pass e) = some s')
    : WorkInv api scanConfig cfg s' ∧ LedgerInv s'.pass (Ledger.observe s (.pass e) s' l) := by
  by_cases hbegin : e = .begin
  . subst hbegin
    obtain ⟨pass, hpass, rfl⟩ := Option.map_eq_some_iff.mp hstep
    refine ⟨WorkInv.begin hpass, ?_⟩
    exact ledger_own h (trans_of_passStep hpass) rfl nofun nofun
  . obtain ⟨he, pass, hpass, rfl⟩ := syncStep_pass hbegin hstep
    refine ⟨hwork.own he hbegin hpass, ?_⟩
    have ht := trans_of_passStep hpass
    by_cases hsuggests : ∃ ranges birthday, e = .suggested (.ok ranges) birthday
    . obtain ⟨ranges, birthday, rfl⟩ := hsuggests
      refine h.suggested ht fun height hmem => ?_
      simpa using List.all_eq_true.mp hok height hmem
    . by_cases htruncates : e = .truncated (.ok ())
      . subst htruncates
        exact ledger_truncated h ht
      . have hsame : Ledger.observe s (.pass e) { s with pass } l = l := by
          unfold Ledger.observe
          split
          . next ranges birthday heq =>
            cases heq
            exact absurd ⟨ranges, birthday, rfl⟩ hsuggests
          . next heq =>
            cases heq
            exact absurd rfl htruncates
          . next heq => cases heq
          . rfl
        rw [hsame]
        exact ledger_own h ht he (fun ranges birthday heq => hsuggests ⟨ranges, birthday, heq⟩)
          htruncates

theorem keeps_step {l : Ledger F} (hwork : WorkInv api scanConfig cfg s) (h : LedgerInv s.pass l)
    (hok : honest (s, l) e = true) (hstep : syncStep api scanConfig cfg s e = some s')
    : WorkInv api scanConfig cfg s' ∧ LedgerInv s'.pass (Ledger.observe s e s' l) := by
  cases e with
  | pass e => exact keeps_pass hwork h hok hstep
  | range e =>
    simp only [syncStep] at hstep
    split at hstep
    . next plan r hsome =>
      obtain ⟨r', hr', rfl⟩ := Option.map_eq_some_iff.mp hstep
      simp only [honest, hsome] at hok
      exact ⟨hwork.range hsome hok hr', h⟩
    . cases hstep
  | scanReturns rest =>
    simp only [syncStep] at hstep
    split at hstep
    . next plan r hsome =>
      obtain ⟨result, hresult, hmap⟩ := Option.bind_eq_some_iff.mp hstep
      obtain ⟨pass, hpass, rfl⟩ := Option.map_eq_some_iff.mp hmap
      refine ⟨hwork.scanReturns hsome hresult hpass, ?_⟩
      cases trans_of_passStep hpass with
      | fails => exact h.frame rfl rfl nofun
      | scanned => exact h.frame rfl rfl nofun
    . cases hstep
  | fetchReturns =>
    simp only [syncStep] at hstep
    split at hstep
    . next plan r hsome =>
      obtain ⟨result, hresult, hmap⟩ := Option.bind_eq_some_iff.mp hstep
      obtain ⟨pass, hpass, rfl⟩ := Option.map_eq_some_iff.mp hmap
      refine ⟨?_, ledger_fetchReturns h hwork hsome hresult hpass⟩
      cases trans_of_passStep hpass with
      | completed hphase hdone =>
        obtain ⟨progress, -, rfl⟩ := Option.map_eq_some_iff.mp hdone
        exact WorkInv.none rfl nofun nofun
      | _ => exact WorkInv.none rfl nofun nofun
    . cases hstep
  | fetchPanics detail =>
    obtain ⟨pass, hpass, rfl⟩ := Option.map_eq_some_iff.mp hstep
    cases trans_of_passStep hpass with
    | fails => exact ⟨WorkInv.none rfl nofun nofun, h.frame rfl rfl nofun⟩

theorem keeps_of_reach {st : SyncState T F × Ledger F}
    (h : (ledgerMachine api scanConfig cfg).Reach (fun st e => honest st e = true) st)
    : WorkInv api scanConfig cfg st.1 ∧ LedgerInv st.1.pass st.2 := by
  apply h.invariant
  . rintro ⟨s, l⟩ ⟨⟨start, hs⟩, hl⟩
    dsimp only at hs hl
    subst hs hl
    exact ⟨WorkInv.none rfl nofun nofun, nofun, nofun, nofun, nofun, rfl, rfl⟩
  . rintro ⟨s, l⟩ e st' ⟨hwork, hledger⟩ hok hstep
    obtain ⟨s', hs', rfl⟩ := Option.map_eq_some_iff.mp hstep
    exact keeps_step hwork hledger hok hs'

theorem pass_scans_all {l : Ledger F}
    (h : (ledgerMachine api scanConfig cfg).Reach (fun st e => honest st e = true) (s, l))
    : (∀ c ∈ l.completed, c.1.start < c.1.endExclusive
        ∧ Scan.Covers c.1.start c.2 c.1.endExclusive)
      ∧ s.pass.report.rangesProcessed = l.completed.length
      ∧ s.pass.report.scanBlocks = lengths l.completed
      ∧ ∀ report, s.pass.phase = .ended (.ok report) → report = s.pass.report
        ∧ ∀ height ∈ l.due, ∃ c ∈ l.recent, c ∈ l.completed ∧ c.1.has height = true := by
  obtain ⟨-, hledger⟩ := keeps_of_reach h
  refine ⟨hledger.covers, hledger.processed, hledger.scanBlocks, ?_⟩
  intro report hended
  obtain ⟨hreport, hlatest⟩ := hledger.drained report hended
  refine ⟨hreport, fun height hmem => ?_⟩
  -- Nothing is left in the queue, so it was all done since the last truncation.
  rcases hledger.due height hmem with ⟨c, hc, hhas⟩ | ⟨r, hr, -⟩
  . exact ⟨c, hc, hledger.recent c hc, hhas⟩
  . rw [hlatest] at hr
    cases hr

end Work

def oneStreamConfig : PipelineConfig where
  chunkBlocks := 100
  fetchStreams := 1
  chunkSplitBytes := 1048576
  memoryBudgetBytes := 1000000
  failover := none
  chunkBlocks_pos := Nat.succ_pos 99

def tipPass : List (SyncEvent Unit) :=
  [.pass (.suggested (.ok [tipRange]) none)] ++ List.replicate 4 (.pass (.progress .round))
    ++ [.pass .begin] ++ tenBlocksRange.map .range
    ++ [.scanReturns (.ok ⟨0, 0, ⟨0, 0, 0, 0⟩⟩), .fetchReturns,
      .pass (.enhanced (.ok ⟨0, 0, 0, 0⟩) none), .pass (.suggested (.ok []) none)]

theorem pass_scans_all_tipPass
    : ∃ s l, (ledgerMachine Scan.heightsOnly (fun _ => Scan.tenBlocksScan) oneStreamConfig).Reach
        (fun st e => honest st e = true) (s, l)
      ∧ (∃ report, s.pass.phase = .ended (.ok report)) ∧ s.pass.report.scanBlocks = 10
      ∧ l.due = List.range' 100 10
      ∧ ∀ height ∈ l.due, ∃ c ∈ l.recent, c ∈ l.completed ∧ c.1.has height = true := by
  have hrun : ∃ s l,
      (ledgerMachine Scan.heightsOnly (fun _ => Scan.tenBlocksScan) oneStreamConfig).runChecked
        honest ({ pass := freshHandle.init, work := none }, .empty) tipPass = some (s, l)
      ∧ (∃ report, s.pass.phase = .ended (.ok report)) ∧ lengths l.completed = 10
      ∧ l.due = List.range' 100 10 :=
    ⟨_, _, rfl, ⟨_, rfl⟩, rfl, rfl⟩
  obtain ⟨s, l, hs, ⟨report, hended⟩, hlengths, hdue⟩ := hrun
  have hstart :
      (ledgerMachine Scan.heightsOnly (fun _ => Scan.tenBlocksScan) oneStreamConfig).start
        ({ pass := freshHandle.init, work := none }, .empty) := ⟨⟨freshHandle, rfl⟩, rfl⟩
  have hreach := Machine.reach_of_runChecked (.start hstart) hs
  obtain ⟨-, -, hscan, hends⟩ := pass_scans_all hreach
  exact ⟨s, l, hreach, ⟨report, hended⟩, hscan.trans hlengths, hdue, (hends report hended).2⟩

end Scheduler
end Slipstream
