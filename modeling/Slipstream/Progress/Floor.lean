import Slipstream.Progress.Impl.Floor

/-!
This module contains what the reported progress does over a pass: it is a permille value, it falls
only where a round lowers the floor, and a lowered floor holds exactly as long as no snapshot that
was taken before brings an old reading back.
-/

namespace Slipstream
namespace Progress

structure Blend.Rebased (p : Blend) (seed : Nat) : Prop where
  fetched : p.passBaseFetched = p.fetchedBlocks
  scanned : p.passBaseScanned = p.scannedBlocks
  start : p.passStartPermille = some seed

theorem Blend.Rebased.rawPermille {p : Blend} (h : p.Rebased seed) (hseed : seed ≤ 1000)
    : p.rawPermille = seed := by
  have hzero : p.passPermille = 0 := by
    simp [Blend.passPermille, h.fetched, h.scanned, saturatingAdd, saturatingMul, checkedDivOrZero]
  have hcap : seed ≤ U64_MAX := Nat.le_trans hseed (by decide)
  simp [Blend.rawPermille, h.start, hzero, saturatingAdd, saturatingMul, hseed, hcap]

theorem Blend.lt_floor_of_scopeExpanded {p : Blend} (h : p.scopeExpanded seed = true)
    (hfloor : p.progressPermilleFloor ≤ 1000) : seed < 1000 := by
  have h : saturatingAdd seed FLOOR_REBASELINE_EPSILON_PERMILLE < p.progressPermilleFloor := by
    simpa [Blend.scopeExpanded] using h
  have hcap : 1000 ≤ U64_MAX := by decide
  unfold saturatingAdd at h
  omega

def Published (p : Blend) : RoundStep → Prop
  | .rebaseFetched seed => p.scopeExpanded seed = true
  | .rebaseScanned seed => p.scopeExpanded seed = true ∧ p.passBaseFetched = p.fetchedBlocks
  | .retotal seed | .restart seed =>
    p.scopeExpanded seed = true ∧ p.passBaseFetched = p.fetchedBlocks
      ∧ p.passBaseScanned = p.scannedBlocks
  | .lower seed => p.scopeExpanded seed = true ∧ p.Rebased (min seed 1000)
  | _ => True

theorem Published.mono {p p' : Blend} (h : Published p next)
    (hfetched : p'.fetchedBlocks = p.fetchedBlocks) (hscanned : p'.scannedBlocks = p.scannedBlocks)
    (hbaseFetched : p'.passBaseFetched = p.passBaseFetched)
    (hbaseScanned : p'.passBaseScanned = p.passBaseScanned)
    (hstart : p'.passStartPermille = p.passStartPermille)
    (hfloor : p.progressPermilleFloor ≤ p'.progressPermilleFloor) : Published p' next := by
  have hexpanded {seed : Nat} (h : p.scopeExpanded seed = true) : p'.scopeExpanded seed = true := by
    simp only [Blend.scopeExpanded, decide_eq_true_eq] at h ⊢
    omega
  cases next with
  | rebaseFetched seed => exact hexpanded h
  | rebaseScanned seed => exact ⟨hexpanded h.1, by rw [hbaseFetched, hfetched, h.2]⟩
  | retotal seed =>
    exact ⟨hexpanded h.1, by rw [hbaseFetched, hfetched, h.2.1],
      by rw [hbaseScanned, hscanned, h.2.2]⟩
  | restart seed =>
    exact ⟨hexpanded h.1, by rw [hbaseFetched, hfetched, h.2.1],
      by rw [hbaseScanned, hscanned, h.2.2]⟩
  | lower seed =>
    exact ⟨hexpanded h.1, by rw [hbaseFetched, hfetched, h.2.fetched],
      by rw [hbaseScanned, hscanned, h.2.scanned], by rw [hstart, h.2.start]⟩
  | _ => trivial

structure ReportsInv (floor era : Nat) (reports : List Report) : Prop where
  floor_le : floor ≤ 1000
  values : ∀ report ∈ reports, report.value ≤ 1000
  eras : ∀ report ∈ reports, report.era ≤ era
  below : ∀ report ∈ reports, report.era = era → report.value ≤ floor
  ordered : reports.Pairwise fun a b => a.era = b.era → a.value ≤ b.value

namespace ReportsInv

theorem raise (h : ReportsInv floor era reports) (hraw : raw ≤ 1000)
    : ReportsInv (max floor raw) era reports := by
  refine ⟨by have := h.floor_le; omega, h.values, h.eras, ?_, h.ordered⟩
  intro report hreport hera
  exact Nat.le_trans (h.below report hreport hera) (Nat.le_max_left _ _)

theorem report (h : ReportsInv floor era reports)
    : ReportsInv floor era (reports ++ [{ era, value := floor }]) := by
  have hcases {r : Report} (hr : r ∈ reports ++ [{ era, value := floor }])
      : r ∈ reports ∨ r = { era, value := floor } := by
    simpa using hr
  refine ⟨h.floor_le, ?_, ?_, ?_, ?_⟩
  . intro r hr
    rcases hcases hr with hr | rfl
    . exact h.values r hr
    . exact h.floor_le
  . intro r hr
    rcases hcases hr with hr | rfl
    . exact h.eras r hr
    . exact Nat.le_refl _
  . intro r hr hera
    rcases hcases hr with hr | rfl
    . exact h.below r hr hera
    . exact Nat.le_refl _
  . rw [List.pairwise_append]
    refine ⟨h.ordered, List.pairwise_singleton _ _, ?_⟩
    intro a ha b hb hera
    rw [List.mem_singleton.mp hb] at hera ⊢
    exact h.below a ha hera

theorem rebaseline (h : ReportsInv floor era reports) (hnew : new ≤ 1000)
    : ReportsInv new (era + 1) reports := by
  refine ⟨hnew, h.values, ?_, ?_, h.ordered⟩
  . intro report hreport
    exact Nat.le_succ_of_le (h.eras report hreport)
  . intro report hreport hera
    have := h.eras report hreport
    omega

end ReportsInv

structure PassInv (s : PassState) : Prop where
  reports : ReportsInv s.blend.progressPermilleFloor s.rebaselines s.reports
  published : ∀ round, s.round = some round → Published s.blend round.next

namespace PassInv

variable {s s' : PassState} {round : Round}

theorem goTo {blend : Blend} (h : PassInv s)
    (hfloor : blend.progressPermilleFloor = s.blend.progressPermilleFloor)
    (hpublished : Published blend next)
    : PassInv ({ s with blend, scannedSoFarInPass }.goTo round next) := by
  refine ⟨?_, ?_⟩
  . simpa [PassState.goTo, hfloor] using h.reports
  . intro round' hround'
    cases hround'
    exact hpublished

theorem stop (h : PassInv s) : PassInv { s with round := none } := ⟨h.reports, nofun⟩

theorem roundStep (h : PassInv s) (hround : s.round = some round) : PassInv (s.roundStep round) := by
  have hpublished := h.published round hround
  dsimp only [PassState.roundStep]
  split
  . exact h.goTo rfl trivial
  . exact h.goTo rfl trivial
  . exact h.goTo rfl trivial
  . split
    . exact h.goTo rfl trivial
    . exact h.stop
  . next seed hnext =>
    split
    . next hexpanded => exact h.goTo rfl hexpanded
    . exact h.goTo rfl trivial
  . next seed hnext =>
    rw [hnext] at hpublished
    exact h.goTo rfl ⟨hpublished, rfl⟩
  . next seed hnext =>
    rw [hnext] at hpublished
    exact h.goTo rfl ⟨hpublished.1, hpublished.2, rfl⟩
  . next seed hnext =>
    rw [hnext] at hpublished
    exact h.goTo rfl hpublished
  . next seed hnext =>
    rw [hnext] at hpublished
    exact h.goTo rfl ⟨hpublished.1, hpublished.2.1, hpublished.2.2, rfl⟩
  . split
    . exact ⟨h.reports.rebaseline (Nat.min_le_right _ _), nofun⟩
    . exact h.stop
  . refine h.goTo ?_ trivial
    unfold Blend.setPassStartPermilleIfUnset
    split <;> rfl
  . exact ⟨h.reports.raise (Nat.min_le_right _ _), nofun⟩

theorem fold (h : PassInv s) (raw : Nat) (polls : List Nat) : PassInv (s.fold raw polls) := by
  have hreports := h.reports.raise (Nat.min_le_right raw 1000)
  have hcast : max s.blend.progressPermilleFloor (min raw 1000) % 2 ^ 16
      = max s.blend.progressPermilleFloor (min raw 1000) :=
    Nat.mod_eq_of_lt (Nat.lt_of_le_of_lt hreports.floor_le (by decide))
  refine ⟨?_, ?_⟩
  . simp only [PassState.fold, Blend.permilleFloor, hcast]
    exact hreports.report
  . intro round hround
    exact (h.published round hround).mono rfl rfl rfl rfl rfl (Nat.le_max_left _ _)

theorem step (h : PassInv s) (hstep : s.step e = some s') : PassInv s' := by
  cases e with
  | setChainTip tip =>
    cases hstep
    exact ⟨h.reports, fun round hround =>
      (h.published round hround).mono rfl rfl rfl rfl rfl (Nat.le_refl _)⟩
  | round =>
    obtain ⟨round, hround, rfl⟩ := Option.map_eq_some_iff.mp hstep
    exact h.roundStep hround
  | read =>
    cases hstep
    exact ⟨h.reports, h.published⟩
  | fold i =>
    obtain ⟨raw, _, rfl⟩ := Option.map_eq_some_iff.mp hstep
    exact h.fold raw _
  | suggest sumRemaining walletBirthday =>
    simp only [PassState.step] at hstep
    split at hstep
    . cases hstep
    . cases hstep
      refine ⟨h.reports, ?_⟩
      intro round hround
      cases hround
      trivial
  | _ =>
    -- The counters and the credit move between the rounds.
    simp only [PassState.step] at hstep
    split at hstep
    . cases hstep
    . next hidle =>
      cases hstep
      refine ⟨h.reports, ?_⟩
      intro round hround
      exact absurd (Option.isSome_iff_exists.mpr ⟨round, hround⟩) hidle

end PassInv

theorem passInv_of_reachable (h : passMachine.Reachable s) : PassInv s := by
  induction h with
  | start hstart =>
    obtain ⟨chainTip, floor, hfloor, rfl⟩ := hstart
    exact ⟨⟨hfloor, nofun, nofun, nofun, .nil⟩, nofun⟩
  | step _ _ hstep ih => exact ih.step hstep

def quiet : PassEvent → Bool
  | .addFetched n | .addScanned n => n = 0
  | .suggest _ _ => false
  | _ => true

structure Lowered (seed : Nat) (s : PassState) : Prop where
  idle : s.round = none
  rebased : s.blend.Rebased seed
  floor : s.blend.progressPermilleFloor = seed
  polls : ∀ raw ∈ s.polls, raw ≤ seed

namespace Lowered

variable {s s' : PassState}

theorem fold (h : Lowered seed s) (hseed : seed ≤ 1000) (hraw : raw ≤ seed)
    : Lowered seed (s.fold raw (s.polls.eraseIdx i))
      ∧ (s.fold raw (s.polls.eraseIdx i)).reports
        = s.reports ++ [{ era := s.rebaselines, value := seed }] := by
  have hfloor : max s.blend.progressPermilleFloor (min raw 1000) = seed := by
    rw [h.floor]
    omega
  refine ⟨⟨h.idle, ⟨h.rebased.fetched, h.rebased.scanned, h.rebased.start⟩, hfloor, ?_⟩, ?_⟩
  . intro other hother
    exact h.polls other (List.mem_of_mem_eraseIdx hother)
  . have hcast : seed % 2 ^ 16 = seed := Nat.mod_eq_of_lt (Nat.lt_of_le_of_lt hseed (by decide))
    simp only [PassState.fold, Blend.permilleFloor, hfloor, hcast]

theorem step (h : Lowered seed s) (hseed : seed ≤ 1000) (hquiet : quiet e = true)
    (hstep : s.step e = some s')
    : Lowered seed s' ∧ s'.rebaselines = s.rebaselines
      ∧ ∃ n, s'.reports
        = s.reports ++ List.replicate n { era := s.rebaselines, value := seed } := by
  cases e with
  | setChainTip tip =>
    cases hstep
    exact ⟨⟨h.idle, ⟨h.rebased.fetched, h.rebased.scanned, h.rebased.start⟩, h.floor, h.polls⟩, rfl,
      0, by simp⟩
  | addFetched n =>
    obtain rfl : n = 0 := by simpa [quiet] using hquiet
    simp only [PassState.step, h.idle] at hstep
    cases hstep
    exact ⟨⟨rfl, ⟨h.rebased.fetched, h.rebased.scanned, h.rebased.start⟩, h.floor, h.polls⟩, rfl,
      0, by simp⟩
  | addScanned n =>
    obtain rfl : n = 0 := by simpa [quiet] using hquiet
    simp only [PassState.step, h.idle] at hstep
    cases hstep
    exact ⟨⟨rfl, ⟨h.rebased.fetched, h.rebased.scanned, h.rebased.start⟩, h.floor, h.polls⟩, rfl,
      0, by simp⟩
  | credit n =>
    simp only [PassState.step, h.idle] at hstep
    cases hstep
    exact ⟨⟨rfl, h.rebased, h.floor, h.polls⟩, rfl, 0, by simp⟩
  | suggest => cases hquiet
  | round =>
    simp only [PassState.step, h.idle] at hstep
    cases hstep
  | read =>
    cases hstep
    refine ⟨⟨h.idle, h.rebased, h.floor, ?_⟩, rfl, 0, by simp⟩
    intro raw hraw
    rcases List.mem_append.mp hraw with hraw | hraw
    . exact h.polls raw hraw
    . rw [List.mem_singleton.mp hraw]
      exact Nat.le_of_eq (h.rebased.rawPermille hseed)
  | fold i =>
    obtain ⟨raw, hraw, rfl⟩ := Option.map_eq_some_iff.mp hstep
    obtain ⟨hnext, hreports⟩ := h.fold hseed (h.polls raw (List.mem_of_getElem? hraw))
    exact ⟨hnext, rfl, 1, hreports⟩

theorem run (h : Lowered seed s) (hseed : seed ≤ 1000) (hquiet : ∀ e ∈ es, quiet e = true)
    (hrun : passMachine.run s es = some t)
    : ∃ n, t.reports = s.reports ++ List.replicate n { era := s.rebaselines, value := seed } := by
  induction es generalizing s with
  | nil =>
    cases hrun
    exact ⟨0, by simp⟩
  | cons e es ih =>
    obtain ⟨s', hstep, hrest⟩ := Option.bind_eq_some_iff.mp hrun
    obtain ⟨hnext, hera, n, hn⟩ := h.step hseed (hquiet e List.mem_cons_self) hstep
    obtain ⟨m, hm⟩ := ih hnext (fun e he => hquiet e (List.mem_cons_of_mem _ he)) hrest
    refine ⟨n + m, ?_⟩
    rw [hm, hn, hera, List.append_assoc, List.replicate_append_replicate]

end Lowered

theorem lower_step {round : Round} (h : PassInv s) (hround : s.round = some round)
    (hnext : round.next = .lower seed)
    : seed < 1000 ∧ s.blend.Rebased seed ∧ s.step .round = some (s.rebaseline seed) := by
  have hpublished := h.published round hround
  rw [hnext] at hpublished
  obtain ⟨hexpanded, hrebased⟩ := hpublished
  have hseed := Blend.lt_floor_of_scopeExpanded hexpanded h.reports.floor_le
  have hmin : min seed 1000 = seed := Nat.min_eq_left (Nat.le_of_lt hseed)
  rw [hmin] at hrebased
  refine ⟨hseed, hrebased, ?_⟩
  simp [PassState.step, hround, PassState.roundStep, hnext, hexpanded, hmin]

/-- Every report of a pass is a permille value, and reports fall only where a round has lowered the
floor between them. A round that finds its scope expanded lowers the floor to its seed, and from
then on, until a counter moves or a round starts, every snapshot that ends reports the seed, if and
only if no snapshot was under way with a value above it. -/
theorem reports_of_pass (h : passMachine.Reachable s)
    : (∀ report ∈ s.reports, report.value ≤ 1000)
      ∧ s.reports.Pairwise (fun a b => a.era = b.era → a.value ≤ b.value)
      ∧ ∀ round seed, s.round = some round → round.next = .lower seed →
        ∃ s', s.step .round = some s' ∧ s'.rebaselines = s.rebaselines + 1
          ∧ ((∀ es t, (∀ e ∈ es, quiet e = true) → passMachine.run s' es = some t →
              ∃ n, t.reports
                = s'.reports ++ List.replicate n { era := s'.rebaselines, value := seed })
            ↔ ∀ raw ∈ s.polls, raw ≤ seed) := by
  have hinv := passInv_of_reachable h
  refine ⟨hinv.reports.values, hinv.reports.ordered, ?_⟩
  intro round seed hround hnext
  obtain ⟨hseed, hrebased, hstep⟩ := lower_step hinv hround hnext
  refine ⟨_, hstep, rfl, ?_, ?_⟩
  . intro hreports raw hraw
    by_contra habove
    -- The snapshot that holds more than the seed ends right away.
    obtain ⟨i, hi⟩ := List.mem_iff_getElem?.mp hraw
    have hfold : (s.rebaseline seed).step (.fold i)
        = some ((s.rebaseline seed).fold raw (s.polls.eraseIdx i)) := by
      simp [PassState.step, PassState.rebaseline, hi]
    have hrun := congrArg (Option.bind · (passMachine.run · [])) hfold
    obtain ⟨n, hn⟩ := hreports [.fold i] _ (by simp [quiet]) hrun
    have hnew := List.append_cancel_left hn
    have hvalue : max seed (min raw 1000) % 2 ^ 16 = seed :=
      congrArg Report.value (List.eq_of_mem_replicate (hnew ▸ List.mem_singleton_self _))
    omega
  . intro hpolls es t hquiet hrun
    have hlowered : Lowered seed (s.rebaseline seed) :=
      ⟨rfl, ⟨hrebased.fetched, hrebased.scanned, hrebased.start⟩, rfl, hpolls⟩
    exact hlowered.run (Nat.le_of_lt hseed) hquiet hrun

def nineTenths : List PassEvent := [
  .suggest 1000 (some 1), .round, .round, .round, .round, .round, .round, .round,
  .addFetched 900, .addScanned 900, .credit 900, .read, .fold 0]

def rewound : List PassEvent := [
  .suggest 600 (some 1), .round, .round, .round, .round, .round, .round, .round, .round, .round]

def beforeLowering (polls : List Nat) : PassState where
  blend := {
    chainTip := 1000
    fetchedBlocks := 900
    scannedBlocks := 900
    passTotalBlocks := 600
    passBaseFetched := 900
    passBaseScanned := 900
    passStartPermille := some 400
    progressPermilleFloor := 900 }
  scannedSoFarInPass := 0
  round := some { sumRemaining := 600, walletBirthday := some 1, next := .lower 400 }
  polls
  rebaselines := 0
  reports := [{ era := 0, value := 900 }]

theorem reports_of_pass_rewound
    : passMachine.run (.init 1000 0) (nineTenths ++ rewound) = some (beforeLowering [])
      ∧ ∃ s', (beforeLowering []).step .round = some s'
        ∧ ∀ es t, (∀ e ∈ es, quiet e = true) → passMachine.run s' es = some t →
          ∃ n, t.reports
            = s'.reports ++ List.replicate n { era := s'.rebaselines, value := 400 } := by
  have hrun : passMachine.run (.init 1000 0) (nineTenths ++ rewound) = some (beforeLowering []) := by
    decide +kernel
  have hstart : passMachine.Reachable (.init 1000 0) := .start ⟨1000, 0, by decide, rfl⟩
  have hreached := Machine.reachable_of_run hstart hrun
  obtain ⟨_, _, hlower⟩ := reports_of_pass hreached
  obtain ⟨s', hstep, _, hiff⟩ := hlower _ 400 rfl rfl
  exact ⟨hrun, s', hstep, hiff.mpr nofun⟩

/-- A snapshot reads 900 before the round and ends after it: it reports 900 where the floor was
lowered to 400, and the floor is back at 900. -/
theorem stale_snapshot_latched
    : ∃ s t, passMachine.run (.init 1000 0) (nineTenths ++ .read :: rewound ++ [.round]) = some s
      ∧ s.blend.progressPermilleFloor = 400 ∧ s.round = none
      ∧ passMachine.run s [.fold 0] = some t ∧ t.blend.progressPermilleFloor = 900
      ∧ t.reports = s.reports ++ [{ era := 1, value := 900 }] :=
  ⟨(beforeLowering [900]).rebaseline 400, ((beforeLowering [900]).rebaseline 400).fold 900 [],
    by decide +kernel⟩

end Progress
end Slipstream
