import Slipstream.Progress.Impl.Downloads
import Mathlib.Data.List.Chain
import Mathlib.Data.List.Nodup

/-!
This module contains the history behind the download runs: which give-ups each run counts, and that
nothing else is kept.
-/

namespace Slipstream
namespace Progress

def DownloadEntry.ends (height : Nat) : DownloadEntry → Bool
  | .gaveUp .. => false
  | .released firstHeight lastHeight => firstHeight ≤ height && height ≤ lastHeight
  | .cleared => true
  | .evicted atHeight => atHeight == height

def sinceEnd (height : Nat) (history : List DownloadEntry) : List Nat :=
  history.foldl go []
where
  go (times : List Nat) (entry : DownloadEntry) : List Nat :=
    if entry.ends height then []
    else
      match entry with
      | .gaveUp atHeight nowUnix => if atHeight = height then times ++ [nowUnix] else times
      | _ => times

def gaveUpSinceReset (events : List DownloadEvent) : Bool :=
  events.foldl go false
where
  go (flag : Bool) : DownloadEvent → Bool
    | .gaveUp .. => true
    | .released .. => flag
    | .passCompleted | .attemptFailed | .sessionStarted => false

def Counts (times : List Nat) (run : DownloadFailure) : Prop :=
  ∃ before counted, times = before ++ counted
    ∧ counted.IsChain (fun earlier later => later - earlier ≤ DOWNLOAD_FAILURE_RUN_GAP_SECS)
    ∧ (∀ earlier ∈ before.getLast?, ∀ later ∈ counted.head?,
        DOWNLOAD_FAILURE_RUN_GAP_SECS < later - earlier)
    ∧ counted.head? = some run.sinceUnix
    ∧ counted.getLast? = some run.lastUnix
    ∧ run.streak = min counted.length (2 ^ 32 - 1)

theorem Counts.first (height now : Nat) : Counts [now] ⟨1, height, now, now⟩ :=
  ⟨[], [now], rfl, .singleton _, nofun, rfl, rfl, rfl⟩

theorem Counts.extend (h : Counts times run)
    (hgap : now - run.lastUnix ≤ DOWNLOAD_FAILURE_RUN_GAP_SECS)
    : Counts (times ++ [now])
        { run with streak := min (run.streak + 1) (2 ^ 32 - 1), lastUnix := now } := by
  obtain ⟨before, counted, rfl, hchain, hbefore, hhead, hlast, hstreak⟩ := h
  have hne : counted ≠ [] := by
    rintro rfl
    cases hhead
  refine ⟨before, counted ++ [now], List.append_assoc .., ?_, ?_, ?_, by simp, ?_⟩
  . rw [List.isChain_append]
    refine ⟨hchain, .singleton _, ?_⟩
    intro earlier hearlier later hlater
    rw [hlast] at hearlier
    cases hearlier
    cases hlater
    exact hgap
  . intro earlier hearlier later hlater
    rw [List.head?_append_of_ne_nil _ hne] at hlater
    exact hbefore earlier hearlier later hlater
  . rw [List.head?_append_of_ne_nil _ hne]
    exact hhead
  . simp only [hstreak, List.length_append, List.length_singleton]
    omega

theorem Counts.restart (h : Counts times run) (height : Nat)
    (hgap : ¬now - run.lastUnix ≤ DOWNLOAD_FAILURE_RUN_GAP_SECS)
    : Counts (times ++ [now]) ⟨1, height, now, now⟩ := by
  obtain ⟨before, counted, rfl, hchain, hbefore, hhead, hlast, hstreak⟩ := h
  have hne : counted ≠ [] := by
    rintro rfl
    cases hhead
  refine ⟨before ++ counted, [now], rfl, .singleton _, ?_, rfl, rfl, rfl⟩
  intro earlier hearlier later hlater
  rw [List.getLast?_append_of_ne_nil _ hne, hlast] at hearlier
  cases hearlier
  cases hlater
  exact Nat.lt_of_not_le hgap

namespace FailureRuns

variable {m : FailureRuns}

theorem atHeight_inj (hrun : run ∈ m.runs) (hother : other ∈ m.runs)
    (h : run.atHeight = other.atHeight) : run = other := by
  have hnodup : (m.runs.map DownloadFailure.atHeight).Nodup :=
    List.pairwise_map.mpr (m.sorted.imp Nat.ne_of_lt)
  exact List.inj_on_of_nodup_map hnodup hrun hother h

theorem get?_eq_some_iff : m.get? height = some run ↔ run ∈ m.runs ∧ run.atHeight = height := by
  constructor
  . intro h
    exact ⟨List.mem_of_find?_eq_some h, by simpa using List.find?_some h⟩
  . rintro ⟨hrun, rfl⟩
    have hsome : (m.get? run.atHeight).isSome := by
      unfold get?
      rw [List.find?_isSome]
      exact ⟨run, hrun, by simp⟩
    obtain ⟨other, hother⟩ := Option.isSome_iff_exists.mp hsome
    have hheight : other.atHeight = run.atHeight := by simpa using List.find?_some hother
    rw [hother, atHeight_inj (List.mem_of_find?_eq_some hother) hrun hheight]

theorem mem_insert : other ∈ (m.insert run).runs
    ↔ other = run ∨ other ∈ m.runs ∧ other.atHeight ≠ run.atHeight := by
  simp only [insert, List.mem_append, List.mem_cons, List.mem_filter, decide_eq_true_eq]
  constructor
  . rintro (⟨hmem, hlt⟩ | rfl | ⟨hmem, hlt⟩)
    . exact Or.inr ⟨hmem, Nat.ne_of_lt hlt⟩
    . exact Or.inl rfl
    . exact Or.inr ⟨hmem, Nat.ne_of_gt hlt⟩
  . rintro (rfl | ⟨hmem, hne⟩)
    . exact Or.inr (Or.inl rfl)
    . rcases Nat.lt_or_gt_of_ne hne with hlt | hlt
      . exact Or.inl ⟨hmem, hlt⟩
      . exact Or.inr (Or.inr ⟨hmem, hlt⟩)

theorem mem_removeAll {p : Nat → Bool}
    : run ∈ (m.removeAll p).runs ↔ run ∈ m.runs ∧ p run.atHeight = false := by
  simp [removeAll]

theorem get?_insert (m : FailureRuns) (run : DownloadFailure) (height : Nat)
    : (m.insert run).get? height
      = if run.atHeight = height then some run else m.get? height := by
  ext other
  rw [get?_eq_some_iff, mem_insert]
  split
  . next h =>
    subst h
    rw [Option.some.injEq]
    constructor
    . rintro ⟨rfl | ⟨-, hne⟩, hheight⟩
      . rfl
      . exact absurd hheight hne
    . rintro rfl
      exact ⟨Or.inl rfl, rfl⟩
  . next h =>
    rw [get?_eq_some_iff]
    constructor
    . rintro ⟨rfl | ⟨hmem, -⟩, hheight⟩
      . exact absurd hheight h
      . exact ⟨hmem, hheight⟩
    . rintro ⟨hmem, rfl⟩
      exact ⟨Or.inr ⟨hmem, Ne.symm h⟩, rfl⟩

theorem get?_removeAll (m : FailureRuns) (p : Nat → Bool) (height : Nat)
    : (m.removeAll p).get? height = if p height then none else m.get? height := by
  ext run
  rw [get?_eq_some_iff, mem_removeAll]
  split
  . next h =>
    constructor
    . rintro ⟨⟨-, hkept⟩, rfl⟩
      rw [h] at hkept
      cases hkept
    . nofun
  . next h =>
    rw [get?_eq_some_iff]
    constructor
    . rintro ⟨⟨hmem, -⟩, hheight⟩
      exact ⟨hmem, hheight⟩
    . rintro ⟨hmem, rfl⟩
      exact ⟨⟨hmem, by simpa using h⟩, rfl⟩

theorem length_insert (m : FailureRuns) (run : DownloadFailure)
    : (m.insert run).runs.length ≤ m.runs.length + 1 := by
  have hdisjoint : m.runs.countP (·.atHeight < run.atHeight)
      + m.runs.countP (run.atHeight < ·.atHeight) ≤ m.runs.length := by
    generalize m.runs = runs
    induction runs with
    | nil => exact Nat.le_refl _
    | cons r runs ih =>
      simp only [List.countP_cons, List.length_cons, decide_eq_true_eq]
      split <;> split <;> omega
  simp only [insert, List.length_append, List.length_cons, ← List.countP_eq_length_filter]
  omega

end FailureRuns

namespace Downloads

variable {p : Downloads}

theorem evicted_spec {m : FailureRuns} (h : evicted m atHeight = some least)
    : least ≠ atHeight ∧ ∃ run ∈ m.runs, run.atHeight = least := by
  unfold evicted at h
  split at h
  . obtain ⟨run, hrun, rfl⟩ := Option.map_eq_some_iff.mp h
    have hmem := List.mem_filter.mp (List.argmin_mem hrun)
    exact ⟨by simpa using hmem.2, run, hmem.1, rfl⟩
  . cases h

theorem evicted_ne_none {m : FailureRuns} (h : m.runs.length > MAX_DOWNLOAD_FAILURE_RUNS)
    : evicted m atHeight ≠ none := by
  unfold evicted
  rw [if_pos h]
  intro hnone
  rw [Option.map_eq_none_iff, List.argmin_eq_none, List.filter_eq_nil_iff] at hnone
  have hall : ∀ run ∈ m.runs, run.atHeight = atHeight := by
    intro run hrun
    simpa using hnone run hrun
  have hmax : MAX_DOWNLOAD_FAILURE_RUNS = 8 := rfl
  match hruns : m.runs with
  | [] | [_] =>
    rw [hruns] at h
    simp [hmax] at h
  | a :: b :: rest =>
    have hlt := (List.pairwise_cons.mp (hruns ▸ m.sorted)).1 b (by simp)
    have ha := hall a (by simp [hruns])
    have hb := hall b (by simp [hruns])
    omega

theorem nextRun_atHeight (p : Downloads) (atHeight nowUnix : Nat)
    : (p.nextRun atHeight nowUnix).atHeight = atHeight := by
  unfold nextRun
  split
  . next run hrun =>
    split
    . exact (FailureRuns.get?_eq_some_iff.mp hrun).2
    . rfl
  . rfl

theorem nextRun_lastUnix (p : Downloads) (atHeight nowUnix : Nat)
    : (p.nextRun atHeight nowUnix).lastUnix = nowUnix := by
  unfold nextRun
  split
  . split <;> rfl
  . rfl

theorem get?_noteDownloadGaveUpAt_self (p : Downloads) (atHeight nowUnix : Nat)
    : (p.noteDownloadGaveUpAt atHeight nowUnix).1.downloadFailures.get? atHeight
      = some (p.nextRun atHeight nowUnix) := by
  unfold noteDownloadGaveUpAt
  dsimp only
  rw [FailureRuns.get?_removeAll, FailureRuns.get?_insert, if_pos (nextRun_atHeight ..)]
  split
  . next h => exact absurd rfl (evicted_spec (of_decide_eq_true h)).1
  . rfl

theorem get?_noteDownloadGaveUpAt_of_ne (p : Downloads) (nowUnix : Nat) (h : atHeight ≠ height)
    : (p.noteDownloadGaveUpAt atHeight nowUnix).1.downloadFailures.get? height
      = if (p.noteDownloadGaveUpAt atHeight nowUnix).2 = some height then none
        else p.downloadFailures.get? height := by
  unfold noteDownloadGaveUpAt
  dsimp only
  rw [FailureRuns.get?_removeAll, FailureRuns.get?_insert, nextRun_atHeight, if_neg h]
  simp

theorem length_noteDownloadGaveUpAt (atHeight nowUnix : Nat)
    (h : p.downloadFailures.runs.length ≤ MAX_DOWNLOAD_FAILURE_RUNS)
    : (p.noteDownloadGaveUpAt atHeight nowUnix).1.downloadFailures.runs.length
      ≤ MAX_DOWNLOAD_FAILURE_RUNS := by
  have hinsert := p.downloadFailures.length_insert (p.nextRun atHeight nowUnix)
  simp only [noteDownloadGaveUpAt]
  generalize p.downloadFailures.insert (p.nextRun atHeight nowUnix) = recorded at hinsert
  cases hleast : evicted recorded atHeight with
  | none =>
    have hfew : ¬recorded.runs.length > MAX_DOWNLOAD_FAILURE_RUNS :=
      fun hmany => evicted_ne_none hmany hleast
    have hle := List.length_filter_le (fun run => !decide ((none : Option Nat) = some run.atHeight))
      recorded.runs
    simp only [FailureRuns.removeAll]
    omega
  | some least =>
    obtain ⟨-, run, hrun, rfl⟩ := evicted_spec hleast
    have hlt : (recorded.runs.filter fun other => !decide (some run.atHeight = some other.atHeight)).length
        < recorded.runs.length := by
      rw [List.length_filter_lt_length_iff_exists]
      exact ⟨run, hrun, by simp⟩
    simp only [FailureRuns.removeAll]
    omega

end Downloads

theorem sinceEnd_append (height : Nat) (history more : List DownloadEntry)
    : sinceEnd height (history ++ more) = more.foldl (sinceEnd.go height) (sinceEnd height history) :=
  List.foldl_append ..

structure DownloadsInv (p : Downloads) (history : List DownloadEntry) : Prop where
  bounded : p.downloadFailures.runs.length ≤ MAX_DOWNLOAD_FAILURE_RUNS
  counted : ∀ height run, p.downloadFailures.get? height = some run →
    Counts (sinceEnd height history) run
  missing : ∀ height, p.downloadFailures.get? height = none → sinceEnd height history = []

namespace DownloadsInv

variable {p : Downloads}

theorem cleared (h : p.downloadFailures = .empty) (history : List DownloadEntry)
    : DownloadsInv p (history ++ [.cleared]) := by
  refine ⟨by simp [h, FailureRuns.empty], ?_, ?_⟩
  . intro height run hrun
    rw [h] at hrun
    cases hrun
  . intro height hnone
    simp [sinceEnd_append, sinceEnd.go, DownloadEntry.ends]

theorem removes (h : DownloadsInv p history)
    (hruns : q.downloadFailures = p.downloadFailures.removeAll (entry.ends ·))
    (hgo : ∀ height, sinceEnd.go height (sinceEnd height history) entry
      = if entry.ends height then [] else sinceEnd height history)
    : DownloadsInv q (history ++ [entry]) := by
  refine ⟨?_, ?_, ?_⟩
  . rw [hruns]
    exact Nat.le_trans (List.length_filter_le ..) h.bounded
  . intro height run hrun
    rw [hruns, FailureRuns.get?_removeAll] at hrun
    rw [sinceEnd_append, List.foldl_cons, List.foldl_nil, hgo]
    split at hrun
    . cases hrun
    . next hends =>
      rw [if_neg hends]
      exact h.counted height run hrun
  . intro height hnone
    rw [hruns, FailureRuns.get?_removeAll] at hnone
    rw [sinceEnd_append, List.foldl_cons, List.foldl_nil, hgo]
    split at hnone
    . next hends => rw [if_pos hends]
    . next hends =>
      rw [if_neg hends]
      exact h.missing height hnone

theorem sinceEnd_gaveUp (p : Downloads) (history : List DownloadEntry) (atHeight nowUnix height : Nat)
    : sinceEnd height (history ++ p.entries (.gaveUp atHeight nowUnix))
      = if atHeight = height then sinceEnd height history ++ [nowUnix]
        else if (p.noteDownloadGaveUpAt atHeight nowUnix).2 = some height then []
        else sinceEnd height history := by
  have hgaveUp : sinceEnd.go height (sinceEnd height history) (.gaveUp atHeight nowUnix)
      = if atHeight = height then sinceEnd height history ++ [nowUnix]
        else sinceEnd height history := by
    simp [sinceEnd.go, DownloadEntry.ends]
  rw [sinceEnd_append, Downloads.entries, List.foldl_cons, hgaveUp]
  cases hleast : (p.noteDownloadGaveUpAt atHeight nowUnix).2 with
  | none => simp
  | some least =>
    have hne : least ≠ atHeight := (Downloads.evicted_spec hleast).1
    simp only [Option.map_some, Option.toList_some, List.foldl_cons, List.foldl_nil, sinceEnd.go,
      DownloadEntry.ends, beq_iff_eq, Option.some.injEq]
    by_cases hself : atHeight = height
    . subst hself
      simp [hne]
    . simp [hself]

theorem gaveUp (h : DownloadsInv p history) (atHeight nowUnix : Nat)
    : DownloadsInv (p.noteDownloadGaveUpAt atHeight nowUnix).1
        (history ++ p.entries (.gaveUp atHeight nowUnix)) := by
  refine ⟨Downloads.length_noteDownloadGaveUpAt atHeight nowUnix h.bounded, ?_, ?_⟩
  . intro height run hrun
    rw [sinceEnd_gaveUp]
    by_cases hself : atHeight = height
    . subst hself
      rw [Downloads.get?_noteDownloadGaveUpAt_self, Option.some.injEq] at hrun
      subst hrun
      rw [if_pos rfl]
      unfold Downloads.nextRun
      split
      . next before hbefore =>
        have hcounts := h.counted atHeight before hbefore
        split
        . next hgap => exact hcounts.extend hgap
        . next hgap => exact hcounts.restart atHeight hgap
      . next hnone =>
        rw [h.missing atHeight hnone]
        exact Counts.first atHeight nowUnix
    . rw [Downloads.get?_noteDownloadGaveUpAt_of_ne _ _ hself] at hrun
      rw [if_neg hself]
      split at hrun
      . cases hrun
      . next hkept =>
        rw [if_neg hkept]
        exact h.counted height run hrun
  . intro height hnone
    rw [sinceEnd_gaveUp]
    by_cases hself : atHeight = height
    . subst hself
      rw [Downloads.get?_noteDownloadGaveUpAt_self] at hnone
      cases hnone
    . rw [Downloads.get?_noteDownloadGaveUpAt_of_ne _ _ hself] at hnone
      rw [if_neg hself]
      split at hnone
      . next hgone => rw [if_pos hgone]
      . next hkept =>
        rw [if_neg hkept]
        exact h.missing height hnone

theorem released (h : DownloadsInv p history) (firstHeight lastHeight : Nat)
    : DownloadsInv (p.noteBlocksReleased firstHeight lastHeight)
        (history ++ [.released firstHeight lastHeight]) := by
  unfold Downloads.noteBlocksReleased
  split
  . next hempty =>
    -- No block lies in an empty span.
    have hends : ∀ height, (DownloadEntry.released firstHeight lastHeight).ends height = false := by
      intro height
      simp only [DownloadEntry.ends, Bool.and_eq_false_iff, decide_eq_false_iff_not]
      omega
    have hsame : ∀ height, sinceEnd height (history ++ [.released firstHeight lastHeight])
        = sinceEnd height history := by
      intro height
      simp [sinceEnd_append, sinceEnd.go, hends]
    refine ⟨h.bounded, fun height run hrun => ?_, fun height hnone => ?_⟩
    . rw [hsame]
      exact h.counted height run hrun
    . rw [hsame]
      exact h.missing height hnone
  . exact h.removes rfl fun height => rfl

theorem step (h : DownloadsInv p history) (e : DownloadEvent)
    : DownloadsInv (p.apply e) (history ++ p.entries e) := by
  cases e with
  | gaveUp atHeight nowUnix => exact h.gaveUp atHeight nowUnix
  | released firstHeight lastHeight => exact h.released firstHeight lastHeight
  | passCompleted => exact cleared rfl history
  | attemptFailed =>
    cases hflag : p.downloadGaveUpThisAttempt with
    | true =>
      simp only [Downloads.apply, Downloads.noteAttemptFailed, Downloads.entries, hflag,
        Bool.not_true, Bool.false_eq_true, if_false, if_true, List.append_nil]
      exact ⟨h.bounded, h.counted, h.missing⟩
    | false =>
      simp only [Downloads.apply, Downloads.noteAttemptFailed, Downloads.entries, hflag,
        Bool.not_false, Bool.false_eq_true, if_false, if_true]
      exact cleared rfl history
  | sessionStarted => exact cleared rfl history

end DownloadsInv

theorem apply_gaveUpThisAttempt (p : Downloads) (e : DownloadEvent)
    : (p.apply e).downloadGaveUpThisAttempt
      = gaveUpSinceReset.go p.downloadGaveUpThisAttempt e := by
  cases e with
  | gaveUp => rfl
  | released firstHeight lastHeight =>
    simp only [Downloads.apply, Downloads.noteBlocksReleased]
    split <;> rfl
  | passCompleted => rfl
  | attemptFailed =>
    simp only [Downloads.apply, Downloads.noteAttemptFailed]
    split <;> rfl
  | sessionStarted => rfl

theorem after_inv (events : List DownloadEvent)
    : DownloadsInv (Downloads.after events).1 (Downloads.after events).2
      ∧ (Downloads.after events).1.downloadGaveUpThisAttempt = gaveUpSinceReset events := by
  suffices hall : ∀ (st : Downloads × List DownloadEntry) (flag : Bool), DownloadsInv st.1 st.2 →
      st.1.downloadGaveUpThisAttempt = flag →
      let st' := events.foldl (fun st e => (st.1.apply e, st.2 ++ st.1.entries e)) st
      DownloadsInv st'.1 st'.2
        ∧ st'.1.downloadGaveUpThisAttempt = events.foldl gaveUpSinceReset.go flag from
    hall (.new, []) false ⟨Nat.zero_le _, nofun, fun _ _ => rfl⟩ rfl
  induction events with
  | nil => exact fun st flag hinv hflag => ⟨hinv, hflag⟩
  | cons e events ih =>
    intro st flag hinv hflag
    apply ih _ _ (hinv.step e)
    rw [apply_gaveUpThisAttempt, hflag]

structure Stalls (run : DownloadFailure) (nowUnix : Nat) : Prop where
  streak : DOWNLOAD_FAILURE_STALL_STREAK ≤ run.streak
  live : nowUnix - run.lastUnix ≤ DOWNLOAD_FAILURE_RUN_GAP_SECS

theorem downloadFailureSecs_spec (p : Downloads) (nowUnix : Nat)
    : (∀ run ∈ p.downloadFailures.runs, Stalls run nowUnix →
        nowUnix - run.sinceUnix ≤ p.downloadFailureSecs nowUnix)
      ∧ ((∃ run ∈ p.downloadFailures.runs, Stalls run nowUnix
          ∧ p.downloadFailureSecs nowUnix = nowUnix - run.sinceUnix)
        ∨ (∀ run ∈ p.downloadFailures.runs, ¬Stalls run nowUnix)
          ∧ p.downloadFailureSecs nowUnix = 0) := by
  unfold Downloads.downloadFailureSecs
  generalize hages : List.map _ _ = ages
  have hmem : ∀ age, age ∈ ages ↔ ∃ run ∈ p.downloadFailures.runs, Stalls run nowUnix
      ∧ nowUnix - run.sinceUnix = age := by
    intro age
    simp only [← hages, List.mem_map, List.mem_filter, decide_eq_true_eq]
    constructor
    . rintro ⟨run, ⟨⟨hrun, hstreak⟩, hlive⟩, rfl⟩
      exact ⟨run, hrun, ⟨hstreak, hlive⟩, rfl⟩
    . rintro ⟨run, hrun, hstalls, rfl⟩
      exact ⟨run, ⟨⟨hrun, hstalls.streak⟩, hstalls.live⟩, rfl⟩
  cases hmax : ages.max? with
  | none =>
    rw [List.max?_eq_none_iff] at hmax
    have hnone : ∀ run ∈ p.downloadFailures.runs, ¬Stalls run nowUnix := by
      intro run hrun hstalls
      have := (hmem _).mpr ⟨run, hrun, hstalls, rfl⟩
      rw [hmax] at this
      cases this
    exact ⟨fun run hrun hstalls => absurd hstalls (hnone run hrun), Or.inr ⟨hnone, rfl⟩⟩
  | some age =>
    obtain ⟨hage, hle⟩ := List.max?_eq_some_iff.mp hmax
    obtain ⟨run, hrun, hstalls, rfl⟩ := (hmem age).mp hage
    refine ⟨?_, Or.inl ⟨run, hrun, hstalls, rfl⟩⟩
    intro other hother hstalls
    exact hle _ ((hmem _).mpr ⟨other, hother, hstalls, rfl⟩)

/--
After every history, with any clock: at most eight runs, one per block, each counting exactly the
last stretch of its block's give-ups since its run was ended; what a failed attempt clears, what an
eviction spares, and the stall time.
-/
theorem runs_of_history (events : List DownloadEvent)
    : let p := (Downloads.after events).1
      let history := (Downloads.after events).2
      p.downloadFailures.runs.length ≤ MAX_DOWNLOAD_FAILURE_RUNS
      ∧ (∀ run ∈ p.downloadFailures.runs, ∀ other ∈ p.downloadFailures.runs,
          run.atHeight = other.atHeight → run = other)
      ∧ (∀ run ∈ p.downloadFailures.runs, Counts (sinceEnd run.atHeight history) run)
      ∧ (∀ height, (∀ run ∈ p.downloadFailures.runs, run.atHeight ≠ height) →
          sinceEnd height history = [])
      ∧ (p.apply .attemptFailed).downloadFailures.runs
        = (if gaveUpSinceReset events then p.downloadFailures.runs else [])
      ∧ (∀ atHeight nowUnix, (p.noteDownloadGaveUpAt atHeight nowUnix).2 ≠ some atHeight
          ∧ ∃ run ∈ (p.noteDownloadGaveUpAt atHeight nowUnix).1.downloadFailures.runs,
              run.atHeight = atHeight ∧ run.lastUnix = nowUnix)
      ∧ ∀ nowUnix, (∀ run ∈ p.downloadFailures.runs, Stalls run nowUnix →
            nowUnix - run.sinceUnix ≤ p.downloadFailureSecs nowUnix)
          ∧ ((∃ run ∈ p.downloadFailures.runs, Stalls run nowUnix
              ∧ p.downloadFailureSecs nowUnix = nowUnix - run.sinceUnix)
            ∨ (∀ run ∈ p.downloadFailures.runs, ¬Stalls run nowUnix)
              ∧ p.downloadFailureSecs nowUnix = 0) := by
  obtain ⟨hinv, hflag⟩ := after_inv events
  generalize Downloads.after events = st at *
  refine ⟨hinv.bounded, fun _ hrun _ hother => FailureRuns.atHeight_inj hrun hother, ?_, ?_, ?_, ?_,
    downloadFailureSecs_spec st.1⟩
  . intro run hrun
    exact hinv.counted _ run (FailureRuns.get?_eq_some_iff.mpr ⟨hrun, rfl⟩)
  . intro height hnone
    apply hinv.missing
    cases hget : st.1.downloadFailures.get? height with
    | none => rfl
    | some run =>
      obtain ⟨hrun, hheight⟩ := FailureRuns.get?_eq_some_iff.mp hget
      exact absurd hheight (hnone run hrun)
  . rw [← hflag]
    simp only [Downloads.apply, Downloads.noteAttemptFailed]
    cases st.1.downloadGaveUpThisAttempt <;> rfl
  . intro atHeight nowUnix
    refine ⟨fun hself => (Downloads.evicted_spec hself).1 rfl, ?_⟩
    have hkept := st.1.get?_noteDownloadGaveUpAt_self atHeight nowUnix
    exact ⟨_, (FailureRuns.get?_eq_some_iff.mp hkept).1, st.1.nextRun_atHeight atHeight nowUnix,
      st.1.nextRun_lastUnix atHeight nowUnix⟩

end Progress
end Slipstream
