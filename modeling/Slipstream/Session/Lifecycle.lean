import Slipstream.Session.Impl.Session

/-!
This module contains what a session does over its whole life: when it returns, what it reports for
the passes that fail and succeed, and how often it tries.
-/

namespace Slipstream
namespace Session

inductive Does : Phase → List Entry → Phase → Prop where
  | startsTor
    : Does .locking [.beginSession, .pushEvent { tag := 1, value := 0 }] (.bootstrapping 0)
  | starts
    : Does .locking [.beginSession, .pushEvent { tag := 1, value := 0 }, .setState .syncing]
        (.initial 0 0 0)
  | bootFails
    : Does (.bootstrapping failures) [.setState .idle, .sleep duration]
        (.bootstrapping (failures + 1))
  | boots : Does (.bootstrapping failures) [.setState .syncing] (.initial 0 0 0)
  | initialRetries (err : SlipstreamError) (htransient : err.isTransient = true)
      (hleft : attempt < PASS_RETRY_MAX)
    : Does (.initial attempt failures revivals)
        [.attempt .initial (.error err), .noteAttemptFailed, .sleep duration]
        (.initial (attempt + 1) failures revivals)
  | initialSucceeds (outcome : SyncOutcome)
    : Does (.initial attempt failures revivals)
        [.attempt .initial (.ok outcome), .callEnds .initial (.ok outcome), .setState .done,
          .pushEvent { tag := 3, value := outcome.txsStored }]
        (.mempool follow)
  | initialStops
    : Does (.initial attempt failures revivals)
        [.attempt .initial (.error .stoppedForWalletChange),
          .callEnds .initial (.error .stoppedForWalletChange), .setState .idle]
        .returned
  | initialFails (err : SlipstreamError) (htransient : err.isTransient = true)
    : Does (.initial attempt failures revivals)
        [.attempt .initial (.error err), .noteAttemptFailed, .callEnds .initial (.error err),
          .setState .idle, .sleep duration]
        (.backingOff (failures + 1) revivals)
  | initialRevives (err : SlipstreamError) (hfatal : err.isTransient = false)
      (hstop : err.isStopForWalletChange = false)
    : Does (.initial attempt failures revivals)
        [.attempt .initial (.error err), .noteAttemptFailed, .callEnds .initial (.error err),
          .setState (.error 1), .pushEvent { tag := 4, value := 1 }, .sleep duration]
        (.backingOff failures (revivals + 1))
  | revives : Does (.backingOff failures revivals) [.setState .syncing] (.initial 0 failures revivals)
  | listens : Does (.mempool follow) [] (.probing follow')
  | sleeps : Does (.mempool follow) [.sleep duration] (.probing follow')
  | probeFails (err : SlipstreamError)
    : Does (.probing follow) [.probe (.error err), .noteAttemptFailed] (.mempool follow')
  | tipStays : Does (.probing follow) [.probe (.ok tip)] (.mempool follow')
  | tipAdvances
    : Does (.probing follow) [.probe (.ok tip), .setState .syncing] (.catchUp follow' 0)
  | catchUpRetries (err : SlipstreamError) (htransient : err.isTransient = true)
      (hleft : attempt < PASS_RETRY_MAX)
    : Does (.catchUp follow attempt)
        [.attempt .catchUp (.error err), .noteAttemptFailed, .sleep duration]
        (.catchUp follow (attempt + 1))
  | catchUpSucceeds (outcome : SyncOutcome)
    : Does (.catchUp follow attempt)
        [.attempt .catchUp (.ok outcome), .callEnds .catchUp (.ok outcome), .setState .done,
          .pushEvent { tag := 3, value := outcome.txsStored }]
        (.mempool follow')
  | catchUpStops
    : Does (.catchUp follow attempt)
        [.attempt .catchUp (.error .stoppedForWalletChange),
          .callEnds .catchUp (.error .stoppedForWalletChange), .setState .idle]
        .returned
  | catchUpFails (err : SlipstreamError) (hstop : err.isStopForWalletChange = false)
    : Does (.catchUp follow attempt)
        [.attempt .catchUp (.error err), .noteAttemptFailed, .callEnds .catchUp (.error err),
          .setState .done]
        (.mempool follow')
  | stays : Does .returned [] .returned

theorem eq_of_isStop {err : SlipstreamError} (h : err.isStopForWalletChange = true)
    : err = .stoppedForWalletChange := by
  cases err <;> first | rfl | cases h

theorem afterAttempt_cases (call : PassCall) (attempt : Nat) (result : PassResult)
    : (∃ outcome, result = .ok outcome
        ∧ afterAttempt call attempt result = ([.attempt call result], some result))
      ∨ (result = .error .stoppedForWalletChange
        ∧ afterAttempt call attempt result = ([.attempt call result], some result))
      ∨ (∃ err duration, result = .error err ∧ err.isTransient = true ∧ attempt < PASS_RETRY_MAX
        ∧ afterAttempt call attempt result
          = ([.attempt call result, .noteAttemptFailed, .sleep duration], none))
      ∨ ∃ err, result = .error err ∧ err.isStopForWalletChange = false
        ∧ afterAttempt call attempt result
          = ([.attempt call result, .noteAttemptFailed], some result) := by
  cases result with
  | ok outcome => exact Or.inl ⟨outcome, rfl, rfl⟩
  | error err =>
    right
    cases hstop : err.isStopForWalletChange with
    | true =>
      obtain rfl := eq_of_isStop hstop
      exact Or.inl ⟨rfl, rfl⟩
    | false =>
      right
      cases hretry : shouldRetry err (attempt + 1) with
      | some duration =>
        left
        have hcan : err.isTransient = true ∧ attempt + 1 ≤ PASS_RETRY_MAX := by
          unfold shouldRetry at hretry
          split at hretry
          . next hcan => simpa using hcan
          . cases hretry
        refine ⟨err, duration, rfl, hcan.1, hcan.2, ?_⟩
        simp [afterAttempt, failedPassAction, hstop, hretry,
          FailedPassAction.countsAsFailedAttempt]
      | none =>
        right
        refine ⟨err, rfl, hstop, ?_⟩
        simp [afterAttempt, failedPassAction, hstop, hretry,
          FailedPassAction.countsAsFailedAttempt]

theorem does_initial (answers : Answers) (tor : Bool) (attempt failures revivals : Nat)
    : Does (.initial attempt failures revivals)
        ((Phase.initial attempt failures revivals).step tor answers).1
        ((Phase.initial attempt failures revivals).step tor answers).2 := by
  simp only [Phase.step]
  rcases afterAttempt_cases .initial attempt answers.pass with
    ⟨outcome, hok, h⟩ | ⟨herr, h⟩ | ⟨err, duration, herr, htransient, hleft, h⟩ | ⟨err, herr, hstop, h⟩
  . rw [h, hok]
    exact .initialSucceeds outcome
  . rw [h, herr]
    exact .initialStops
  . rw [h, herr]
    exact .initialRetries err htransient hleft
  . rw [h, herr]
    simp only [afterInitial, initialPassFailure, hstop]
    cases htransient : err.isTransient with
    | true => exact .initialFails err htransient
    | false => exact .initialRevives err htransient hstop

theorem does_catchUp (answers : Answers) (tor : Bool) (follow : Follow) (attempt : Nat)
    : Does (.catchUp follow attempt)
        ((Phase.catchUp follow attempt).step tor answers).1
        ((Phase.catchUp follow attempt).step tor answers).2 := by
  simp only [Phase.step]
  rcases afterAttempt_cases .catchUp attempt answers.pass with
    ⟨outcome, hok, h⟩ | ⟨herr, h⟩ | ⟨err, duration, herr, htransient, hleft, h⟩ | ⟨err, herr, hstop, h⟩
  . rw [h, hok]
    exact .catchUpSucceeds outcome
  . rw [h, herr]
    exact .catchUpStops
  . rw [h, herr]
    exact .catchUpRetries err htransient hleft
  . rw [h, herr]
    simp only [afterCatchUp, catchUpFailure, hstop]
    exact .catchUpFails err hstop

theorem does_step (answers : Answers) (tor : Bool) (phase : Phase)
    : Does phase (phase.step tor answers).1 (phase.step tor answers).2 := by
  cases phase with
  | locking =>
    simp only [Phase.step]
    split
    . exact .startsTor
    . exact .starts
  | bootstrapping failures =>
    simp only [Phase.step]
    split
    . exact .boots
    . exact .bootFails
  | initial attempt failures revivals => exact does_initial answers tor attempt failures revivals
  | backingOff failures revivals => exact .revives
  | mempool follow =>
    simp only [Phase.step]
    split
    . split
      . exact .listens
      . exact .sleeps
    . exact .sleeps
  | probing follow =>
    simp only [Phase.step]
    split
    . next tip htip =>
      rw [htip]
      split
      . exact .tipAdvances
      . exact .tipStays
    . next err herr =>
      rw [herr]
      exact .probeFails err
  | catchUp follow attempt => exact does_catchUp answers tor follow attempt
  | returned => exact .stays

theorem run_induction {motive : Phase → List Entry → Prop} (hstart : motive .locking [])
    (hstep : ∀ {phase trace entries next}, motive phase trace → Does phase entries next →
      motive next (trace ++ entries))
    (tor : Bool) (state : SyncState) (answers : Nat → Answers) (n : Nat)
    : motive (runSession tor state answers n).phase (runSession tor state answers n).trace := by
  induction n with
  | zero => exact hstart
  | succ n ih => exact hstep ih (does_step (answers n) tor _)

def Blocks {α : Type} (keep : Entry → Bool) (ok : α → Prop) (block : α → List Entry)
    (trace : List Entry) : Prop :=
  ∃ xs : List α, (∀ x ∈ xs, ok x) ∧ trace.filter keep = xs.flatMap block

namespace Blocks

variable {α : Type} {keep : Entry → Bool} {ok : α → Prop} {block : α → List Entry}
variable {trace entries : List Entry}

theorem nil : Blocks keep ok block [] := ⟨[], nofun, rfl⟩

theorem nothing (h : Blocks keep ok block trace) (hnone : entries.filter keep = [])
    : Blocks keep ok block (trace ++ entries) := by
  obtain ⟨xs, hok, hxs⟩ := h
  exact ⟨xs, hok, by rw [List.filter_append, hxs, hnone, List.append_nil]⟩

theorem one (h : Blocks keep ok block trace) (x : α) (hx : ok x)
    (hone : entries.filter keep = block x) : Blocks keep ok block (trace ++ entries) := by
  obtain ⟨xs, hok, hxs⟩ := h
  refine ⟨xs ++ [x], ?_, by simp [List.filter_append, hxs, hone]⟩
  intro y hy
  rcases List.mem_append.mp hy with hy | hy
  . exact hok y hy
  . rw [List.mem_singleton.mp hy]
    exact hx

end Blocks

def Entry.aboutError : Entry → Bool
  | .callEnds .initial (.error err) => !err.isTransient && !err.isStopForWalletChange
  | .setState (.error _) => true
  | .pushEvent event => event.tag == 4
  | _ => false

def Entry.aboutFailure : Entry → Bool
  | .attempt _ (.error err) => !err.isStopForWalletChange
  | .probe (.error _) => true
  | .noteAttemptFailed => true
  | _ => false

def Entry.aboutSuccess : Entry → Bool
  | .callEnds _ (.ok _) => true
  | .pushEvent event => event.tag == 3
  | _ => false

def Entry.aboutAttempts : Entry → Bool
  | .attempt _ _ | .callEnds _ _ => true
  | _ => false

def ErrorsReported : List Entry → Prop :=
  Blocks Entry.aboutError
    (fun err => err.isTransient = false ∧ err.isStopForWalletChange = false)
    fun err =>
      [.callEnds .initial (.error err), .setState (.error 1), .pushEvent { tag := 4, value := 1 }]

def FailuresNoted : List Entry → Prop :=
  Blocks Entry.aboutFailure
    (fun failure => failure.aboutFailure = true ∧ failure ≠ .noteAttemptFailed)
    fun failure => [failure, .noteAttemptFailed]

def SuccessesReported : List Entry → Prop :=
  Blocks Entry.aboutSuccess (fun _ => True)
    fun ((call, outcome) : PassCall × SyncOutcome) =>
      [.callEnds call (.ok outcome), .pushEvent { tag := 3, value := outcome.txsStored }]

structure CallRecord where
  call : PassCall
  failed : List SlipstreamError
  result : PassResult

def CallRecord.attempts (record : CallRecord) : List Entry :=
  record.failed.map (fun err => .attempt record.call (.error err))
    ++ [.attempt record.call record.result, .callEnds record.call record.result]

def CallRecord.Bounded (record : CallRecord) : Prop :=
  record.failed.length ≤ PASS_RETRY_MAX ∧ ∀ err ∈ record.failed, err.isTransient = true

theorem isStop_of_transient {err : SlipstreamError} (h : err.isTransient = true)
    : err.isStopForWalletChange = false := by
  cases err <;> first | rfl | cases h

theorem errorsReported_run : ∀ tor state answers n,
    ErrorsReported (runSession tor state answers n).trace := by
  apply run_induction (motive := fun _ => ErrorsReported) .nil
  intro phase trace entries next h hdoes
  cases hdoes with
  | initialRevives err hfatal hstop =>
    exact h.one err ⟨hfatal, hstop⟩ (by simp [List.filter, Entry.aboutError, hfatal, hstop])
  | initialFails err htransient =>
    exact h.nothing (by simp [List.filter, Entry.aboutError, htransient])
  | _ =>
    exact h.nothing (by simp [List.filter, Entry.aboutError, SlipstreamError.isStopForWalletChange])

theorem failuresNoted_run : ∀ tor state answers n,
    FailuresNoted (runSession tor state answers n).trace := by
  apply run_induction (motive := fun _ => FailuresNoted) .nil
  intro phase trace entries next h hdoes
  have hattempt (call : PassCall) {err : SlipstreamError}
      (hstop : err.isStopForWalletChange = false)
      (hone : entries.filter Entry.aboutFailure
        = [.attempt call (.error err), .noteAttemptFailed])
      : FailuresNoted (trace ++ entries) :=
    h.one (.attempt call (.error err)) ⟨by simp [Entry.aboutFailure, hstop], nofun⟩ hone
  cases hdoes with
  | initialRetries err htransient =>
    have hstop := isStop_of_transient htransient
    exact hattempt .initial hstop (by simp [List.filter, Entry.aboutFailure, hstop])
  | initialFails err htransient =>
    have hstop := isStop_of_transient htransient
    exact hattempt .initial hstop (by simp [List.filter, Entry.aboutFailure, hstop])
  | initialRevives err hfatal hstop =>
    exact hattempt .initial hstop (by simp [List.filter, Entry.aboutFailure, hstop])
  | catchUpRetries err htransient =>
    have hstop := isStop_of_transient htransient
    exact hattempt .catchUp hstop (by simp [List.filter, Entry.aboutFailure, hstop])
  | catchUpFails err hstop =>
    exact hattempt .catchUp hstop (by simp [List.filter, Entry.aboutFailure, hstop])
  | probeFails err => exact h.one (.probe (.error err)) ⟨rfl, nofun⟩ rfl
  | _ =>
    exact h.nothing
      (by simp [List.filter, Entry.aboutFailure, SlipstreamError.isStopForWalletChange])

theorem successesReported_run : ∀ tor state answers n,
    SuccessesReported (runSession tor state answers n).trace := by
  apply run_induction (motive := fun _ => SuccessesReported) .nil
  intro phase trace entries next h hdoes
  cases hdoes with
  | initialSucceeds outcome => exact h.one (.initial, outcome) trivial rfl
  | catchUpSucceeds outcome => exact h.one (.catchUp, outcome) trivial rfl
  | _ => exact h.nothing (by simp [List.filter, Entry.aboutSuccess])

def AttemptsBounded (call : PassCall) (running : List SlipstreamError) (trace : List Entry)
    : Prop :=
  running.length ≤ PASS_RETRY_MAX ∧ (∀ err ∈ running, err.isTransient = true)
    ∧ ∃ records : List CallRecord, (∀ record ∈ records, record.Bounded)
      ∧ trace.filter Entry.aboutAttempts
        = records.flatMap CallRecord.attempts
          ++ running.map fun err => .attempt call (.error err)

namespace AttemptsBounded

variable {call : PassCall} {running : List SlipstreamError} {trace entries : List Entry}

theorem nothing (h : AttemptsBounded call running trace)
    (hnone : entries.filter Entry.aboutAttempts = [])
    : AttemptsBounded call running (trace ++ entries) := by
  obtain ⟨hlength, htransient, records, hrecords, htrace⟩ := h
  exact ⟨hlength, htransient, records, hrecords, by
    rw [List.filter_append, htrace, hnone, List.append_nil]⟩

theorem retry (h : AttemptsBounded call running trace) (hlength : running.length < PASS_RETRY_MAX)
    (herr : err.isTransient = true)
    (hone : entries.filter Entry.aboutAttempts = [.attempt call (.error err)])
    : AttemptsBounded call (running ++ [err]) (trace ++ entries) := by
  obtain ⟨_, htransient, records, hrecords, htrace⟩ := h
  refine ⟨by rw [List.length_append]; exact hlength, ?_, records, hrecords, by
    simp [List.filter_append, htrace, hone]⟩
  intro e he
  rcases List.mem_append.mp he with he | he
  . exact htransient e he
  . rw [List.mem_singleton.mp he]
    exact herr

theorem ends (h : AttemptsBounded call running trace) (result : PassResult) (call' : PassCall)
    (hone : entries.filter Entry.aboutAttempts = [.attempt call result, .callEnds call result])
    : AttemptsBounded call' [] (trace ++ entries) := by
  obtain ⟨hlength, htransient, records, hrecords, htrace⟩ := h
  refine ⟨Nat.zero_le _, nofun, records ++ [{ call, failed := running, result }], ?_, by
    simp [List.filter_append, htrace, hone, CallRecord.attempts]⟩
  intro record hrecord
  rcases List.mem_append.mp hrecord with hrecord | hrecord
  . exact hrecords record hrecord
  . rw [List.mem_singleton.mp hrecord]
    exact ⟨hlength, htransient⟩

end AttemptsBounded

def Phase.call : Phase → PassCall × Nat
  | .initial attempt _ _ => (.initial, attempt)
  | .catchUp _ attempt => (.catchUp, attempt)
  | _ => (.initial, 0)

theorem attemptsBounded_run : ∀ tor state answers n,
    ∃ running, running.length = (runSession tor state answers n).phase.call.2
      ∧ AttemptsBounded (runSession tor state answers n).phase.call.1 running
        (runSession tor state answers n).trace := by
  apply run_induction
    (motive := fun phase trace => ∃ running, running.length = phase.call.2
      ∧ AttemptsBounded phase.call.1 running trace)
  . exact ⟨[], rfl, Nat.zero_le _, nofun, [], nofun, rfl⟩
  . rintro phase trace entries next ⟨running, hlength, h⟩ hdoes
    cases hdoes with
    | initialRetries err htransient hleft =>
      exact ⟨running ++ [err], by simpa [Phase.call] using hlength,
        h.retry (hlength ▸ hleft) htransient rfl⟩
    | catchUpRetries err htransient hleft =>
      exact ⟨running ++ [err], by simpa [Phase.call] using hlength,
        h.retry (hlength ▸ hleft) htransient rfl⟩
    | initialSucceeds => exact ⟨[], rfl, h.ends _ _ rfl⟩
    | initialStops => exact ⟨[], rfl, h.ends _ _ rfl⟩
    | initialFails => exact ⟨[], rfl, h.ends _ _ rfl⟩
    | initialRevives => exact ⟨[], rfl, h.ends _ _ rfl⟩
    | catchUpSucceeds => exact ⟨[], rfl, h.ends _ _ rfl⟩
    | catchUpStops => exact ⟨[], rfl, h.ends _ _ rfl⟩
    | catchUpFails => exact ⟨[], rfl, h.ends _ _ rfl⟩
    | _ =>
      obtain rfl := List.length_eq_zero_iff.mp hlength
      exact ⟨[], rfl, h.nothing rfl⟩

def Entry.isSuccess : Entry → Bool
  | .callEnds _ (.ok _) => true
  | _ => false

def Entry.isError : Entry → Bool
  | .setState (.error _) => true
  | .pushEvent event => event.tag == 4
  | _ => false

def sinceSuccess (trace : List Entry) : List Entry := trace.dropWhile fun entry => !entry.isSuccess

theorem mem_sinceSuccess_append {trace entries : List Entry}
    (h : entry ∈ sinceSuccess (trace ++ entries))
    : entry ∈ sinceSuccess trace ∨ entry ∈ entries := by
  unfold sinceSuccess at h
  rw [List.dropWhile_append] at h
  split at h
  . exact Or.inr ((List.dropWhile_sublist _).mem h)
  . exact List.mem_append.mp h

theorem sinceSuccess_append_of_none {trace entries : List Entry}
    (htrace : ∀ entry ∈ trace, entry.isSuccess = false)
    : sinceSuccess (trace ++ entries) = sinceSuccess entries := by
  unfold sinceSuccess
  exact List.dropWhile_append_of_pos fun entry hentry => by simp [htrace entry hentry]

def Phase.isInitial : Phase → Bool
  | .locking | .bootstrapping _ | .initial _ _ _ | .backingOff _ _ => true
  | _ => false

namespace Does

theorem isInitial_of_next (h : Does phase entries next) (hnext : next.isInitial = true)
    : phase.isInitial = true ∧ ∀ entry ∈ entries, entry.isSuccess = false := by
  cases h <;> simp_all [Phase.isInitial, Entry.isSuccess]

theorem noErrors (h : Does phase entries next)
    : (∀ entry ∈ sinceSuccess entries, entry.isError = false)
      ∧ (phase.isInitial = false → ∀ entry ∈ entries, entry.isError = false) := by
  cases h <;> simp [Phase.isInitial, Entry.isSuccess, Entry.isError, sinceSuccess, List.dropWhile]

end Does

theorem noErrors_run : ∀ tor state answers n,
    ((runSession tor state answers n).phase.isInitial = true →
        ∀ entry ∈ (runSession tor state answers n).trace, entry.isSuccess = false)
      ∧ ∀ entry ∈ sinceSuccess (runSession tor state answers n).trace, entry.isError = false := by
  apply run_induction
    (motive := fun phase trace => (phase.isInitial = true →
        ∀ entry ∈ trace, entry.isSuccess = false)
      ∧ ∀ entry ∈ sinceSuccess trace, entry.isError = false)
  . exact ⟨fun _ => nofun, nofun⟩
  . rintro phase trace entries next ⟨hnone, herrors⟩ hdoes
    refine ⟨?_, ?_⟩
    . intro hnext entry hentry
      obtain ⟨hphase, hentries⟩ := hdoes.isInitial_of_next hnext
      rcases List.mem_append.mp hentry with hentry | hentry
      . exact hnone hphase entry hentry
      . exact hentries entry hentry
    . intro entry hentry
      -- Before the follow loop nothing has succeeded; in it nothing is an error.
      cases hinitial : phase.isInitial with
      | true =>
        rw [sinceSuccess_append_of_none (hnone hinitial)] at hentry
        exact hdoes.noErrors.1 entry hentry
      | false =>
        rcases mem_sinceSuccess_append hentry with hentry | hentry
        . exact herrors entry hentry
        . exact hdoes.noErrors.2 hinitial entry hentry

theorem ne_stop {err : SlipstreamError} (h : err.isStopForWalletChange = false)
    : .stoppedForWalletChange ≠ err := by
  rintro rfl
  cases h

theorem Does.returned_iff (h : Does phase entries next) (hphase : phase ≠ .returned)
    : next = .returned ↔ ∃ call, .attempt call (.error .stoppedForWalletChange) ∈ entries := by
  cases h with
  | initialRetries err htransient => simp [ne_stop (isStop_of_transient htransient)]
  | initialFails err htransient => simp [ne_stop (isStop_of_transient htransient)]
  | initialRevives err hfatal hstop => simp [ne_stop hstop]
  | catchUpRetries err htransient => simp [ne_stop (isStop_of_transient htransient)]
  | catchUpFails err hstop => simp [ne_stop hstop]
  | stays => exact absurd rfl hphase
  | _ => simp

theorem returned_run : ∀ tor state answers n,
    (runSession tor state answers n).phase = .returned
      ↔ ∃ call, .attempt call (.error .stoppedForWalletChange)
        ∈ (runSession tor state answers n).trace := by
  apply run_induction
    (motive := fun phase trace => phase = .returned
      ↔ ∃ call, .attempt call (.error .stoppedForWalletChange) ∈ trace)
  . simp
  . intro phase trace entries next h hdoes
    by_cases hphase : phase = .returned
    . subst hphase
      cases hdoes
      simpa using h
    . have hnone : ∀ call, .attempt call (.error .stoppedForWalletChange) ∉ trace :=
        fun call hcall => hphase (h.mpr ⟨call, hcall⟩)
      rw [hdoes.returned_iff hphase]
      simp [hnone]

theorem stateAfter_append (state : SyncState) (trace entries : List Entry)
    : stateAfter state (trace ++ entries) = stateAfter (stateAfter state trace) entries := by
  induction trace generalizing state with
  | nil => rfl
  | cons entry trace ih => cases entry <;> exact ih _

def DoneAtSuccess (state : SyncState) : List Entry → Prop
  | [] => True
  | .setState state :: entries => DoneAtSuccess state entries
  | .pushEvent event :: entries => (event.tag = 3 → state = .done) ∧ DoneAtSuccess state entries
  | _ :: entries => DoneAtSuccess state entries

theorem doneAtSuccess_append {state : SyncState} {trace entries : List Entry}
    (htrace : DoneAtSuccess state trace)
    (hentries : DoneAtSuccess (stateAfter state trace) entries)
    : DoneAtSuccess state (trace ++ entries) := by
  induction trace generalizing state with
  | nil => exact hentries
  | cons entry trace ih =>
    cases entry with
    | pushEvent event => exact ⟨htrace.1, ih htrace.2 hentries⟩
    | _ => exact ih htrace hentries

theorem Does.doneAtSuccess (h : Does phase entries next) (state : SyncState)
    : DoneAtSuccess state entries := by
  cases h <;> simp [DoneAtSuccess]

theorem doneAtSuccess_run (tor : Bool) (state : SyncState) (answers : Nat → Answers) (n : Nat)
    : DoneAtSuccess state (runSession tor state answers n).trace :=
  run_induction (motive := fun _ => DoneAtSuccess state) trivial
    (fun h hdoes => doneAtSuccess_append h (hdoes.doneAtSuccess _)) tor state answers n

theorem state_run (tor : Bool) (state : SyncState) (answers : Nat → Answers) (n : Nat)
    : (runSession tor state answers n).state
      = stateAfter state (runSession tor state answers n).trace := by
  induction n with
  | zero => rfl
  | succ n ih =>
    simp only [runSession, SessionState.step]
    rw [stateAfter_append, ih]

theorem idle_run (tor : Bool) (state : SyncState) (answers : Nat → Answers) (n : Nat)
    (h : (runSession tor state answers n).phase = .returned)
    : (runSession tor state answers n).state = .idle := by
  rw [state_run]
  revert h
  apply run_induction
    (motive := fun phase trace => phase = .returned → stateAfter state trace = .idle)
  . nofun
  . intro phase trace entries next h hdoes hnext
    rw [stateAfter_append]
    cases hdoes with
    | stays => exact h rfl
    | initialStops => rfl
    | catchUpStops => rfl
    | _ => cases hnext

def pushed (trace : List Entry) : List Handle.FfiSlipstreamEvent :=
  trace.filterMap fun
    | .pushEvent event => some event
    | _ => none

theorem Does.pushed (h : Does phase entries next)
    : next ≠ .locking ∧ (phase = .locking → pushed entries = [{ tag := 1, value := 0 }])
      ∧ (phase ≠ .locking → ∀ event ∈ pushed entries, event.tag ≠ 1) := by
  cases h <;> simp [Session.pushed]

theorem pushed_run : ∀ tor state answers n,
    if (runSession tor state answers n).phase = .locking then
      pushed (runSession tor state answers n).trace = []
    else
      ∃ rest, pushed (runSession tor state answers n).trace = { tag := 1, value := 0 } :: rest
        ∧ ∀ event ∈ rest, event.tag ≠ 1 := by
  apply run_induction
    (motive := fun phase trace => if phase = .locking then pushed trace = []
      else ∃ rest, pushed trace = { tag := 1, value := 0 } :: rest ∧ ∀ event ∈ rest, event.tag ≠ 1)
  . rfl
  . intro phase trace entries next h hdoes
    obtain ⟨hnext, hfirst, hlater⟩ := hdoes.pushed
    rw [if_neg hnext]
    have happend : pushed (trace ++ entries) = pushed trace ++ pushed entries :=
      List.filterMap_append
    rw [happend]
    split at h
    . next hphase => exact ⟨[], by rw [h, hfirst hphase]; rfl, nofun⟩
    . next hphase =>
      obtain ⟨rest, hrest, htags⟩ := h
      refine ⟨rest ++ pushed entries, by rw [hrest]; rfl, ?_⟩
      intro event hevent
      rcases List.mem_append.mp hevent with hevent | hevent
      . exact htags event hevent
      . exact hlater hphase event hevent

end Session
end Slipstream
