import Mathlib.Data.List.Basic
import Mathlib.Data.List.Induction

/-!
This module contains event driven machines: a partial step function, its runs, and the states that
can be reached by steps that satisfy a condition.
-/

structure Machine (σ ε : Type) where
  start : σ → Prop
  step : σ → ε → Option σ

namespace Machine

variable {σ ε : Type}

def run (M : Machine σ ε) (s : σ) : List ε → Option σ
  | [] => some s
  | e :: es => (M.step s e).bind (M.run · es)

inductive Reach (M : Machine σ ε) (ok : σ → ε → Prop) : σ → Prop where
  | start (h : M.start s) : Reach M ok s
  | step (hs : Reach M ok s) (hok : ok s e) (h : M.step s e = some s') : Reach M ok s'

def Reachable (M : Machine σ ε) : σ → Prop := M.Reach fun _ _ => True

theorem Reach.invariant {M : Machine σ ε} {ok : σ → ε → Prop} {inv : σ → Prop}
    (hstart : ∀ s, M.start s → inv s)
    (hstep : ∀ s e s', inv s → ok s e → M.step s e = some s' → inv s')
    (h : M.Reach ok s) : inv s := by
  induction h with
  | start h => exact hstart _ h
  | step _ hok h ih => exact hstep _ _ _ ih hok h

theorem Reach.mono {M : Machine σ ε} {ok ok' : σ → ε → Prop} (hok : ∀ s e, ok s e → ok' s e)
    (h : M.Reach ok s) : M.Reach ok' s := by
  induction h with
  | start h => exact .start h
  | step _ hs h ih => exact .step ih (hok _ _ hs) h

theorem reach_of_run {M : Machine σ ε} {ok : σ → ε → Prop} (hs : M.Reach ok s)
    (hok : ∀ e ∈ es, ∀ s, ok s e) (h : M.run s es = some s') : M.Reach ok s' := by
  induction es generalizing s with
  | nil =>
    cases h
    exact hs
  | cons e es ih =>
    rw [run, Option.bind_eq_some_iff] at h
    obtain ⟨t, ht, hrun⟩ := h
    have hnext := Reach.step hs (hok e List.mem_cons_self s) ht
    exact ih hnext (fun e' he' => hok e' (List.mem_cons_of_mem _ he')) hrun

theorem reachable_of_run {M : Machine σ ε} (hs : M.Reachable s) (h : M.run s es = some s')
    : M.Reachable s' :=
  reach_of_run hs (fun _ _ _ => trivial) h

theorem run_append (M : Machine σ ε) (s : σ) (es es' : List ε)
    : M.run s (es ++ es') = (M.run s es).bind (M.run · es') := by
  induction es generalizing s with
  | nil => rfl
  | cons e es ih =>
    simp only [List.cons_append, run, Option.bind_assoc]
    congr
    funext t
    exact ih t

theorem run_concat {M : Machine σ ε} (h : M.run s (es ++ [e]) = some s')
    : ∃ t, M.run s es = some t ∧ M.step t e = some s' := by
  rw [run_append, Option.bind_eq_some_iff] at h
  obtain ⟨t, ht, hlast⟩ := h
  rw [run, Option.bind_eq_some_iff] at hlast
  obtain ⟨u, hu, hrest⟩ := hlast
  cases hrest
  exact ⟨t, ht, hu⟩

theorem run_induction {M : Machine σ ε} {P : List ε → σ → Prop} (hnil : P [] s)
    (hstep : ∀ es t e t', P es t → M.step t e = some t' → P (es ++ [e]) t')
    (h : M.run s es = some s') : P es s' := by
  induction es using List.reverseRecOn generalizing s' with
  | nil =>
    cases h
    exact hnil
  | append_singleton es e ih =>
    obtain ⟨t, ht, hlast⟩ := run_concat h
    exact hstep es t e s' (ih ht) hlast

def observed (M : Machine σ ε) (init : σ → γ → Prop) (observe : σ → ε → σ → γ → γ)
    : Machine (σ × γ) ε where
  start st := M.start st.1 ∧ init st.1 st.2
  step st e := (M.step st.1 e).map fun s => (s, observe st.1 e s st.2)

theorem Reach.observed {M : Machine σ ε} {ok : σ → ε → Prop} {init : σ → γ → Prop}
    {observe : σ → ε → σ → γ → γ} (hinit : ∀ s, M.start s → ∃ g, init s g) (h : M.Reach ok s)
    : ∃ g, (M.observed init observe).Reach (fun st e => ok st.1 e) (s, g) := by
  induction h with
  | start h =>
    obtain ⟨g, hg⟩ := hinit _ h
    exact ⟨g, .start ⟨h, hg⟩⟩
  | @step s e s' _ hok h ih =>
    obtain ⟨g, hg⟩ := ih
    have hstep : (M.observed init observe).step (s, g) e = some (s', observe s e s' g) := by
      simp [Machine.observed, h]
    exact ⟨_, .step hg hok hstep⟩

def runChecked (M : Machine σ ε) (ok : σ → ε → Bool) (s : σ) : List ε → Option σ
  | [] => some s
  | e :: es => if ok s e then (M.step s e).bind (M.runChecked ok · es) else none

theorem reach_of_runChecked {M : Machine σ ε} {ok : σ → ε → Bool}
    (hs : M.Reach (fun s e => ok s e = true) s) (h : M.runChecked ok s es = some s')
    : M.Reach (fun s e => ok s e = true) s' := by
  induction es generalizing s with
  | nil =>
    cases h
    exact hs
  | cons e es ih =>
    rw [runChecked] at h
    split at h
    . next hok =>
      rw [Option.bind_eq_some_iff] at h
      obtain ⟨t, ht, hrun⟩ := h
      exact ih (.step hs hok ht) hrun
    . cases h

end Machine
