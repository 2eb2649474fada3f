import Slipstream.Machine.Basic

/-!
This module contains unending executions of machines, and the rule that a fair one gets to its goal
when the steps it is fair to lower a measure.
-/

namespace Machine

variable {σ ε : Type} {M : Machine σ ε}

structure Execution (M : Machine σ ε) where
  state : Nat → σ
  event : Nat → ε
  start : M.start (state 0)
  step : ∀ n, M.step (state n) (event n) = some (state (n + 1))

namespace Execution

def Fair (r : M.Execution) (busy : σ → ε → Prop) : Prop :=
  ∀ n, (∃ e, busy (r.state n) e ∧ (M.step (r.state n) e).isSome = true) →
    ∃ m, n ≤ m ∧ busy (r.state m) (r.event m)

theorem reach (r : M.Execution) {ok : σ → ε → Prop} (hok : ∀ n, ok (r.state n) (r.event n)) (n : Nat)
    : M.Reach ok (r.state n) := by
  induction n with
  | zero => exact .start r.start
  | succ n ih => exact .step ih (hok n) (r.step n)

theorem antitone (r : M.Execution) (rank : σ → Nat)
    (hrank : ∀ n, rank (r.state (n + 1)) ≤ rank (r.state n)) (hle : n ≤ m)
    : rank (r.state m) ≤ rank (r.state n) := by
  induction hle with
  | refl => exact Nat.le_refl _
  | step _ ih => exact Nat.le_trans (hrank _) ih

theorem eventually (r : M.Execution) (goal : σ → Prop) {busy : σ → ε → Prop} (hfair : r.Fair busy)
    (rank : σ → Nat) (hrank : ∀ n, rank (r.state (n + 1)) ≤ rank (r.state n))
    (hbusy : ∀ n, busy (r.state n) (r.event n) → rank (r.state (n + 1)) < rank (r.state n))
    (hgo : ∀ n, ¬goal (r.state n) →
      ∃ e, busy (r.state n) e ∧ (M.step (r.state n) e).isSome = true)
    : ∃ n, goal (r.state n) := by
  have hfrom : ∀ k n, rank (r.state n) = k → ∃ n, goal (r.state n) := by
    intro k
    induction k using Nat.strongRecOn with
    | ind k ih =>
      intro n hk
      by_cases hn : goal (r.state n)
      . exact ⟨n, hn⟩
      . obtain ⟨m, hle, hm⟩ := hfair n (hgo n hn)
        have := r.antitone rank hrank hle
        have := hbusy m hm
        exact ih _ (by omega) (m + 1) rfl
  exact hfrom _ 0 rfl

theorem fair_of_rest (r : M.Execution) {busy : σ → ε → Prop} (m : Nat)
    (hlast : busy (r.state m) (r.event m))
    (hrest : ∀ n, m < n → ∀ e s', M.step (r.state n) e = some s' → ¬busy (r.state n) e)
    : r.Fair busy := by
  rintro n ⟨e, hbusy, hstep⟩
  obtain ⟨s', hs'⟩ := Option.isSome_iff_exists.mp hstep
  refine ⟨m, Nat.le_of_not_lt fun hlt => ?_, hlast⟩
  exact hrest n hlt e s' hs' hbusy

end Execution

theorem exists_execution {ok : σ → ε → Bool} {es : List ε} (hstart : M.start s₀)
    (hrun : M.runChecked ok s₀ es = some s) (hloop : M.step s e = some s) (hok : ok s e = true)
    : ∃ r : M.Execution, (∀ n, ok (r.state n) (r.event n) = true)
      ∧ (∀ n, es.length ≤ n → r.state n = s) ∧ ∀ n e', es[n]? = some e' → r.event n = e' := by
  have hall : ∃ (state : Nat → σ) (event : Nat → ε), state 0 = s₀
      ∧ (∀ n, M.step (state n) (event n) = some (state (n + 1)))
      ∧ (∀ n, ok (state n) (event n) = true)
      ∧ (∀ n, es.length ≤ n → state n = s) ∧ ∀ n e', es[n]? = some e' → event n = e' := by
    clear hstart
    induction es generalizing s₀ with
    | nil =>
      cases hrun
      exact ⟨fun _ => s, fun _ => e, rfl, fun _ => hloop, fun _ => hok, fun _ _ => rfl, by simp⟩
    | cons e' es ih =>
      rw [runChecked] at hrun
      split at hrun
      . next hok' =>
        obtain ⟨t, ht, hrest⟩ := Option.bind_eq_some_iff.mp hrun
        obtain ⟨state, event, hzero, hstep, hall, hend, hevent⟩ := ih hrest
        refine ⟨fun n => n.casesOn s₀ state, fun n => n.casesOn e' event, rfl, ?_, ?_, ?_, ?_⟩
        . rintro (_ | n)
          . have : M.step s₀ e' = some (state 0) := by rw [hzero, ht]
            exact this
          . exact hstep n
        . rintro (_ | n)
          . exact hok'
          . exact hall n
        . rintro (_ | n) hn
          . simp at hn
          . exact hend n (by simpa using hn)
        . rintro (_ | n) x hx
          . exact Option.some.inj hx
          . exact hevent n x (by simpa using hx)
      . cases hrun
  obtain ⟨state, event, hzero, hstep, hrest⟩ := hall
  exact ⟨⟨state, event, hzero ▸ hstart, hstep⟩, hrest⟩

end Machine
