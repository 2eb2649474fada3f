import Mathlib.Data.List.Basic

/-!
This module contains the inversion of computations that can fail.
-/

theorem bind_eq_ok {x : Except ε α} {f : α → Except ε β}
    : (x >>= f) = .ok b ↔ ∃ a, x = .ok a ∧ f a = .ok b := by
  cases x with
  | error e => simp [bind, Except.bind]
  | ok a => simp [bind, Except.bind]

theorem mapError_eq_ok {x : Except ε α} {f : ε → ε'} : x.mapError f = .ok a ↔ x = .ok a := by
  cases x <;> simp [Except.mapError]

theorem forall₂_of_mapM {f : α → Except ε β} (h : as.mapM f = .ok bs)
    : List.Forall₂ (fun a b => f a = .ok b) as bs := by
  induction as generalizing bs with
  | nil =>
    cases h
    exact .nil
  | cons a rest ih =>
    rw [List.mapM_cons] at h
    cases ha : f a with
    | error e =>
      rw [ha] at h
      cases h
    | ok b =>
      cases hrest : rest.mapM f with
      | error e =>
        rw [ha, hrest] at h
        cases h
      | ok cs =>
        rw [ha, hrest] at h
        cases h
        exact .cons ha (ih hrest)

theorem mapM_congr {f g : α → Except ε β} {as : List α} (h : ∀ a ∈ as, f a = g a)
    : as.mapM f = as.mapM g := by
  induction as with
  | nil => rfl
  | cons a rest ih =>
    rw [List.mapM_cons, List.mapM_cons, h a List.mem_cons_self,
      ih fun b hb => h b (List.mem_cons_of_mem _ hb)]

theorem exists_mapM {f : α → Except ε β} {as : List α} (h : ∀ a ∈ as, ∃ b, f a = .ok b)
    : ∃ bs, as.mapM f = .ok bs := by
  induction as with
  | nil => exact ⟨[], rfl⟩
  | cons a rest ih =>
    obtain ⟨b, hb⟩ := h a List.mem_cons_self
    obtain ⟨bs, hbs⟩ := ih fun c hc => h c (List.mem_cons_of_mem _ hc)
    exact ⟨b :: bs, by rw [List.mapM_cons, hb, hbs]; rfl⟩

theorem mapM_eq_some_map {f : α → Option β} {g : α → β} {as : List α} (h : ∀ a ∈ as, f a = some (g a))
    : as.mapM f = some (as.map g) := by
  induction as with
  | nil => rfl
  | cons a rest ih =>
    rw [List.mapM_cons, h a List.mem_cons_self, ih fun b hb => h b (List.mem_cons_of_mem _ hb)]
    rfl
