import Mathlib.Data.List.Basic

/-!
# Guarded runs

A run of a state machine whose actions are each allowed in the state they find. What every
allowed action keeps, such a run keeps.
-/

namespace GmaEngine.GuardedRuns

variable {σ α : Type} {step : σ → α → σ} {allowed : σ → α → Bool} {s : σ} {actions : List α}

/-- Every action is allowed in the state it finds. -/
def along (step : σ → α → σ) (allowed : σ → α → Bool) (s : σ) : List α → Bool
  | [] => true
  | action :: rest => allowed s action && along step allowed (step s action) rest

theorem along_cons {action : α} (h : along step allowed s (action :: actions) = true) :
    allowed s action = true ∧ along step allowed (step s action) actions = true :=
  Bool.and_eq_true_iff.mp h

theorem along_append {before later : List α} : along step allowed s (before ++ later) =
    (along step allowed s before && along step allowed (before.foldl step s) later) := by
  induction before generalizing s with
  | nil => rfl
  | cons action before ih =>
    rw [List.cons_append, along, ih, along, Bool.and_assoc, List.foldl_cons]

/-- A run that begins so is guarded as far. -/
theorem along_of_append {before after : List α}
    (h : along step allowed s (before ++ after) = true) : along step allowed s before = true := by
  rw [along_append] at h
  exact (Bool.and_eq_true_iff.mp h).1

/-- Each action of the run is allowed where it stands. -/
theorem along_iff : along step allowed s actions = true ↔
    ∀ before action after, actions = before ++ action :: after →
      allowed (before.foldl step s) action = true := by
  induction actions generalizing s with
  | nil => simp [along]
  | cons first actions ih =>
    rw [along, Bool.and_eq_true_iff, ih]
    constructor
    · rintro ⟨hfirst, hrest⟩ before action after heq
      cases before with
      | nil =>
        cases heq
        exact hfirst
      | cons other before =>
        injection heq with hsame htail
        subst hsame
        exact hrest before action after htail
    · intro hall
      refine ⟨hall [] first actions rfl, ?_⟩
      intro before action after heq
      exact hall (first :: before) action after (by rw [heq]; rfl)

theorem invariant_foldl {P : σ → Prop}
    (hstep : ∀ s action, P s → allowed s action = true → P (step s action)) (h : P s)
    (hguarded : along step allowed s actions = true) : P (actions.foldl step s) := by
  induction actions generalizing s with
  | nil => exact h
  | cons action actions ih =>
    obtain ⟨hfirst, hrest⟩ := along_cons hguarded
    exact ih (hstep s action h hfirst) hrest

end GmaEngine.GuardedRuns
