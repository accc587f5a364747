import GmaEngine.EffectPlans

/-!
# Related runs of fallible computations

Two computations over different states, run from related states: either both return related
values or both throw the same error, and the states they leave are related again.
-/

namespace GmaEngine.RelatedRuns
open EffectPlans

variable {σ σ' ε α α' β β' : Type}

/-- What two runs return. -/
def SameResult (values : α → α' → Prop) : Except ε α → Except ε α' → Prop
  | .ok a, .ok a' => values a a'
  | .error e, .error e' => e = e'
  | _, _ => False

def Related (states : σ → σ' → Prop) (values : α → α' → Prop) (m : ExceptT ε (StateM σ) α)
    (m' : ExceptT ε (StateM σ') α') : Prop :=
  ∀ s s', states s s' → states (outcome m s).2 (outcome m' s').2 ∧
    SameResult values (outcome m s).1 (outcome m' s').1

variable {states : σ → σ' → Prop} {values : α → α' → Prop} {values' : β → β' → Prop}

theorem Related.pure {a : α} {a' : α'} (h : values a a') :
    Related states values (Pure.pure a : ExceptT ε (StateM σ) α)
      (Pure.pure a' : ExceptT ε (StateM σ') α') :=
  fun _ _ hs => ⟨hs, h⟩

theorem Related.throw (e : ε) :
    Related states values (MonadExcept.throw e : ExceptT ε (StateM σ) α)
      (MonadExcept.throw e : ExceptT ε (StateM σ') α') :=
  fun _ _ hs => ⟨hs, rfl⟩

theorem Related.bind {m : ExceptT ε (StateM σ) α} {m' : ExceptT ε (StateM σ') α'}
    (h : Related states values m m') {f : α → ExceptT ε (StateM σ) β}
    {f' : α' → ExceptT ε (StateM σ') β'}
    (hf : ∀ a a', values a a' → Related states values' (f a) (f' a')) :
    Related states values' (m >>= f) (m' >>= f') := by
  intro s s' hs
  obtain ⟨hstates, hvalues⟩ := h s s' hs
  rw [outcome_bind, outcome_bind]
  generalize outcome m s = out at hstates hvalues
  generalize outcome m' s' = out' at hstates hvalues
  obtain ⟨result, t⟩ := out
  obtain ⟨result', t'⟩ := out'
  cases result with
  | error e =>
    cases result' with
    | error e' => exact ⟨hstates, hvalues⟩
    | ok a' => exact hvalues.elim
  | ok a =>
    cases result' with
    | error e' => exact hvalues.elim
    | ok a' => exact hf a a' hvalues t t' hstates

/-- The same check on both sides. -/
theorem Related.checked (check : Except ε α) {f : α → ExceptT ε (StateM σ) β}
    {f' : α → ExceptT ε (StateM σ') β'} (hf : ∀ a, Related states values' (f a) (f' a)) :
    Related states values' (liftM check >>= f) (liftM check >>= f') := by
  cases check with
  | error e => exact fun _ _ hs => ⟨hs, rfl⟩
  | ok a => exact hf a

theorem Related.map {m : ExceptT ε (StateM σ) α} {m' : ExceptT ε (StateM σ') α'}
    (h : Related states values m m') {f : α → β} {f' : α' → β'}
    (hf : ∀ a a', values a a' → values' (f a) (f' a')) :
    Related states values' (f <$> m) (f' <$> m') :=
  h.bind (fun a a' ha => .pure (hf a a' ha))

end GmaEngine.RelatedRuns
