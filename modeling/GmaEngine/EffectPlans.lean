import Mathlib.Data.List.Basic

/-!
# Plans of fallible computations

A computation over a state may fail on the way and keeps the state it has reached. Its plan
lists, in order, the faults it can run into and the starts of things that outlive it; the run
goes through the plan up to the first fault. A watch says when nothing was started between
two states, in a way that composes along a growing run.
-/

namespace GmaEngine.EffectPlans

inductive Event (ε : Type*) where
  | fault (e : ε)
  | start
  deriving DecidableEq, Repr

variable {σ ε α β : Type}

def firstFault : List (Event ε) → Option ε
  | [] => none
  | .fault e :: _ => some e
  | .start :: plan => firstFault plan

/-- A check made before anything else happens. -/
def faults : Except ε α → List (Event ε)
  | .error e => [.fault e]
  | .ok _ => []

def thrown : Except ε α → Option ε
  | .error e => some e
  | .ok _ => none

/-- States that only grow, and what it means that nothing was started between two of them. -/
structure Watch (σ : Type) where
  grown : σ → σ → Prop
  quiet : σ → σ → Prop
  grown_refl : ∀ s, grown s s
  grown_trans : ∀ {a b c}, grown a b → grown b c → grown a c
  quiet_refl : ∀ s, quiet s s
  quiet_trans_iff : ∀ {a b c}, grown a b → grown b c → (quiet a c ↔ quiet a b ∧ quiet b c)

/-- The outcome of a run: what it returns or throws, and the state it leaves. -/
def outcome (m : ExceptT ε (StateM σ) α) (s : σ) : Except ε α × σ := m.run.run s

/-- Every run throws the first fault of the plan, if there is one, and is quiet exactly when
the plan does not begin with a start. -/
def Follows (w : Watch σ) (m : ExceptT ε (StateM σ) α) (plan : List (Event ε)) : Prop :=
  ∀ s, w.grown s (outcome m s).2 ∧ thrown (outcome m s).1 = firstFault plan ∧
    (w.quiet s (outcome m s).2 ↔ plan.head? ≠ some .start)

theorem outcome_pure (a : α) (s : σ) :
    outcome (pure a : ExceptT ε (StateM σ) α) s = (.ok a, s) := rfl

theorem outcome_liftM (e : Except ε α) (s : σ) :
    outcome (liftM e : ExceptT ε (StateM σ) α) s = (e, s) := rfl

theorem outcome_bind (m : ExceptT ε (StateM σ) α) (f : α → ExceptT ε (StateM σ) β) (s : σ) :
    outcome (m >>= f) s = match outcome m s with
      | (.ok a, s') => outcome (f a) s'
      | (.error e, s') => (.error e, s') := by
  have hcont : outcome (m >>= f) s =
      StateT.run (ExceptT.bindCont f (outcome m s).1) (outcome m s).2 := rfl
  rw [hcont]
  rcases outcome m s with ⟨e | a, s'⟩ <;> rfl

theorem outcome_bind_ok {m : ExceptT ε (StateM σ) α} {f : α → ExceptT ε (StateM σ) β} {s : σ}
    {b : β} (h : (outcome (m >>= f) s).1 = .ok b) :
    ∃ a, (outcome m s).1 = .ok a ∧ (outcome (f a) (outcome m s).2).1 = .ok b := by
  rw [outcome_bind] at h
  rcases hm : outcome m s with ⟨e | a, s'⟩
  · rw [hm] at h
    cases h
  · rw [hm] at h
    exact ⟨a, rfl, h⟩

theorem firstFault_append (p q : List (Event ε)) :
    firstFault (p ++ q) = (firstFault p).or (firstFault q) := by
  induction p with
  | nil => rfl
  | cons event p ih => cases event <;> simp [firstFault, ih]

/-- A plan without a fault holds starts only. -/
theorem eq_nil_of_head_ne_start {p : List (Event ε)} (hp : firstFault p = none)
    (hhead : p.head? ≠ some .start) : p = [] := by
  cases p with
  | nil => rfl
  | cons event p =>
    cases event with
    | fault e => cases hp
    | start => exact absurd rfl hhead

variable {w : Watch σ} {m : ExceptT ε (StateM σ) α} {f : α → ExceptT ε (StateM σ) β}
  {p q : List (Event ε)}

theorem Follows.pure (a : α) : Follows w (Pure.pure a : ExceptT ε (StateM σ) α) [] := by
  intro s
  exact ⟨w.grown_refl s, rfl, by simpa [outcome_pure] using w.quiet_refl s⟩

theorem Follows.check (e : Except ε α) :
    Follows w (liftM e : ExceptT ε (StateM σ) α) (faults e) := by
  intro s
  rw [outcome_liftM]
  refine ⟨w.grown_refl s, ?_, ?_⟩
  · cases e <;> rfl
  · have hquiet := w.quiet_refl s
    cases e <;> simpa [faults] using hquiet

theorem Follows.throw (e : ε) :
    Follows w (throw e : ExceptT ε (StateM σ) α) [.fault e] :=
  Follows.check (.error e)

theorem Follows.bind (hm : Follows w m p)
    (hf : ∀ s a, (outcome m s).1 = .ok a → Follows w (f a) q) : Follows w (m >>= f) (p ++ q) := by
  intro s
  obtain ⟨hgrown, hthrown, hquiet⟩ := hm s
  have hret := hf s
  rw [outcome_bind, firstFault_append]
  rcases hout : outcome m s with ⟨e | a, s'⟩
  -- the first part throws: it has a first fault, and the plan is not empty
  · rw [hout] at hgrown hthrown hquiet
    have hfault : firstFault p = some e := hthrown.symm
    refine ⟨hgrown, by simp [thrown, hfault], ?_⟩
    cases p with
    | nil => cases hfault
    | cons event p => simpa using hquiet
  -- the first part returns: its plan holds starts only
  · rw [hout] at hgrown hthrown hquiet hret
    have hnone : firstFault p = none := hthrown.symm
    obtain ⟨hgrown', hthrown', hquiet'⟩ := hret a rfl s'
    refine ⟨w.grown_trans hgrown hgrown', by simpa [hnone] using hthrown', ?_⟩
    rw [w.quiet_trans_iff hgrown hgrown', hquiet, hquiet']
    constructor
    · rintro ⟨hp, hq⟩
      rw [eq_nil_of_head_ne_start hnone hp]
      exact hq
    · intro h
      cases p with
      | nil => exact ⟨by simp, h⟩
      | cons event p =>
        have hp : (event :: p).head? ≠ some .start := h
        exact absurd (eq_nil_of_head_ne_start hnone hp) (by simp)

/-- A check, and the rest of the run on the value it returns. -/
theorem Follows.checked {e : Except ε α} (hf : ∀ a, e = .ok a → Follows w (f a) q) :
    Follows w (liftM e >>= f) (faults e ++ q) := by
  apply (Follows.check e).bind
  intro s a ha
  exact hf a ha

theorem Follows.checked_quiet {e : Except ε α} (hf : ∀ a, e = .ok a → Follows w (f a) []) :
    Follows w (liftM e >>= f) (faults e) := by
  have h := Follows.checked hf
  rw [List.append_nil] at h
  exact h

theorem Follows.checked_ok {a : α} (hf : Follows w (f a) q) :
    Follows w (liftM (Except.ok a : Except ε α) >>= f) q :=
  Follows.checked (e := .ok a) (by intro b hb; cases hb; exact hf)

/-- A part that starts nothing and cannot fail does not show in the plan. -/
theorem Follows.bind_quiet (hm : Follows w m [])
    (hf : ∀ s a, (outcome m s).1 = .ok a → Follows w (f a) q) : Follows w (m >>= f) q :=
  hm.bind hf

theorem Follows.map (hm : Follows w m p) (g : α → β) : Follows w (g <$> m) p := by
  have h := hm.bind (f := fun a => Pure.pure (g a)) (q := []) (fun _ a _ => Follows.pure (g a))
  rw [List.append_nil] at h
  exact h

/-- A part that is there or not. -/
theorem Follows.mapM {plan : α → List (Event ε)} (hf : ∀ a, Follows w (f a) (plan a))
    (o : Option α) : Follows w (o.mapM f) (o.elim [] plan) := by
  cases o with
  | none => exact Follows.pure none
  | some a => exact (hf a).map some

/-- A run that fails is quiet exactly when the plan has no fault or does not begin with a
start. -/
theorem Follows.quiet_of_throw_iff (hm : Follows w m p) (s : σ) :
    (∀ e s', outcome m s = (.error e, s') → w.quiet s s') ↔
      (p.head? = some .start → firstFault p = none) := by
  obtain ⟨-, hthrown, hquiet⟩ := hm s
  rcases hout : outcome m s with ⟨e | a, s'⟩
  · rw [hout] at hthrown hquiet
    have hfault : firstFault p = some e := hthrown.symm
    constructor
    · intro h hstart
      exact absurd hstart (hquiet.mp (h e s' rfl))
    · intro h e₁ s₁ heq
      cases heq
      rw [hquiet]
      intro hstart
      simp [hfault] at h
      exact h hstart
  · rw [hout] at hthrown
    constructor
    · intro _ _
      exact hthrown.symm
    · intro _ e s₁ heq
      cases heq

-- `Along R pre m post`: from a state with `pre`, the state that the run leaves, returning or
-- throwing, is related to the first one, and a returned value satisfies `post`.

section Along

def Along (R : σ → σ → Prop) (pre : σ → Prop) (m : ExceptT ε (StateM σ) α)
    (post : α → σ → Prop) : Prop :=
  ∀ s, pre s → R s (outcome m s).2 ∧ ∀ a, (outcome m s).1 = .ok a → post a (outcome m s).2

variable {R : σ → σ → Prop} [Std.Refl R] [IsTrans σ R] {pre : σ → Prop}
  {mid : α → σ → Prop} {post : β → σ → Prop}

omit [IsTrans σ R] in
theorem Along.pure {mid : α → σ → Prop} (a : α) (h : ∀ s, pre s → mid a s) :
    Along R pre (Pure.pure a : ExceptT ε (StateM σ) α) mid := by
  intro s hs
  refine ⟨refl_of R s, ?_⟩
  intro b hb
  cases hb
  exact h s hs

omit [IsTrans σ R] in
theorem Along.throw (e : ε) : Along R pre (throw e : ExceptT ε (StateM σ) α) mid := by
  intro s _
  refine ⟨refl_of R s, ?_⟩
  intro b hb
  cases hb

omit [Std.Refl R] in
theorem Along.bind (hm : Along R pre m mid) (hf : ∀ a, Along R (mid a) (f a) post) :
    Along R pre (m >>= f) post := by
  intro s hs
  obtain ⟨hrel, hmid⟩ := hm s hs
  rw [outcome_bind]
  rcases hout : outcome m s with ⟨e | a, s'⟩
  · rw [hout] at hrel
    refine ⟨hrel, ?_⟩
    intro b hb
    cases hb
  · rw [hout] at hrel hmid
    obtain ⟨hrel', hpost⟩ := hf a s' (hmid a rfl)
    exact ⟨trans_of R hrel hrel', hpost⟩

omit [Std.Refl R] [IsTrans σ R] in
theorem Along.imp {post post' : α → σ → Prop} (hm : Along R pre m post)
    (h : ∀ a s, post a s → post' a s) : Along R pre m post' := by
  intro s hs
  obtain ⟨hrel, hpost⟩ := hm s hs
  exact ⟨hrel, fun a ha => h a _ (hpost a ha)⟩

theorem Along.map {post : α → σ → Prop} (hm : Along R pre m post) (g : α → β)
    {post' : β → σ → Prop} (hg : ∀ a s, post a s → post' (g a) s) :
    Along R pre (g <$> m) post' := by
  apply hm.bind
  intro a
  exact Along.pure (g a) (fun s hs => hg a s hs)

theorem Along.mapM {post' : Option β → σ → Prop} (hf : ∀ a, Along R pre (f a) post)
    (hnone : ∀ s, pre s → post' none s) (hsome : ∀ b s, post b s → post' (some b) s)
    (o : Option α) : Along R pre (o.mapM f) post' := by
  cases o with
  | none => exact Along.pure none hnone
  | some a => exact (hf a).map some hsome

omit [IsTrans σ R] in
theorem Along.checked {e : Except ε α} (hf : ∀ a, e = .ok a → Along R pre (f a) post) :
    Along R pre (liftM e >>= f) post := by
  intro s hs
  rw [outcome_bind, outcome_liftM]
  cases e with
  | error e => exact ⟨refl_of R s, fun b hb => by cases hb⟩
  | ok a => exact hf a rfl s hs

end Along

end GmaEngine.EffectPlans
