import Mathlib.Data.List.Induction

/-!
# Stream machines

A machine reads one item at a time, changes its state and puts out any number of items. Machines
with a common type of items are placed one behind the other, so that each one reads what the one
before puts out.
-/

namespace GmaEngine.StreamMachines

variable {σ α β ι : Type}

/-- What each item makes the machine put out. -/
def trace (step : σ → α → σ × List β) (s : σ) : List α → List (List β)
  | [] => []
  | a :: as => (step s a).2 :: trace step (step s a).1 as

def after (step : σ → α → σ × List β) (s : σ) (as : List α) : σ :=
  as.foldl (fun s a => (step s a).1) s

def outputs (step : σ → α → σ × List β) (s : σ) (as : List α) : List β :=
  (trace step s as).flatten

variable {step : σ → α → σ × List β} {s : σ} {a : α} {as bs : List α}

@[simp] theorem after_nil : after step s [] = s := rfl

@[simp] theorem after_cons : after step s (a :: as) = after step (step s a).1 as := rfl

theorem after_append : after step s (as ++ bs) = after step (after step s as) bs :=
  List.foldl_append

@[simp] theorem trace_cons :
    trace step s (a :: as) = (step s a).2 :: trace step (step s a).1 as := rfl

@[simp] theorem outputs_nil : outputs step s [] = [] := rfl

@[simp] theorem outputs_cons :
    outputs step s (a :: as) = (step s a).2 ++ outputs step (step s a).1 as := rfl

theorem trace_append :
    trace step s (as ++ bs) = trace step s as ++ trace step (after step s as) bs := by
  induction as generalizing s with
  | nil => rfl
  | cons a as ih =>
    rw [List.cons_append, trace_cons, ih]
    rfl

theorem outputs_append :
    outputs step s (as ++ bs) = outputs step s as ++ outputs step (after step s as) bs := by
  rw [outputs, trace_append, List.flatten_append]
  rfl

/-- A property of the state that holds at the start and that every item keeps. -/
theorem after_induction {P : List α → σ → Prop} (h : P [] s)
    (hstep : ∀ as t a, P as t → P (as ++ [a]) (step t a).1) (as : List α) :
    P as (after step s as) := by
  induction as using List.reverseRecOn with
  | nil => exact h
  | append_singleton as a ih =>
    rw [after_append]
    exact hstep as _ a ih

section Cascades
variable {step : ι → σ → α → σ × List α} {stages : List (ι × σ)}

/-- The machines in a row, each with its state, after they have read the items. -/
def cascade (step : ι → σ → α → σ × List α) :
    List (ι × σ) → List α → List (ι × σ) × List α
  | [], as => ([], as)
  | (i, s) :: stages, as =>
    let below := cascade step stages (outputs (step i) s as)
    ((i, after (step i) s as) :: below.1, below.2)

@[simp] theorem cascade_nil : cascade step stages [] = (stages, []) := by
  induction stages with
  | nil => rfl
  | cons stage stages ih => simp [cascade, ih]

/-- The items may come in portions. -/
theorem cascade_append_items : cascade step stages (as ++ bs) =
    ((cascade step (cascade step stages as).1 bs).1,
      (cascade step stages as).2 ++ (cascade step (cascade step stages as).1 bs).2) := by
  induction stages generalizing as bs with
  | nil => rfl
  | cons stage stages ih =>
    simp only [cascade, outputs_append, after_append, ih]

/-- The first item runs through all the machines before the next one comes. -/
theorem cascade_cons_item {i : ι} {s : σ} : cascade step ((i, s) :: stages) (a :: as) =
    ((cascade step ((i, (step i s a).1) :: (cascade step stages (step i s a).2).1) as).1,
      (cascade step stages (step i s a).2).2 ++
        (cascade step ((i, (step i s a).1) :: (cascade step stages (step i s a).2).1) as).2) := by
  have hone : cascade step ((i, s) :: stages) [a] =
      ((i, (step i s a).1) :: (cascade step stages (step i s a).2).1,
        (cascade step stages (step i s a).2).2) := by
    simp only [cascade, outputs_cons, outputs_nil, List.append_nil, after_cons, after_nil]
  have hitems : a :: as = [a] ++ as := rfl
  rw [hitems, cascade_append_items, hone]

end Cascades

end GmaEngine.StreamMachines
