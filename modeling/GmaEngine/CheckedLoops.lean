import Mathlib

/-!
# Checked loops

Code over vectors that stops at the first index out of bounds, the first unsigned difference that
would wrap and the first count of zero that is used as a divisor. A loop over indices whose body
never stops is a fold over the elements that it reads.
-/

namespace GmaEngine.CheckedLoops

inductive Fault
  | index
  | underflow
  | divisor
  deriving DecidableEq, Repr

abbrev Checked := Except Fault

variable {α β σ : Type}

/-- `xs[i]`. -/
def get (xs : List α) (i : ℕ) : Checked α :=
  match xs[i]? with
  | some x => .ok x
  | none => .error .index

/-- `m - n`. -/
def minus (m n : ℕ) : Checked ℕ := if n ≤ m then .ok (m - n) else .error .underflow

/-- A count that something is divided by. -/
def divisor (n : ℕ) : Checked ℕ := if n = 0 then .error .divisor else .ok n

/-- `for (i = lo; i < hi; ++i)`. -/
def forRange (lo hi : ℕ) (body : σ → ℕ → Checked σ) (init : σ) : Checked σ :=
  (List.range' lo (hi - lo)).foldlM body init

@[simp] theorem ok_bind (x : α) (f : α → Checked β) : (Except.ok x >>= f : Checked β) = f x := rfl

@[simp] theorem pure_eq_ok (x : α) : (pure x : Checked α) = .ok x := rfl

theorem get_eq_ok {xs : List α} {i : ℕ} {x : α} (h : xs[i]? = some x) : get xs i = .ok x := by
  rw [get, h]

theorem get_map (f : α → β) (xs : List α) (i : ℕ) :
    get (xs.map f) i = (get xs i).map f := by
  rw [get, get, List.getElem?_map]
  cases xs[i]? <;> rfl

theorem minus_eq_ok {m n : ℕ} (h : n ≤ m) : minus m n = .ok (m - n) := if_pos h

theorem divisor_eq_ok {n : ℕ} (h : n ≠ 0) : divisor n = .ok n := if_neg h

/-- The loop rule: step `j` of the loop reads item `j` of a list. -/
theorem forRange_eq_ok {items : List α} {lo hi : ℕ} {body : σ → ℕ → Checked σ} {f : σ → α → σ}
    (hhi : hi = lo + items.length)
    (h : ∀ s j x, items[j]? = some x → body s (lo + j) = .ok (f s x)) (init : σ) :
    forRange lo hi body init = .ok (items.foldl f init) := by
  subst hhi
  rw [forRange, Nat.add_sub_cancel_left]
  induction items generalizing lo init with
  | nil => rfl
  | cons x items ih =>
    have hfirst : body init lo = .ok (f init x) := h init 0 x rfl
    have hrest : ∀ s j y, items[j]? = some y → body s (lo + 1 + j) = .ok (f s y) := by
      intro s j y hy
      rw [Nat.add_right_comm, Nat.add_assoc]
      exact h s (j + 1) y hy
    rw [List.length_cons, List.range'_succ, List.foldlM_cons, hfirst, ok_bind, List.foldl_cons]
    exact ih hrest (f init x)

/-- A loop that reads a vector from `lo` on. -/
theorem forRange_drop (xs : List α) (lo : ℕ) (hlo : lo ≤ xs.length) (f : σ → α → σ) (init : σ) :
    forRange lo xs.length (fun s i => do let x ← get xs i; return f s x) init =
      .ok ((xs.drop lo).foldl f init) := by
  apply forRange_eq_ok
  · rw [List.length_drop]
    omega
  · intro s j x hx
    rw [List.getElem?_drop] at hx
    rw [get_eq_ok hx]
    rfl

/-- A loop that reads a vector from `lo` on, each element with the one before it. -/
theorem forRange_pairs (xs : List α) (lo : ℕ) (hlo : lo < xs.length)
    (f : σ → α × α → σ) (init : σ) :
    forRange (lo + 1) xs.length
      (fun s i => do
        let x ← get xs i
        let j ← minus i 1
        let before ← get xs j
        return f s (before, x)) init =
      .ok (((xs.zip xs.tail).drop lo).foldl f init) := by
  apply forRange_eq_ok
  · rw [List.length_drop, List.length_zip, List.length_tail]
    omega
  · rintro s j ⟨before, x⟩ hx
    rw [List.getElem?_drop] at hx
    obtain ⟨hbefore, hx⟩ := List.getElem?_zip_eq_some.mp hx
    rw [List.getElem?_tail] at hx
    have hi : lo + 1 + j = lo + j + 1 := by omega
    rw [hi, get_eq_ok hx, ok_bind, minus_eq_ok (by omega), ok_bind, Nat.add_sub_cancel,
      get_eq_ok hbefore]
    rfl

theorem mapM_eq_ok {xs : List α} {f : α → Checked β} {g : α → β}
    (h : ∀ x ∈ xs, f x = .ok (g x)) : xs.mapM f = .ok (xs.map g) := by
  induction xs with
  | nil => rfl
  | cons x xs ih =>
    rw [List.mapM_cons, h x List.mem_cons_self, ok_bind,
      ih (fun y hy => h y (List.mem_cons_of_mem x hy)), ok_bind, List.map_cons]
    rfl

end GmaEngine.CheckedLoops
