import GmaEngine.Double

/-!
# Exact arithmetic on finite values

On rationals the operations of `ExactDouble` are those of the field, as long as nothing is divided
by zero, and sums of lists are sums of rationals.
-/

namespace GmaEngine.ExactDouble

theorem div_fin (x : ℚ) {y : ℚ} (hy : y ≠ 0) :
    (Double.div (fin x) (fin y) : ExactDouble) = fin (x / y) := if_neg hy

theorem lt_fin (x y : ℚ) : Double.lt (fin x) (fin y) = decide (x < y) := rfl

theorem eq_fin (x y : ℚ) : Double.eq (fin x) (fin y) = decide (x = y) :=
  decide_eq_decide.mpr (fin.injEq x y).to_iff

theorem sub_fin (x y : ℚ) : (Double.sub (fin x) (fin y) : ExactDouble) = fin (x - y) :=
  congrArg fin (sub_eq_add_neg x y).symm

theorem fabs_fin (x : ℚ) : (Double.fabs (fin x) : ExactDouble) = fin |x| := by
  change (if decide (x < 0) then fin (-x) else fin x) = fin |x|
  by_cases hx : x < 0
  · simp [hx, abs_of_neg]
  · simp [hx, abs_of_nonneg (not_lt.mp hx)]

theorem le_fin (x y : ℚ) : Double.le (fin x) (fin y) = true ↔ x ≤ y := by
  rw [le_iff_lt_or_eq, Double.le, lt_fin, eq_fin, Bool.or_eq_true, decide_eq_true_iff,
    decide_eq_true_iff]

theorem le_zero_iff (q : ℚ) : Double.le (fin q) (Double.ofRat 0) = true ↔ q ≤ 0 := le_fin q 0

theorem foldl_add_fin (qs : List ℚ) (q : ℚ) :
    (qs.map fin).foldl Double.add (fin q) = fin (q + qs.sum) := by
  induction qs generalizing q with
  | nil => simp
  | cons x xs ih =>
    rw [List.map_cons, List.foldl_cons, List.sum_cons, ← add_assoc]
    exact ih (q + x)

/-- An accumulator over the values of a function on a list. -/
theorem foldl_add_map {α : Type} (xs : List α) (f : α → ℚ) :
    xs.foldl (fun acc x => Double.add acc (fin (f x))) (fin 0) = fin (xs.map f).sum := by
  have h := foldl_add_fin (xs.map f) 0
  rwa [zero_add, List.map_map, List.foldl_map] at h

end GmaEngine.ExactDouble
