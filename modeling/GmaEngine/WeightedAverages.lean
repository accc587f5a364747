import Mathlib

/-!
# Weighted averages of lists

An average of values in an interval, weighted by nonnegative weights, lies in the interval, and
so does a value that is moved part of the way towards another one of it.
-/

namespace GmaEngine.WeightedAverages

variable {K : Type} [Field K] [LinearOrder K] [IsStrictOrderedRing K] {α : Type} {lo hi : K}

section
variable {xs : List α} {w f : α → K} (hw : ∀ x ∈ xs, 0 ≤ w x)
include hw

theorem mul_weight_le (hf : ∀ x ∈ xs, lo ≤ f x) :
    lo * (xs.map w).sum ≤ (xs.map (fun x => f x * w x)).sum := by
  rw [← List.sum_map_mul_left]
  apply List.sum_le_sum
  intro x hx
  exact mul_le_mul_of_nonneg_right (hf x hx) (hw x hx)

theorem le_mul_weight (hf : ∀ x ∈ xs, f x ≤ hi) :
    (xs.map (fun x => f x * w x)).sum ≤ hi * (xs.map w).sum := by
  rw [← List.sum_map_mul_left]
  apply List.sum_le_sum
  intro x hx
  exact mul_le_mul_of_nonneg_right (hf x hx) (hw x hx)

theorem average_mem_Icc (hf : ∀ x ∈ xs, f x ∈ Set.Icc lo hi) (hpos : 0 < (xs.map w).sum) :
    (xs.map (fun x => f x * w x)).sum / (xs.map w).sum ∈ Set.Icc lo hi := by
  constructor
  · rw [le_div_iff₀ hpos]
    exact mul_weight_le hw (fun x hx => (hf x hx).1)
  · rw [div_le_iff₀ hpos]
    exact le_mul_weight hw (fun x hx => (hf x hx).2)

end

/-- A plain average gives every value the weight one. -/
theorem mean_mem_Icc {xs : List K} (hne : xs ≠ []) (h : ∀ x ∈ xs, x ∈ Set.Icc lo hi) :
    xs.sum / xs.length ∈ Set.Icc lo hi := by
  have hweights : (xs.map (fun _ => (1 : K))).sum = xs.length := by simp
  have hvalues : xs.map (fun x => x * (1 : K)) = xs := by simp
  have hpos : 0 < (xs.map (fun _ => (1 : K))).sum := by
    rw [hweights, Nat.cast_pos]
    exact List.length_pos_iff.mpr hne
  have havg := average_mem_Icc (w := fun _ => (1 : K)) (f := id) (fun _ _ => zero_le_one) h hpos
  rw [hweights] at havg
  simpa only [id_eq, hvalues] using havg

/-- One step of an exponential average. -/
theorem smooth_mem_Icc {k x val : K} (hk : k ∈ Set.Icc 0 1) (hx : x ∈ Set.Icc lo hi)
    (hval : val ∈ Set.Icc lo hi) : k * x + (1 - k) * val ∈ Set.Icc lo hi :=
  convex_Icc lo hi hx hval hk.1 (sub_nonneg.mpr hk.2) (by ring)

end GmaEngine.WeightedAverages
