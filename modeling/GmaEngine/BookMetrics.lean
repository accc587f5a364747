import GmaEngine.RangeReductions
import GmaEngine.WeightedAverages

/-!
# How the book metrics fit together

Over rational levels with nonnegative sizes the separately written loops are sums and averages of
the same slices, so they satisfy the identities between them.
-/

namespace GmaEngine.Ob

def Snapshot.swap {D : Type} (s : Snapshot D) : Snapshot D := ⟨s.asks, s.bids, s.info⟩

theorem imbalanceRat_mem_Icc {b a : ℚ} (hb : 0 ≤ b) (ha : 0 ≤ a) :
    imbalanceRat b a ∈ Set.Icc (-1) 1 := by
  rw [imbalanceRat]
  split_ifs with h
  · exact ⟨by norm_num, by norm_num⟩
  · have hpos := not_le.mp h
    constructor
    · rw [le_div_iff₀ hpos]
      linarith
    · rw [div_le_iff₀ hpos]
      linarith

theorem imbalanceRat_swap (b a : ℚ) : imbalanceRat a b = -imbalanceRat b a := by
  rw [imbalanceRat, imbalanceRat, add_comm a b]
  split_ifs with h
  · exact neg_zero.symm
  · rw [← neg_div, neg_sub]

/-- What two nonnegative quantities make an imbalance, in both orders. -/
theorem imbalance_swap {b a : ℚ} (hb : 0 ≤ b) (ha : 0 ≤ a) :
    ∃ q, imbalance (ExactDouble.fin b) (.fin a) = .fin q ∧ q ∈ Set.Icc (-1) 1 ∧
      imbalance (ExactDouble.fin a) (.fin b) = .fin (-q) := by
  refine ⟨imbalanceRat b a, imbalance_fin b a, imbalanceRat_mem_Icc hb ha, ?_⟩
  rw [imbalance_fin, imbalanceRat_swap]

section
variable {S : Snapshot ExactDouble} {L : Side → List RatLevel}
  (hS : ∀ s, S.bySide s = (L s).map RatLevel.level)

theorem sum_sizes_nonneg {ls sub : List RatLevel} (h : ∀ l ∈ ls, 0 ≤ l.size) (hsub : sub ⊆ ls) :
    0 ≤ (sub.map RatLevel.size).sum := by
  apply List.sum_nonneg
  intro q hq
  obtain ⟨l, hl, rfl⟩ := List.mem_map.mp hq
  exact h l (hsub hl)

theorem slice_subset {α : Type} (lo hi : ℤ) (xs : List α) : slice lo hi xs ⊆ xs :=
  fun _ h => List.mem_of_mem_take (List.mem_of_mem_drop h)

include hS

theorem imbalanceLevels_swap (hsize : ∀ s, ∀ l ∈ L s, 0 ≤ l.size) (r : Range) :
    ∃ q, imbalanceLevels S r = .fin q ∧ q ∈ Set.Icc (-1) 1 ∧
      imbalanceLevels S.swap r = .fin (-q) := by
  have hb : S.bids = (L .bid).map RatLevel.level := hS .bid
  have ha : S.asks = (L .ask).map RatLevel.level := hS .ask
  rw [imbalanceLevels, imbalanceLevels, Snapshot.swap, hb, ha]
  simp only [slice_map, total_sizes_level]
  exact imbalance_swap (sum_sizes_nonneg (hsize .bid) (slice_subset _ _ _))
    (sum_sizes_nonneg (hsize .ask) (slice_subset _ _ _))

theorem imbalanceBand_swap (hsize : ∀ s, ∀ l ∈ L s, 0 ≤ l.size) (p1 p2 : ExactDouble) :
    ∃ q, imbalanceBand S p1 p2 = .fin q ∧ q ∈ Set.Icc (-1) 1 ∧
      imbalanceBand S.swap p1 p2 = .fin (-q) := by
  have hb : S.bids = (L .bid).map RatLevel.level := hS .bid
  have ha : S.asks = (L .ask).map RatLevel.level := hS .ask
  rw [imbalanceBand, imbalanceBand, Snapshot.swap, hb, ha]
  simp only [List.filter_map, total_sizes_level]
  exact imbalance_swap (sum_sizes_nonneg (hsize .bid) List.filter_sublist.subset)
    (sum_sizes_nonneg (hsize .ask) List.filter_sublist.subset)

variable (hlen : ∀ s, (L s).length < 2 ^ 31)
include hlen

omit hS in
theorem seen_eq_slice (s : Side) (lv : Range) : seen lv (L s) = slice lv.a lv.b (L s) := by
  have h := seen_append_unseen lv (L s)
  rwa [(unseen_eq_nil (hlen s) lv).1, List.append_nil] at h

theorem cumLevels_eq_take (s : Side) {N : ℤ} (hN : 1 ≤ N) (t : Target) :
    cumLevels S s N t = .fin (values t ((L s).take N.toNat)).sum := by
  have hcount := (unseen_eq_nil (hlen s) ⟨1, N⟩).2
  rw [cumLevels, hS]
  simp only [List.length_map, List.map_eq_nil_iff, slice_map, total_attrs, hcount]
  have htake : slice 1 (min N (L s).length) (L s) = (L s).take N.toNat := by
    rw [slice, sub_self, Int.toNat_zero, List.drop_zero, List.take_eq_take_iff]
    omega
  rw [htake]
  by_cases hne : L s = []
  · rw [if_pos (.inl hne), hne, List.take_nil]
    rfl
  · rw [if_neg (by simp only [hne, false_or]; omega)]

omit hlen in
theorem levelIdx_eq_value (s : Side) {i : ℕ} {l : RatLevel} (hl : (L s)[i]? = some l) {t : Target}
    {v : ℚ} (hv : l.value t = some v) : levelIdx S s (i + 1 : ℕ) t = .fin v := by
  rw [levelIdx, if_neg (by omega), hS, List.getElem?_map, Int.toNat_natCast, Nat.add_sub_cancel, hl]
  change (l.level.attr t).getD Double.quietNaN = _
  rw [l.attr_level, hv]
  rfl

omit hlen in
/-- Reading the first `k` levels one by one gives their values. -/
theorem levelIdx_range (s : Side) {t : Target} (ht : t ≠ .none) {k : ℕ} (hk : k ≤ (L s).length) :
    (List.range k).map (fun i => levelIdx S s (i + 1 : ℕ) t) =
      (values t ((L s).take k)).map .fin := by
  induction k with
  | zero => rfl
  | succ k ih =>
    obtain ⟨l, hl⟩ : ∃ l, (L s)[k]? = some l := ⟨_, List.getElem?_eq_getElem (by omega)⟩
    obtain ⟨v, hv⟩ := Option.isSome_iff_exists.mp (l.value_isSome ht)
    have hone : values t [l] = [v] := by
      rw [values, List.filterMap_cons, hv]
      rfl
    rw [List.range_succ, List.map_append, List.map_singleton, ih (by omega),
      levelIdx_eq_value hS s hl hv, List.take_add_one, hl, Option.toList_some, values_append, hone,
      List.map_append]
    rfl

theorem cumLevels_eq_total (s : Side) {N : ℤ} (hN : 1 ≤ N) {t : Target} (ht : t ≠ .none) :
    cumLevels S s N t = total ((List.range (min N.toNat (L s).length)).map
      (fun i => levelIdx S s (i + 1 : ℕ) t)) := by
  rw [levelIdx_range hS s ht (min_le_right _ _), total_fin, cumLevels_eq_take hS hlen s hN,
    List.take_eq_take_min]

theorem rangeIdxReduce_eq_cumLevels (s : Side) {N : ℤ} (hN : 1 ≤ N) (hne : L s ≠ []) (t : Target) :
    rangeIdxReduce S s ⟨1, N⟩ .sum t = cumLevels S s N t := by
  have hcount := (unseen_eq_nil (hlen s) ⟨1, N⟩).2
  have hpos := List.length_pos_iff.mpr hne
  rw [rangeIdxReduce_eq (hS s) le_rfl hN, cumLevels_eq_take hS hlen s hN, hcount,
    if_neg (by dsimp only; omega), seen_eq_slice hlen, slice, sub_self, Int.toNat_zero,
    List.drop_zero]
  rfl

theorem vwapLevels_eq (s : Side) {r : Range} (ha : 1 ≤ r.a) (hab : r.a ≤ r.b) :
    vwapLevels S s r = vwap ((slice r.a r.b (L s)).map RatLevel.level) := by
  have hcount := (unseen_eq_nil (hlen s) r).2
  have hseen := seen_eq_slice hlen s r
  rw [seen, hcount] at hseen
  rw [vwapLevels, hS]
  simp only [List.length_map, List.map_eq_nil_iff, slice_map, hcount, max_eq_right ha, hseen]
  by_cases hout : (L s).length < r.a
  · have hnil : slice r.a r.b (L s) = [] := by
      rw [slice, List.drop_eq_nil_iff, List.length_take]
      omega
    rw [if_pos (.inr (by omega)), hnil]
    rfl
  · have hne : L s ≠ [] := by
      intro h
      rw [h, List.length_nil] at hout
      omega
    rw [if_neg (by simp only [hne, false_or]; omega)]

omit hS hlen in
open WeightedAverages in
/-- The VWAP of levels with a positive summed size is their average price, weighted by size. -/
theorem vwap_level_spec {ls : List RatLevel} (hsize : ∀ l ∈ ls, 0 ≤ l.size)
    (hpos : 0 < (ls.map RatLevel.size).sum) :
    ∃ v, vwap (ls.map RatLevel.level) = .fin v ∧
      v * (ls.map RatLevel.size).sum = (ls.map (fun l => l.price * l.size)).sum ∧
      ∀ lo hi, IsLeast {p | p ∈ ls.map RatLevel.price} lo →
        IsGreatest {p | p ∈ ls.map RatLevel.price} hi → v ∈ Set.Icc lo hi := by
  refine ⟨_, by rw [vwap_level, if_neg (not_le.mpr hpos)], div_mul_cancel₀ _ hpos.ne', ?_⟩
  intro lo hi hlo hhi
  apply average_mem_Icc hsize _ hpos
  intro l hl
  have hmem : l.price ∈ {p | p ∈ ls.map RatLevel.price} := List.mem_map.mpr ⟨l, hl, rfl⟩
  exact ⟨hlo.2 hmem, hhi.2 hmem⟩

theorem vwapPriceBand_eq_vwapLevels (s : Side) {lo hi : ℚ}
    (hlo : IsLeast {p | p ∈ (L s).map RatLevel.price} lo)
    (hhi : IsGreatest {p | p ∈ (L s).map RatLevel.price} hi) :
    vwapPriceBand S s (.fin lo) (.fin hi) = vwapLevels S s ⟨1, (L s).length⟩ := by
  have hall : banded lo hi (L s) = L s := by
    rw [banded, List.filter_eq_self]
    intro l hl
    have hmem : l.price ∈ {p | p ∈ (L s).map RatLevel.price} := List.mem_map.mpr ⟨l, hl, rfl⟩
    exact decide_eq_true ⟨hlo.2 hmem, hhi.2 hmem⟩
  have hpos : 0 < (L s).length := by
    obtain ⟨l, hl, -⟩ := List.mem_map.mp hlo.1
    exact List.length_pos_of_mem hl
  have hslice : slice 1 (L s).length (L s) = L s := by
    rw [slice, sub_self, Int.toNat_zero, List.drop_zero, Int.toNat_natCast, List.take_length]
  rw [vwapPriceBand, hS, filter_inBand, hall, vwapLevels_eq hS hlen s le_rfl (by dsimp only; omega),
    hslice]

end

/-- Cumulative sums are sums of levels, sums over ranges from level one are cumulative sums, a
VWAP is the weighted average of the levels present, imbalances are within one of zero and odd in
the sides, and the VWAP of a whole side is the same in both forms. -/
theorem metrics_consistent (S : Snapshot ExactDouble) (L : Side → List RatLevel)
    (hS : ∀ s, S.bySide s = (L s).map RatLevel.level) (hlen : ∀ s, (L s).length < 2 ^ 31)
    (hsize : ∀ s, ∀ l ∈ L s, 0 ≤ l.size) :
    (∀ (s : Side) (N : ℤ) (t : Target), 1 ≤ N → t ≠ .none →
      cumLevels S s N t = total ((List.range (min N.toNat (L s).length)).map
        (fun i => levelIdx S s (i + 1 : ℕ) t)) ∧
      (L s ≠ [] → rangeIdxReduce S s ⟨1, N⟩ .sum t = cumLevels S s N t)) ∧
    (∀ (s : Side) (r : Range), 1 ≤ r.a → r.a ≤ r.b →
      let present := slice r.a r.b (L s)
      0 < (present.map RatLevel.size).sum →
      ∃ v, vwapLevels S s r = .fin v ∧
        v * (present.map RatLevel.size).sum = (present.map (fun l => l.price * l.size)).sum ∧
        ∀ lo hi, IsLeast {p | p ∈ present.map RatLevel.price} lo →
          IsGreatest {p | p ∈ present.map RatLevel.price} hi → v ∈ Set.Icc lo hi) ∧
    (∀ r : Range, ∃ q, imbalanceLevels S r = .fin q ∧ q ∈ Set.Icc (-1) 1 ∧
      imbalanceLevels S.swap r = .fin (-q)) ∧
    (∀ p1 p2 : ExactDouble, ∃ q, imbalanceBand S p1 p2 = .fin q ∧ q ∈ Set.Icc (-1) 1 ∧
      imbalanceBand S.swap p1 p2 = .fin (-q)) ∧
    ∀ (s : Side) (lo hi : ℚ), IsLeast {p | p ∈ (L s).map RatLevel.price} lo →
      IsGreatest {p | p ∈ (L s).map RatLevel.price} hi →
      vwapPriceBand S s (.fin lo) (.fin hi) = vwapLevels S s ⟨1, (L s).length⟩ := by
  refine ⟨?_, ?_, imbalanceLevels_swap hS hsize, imbalanceBand_swap hS hsize, ?_⟩
  · intro s N t hN ht
    exact ⟨cumLevels_eq_total hS hlen s hN ht, fun hne =>
      rangeIdxReduce_eq_cumLevels hS hlen s hN hne t⟩
  · intro s r ha hab present hpos
    rw [vwapLevels_eq hS hlen s ha hab]
    exact vwap_level_spec (fun l hl => hsize s l (slice_subset _ _ _ hl)) hpos
  · intro s lo hi hlo hhi
    exact vwapPriceBand_eq_vwapLevels hS hlen s hlo hhi

theorem metrics_consistent_two_asks :
    ∃ q, imbalanceLevels twoAsksSnapshot ⟨1, 2⟩ = .fin q ∧ q ∈ Set.Icc (-1) 1 ∧
      imbalanceLevels twoAsksSnapshot.swap ⟨1, 2⟩ = .fin (-q) := by
  have hS : ∀ s, twoAsksSnapshot.bySide s =
      ((Side.rec [] twoAsks : Side → List RatLevel) s).map RatLevel.level := by
    intro s
    cases s <;> rfl
  refine (metrics_consistent twoAsksSnapshot _ hS ?_ ?_).2.2.1 ⟨1, 2⟩
  · intro s
    cases s <;> norm_num [twoAsks]
  · intro s
    cases s <;> norm_num [twoAsks]

end GmaEngine.Ob
