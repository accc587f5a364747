import GmaEngine.IndicatorBounds
import GmaEngine.OrderStatistics

/-!
# The two medians

The market statistics select the middle price, the registered reducer sorts. Whatever the selection
leaves of the other prices, on rational values both give the median.
-/

namespace GmaEngine.MarketTA
open Double DoubleMath BuiltinFunctions OrderStatistics

section
variable {D : Type} [DoubleMath D]

/-- `computeMedian` with what `nth_element` makes of the prices. -/
def computeMedianBy (nthElement : List D → ℕ → List D) (prices : List (TickEntry D)) : D :=
  if prices.isEmpty then quietNaN
  else
    let n := prices.length
    let mid := n / 2
    let vals := nthElement (prices.map TickEntry.price) mid
    let upper := vals[mid]?.getD zero
    if n % 2 = 1 then upper
    else
      -- `max_element` of what is in front
      let lower := ofFirst Double.max (vals.take mid)
      mul (add lower upper) half

/-- What the standard allows `nth_element` to leave. -/
def Selects (nthElement : List D → ℕ → List D) (vals : List D) (n : ℕ) : Prop :=
  NthElement (fun x y => lt y x = false) n vals (nthElement vals n)

/-- Sorting everything is one way to select. -/
theorem computeMedianBy_sorted (prices : List (TickEntry D)) :
    computeMedianBy (fun vals _ => sorted vals) prices =
      computeMedian (prices.map TickEntry.price) := by
  have hlen : (sorted (prices.map TickEntry.price)).length = prices.length :=
    (List.length_insertionSort _ _).trans (List.length_map _)
  cases prices with
  | nil => rfl
  | cons e rest =>
    have hmid : (e :: rest).length / 2 < (sorted ((e :: rest).map TickEntry.price)).length := by
      rw [hlen, List.length_cons]
      omega
    simp only [computeMedianBy, computeMedian, hlen, List.getElem?_eq_getElem hmid]
    rfl

end

section
open ExactDouble (fin lt_fin)
variable {qs : List ℚ}

theorem le_iff_lt_fin (x y : ℚ) : x ≤ y ↔ Double.lt (fin y) (fin x) = false := by
  rw [lt_fin, decide_eq_false_iff_not, not_lt]

theorem sorted_fin (qs : List ℚ) : sorted (qs.map fin) = (qs.insertionSort (· ≤ ·)).map fin :=
  map_insertionSort_eq le_iff_lt_fin qs

theorem selects_sorted (qs : List ℚ) (n : ℕ) :
    Selects (fun vals _ => sorted vals) (qs.map fin) n := by
  rw [Selects, sorted_fin]
  exact (nthElement_insertionSort n qs).map le_iff_lt_fin

theorem greatest_fin (hne : qs ≠ []) :
    ∃ l, ofFirst Double.max (qs.map fin) = fin l ∧ IsGreatest {q | q ∈ qs} l := by
  obtain ⟨_, l, _, hl, hbounds⟩ := extremes_fin hne
  have hmem : ofFirst Double.max (qs.map fin) ∈ qs.map fin := by
    apply ofFirst_mem max_picks
    simpa using hne
  rw [hl] at hmem
  obtain ⟨q, hq, heq⟩ := List.mem_map.mp hmem
  obtain rfl : q = l := ExactDouble.fin.inj heq
  exact ⟨q, hl, hq, fun p hp => (hbounds p hp).2⟩

theorem mean_of_two_fin (l u : ℚ) : mul (add (fin l) (fin u)) half = fin ((l + u) / 2) :=
  congrArg fin (div_eq_mul_one_div (l + u) 2).symm

theorem computeMedianBy_fin {nthElement : List ExactDouble → ℕ → List ExactDouble}
    {prices : List (TickEntry ExactDouble)} (hprices : prices.map TickEntry.price = qs.map fin)
    (hne : qs ≠ []) (hselects : Selects nthElement (qs.map fin) (prices.length / 2)) :
    ∃ m, computeMedianBy nthElement prices = fin m ∧ IsMedian qs m := by
  obtain ⟨zs, hvals, hnth⟩ := hselects.of_map le_iff_lt_fin (fun _ _ => ExactDouble.fin.inj)
  have hlen : prices.length = qs.length := by
    simpa using congrArg List.length hprices
  have hpos := List.length_pos_iff.mpr hne
  have hzs := hnth.perm.length_eq
  have hmid : prices.length / 2 < zs.length := by omega
  have hupper := List.getElem?_eq_getElem hmid
  have hnonempty : prices.isEmpty = false := by
    rw [← Bool.not_eq_true, List.isEmpty_iff_length_eq_zero]
    omega
  simp only [computeMedianBy, hnonempty, hprices, hvals, List.getElem?_map, hupper]
  rw [if_neg Bool.false_ne_true]
  by_cases hodd : prices.length % 2 = 1
  · rw [if_pos hodd]
    exact ⟨_, rfl, hnth.isMedian_odd (by omega) hupper⟩
  · have hfront : zs.take (prices.length / 2) ≠ [] := by
      rw [← List.length_pos_iff, List.length_take]
      omega
    obtain ⟨l, hl, hgreatest⟩ := greatest_fin hfront
    rw [if_neg hodd, ← List.map_take, hl]
    exact ⟨_, mean_of_two_fin l _, hnth.isMedian_even (by omega) hgreatest hupper⟩

/-- What the selection does with the other prices does not matter. -/
theorem computeMedianBy_eq {nthElement : List ExactDouble → ℕ → List ExactDouble}
    {prices : List (TickEntry ExactDouble)} (hprices : prices.map TickEntry.price = qs.map fin)
    (hne : qs ≠ []) (hselects : Selects nthElement (qs.map fin) (prices.length / 2)) :
    computeMedianBy nthElement prices = computeMedian (prices.map TickEntry.price) := by
  obtain ⟨m, hm, hmedian⟩ := computeMedianBy_fin hprices hne hselects
  obtain ⟨m', hm', hmedian'⟩ := computeMedianBy_fin hprices hne (selects_sorted qs _)
  obtain rfl : m = m' := hmedian.unique hmedian'
  rw [hm, ← hm', computeMedianBy_sorted]

theorem median_fin (hne : qs ≠ []) : ∃ m, median (qs.map fin) = fin m ∧ IsMedian qs m := by
  have hpos := List.length_pos_iff.mpr hne
  have hlen : (qs.insertionSort (· ≤ ·)).length = qs.length := List.length_insertionSort _ _
  have hnth := nthElement_insertionSort (r := (· ≤ ·)) (qs.length / 2) qs
  have hmid : qs.length / 2 < (qs.insertionSort (· ≤ ·)).length := by omega
  have hupper := List.getElem?_eq_getElem hmid
  have hnonempty : (qs.map fin).isEmpty = false := by
    rw [← Bool.not_eq_true, List.isEmpty_iff_length_eq_zero, List.length_map]
    omega
  simp only [median, hnonempty, sorted_fin, List.length_map, List.getElem?_map, hlen, hupper]
  rw [if_neg Bool.false_ne_true]
  by_cases hodd : qs.length % 2 = 1
  · rw [if_pos hodd]
    exact ⟨_, rfl, hnth.isMedian_odd (by omega) hupper⟩
  · have hlow : qs.length / 2 - 1 < (qs.insertionSort (· ≤ ·)).length := by omega
    have hlower := List.getElem?_eq_getElem hlow
    have hgreatest := isGreatest_take (List.pairwise_insertionSort (· ≤ ·) qs) hlower
    rw [Nat.sub_add_cancel (by omega)] at hgreatest
    rw [if_neg hodd, hlower]
    exact ⟨_, mean_of_two_fin _ _, hnth.isMedian_even (by omega) hgreatest hupper⟩

/-- On rational values the two medians are one: the middle element of the sorted list, or the mean
of the two middle ones, whatever the selection does with the other prices. -/
theorem medians_agree {nthElement : List ExactDouble → ℕ → List ExactDouble}
    {prices : List (TickEntry ExactDouble)} (hprices : prices.map TickEntry.price = qs.map fin)
    (hne : qs ≠ []) (hselects : Selects nthElement (qs.map fin) (prices.length / 2)) :
    computeMedianBy nthElement prices = median (qs.map fin) ∧
      ∃ m, median (qs.map fin) = fin m ∧ IsMedian qs m := by
  obtain ⟨m, hm, hmedian⟩ := computeMedianBy_fin hprices hne hselects
  obtain ⟨m', hm', hmedian'⟩ := median_fin hne
  obtain rfl : m = m' := hmedian.unique hmedian'
  exact ⟨hm.trans hm'.symm, m, hm', hmedian⟩

/-- With both middle prices equal, and a selection that leaves the list unsorted. -/
theorem medians_agree_duplicates :
    computeMedianBy (fun _ _ => [fin 2, fin 1, fin 2, fin 3])
      ([3, 1, 2, 2].map (fun q => ⟨fin q, fin 0, fin 0, fin 0, 0⟩)) =
        median ([3, 1, 2, 2].map fin) := by
  have hne : ([3, 1, 2, 2] : List ℚ) ≠ [] := by decide
  refine (medians_agree rfl hne ⟨?_, ?_, ?_⟩).1
  · decide
  · decide
  · decide

end
end GmaEngine.MarketTA
