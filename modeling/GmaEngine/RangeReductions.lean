import GmaEngine.RationalLevels
import Mathlib.Order.Bounds.Defs

/-!
# Range reductions

Two loops evaluate the range keys. The one over level numbers knows the average and takes the sum
for every other reduction; the one over a price band knows sum, average and count and leaves the
rest at zero. Where this is what the name of the reduction says depends on the values.
-/

namespace GmaEngine.Ob

/-- The value of a reduction over the selected levels. -/
def Means (reduce : Reduce) (t : Target) (selected : List RatLevel) (r : ℚ) : Prop :=
  match reduce with
  | .sum => r = (values t selected).sum
  | .avg => r = (values t selected).sum / selected.length
  | .min => IsLeast {v | v ∈ values t selected} r
  | .max => IsGreatest {v | v ∈ values t selected} r
  | .count => r = selected.length
  | .none => False

/-- Every reduction but `count` needs an attribute. -/
def Asks (reduce : Reduce) (t : Target) : Prop := reduce = .count ∨ (reduce ≠ .none ∧ t ≠ .none)

/-- The levels of a range that the loop visits, up to the level count cast to `int`. -/
def seen (lv : Range) (ls : List RatLevel) : List RatLevel :=
  slice lv.a (min (narrow ls.length) lv.b) ls

/-- The levels of a range behind that count; there are none below 2^31 levels. -/
def unseen (lv : Range) (ls : List RatLevel) : List RatLevel :=
  (slice lv.a lv.b ls).drop (seen lv ls).length

theorem seen_append_unseen (lv : Range) (ls : List RatLevel) :
    seen lv ls ++ unseen lv ls = slice lv.a lv.b ls := by
  have hprefix : seen lv ls <+: slice lv.a lv.b ls := by
    apply List.IsPrefix.drop
    exact List.take_prefix_take_left (by omega)
  exact List.prefix_iff_eq_append.mp hprefix

/-- What the loop over level numbers makes of the values it visits. -/
def sumOrAverage (reduce : Reduce) (vs : List ℚ) : ℚ :=
  if reduce = .avg ∧ vs ≠ [] then vs.sum / vs.length else vs.sum

/-- What the loop over a price band makes of its values. -/
def bandResult (reduce : Reduce) (vs : List ℚ) : ℚ :=
  match reduce with
  | .sum => vs.sum
  | .avg => sumOrAverage .avg vs
  | .count => vs.length
  | _ => 0

theorem average_fin (reduce : Reduce) (vs : List ℚ) :
    (if reduce = .avg ∧ vs ≠ [] then Double.div (ExactDouble.fin vs.sum) (Double.ofRat vs.length)
      else .fin vs.sum) = .fin (sumOrAverage reduce vs) := by
  rw [sumOrAverage]
  by_cases h : reduce = .avg ∧ vs ≠ []
  · have hlen : (vs.length : ℚ) ≠ 0 := by simpa using h.2
    rw [if_pos h, if_pos h]
    exact ExactDouble.div_fin _ hlen
  · rw [if_neg h, if_neg h]

section
variable {S : Snapshot ExactDouble} {side : Side} {ls : List RatLevel}
  (hS : S.bySide side = ls.map RatLevel.level)
include hS

theorem rangeIdxReduce_eq {lv : Range} (ha : 1 ≤ lv.a) (hab : lv.a ≤ lv.b) (reduce : Reduce)
    (t : Target) :
    rangeIdxReduce S side lv reduce t =
      if narrow ls.length < lv.a then .nan else .fin (sumOrAverage reduce (values t (seen lv ls))) := by
  have hmax : max 1 lv.a = lv.a := max_eq_right ha
  rw [rangeIdxReduce, hS]
  simp only [List.length_map, List.map_eq_nil_iff, hmax, slice_map, attrs_level, ne_eq]
  change (if ls = [] ∨ min (narrow ls.length) lv.b < lv.a then _ else _) = _
  by_cases hlt : narrow ls.length < lv.a
  · rw [if_pos hlt, if_pos (.inr (by omega))]
    rfl
  · have hne : ls ≠ [] := by
      rintro rfl
      exact hlt (lt_of_lt_of_le (by decide) ha)
    rw [if_neg hlt, if_neg (by simp only [hne, false_or]; omega), total_fin]
    exact average_fin reduce (values t (seen lv ls))

theorem rangePxReduce_eq (p1 p2 : ℚ) (reduce : Reduce) (t : Target) :
    rangePxReduce S side (.fin p1) (.fin p2) reduce t =
      .fin (bandResult reduce (values t (banded p1 p2 ls))) := by
  unfold rangePxReduce
  rw [hS, filter_inBand, attrs_level]
  dsimp only
  rw [total_fin]
  simp only [List.length_map, ne_eq, List.map_eq_nil_iff]
  cases reduce with
  | avg =>
    have h := average_fin .avg (values t (banded p1 p2 ls))
    simp only [true_and, ne_eq] at h
    exact h
  | _ => rfl

end

/-- When the loop over level numbers returns what a reduction means: `vs` are the values it visits
and `ws` those behind the count. Sum and average are right without the latter; a minimum, a maximum
or a count is right where the sum happens to be it. -/
def IdxRight (reduce : Reduce) (vs ws : List ℚ) (n : ℕ) : Prop :=
  match reduce with
  | .sum => ws.sum = 0
  | .avg => ws.sum * vs.length = vs.sum * ws.length
  | .min => IsLeast {v | v ∈ vs ++ ws} vs.sum
  | .max => IsGreatest {v | v ∈ vs ++ ws} vs.sum
  | .count => vs.sum = n
  | .none => False

/-- When the loop over a price band does: its minimum and maximum are zero, and it counts the
levels by their attribute. -/
def BandRight (reduce : Reduce) (t : Target) (vs : List ℚ) : Prop :=
  match reduce with
  | .sum => True
  | .avg => True
  | .min => IsLeast {v | v ∈ vs} 0
  | .max => IsGreatest {v | v ∈ vs} 0
  | .count => t ≠ .none
  | .none => False

/-- When the two loops agree on the same levels. -/
def LoopsAgree (reduce : Reduce) (vs ws : List ℚ) : Prop :=
  match reduce with
  | .sum => ws.sum = 0
  | .avg => ws.sum * vs.length = vs.sum * ws.length
  | .min => vs.sum = 0
  | .max => vs.sum = 0
  | .count => vs.sum = (vs ++ ws).length
  | .none => False

theorem average_append {vs ws : List ℚ} (hvs : vs ≠ []) :
    vs.sum / vs.length = (vs ++ ws).sum / (vs ++ ws).length ↔
      ws.sum * vs.length = vs.sum * ws.length := by
  have hlen : (vs.length : ℚ) ≠ 0 := by simpa using hvs
  have hlen' : ((vs ++ ws).length : ℚ) ≠ 0 := by
    rw [Nat.cast_ne_zero, ne_eq, List.length_eq_zero_iff]
    exact List.append_ne_nil_of_left_ne_nil hvs ws
  rw [div_eq_div_iff hlen hlen', List.sum_append, List.length_append, Nat.cast_add]
  constructor
  · intro h
    linarith
  · intro h
    linarith

section
variable {ls selected : List RatLevel} {reduce : Reduce} {t : Target}

theorem means_sumOrAverage_iff {vs ws : List ℚ} (hasks : Asks reduce t) (hvs : t ≠ .none → vs ≠ [])
    (hvalues : values t selected = vs ++ ws) :
    Means reduce t selected (sumOrAverage reduce vs) ↔ IdxRight reduce vs ws selected.length := by
  have hlen : t ≠ .none → (selected.length : ℚ) = (vs ++ ws).length := by
    intro ht
    rw [← hvalues, length_values ht]
  cases reduce with
  | sum =>
    rw [Means, hvalues, List.sum_append]
    exact left_eq_add
  | avg =>
    have ht := (hasks.resolve_left Reduce.noConfusion).2
    rw [Means, hvalues, hlen ht, sumOrAverage, if_pos ⟨rfl, hvs ht⟩]
    exact average_append (hvs ht)
  | min => rw [Means, hvalues]; rfl
  | max => rw [Means, hvalues]; rfl
  | count => rfl
  | none => exact iff_of_false id id

theorem means_bandResult_iff (hasks : Asks reduce t) (hne : selected ≠ []) :
    Means reduce t selected (bandResult reduce (values t selected)) ↔
      BandRight reduce t (values t selected) := by
  have hlen : t ≠ .none → (values t selected).length = selected.length :=
    fun ht => length_values ht selected
  cases reduce with
  | sum => exact iff_of_true rfl trivial
  | avg =>
    have ht := (hasks.resolve_left Reduce.noConfusion).2
    have hvs : values t selected ≠ [] := by
      rw [← List.length_pos_iff, hlen ht]
      exact List.length_pos_iff.mpr hne
    refine iff_of_true ?_ trivial
    rw [Means, bandResult, sumOrAverage, if_pos ⟨rfl, hvs⟩, hlen ht]
  | min => rfl
  | max => rfl
  | count =>
    rw [Means, bandResult, Nat.cast_inj, BandRight]
    constructor
    · rintro h rfl
      rw [values_none] at h
      exact hne (List.length_eq_zero_iff.mp h.symm)
    · exact hlen
  | none => exact iff_of_false id id

theorem sumOrAverage_eq_bandResult_iff {vs ws : List ℚ} (hasks : Asks reduce t)
    (hvs : t ≠ .none → vs ≠ []) :
    sumOrAverage reduce vs = bandResult reduce (vs ++ ws) ↔ LoopsAgree reduce vs ws := by
  cases reduce with
  | sum =>
    change vs.sum = (vs ++ ws).sum ↔ _
    rw [List.sum_append]
    exact left_eq_add
  | avg =>
    have hne := hvs (hasks.resolve_left Reduce.noConfusion).2
    have hne' : vs ++ ws ≠ [] := List.append_ne_nil_of_left_ne_nil hne ws
    rw [bandResult, sumOrAverage, sumOrAverage, if_pos ⟨rfl, hne⟩, if_pos ⟨rfl, hne'⟩]
    exact average_append hne
  | min => rfl
  | max => rfl
  | count => rfl
  | none => exact iff_of_false (fun _ => hasks.elim Reduce.noConfusion (fun h => h.1 rfl)) id

end

/-- No level is behind the count below 2^31 levels. -/
theorem unseen_eq_nil {ls : List RatLevel} (hlen : ls.length < 2 ^ 31) (lv : Range) :
    unseen lv ls = [] ∧ narrow ls.length = ls.length := by
  have hcount : narrow ls.length = ls.length := narrow_eq_self (by omega) (by omega)
  refine ⟨?_, hcount⟩
  have htake : ls.take (min (ls.length : ℤ) lv.b).toNat = ls.take lv.b.toNat := by
    rw [List.take_eq_take_iff]
    omega
  have hall : seen lv ls = slice lv.a lv.b ls := by
    rw [seen, hcount, slice, slice, htake]
  rw [unseen, hall, List.drop_length]

section
variable {S : Snapshot ExactDouble} {side : Side} {ls : List RatLevel}

theorem seen_ne_nil {lv : Range} (ha : 1 ≤ lv.a) (hab : lv.a ≤ lv.b)
    (hcount : lv.a ≤ narrow ls.length) : seen lv ls ≠ [] := by
  have hle := narrow_le ls.length
  exact slice_ne_nil ha (le_min hcount hab) (by omega)

/-- For both forms of a range key that select at least one level: the value is what the reduction
means exactly when the values meet the condition, and when both forms select the same levels they
agree exactly when the values do. -/
theorem range_reductions_iff (hS : S.bySide side = ls.map RatLevel.level) :
    (∀ (lv : Range) (reduce : Reduce) (t : Target), 1 ≤ lv.a → lv.a ≤ lv.b →
      slice lv.a lv.b ls ≠ [] → Asks reduce t →
      ((∃ r, rangeIdxReduce S side lv reduce t = .fin r ∧ Means reduce t (slice lv.a lv.b ls) r) ↔
        lv.a ≤ narrow ls.length ∧ IdxRight reduce (values t (seen lv ls)) (values t (unseen lv ls))
          (slice lv.a lv.b ls).length)) ∧
    (∀ (p1 p2 : ℚ) (reduce : Reduce) (t : Target), p1 ≤ p2 → banded p1 p2 ls ≠ [] →
      Asks reduce t →
      ((∃ r, rangePxReduce S side (.fin p1) (.fin p2) reduce t = .fin r ∧
          Means reduce t (banded p1 p2 ls) r) ↔
        BandRight reduce t (values t (banded p1 p2 ls)))) ∧
    ∀ (lv : Range) (p1 p2 : ℚ) (reduce : Reduce) (t : Target), 1 ≤ lv.a → lv.a ≤ lv.b →
      slice lv.a lv.b ls = banded p1 p2 ls → slice lv.a lv.b ls ≠ [] → Asks reduce t →
      (rangeIdxReduce S side lv reduce t = rangePxReduce S side (.fin p1) (.fin p2) reduce t ↔
        lv.a ≤ narrow ls.length ∧
          LoopsAgree reduce (values t (seen lv ls)) (values t (unseen lv ls))) := by
  have hsplit : ∀ lv t, values t (slice lv.a lv.b ls) =
      values t (seen lv ls) ++ values t (unseen lv ls) := by
    intro lv t
    rw [← values_append, seen_append_unseen]
  have hvs : ∀ (lv : Range) t, 1 ≤ lv.a → lv.a ≤ lv.b → lv.a ≤ narrow ls.length → t ≠ .none →
      values t (seen lv ls) ≠ [] := by
    intro lv t ha hab hcount ht
    rw [← List.length_pos_iff, length_values ht, List.length_pos_iff]
    exact seen_ne_nil ha hab hcount
  refine ⟨?_, ?_, ?_⟩
  · intro lv reduce t ha hab hne hasks
    rw [rangeIdxReduce_eq hS ha hab]
    by_cases hcount : lv.a ≤ narrow ls.length
    · rw [if_neg (not_lt.mpr hcount), and_iff_right hcount,
        ← means_sumOrAverage_iff hasks (hvs lv t ha hab hcount) (hsplit lv t)]
      simp
    · rw [if_pos (not_le.mp hcount)]
      exact iff_of_false (fun ⟨r, hr, _⟩ => nomatch hr) (fun h => hcount h.1)
  · intro p1 p2 reduce t _ hne hasks
    rw [rangePxReduce_eq hS, ← means_bandResult_iff hasks hne]
    simp
  · intro lv p1 p2 reduce t ha hab hsame hne hasks
    rw [rangeIdxReduce_eq hS ha hab, rangePxReduce_eq hS, ← hsame, hsplit]
    by_cases hcount : lv.a ≤ narrow ls.length
    · rw [if_neg (not_lt.mpr hcount), and_iff_right hcount, ExactDouble.fin.injEq]
      exact sumOrAverage_eq_bandResult_iff hasks (hvs lv t ha hab hcount)
    · rw [if_pos (not_le.mp hcount)]
      exact iff_of_false (fun h => nomatch h) (fun h => hcount h.1)

end

/-- Two asks of sizes 5 and 7. -/
def twoAsks : List RatLevel := [⟨100, 5, 1, 500⟩, ⟨101, 7, 2, 707⟩]

def twoAsksSnapshot : Snapshot ExactDouble :=
  ⟨[], twoAsks.map RatLevel.level, ⟨1, 1, false, 0, 2, 0⟩⟩

theorem range_reductions_two_asks :
    (∃ r, rangeIdxReduce twoAsksSnapshot .ask ⟨1, 2⟩ .avg .size = .fin r ∧
      Means .avg .size (slice 1 2 twoAsks) r) ↔
    1 ≤ narrow twoAsks.length ∧ IdxRight .avg (values .size (seen ⟨1, 2⟩ twoAsks))
      (values .size (unseen ⟨1, 2⟩ twoAsks)) (slice 1 2 twoAsks).length := by
  have hS : twoAsksSnapshot.bySide .ask = twoAsks.map RatLevel.level := rfl
  have hne : slice 1 2 twoAsks ≠ [] := by decide +kernel
  exact (range_reductions_iff hS).1 ⟨1, 2⟩ .avg .size (by decide) (by decide) hne
    (.inr ⟨by decide, by decide⟩)

/-- The minimum over levels 1 to 2 comes out as the sum 12, the minimum over a band that holds them
as 0, and a key that counts them as 0. -/
theorem range_reductions_fail :
    (¬ ∃ r, rangeIdxReduce twoAsksSnapshot .ask ⟨1, 2⟩ .min .size = .fin r ∧
      Means .min .size (slice 1 2 twoAsks) r) ∧
    (¬ ∃ r, rangePxReduce twoAsksSnapshot .ask (.fin 100) (.fin 101) .min .size = .fin r ∧
      Means .min .size (banded 100 101 twoAsks) r) ∧
    (¬ ∃ r, rangePxReduce twoAsksSnapshot .ask (.fin 100) (.fin 101) .count .none = .fin r ∧
      Means .count .none (banded 100 101 twoAsks) r) ∧
    slice 1 2 twoAsks = banded 100 101 twoAsks ∧
    rangeIdxReduce twoAsksSnapshot .ask ⟨1, 2⟩ .min .size ≠
      rangePxReduce twoAsksSnapshot .ask (.fin 100) (.fin 101) .min .size := by
  have hidx : rangeIdxReduce twoAsksSnapshot .ask ⟨1, 2⟩ .min .size = .fin 12 := by decide +kernel
  have hpx : rangePxReduce twoAsksSnapshot .ask (.fin 100) (.fin 101) .min .size = .fin 0 := by
    decide +kernel
  have hcount : rangePxReduce twoAsksSnapshot .ask (.fin 100) (.fin 101) .count .none = .fin 0 := by
    decide +kernel
  have hlength : (banded 100 101 twoAsks).length = 2 := by decide +kernel
  have hvalues : values .size (slice 1 2 twoAsks) = [5, 7] ∧
      values .size (banded 100 101 twoAsks) = [5, 7] := by
    decide +kernel
  refine ⟨?_, ?_, ?_, by decide +kernel, by decide +kernel⟩
  · rintro ⟨r, hr, hleast, -⟩
    rw [hidx] at hr
    rw [hvalues.1, ← ExactDouble.fin.inj hr] at hleast
    exact absurd hleast (by decide)
  · rintro ⟨r, hr, hleast, -⟩
    rw [hpx] at hr
    rw [hvalues.2, ← ExactDouble.fin.inj hr] at hleast
    exact absurd hleast (by decide)
  · rintro ⟨r, hr, hmeans⟩
    rw [hcount] at hr
    rw [Means, hlength, ← ExactDouble.fin.inj hr] at hmeans
    exact absurd hmeans (by decide)

end GmaEngine.Ob
