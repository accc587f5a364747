import GmaEngine.ObLadders

/-!
# Levels with rational values

A ladder whose levels hold four rationals each. The loops of the metrics run on the lists of one
attribute, and a metric of such a ladder is a rational where it has a value.
-/

namespace GmaEngine.Ob

structure RatLevel where
  price : ℚ
  size : ℚ
  orders : ℚ
  notional : ℚ
  deriving DecidableEq

namespace RatLevel

def level (l : RatLevel) : Level ExactDouble :=
  ⟨.fin l.price, .fin l.size, .fin l.orders, .fin l.notional⟩

/-- The attribute that a target selects. -/
def value (l : RatLevel) : Target → Option ℚ
  | .price => some l.price
  | .size => some l.size
  | .orders => some l.orders
  | .notional => some l.notional
  | .none => none

theorem attr_level (l : RatLevel) (t : Target) : l.level.attr t = (l.value t).map .fin := by
  cases t <;> rfl

theorem value_isSome {t : Target} (ht : t ≠ .none) (l : RatLevel) : (l.value t).isSome := by
  cases t with
  | none => exact absurd rfl ht
  | _ => rfl

end RatLevel

/-- One attribute of each level. -/
def values (t : Target) (ls : List RatLevel) : List ℚ := ls.filterMap (fun l => l.value t)

theorem values_append (t : Target) (xs ys : List RatLevel) :
    values t (xs ++ ys) = values t xs ++ values t ys :=
  List.filterMap_append

theorem values_none (ls : List RatLevel) : values .none ls = [] :=
  List.filterMap_eq_nil_iff.mpr (fun _ _ => rfl)

theorem length_values {t : Target} (ht : t ≠ .none) (ls : List RatLevel) :
    (values t ls).length = ls.length := by
  induction ls with
  | nil => rfl
  | cons l ls ih =>
    obtain ⟨v, hv⟩ := Option.isSome_iff_exists.mp (l.value_isSome ht)
    rw [values, List.filterMap_cons, hv, List.length_cons, List.length_cons]
    exact congrArg (· + 1) ih

theorem attrs_level (t : Target) (ls : List RatLevel) :
    (ls.map RatLevel.level).filterMap (fun lvl => lvl.attr t) = (values t ls).map .fin := by
  rw [List.filterMap_map, values, List.map_filterMap]
  apply List.filterMap_congr
  intro l _
  exact l.attr_level t

theorem total_attrs (t : Target) (ls : List RatLevel) :
    total ((ls.map RatLevel.level).filterMap (fun lvl => lvl.attr t)) =
      .fin (values t ls).sum := by
  rw [attrs_level, total_fin]

theorem total_sizes_level (ls : List RatLevel) :
    total ((ls.map RatLevel.level).map Level.size) = .fin (ls.map RatLevel.size).sum := by
  rw [← total_fin, List.map_map, List.map_map]
  rfl

theorem vwap_level (ls : List RatLevel) :
    vwap (ls.map RatLevel.level) =
      if (ls.map RatLevel.size).sum ≤ 0 then .nan
      else .fin ((ls.map (fun l => l.price * l.size)).sum / (ls.map RatLevel.size).sum) := by
  have hpv : (ls.map RatLevel.level).map (fun lvl => Double.mul lvl.price lvl.size) =
      (ls.map (fun l => l.price * l.size)).map ExactDouble.fin := by
    rw [List.map_map, List.map_map]
    rfl
  rw [vwap, hpv, total_fin, total_sizes_level]
  by_cases h : (ls.map RatLevel.size).sum ≤ 0
  · rw [if_pos h, if_pos ((ExactDouble.le_zero_iff _).mpr h)]
    rfl
  · rw [if_neg h, if_neg (fun hle => h ((ExactDouble.le_zero_iff _).mp hle))]
    exact if_neg (not_le.mp h).ne'

/-- The levels of a price band. -/
def banded (p1 p2 : ℚ) (ls : List RatLevel) : List RatLevel :=
  ls.filter (fun l => p1 ≤ l.price ∧ l.price ≤ p2)

theorem inBand_level (p1 p2 : ℚ) (l : RatLevel) :
    inBand (.fin p1) (.fin p2) l.level = decide (p1 ≤ l.price ∧ l.price ≤ p2) := by
  have hlt : ∀ x y : ℚ, Double.lt (ExactDouble.fin x) (.fin y) = decide (x < y) := fun _ _ => rfl
  rw [inBand]
  change (!(Double.lt (ExactDouble.fin l.price) (.fin p1) ||
    Double.lt (ExactDouble.fin p2) (.fin l.price))) = _
  rw [hlt, hlt, Bool.not_or, Bool.decide_and, ← decide_not, ← decide_not]
  simp only [not_lt]

theorem filter_inBand (p1 p2 : ℚ) (ls : List RatLevel) :
    (ls.map RatLevel.level).filter (inBand (.fin p1) (.fin p2)) =
      (banded p1 p2 ls).map RatLevel.level := by
  rw [List.filter_map, banded]
  congr 2
  funext l
  exact inBand_level p1 p2 l

end GmaEngine.Ob
