import GmaEngine.ExactArithmetic
import GmaEngine.OrderBookManager

/-!
# Prices as ticks

In exact arithmetic an accepted price lies within `1e-8` ticks of a whole number of ticks.
`toTicks` finds that number when it is a nonzero `int64_t`. A number of ticks near zero passes the
validation too and becomes price zero, and one outside the range of `int64_t` falls back to zero
or is left to `llround`.
-/

namespace GmaEngine

namespace ExactDouble

/-- A rational within half of an integer is rounded to it. -/
theorem roundRat_eq {q : ℚ} {n : ℤ} (h : |q - n| < 1 / 2) : roundRat q = n := by
  rw [abs_lt] at h
  unfold roundRat
  split_ifs with hq
  · rw [Int.floor_eq_iff]
    constructor <;> linarith
  · have hfloor : ⌊-q + 1 / 2⌋ = -n := by
      rw [Int.floor_eq_iff]
      push_cast
      constructor <;> linarith
    rw [hfloor, neg_neg]

/-- What is handed to `llround`: the number of ticks, moved away from zero. -/
def nudged (q : ℚ) : ℚ := q + if q < 0 then -(1 / 10 ^ 12) else 1 / 10 ^ 12

theorem roundRat_nudged {q : ℚ} {n : ℤ} (h : |q - n| < 1 / 10 ^ 8) : roundRat (nudged q) = n := by
  apply roundRat_eq
  rw [abs_lt] at h ⊢
  unfold nudged
  split_ifs
  · constructor <;> linarith
  · constructor <;> linarith

/-- The nudge of `quantizeTicks`. -/
theorem add_copysign_fin (q : ℚ) : (Double.add (fin q)
    (Double.copysign (Double.ofRat (1 / 10 ^ 12)) (fin q)) : ExactDouble) = fin (nudged q) := by
  have hsign : (Double.copysign (Double.ofRat (1 / 10 ^ 12)) (fin q) : ExactDouble) =
      fin (if q < 0 then -(1 / 10 ^ 12) else 1 / 10 ^ 12) := by
    change (if decide ((1 / 10 ^ 12 : ℚ) < 0) = decide (q < 0) then fin (1 / 10 ^ 12)
      else fin (-(1 / 10 ^ 12))) = _
    by_cases hq : q < 0
    · simp [hq]
    · simp [hq]
  rw [hsign]
  rfl

end ExactDouble

namespace OrderBookManager
open ExactDouble

variable {m : OrderBookManager ExactDouble} {symbol : String} {px t : ℚ}

theorem validatePrice_fin (ht : 0 < t) (htick : m.getTickSize symbol = .fin t) :
    m.validatePrice symbol (.fin px) = true ↔
      px ≠ 0 ∧ (m.allowNegativePrices = false → 0 ≤ px) ∧
        |px / t - roundRat (px / t)| < 1 / 10 ^ 8 := by
  have hr : Double.lt (Double.fabs (Double.sub (fin (px / t)) (Double.round (fin (px / t)))))
      (Double.ofRat (1 / 10 ^ 8) : ExactDouble) =
        decide (|px / t - roundRat (px / t)| < 1 / 10 ^ 8) := by
    change Double.lt (Double.fabs (Double.sub (fin (px / t)) (fin (roundRat (px / t)))))
      (fin (1 / 10 ^ 8)) = _
    rw [sub_fin, fabs_fin, lt_fin]
  have hzero : Double.eq (fin px) (Double.ofRat 0 : ExactDouble) = decide (px = 0) := eq_fin px 0
  have hneg : Double.lt (fin px) (Double.ofRat 0 : ExactDouble) = decide (px < 0) := rfl
  have hfinite : (Double.isnan (fin px) || Double.isinf (fin px)) = false := rfl
  unfold validatePrice
  rw [htick, div_fin px ht.ne']
  dsimp only
  rw [hr, hzero, hneg, hfinite]
  by_cases h0 : px = 0
  · simp [h0]
  cases hallow : m.allowNegativePrices with
  | false => by_cases hlt : px < 0 <;> simp [h0, hlt, not_le.mpr, not_lt.mp]
  | true => simp [h0]

theorem toTicks_fin (ht : 0 < t) (htick : m.getTickSize symbol = .fin t) :
    (m.toTicks symbol (.fin px)).ticks =
      if 2 ^ 63 < px / t ∨ px / t < -2 ^ 63 then 0
      else ExactDouble.llround (.fin (nudged (px / t))) := by
  have hle : Double.le (fin t) (Double.ofRat 0 : ExactDouble) = false := by
    change (Double.lt (fin t) (fin 0) || Double.eq (fin t) (fin 0)) = false
    rw [lt_fin, eq_fin]
    simp [ht.ne', ht.le]
  have hrange : (Double.gt (fin (px / t)) (Double.ofRat (2 ^ 63) : ExactDouble) ||
      Double.lt (fin (px / t)) (Double.ofRat (-2 ^ 63) : ExactDouble)) =
        decide (2 ^ 63 < px / t ∨ px / t < -2 ^ 63) := by
    rw [Bool.decide_or]
    rfl
  unfold toTicks quantizeTicks
  rw [htick]
  dsimp only
  rw [hle, div_fin px ht.ne', hrange, add_copysign_fin]
  simp only [decide_eq_true_eq]
  rfl

/-- The price is quantised as meant: the integer that `llround` computes is an `int64_t`, the
ticks are not zero, and they are within `1e-8` ticks of the price. -/
structure Faithful (m : OrderBookManager ExactDouble) (symbol : String) (t px : ℚ) : Prop where
  inRange : -2 ^ 63 ≤ roundRat (nudged (px / t)) ∧ roundRat (nudged (px / t)) < 2 ^ 63
  nonzero : (m.toTicks symbol (.fin px)).ticks ≠ 0
  close : |((m.toTicks symbol (.fin px)).ticks : ℚ) * t - px| ≤ 1 / 10 ^ 8 * t

/-- Half a tick or more from zero, and between the limits of `int64_t`. -/
def Representable (t px : ℚ) : Prop := t / 2 ≤ |px| ∧ -2 ^ 63 * t ≤ px ∧ px < (2 ^ 63 - 1 / 2) * t

/-- The condition on the number of ticks. -/
theorem representable_iff (ht : 0 < t) : Representable t px ↔
    1 / 2 ≤ |px / t| ∧ -2 ^ 63 ≤ px / t ∧ px / t < 2 ^ 63 - 1 / 2 := by
  unfold Representable
  rw [abs_div, abs_of_pos ht, le_div_iff₀ ht, le_div_iff₀ ht, div_lt_iff₀ ht]
  have hhalf : 1 / 2 * t = t / 2 := by ring
  rw [hhalf]

/-- The ticks of an accepted price, unless the range check cuts it off. -/
theorem toTicks_of_near (ht : 0 < t) (htick : m.getTickSize symbol = .fin t) {n : ℤ}
    (hnear : |px / t - n| < 1 / 10 ^ 8) (hlow : -2 ^ 63 ≤ px / t) (hhigh : px / t ≤ 2 ^ 63)
    (hrange : -2 ^ 63 ≤ n ∧ n < 2 ^ 63) : (m.toTicks symbol (.fin px)).ticks = n := by
  have hcut : ¬ (2 ^ 63 < px / t ∨ px / t < -2 ^ 63) := by
    rintro (h | h)
    · exact absurd hhigh (not_le.mpr h)
    · exact absurd hlow (not_le.mpr h)
  rw [toTicks_fin ht htick, if_neg hcut, ExactDouble.llround, roundRat_nudged hnear, if_pos hrange]

theorem Representable.whole (ht : 0 < t) (h : Representable t px) {n : ℤ}
    (hnear : |px / t - n| < 1 / 10 ^ 8) : n ≠ 0 ∧ -2 ^ 63 ≤ n ∧ n < 2 ^ 63 := by
  obtain ⟨hhalf, hlow, hhigh⟩ := (representable_iff ht).mp h
  have hboth := abs_lt.mp hnear
  refine ⟨?_, ?_, ?_⟩
  · rintro rfl
    rw [Int.cast_zero, sub_zero] at hnear
    linarith
  · have hcast : (-2 ^ 63 - 1 : ℚ) < n := by linarith
    have hint : (-2 ^ 63 - 1 : ℤ) < n := by exact_mod_cast hcast
    omega
  · have hcast : (n : ℚ) < 2 ^ 63 := by linarith
    exact_mod_cast hcast

theorem faithful_of_representable (ht : 0 < t) (htick : m.getTickSize symbol = .fin t)
    (hvalid : m.validatePrice symbol (.fin px) = true) (h : Representable t px) :
    Faithful m symbol t px := by
  obtain ⟨-, -, hnear⟩ := (validatePrice_fin ht htick).mp hvalid
  obtain ⟨hnonzero, hrange⟩ := h.whole ht hnear
  obtain ⟨-, hlow, hhigh⟩ := (representable_iff ht).mp h
  have hticks := toTicks_of_near ht htick hnear hlow (by linarith) hrange
  refine ⟨?_, ?_, ?_⟩
  · rwa [roundRat_nudged hnear]
  · rwa [hticks]
  · have hdist : (roundRat (px / t) : ℚ) * t - px = (roundRat (px / t) - px / t) * t := by
      field_simp
    rw [hticks, hdist, abs_mul, abs_of_pos ht, abs_sub_comm]
    exact mul_le_mul_of_nonneg_right hnear.le ht.le

theorem Faithful.representable (ht : 0 < t) (htick : m.getTickSize symbol = .fin t)
    (hvalid : m.validatePrice symbol (.fin px) = true) (h : Faithful m symbol t px) :
    Representable t px := by
  obtain ⟨-, -, hnear⟩ := (validatePrice_fin ht htick).mp hvalid
  have hrange := h.inRange
  rw [roundRat_nudged hnear] at hrange
  -- a price cut off by the range check would have ticks zero
  have hcut : ¬ (2 ^ 63 < px / t ∨ px / t < -2 ^ 63) := by
    intro hcut
    apply h.nonzero
    rw [toTicks_fin ht htick, if_pos hcut]
  have hhigh : px / t ≤ 2 ^ 63 := not_lt.mp (fun hlt => hcut (.inl hlt))
  have hlow : -2 ^ 63 ≤ px / t := not_lt.mp (fun hlt => hcut (.inr hlt))
  have hticks := toTicks_of_near ht htick hnear hlow hhigh hrange
  have hboth := abs_lt.mp hnear
  rw [representable_iff ht]
  refine ⟨?_, hlow, ?_⟩
  · have hone : 1 ≤ |roundRat (px / t)| := by
      rw [← hticks]
      exact Int.one_le_abs h.nonzero
    have hcast : (1 : ℚ) ≤ |(roundRat (px / t) : ℚ)| := by exact_mod_cast hone
    have htriangle := abs_sub_abs_le_abs_sub (roundRat (px / t) : ℚ) (px / t)
    rw [abs_sub_comm] at htriangle
    linarith
  · have hle : roundRat (px / t) ≤ 2 ^ 63 - 1 := by omega
    have hcast : (roundRat (px / t) : ℚ) ≤ 2 ^ 63 - 1 := by exact_mod_cast hle
    linarith

/-- Faithful prices on one level are within one tick of each other. -/
theorem Faithful.level (ht : 0 < t) {px' : ℚ} (h : Faithful m symbol t px)
    (h' : Faithful m symbol t px')
    (hsame : m.toTicks symbol (.fin px) = m.toTicks symbol (.fin px')) : |px - px'| ≤ t := by
  have hclose := h.close
  have hclose' := h'.close
  rw [← hsame] at hclose'
  have htriangle := abs_sub_le px ((m.toTicks symbol (.fin px)).ticks * t) px'
  rw [abs_sub_comm px (_ * t)] at htriangle
  linarith

/-- An accepted price is quantised faithfully exactly when it is half a tick or more from zero and
within the range of `int64_t`; such prices more than one tick apart are on different levels. -/
theorem accepted_price_faithful_iff (ht : 0 < t) (htick : m.getTickSize symbol = .fin t)
    (hvalid : m.validatePrice symbol (.fin px) = true) :
    (Faithful m symbol t px ↔ Representable t px) ∧
    ∀ px', m.validatePrice symbol (.fin px') = true → Representable t px → Representable t px' →
      t < |px - px'| → m.toTicks symbol (.fin px) ≠ m.toTicks symbol (.fin px') := by
  constructor
  · exact ⟨Faithful.representable ht htick hvalid, faithful_of_representable ht htick hvalid⟩
  · intro px' hvalid' h h' hapart hsame
    have hclose := (faithful_of_representable ht htick hvalid h).level ht
      (faithful_of_representable ht htick hvalid' h') hsame
    linarith

/-- One dollar in ticks of a hundredth of a cent. -/
theorem one_dollar_faithful :
    ({} : OrderBookManager ExactDouble).validatePrice "AAPL" (.fin 1) = true ∧
      Faithful {} "AAPL" (1 / 10000) 1 := by
  have hvalid : ({} : OrderBookManager ExactDouble).validatePrice "AAPL" (.fin 1) = true := by
    decide +kernel
  refine ⟨hvalid, ((accepted_price_faithful_iff (by norm_num) rfl hvalid).1).mpr ?_⟩
  unfold Representable
  norm_num

/-- A price of a billionth of a tick is accepted and rests at price zero; one past the range of
`int64_t` is accepted and falls back to zero. -/
theorem accepted_prices_at_zero :
    (({} : OrderBookManager ExactDouble).validatePrice "AAPL" (.fin (1 / 10 ^ 13)) = true ∧
      ¬ Faithful {} "AAPL" (1 / 10000) (1 / 10 ^ 13) ∧
      (({} : OrderBookManager ExactDouble).onAdd "AAPL" 1 .bid (.fin (1 / 10 ^ 13)) 10 0 {}
        false).mgr.bestBid "AAPL" = some (.fin 0)) ∧
    ({} : OrderBookManager ExactDouble).validatePrice "AAPL" (.fin (2 ^ 63)) = true ∧
      ¬ Faithful {} "AAPL" (1 / 10000) (2 ^ 63) := by
  have hsmall : (({} : OrderBookManager ExactDouble).toTicks "AAPL" (.fin (1 / 10 ^ 13))).ticks =
      0 := by decide +kernel
  have hlarge : (({} : OrderBookManager ExactDouble).toTicks "AAPL" (.fin (2 ^ 63))).ticks =
      0 := by decide +kernel
  exact ⟨⟨by decide +kernel, fun h => h.nonzero hsmall, by decide +kernel⟩, by decide +kernel,
    fun h => h.nonzero hlarge⟩

end OrderBookManager
end GmaEngine
