import GmaEngine.ExactArithmetic
import GmaEngine.ObProvider

/-!
# Book metrics over exact rationals

With exact prices and sizes a captured ladder is a list of rows, and a metric is a rational or
NaN. When it is NaN can be read off the rows.
-/

namespace GmaEngine.Ob

/-- The price and the total size of each level, best first. -/
abbrev Rows := Side → List (ℚ × ℚ)

def rowLevel (r : ℚ × ℚ) : Level ExactDouble :=
  ⟨.fin r.1, .fin r.2, .nan, .fin (r.1 * r.2)⟩

/-- The whole book of a symbol with tick size `tick`. -/
def bookRows (m : OrderBookManager ExactDouble) (symbol : String) (tick : ℚ) : Rows := fun s =>
  ((m.book symbol).ladder s).toList.map
    (fun l => ((l.1.ticks : ℚ) * tick, (l.2.totalSize.toNat : ℚ)))

/-- The sizes of the rows numbered `lo` to `hi`. -/
def sizeBetween (rows : List (ℚ × ℚ)) (lo hi : ℤ) : ℚ := ((slice lo hi rows).map Prod.snd).sum

theorem capture_bySide {m : OrderBookManager ExactDouble} {symbol : String} {tick : ℚ}
    (htick : m.getTickSize symbol = .fin tick) (n : ℕ) (s : Side) :
    (capture m symbol n).bySide s = ((bookRows m symbol tick s).take n).map rowLevel := by
  have hlevel : ∀ l : Price × UInt64, capturedLevel (m.getTickSize symbol) l =
      rowLevel ((l.1.ticks : ℚ) * tick, (l.2.toNat : ℚ)) := by
    intro l
    rw [htick]
    rfl
  have hside : ∀ s, ((m.book symbol).forEachLevel s n).map
      (capturedLevel (m.getTickSize symbol)) =
      ((bookRows m symbol tick s).take n).map rowLevel := by
    intro s
    rw [OrderBook.forEachLevel, bookRows, ← List.map_take, List.map_map, List.map_map]
    apply List.map_congr_left
    intro l _
    exact hlevel _
  cases s with
  | bid => exact hside .bid
  | ask => exact hside .ask

theorem bookRows_nonneg (m : OrderBookManager ExactDouble) (symbol : String) (tick : ℚ) (s : Side) :
    ∀ r ∈ bookRows m symbol tick s, 0 ≤ r.2 := by
  intro r hr
  obtain ⟨l, -, rfl⟩ := List.mem_map.mp hr
  exact Nat.cast_nonneg _

theorem sum_nonneg {rows : List (ℚ × ℚ)} (h : ∀ r ∈ rows, 0 ≤ r.2) : 0 ≤ (rows.map Prod.snd).sum := by
  apply List.sum_nonneg
  intro q hq
  obtain ⟨r, hr, rfl⟩ := List.mem_map.mp hq
  exact h r hr

theorem sizeBetween_nonneg {rows : List (ℚ × ℚ)} (h : ∀ r ∈ rows, 0 ≤ r.2) (lo hi : ℤ) :
    0 ≤ sizeBetween rows lo hi :=
  sum_nonneg (fun r hr => h r (List.mem_of_mem_take (List.mem_of_mem_drop hr)))

theorem total_fin (qs : List ℚ) : total (qs.map ExactDouble.fin) = .fin qs.sum := by
  have h := ExactDouble.foldl_add_fin qs 0
  rwa [zero_add] at h

theorem foldl_add_nan (vs : List ExactDouble) : vs.foldl Double.add ExactDouble.nan = .nan := by
  induction vs with
  | nil => rfl
  | cons v vs ih => exact ih

theorem total_nan {vs : List ExactDouble} (hne : vs ≠ []) (h : ∀ v ∈ vs, v = .nan) :
    total vs = .nan := by
  cases vs with
  | nil => exact absurd rfl hne
  | cons v vs =>
    rw [h v List.mem_cons_self]
    exact foldl_add_nan vs

/-- The attributes that a captured level holds as numbers. -/
def Target.value (t : Target) (r : ℚ × ℚ) : Option ℚ :=
  match t with
  | .price => some r.1
  | .size => some r.2
  | .notional => some (r.1 * r.2)
  | _ => Option.none

theorem attr_rowLevel (t : Target) (r : ℚ × ℚ) :
    (rowLevel r).attr t = if t = .orders then some .nan else (t.value r).map .fin := by
  cases t <;> rfl

/-- A sum of one attribute is NaN only for the unknown numbers of orders. -/
theorem total_attr (rows : List (ℚ × ℚ)) (t : Target) :
    total ((rows.map rowLevel).filterMap (fun lvl => lvl.attr t)) =
      if t = .orders ∧ rows ≠ [] then .nan else .fin (rows.filterMap t.value).sum := by
  rw [List.filterMap_map]
  by_cases ht : t = .orders
  · subst ht
    cases rows with
    | nil => rfl
    | cons r rows =>
      rw [if_pos ⟨rfl, List.cons_ne_nil _ _⟩]
      apply total_nan
      · simp [rowLevel, Level.attr]
      · intro v hv
        obtain ⟨r', -, hr'⟩ := List.mem_filterMap.mp hv
        simpa [rowLevel, Level.attr] using hr'.symm
  · rw [if_neg (fun e => ht e.1), ← total_fin, List.map_filterMap]
    congr 1
    apply List.filterMap_congr
    intro r _
    simp [attr_rowLevel, ht]

theorem slice_map {α β : Type} (f : α → β) (lo hi : ℤ) (xs : List α) :
    slice lo hi (xs.map f) = (slice lo hi xs).map f := by
  rw [slice, slice, ← List.map_take, ← List.map_drop]

theorem slice_eq_nil {α : Type} {lo hi : ℤ} (h : hi < lo) (xs : List α) : slice lo hi xs = [] := by
  rw [slice, List.drop_eq_nil_iff, List.length_take]
  omega

/-- A slice within the ladder is not empty. -/
theorem slice_ne_nil {α : Type} {lo hi : ℤ} (hlo : 1 ≤ lo) (hle : lo ≤ hi) {xs : List α}
    (hlen : hi.toNat ≤ xs.length) : slice lo hi xs ≠ [] := by
  rw [slice, ne_eq, List.drop_eq_nil_iff, List.length_take]
  omega

/-- A level count cast to `int` is at most the count. -/
theorem narrow_le (n : ℕ) : narrow n ≤ n := by
  rw [narrow]
  have h := Int.bmod_def (n : ℤ) (2 ^ 32)
  rw [h]
  split_ifs <;> omega

/-- The rows decide whether a metric has no value. -/
def Undefined (R : Rows) : Metric ExactDouble → Prop
  | .spread => R .bid = [] ∨ R .ask = []
  | .mid => R .bid = [] ∨ R .ask = []
  | .best side attr => attr ≠ .size ∧ R side = []
  | .levelIdx side n attr =>
    n < 1 ∨ (R side).length < n ∨ attr = .orders ∨ attr = .none
  | .levelPx side px attr =>
    (∀ r ∈ R side, px ≠ .fin r.1) ∨ attr = .orders ∨ attr = .none
  | .rangeIdx side lv _ target =>
    min (narrow (R side).length) lv.b < max 1 lv.a ∨ target = .orders
  | .rangePx side p1 p2 reduce target =>
    (reduce = .sum ∨ reduce = .avg) ∧ target = .orders ∧
      ∃ r ∈ R side, inBand p1 p2 (rowLevel r) = true
  | .cum side n target => target = .orders ∧ 1 ≤ n ∧ 1 ≤ narrow (R side).length
  | .vwapLevels side lv =>
    sizeBetween (R side) (max 1 lv.a) (min (narrow (R side).length) lv.b) ≤ 0
  | .vwapPrice side p1 p2 =>
    (((R side).filter (fun r => inBand p1 p2 (rowLevel r))).map Prod.snd).sum ≤ 0
  | .imbalanceLevels _ => False
  | .imbalancePrice _ _ => False
  | .metaField field => field ∉ ["seq".toList, "epoch".toList, "is_stale".toList,
      "levels.bid".toList, "levels.ask".toList, "last_change_ms".toList]

section
variable {R : Rows} {S : Snapshot ExactDouble} (hS : ∀ s, S.bySide s = (R s).map rowLevel)
include hS

theorem spread_eq_nan_iff : spread S = .nan ↔ R .bid = [] ∨ R .ask = [] := by
  have hb : S.bids = (R .bid).map rowLevel := hS .bid
  have ha : S.asks = (R .ask).map rowLevel := hS .ask
  rw [spread, hb, ha]
  cases R .bid <;> cases R .ask <;> simp [rowLevel, Double.sub, ExactDouble.add, ExactDouble.neg,
    Double.quietNaN]

theorem mid_eq_nan_iff : mid S = .nan ↔ R .bid = [] ∨ R .ask = [] := by
  have hb : S.bids = (R .bid).map rowLevel := hS .bid
  have ha : S.asks = (R .ask).map rowLevel := hS .ask
  rw [mid, hb, ha]
  cases R .bid <;> cases R .ask <;> simp [rowLevel, Double.add, Double.mul, Double.ofRat,
    ExactDouble.add, ExactDouble.mul, Double.quietNaN]

theorem best_eq_nan_iff (side : Side) (attr : Target) :
    (if attr = .size then bestSize S side else bestPrice S side) = .nan ↔
      attr ≠ .size ∧ R side = [] := by
  rw [bestSize, bestPrice, hS]
  by_cases h : attr = .size
  · cases R side <;> simp [h, rowLevel, Double.ofRat]
  · cases R side <;> simp [h, rowLevel, Double.quietNaN]

theorem levelIdx_eq (side : Side) (n : ℤ) (hn : 1 ≤ n) (attr : Target) :
    levelIdx S side n attr =
      ((R side)[n.toNat - 1]?.bind (fun r => (rowLevel r).attr attr)).getD .nan := by
  rw [levelIdx, if_neg (by omega), hS, List.getElem?_map]
  cases (R side)[n.toNat - 1]? <;> rfl

omit hS in
theorem attr_getD_eq_nan_iff (r : ℚ × ℚ) (attr : Target) :
    ((rowLevel r).attr attr).getD .nan = .nan ↔ attr = .orders ∨ attr = .none := by
  cases attr <;> simp [rowLevel, Level.attr]

theorem levelIdx_eq_nan_iff (side : Side) (n : ℤ) (attr : Target) :
    levelIdx S side n attr = .nan ↔
      n < 1 ∨ (R side).length < n ∨ attr = .orders ∨ attr = .none := by
  by_cases hn : 1 ≤ n
  · rw [levelIdx_eq hS side n hn]
    cases hr : (R side)[n.toNat - 1]? with
    | none =>
      rw [List.getElem?_eq_none_iff] at hr
      have hlen : ((R side).length : ℤ) < n := by omega
      simp [hlen]
    | some r =>
      obtain ⟨hlt, -⟩ := List.getElem?_eq_some_iff.mp hr
      have hlen : ¬ ((R side).length : ℤ) < n := by omega
      have hn' : ¬ n < 1 := by omega
      simp [hlen, hn', attr_getD_eq_nan_iff]
  · rw [levelIdx, if_pos (by omega)]
    exact iff_of_true rfl (.inl (by omega))

theorem levelPx_eq_nan_iff (side : Side) (px : ExactDouble) (attr : Target) :
    levelPx S side px attr = .nan ↔
      (∀ r ∈ R side, px ≠ .fin r.1) ∨ attr = .orders ∨ attr = .none := by
  rw [levelPx, hS, List.find?_map]
  cases hf : (R side).find? ((fun lvl => Double.eq lvl.price px) ∘ rowLevel) with
  | none =>
    rw [List.find?_eq_none] at hf
    refine iff_of_true rfl (.inl ?_)
    rintro r hr rfl
    exact hf r hr (by simp [rowLevel, Double.eq, ExactDouble.eq])
  | some r =>
    have hr : px = .fin r.1 := by
      have h := List.find?_some hf
      simpa [rowLevel, Double.eq, ExactDouble.eq, eq_comm] using h
    have hmem : ¬ ∀ r ∈ R side, px ≠ .fin r.1 :=
      fun h => h r (List.mem_of_find?_eq_some hf) hr
    exact (attr_getD_eq_nan_iff r attr).trans (or_iff_right hmem).symm

omit hS in
/-- An average is NaN exactly when its sum is. -/
theorem average_eq_nan_iff (rows : List (ℚ × ℚ)) (target : Target) {vs : List ExactDouble}
    (hvs : (rows.map rowLevel).filterMap (fun lvl => lvl.attr target) = vs) {P : Prop}
    [Decidable P] (hP : P → vs ≠ []) :
    (if P then Double.div (total vs) (Double.ofRat vs.length) else total vs) = .nan ↔
      target = .orders ∧ rows ≠ [] := by
  have htotal := total_attr rows target
  rw [hvs] at htotal
  rw [htotal]
  by_cases h : target = .orders ∧ rows ≠ []
  · rw [if_pos h]
    refine iff_of_true ?_ h
    split_ifs <;> rfl
  · rw [if_neg h]
    refine iff_of_false ?_ h
    split_ifs with ha
    · have hcount := hP ha
      rw [← List.length_pos_iff] at hcount
      simp [Double.div, ExactDouble.div, Double.ofRat, hcount.ne']
    · simp

theorem rangeIdx_eq_nan_iff (side : Side) (lv : Range) (reduce : Reduce) (target : Target) :
    rangeIdxReduce S side lv reduce target = .nan ↔
      min (narrow (R side).length) lv.b < max 1 lv.a ∨ target = .orders := by
  rw [rangeIdxReduce, hS]
  simp only [List.length_map, List.map_eq_nil_iff, slice_map]
  by_cases hlt : min (narrow (R side).length) lv.b < max 1 lv.a
  · rw [if_pos (.inr hlt)]
    exact iff_of_true rfl (.inl hlt)
  · have hlen := narrow_le (R side).length
    have hne : R side ≠ [] := by
      intro h
      rw [h, List.length_nil] at hlt
      exact hlt (lt_of_le_of_lt (min_le_left _ _) (lt_of_lt_of_le (by decide) (le_max_left _ _)))
    have hslice : slice (max 1 lv.a) (min (narrow (R side).length) lv.b) (R side) ≠ [] :=
      slice_ne_nil (le_max_left _ _) (not_lt.mp hlt) (by omega)
    rw [if_neg (by simpa [hne] using hlt), average_eq_nan_iff _ target rfl (fun h => h.2)]
    simp [hslice, hlt]

theorem rangePx_eq_nan_iff (side : Side) (p1 p2 : ExactDouble) (reduce : Reduce)
    (target : Target) :
    rangePxReduce S side p1 p2 reduce target = .nan ↔
      (reduce = .sum ∨ reduce = .avg) ∧ target = .orders ∧
        ∃ r ∈ R side, inBand p1 p2 (rowLevel r) = true := by
  have hband : (∃ r ∈ R side, inBand p1 p2 (rowLevel r) = true) ↔
      (R side).filter (inBand p1 p2 ∘ rowLevel) ≠ [] := by
    rw [ne_eq, List.filter_eq_nil_iff]
    simp
  unfold rangePxReduce
  rw [hS, List.filter_map, hband]
  generalize (R side).filter (inBand p1 p2 ∘ rowLevel) = rows
  cases reduce with
  | sum =>
    have h := average_eq_nan_iff rows target rfl (P := False) False.elim
    rw [if_neg not_false] at h
    simpa using h
  | avg => simpa using average_eq_nan_iff rows target rfl id
  | min => simp [Double.ofRat]
  | max => simp [Double.ofRat]
  | count => simp [Double.ofRat]
  | none => simp [Double.ofRat]

/-- A cumulative metric stops at the level count cast to `int`. -/
theorem cumLevels_eq (side : Side) (n : ℤ) (hn : 1 ≤ n) (target : Target) :
    cumLevels S side n target =
      if target = .orders ∧ 1 ≤ narrow (R side).length then .nan
      else .fin (((R side).take (min n (narrow (R side).length)).toNat).filterMap
        target.value).sum := by
  have hlen := narrow_le (R side).length
  rw [cumLevels, hS]
  simp only [List.length_map, List.map_eq_nil_iff, slice_map, total_attr]
  have hslice : slice 1 (min n (narrow (R side).length)) (R side) =
      (R side).take (min n (narrow (R side).length)).toNat := by
    rw [slice]
    simp
  rw [hslice]
  by_cases hne : R side = []
  · simp [hne, Double.ofRat, narrow]
  · have htake : (R side).take (min n (narrow (R side).length)).toNat ≠ [] ↔
        1 ≤ narrow (R side).length := by
      rw [ne_eq, List.take_eq_nil_iff]
      simp only [hne, or_false]
      omega
    rw [if_neg (by simp [hne]; omega)]
    exact if_congr (and_congr_right' htake) rfl rfl

theorem cum_eq_nan_iff (side : Side) (n : ℤ) (target : Target) :
    cumLevels S side n target = .nan ↔
      target = .orders ∧ 1 ≤ n ∧ 1 ≤ narrow (R side).length := by
  by_cases hn : 1 ≤ n
  · rw [cumLevels_eq hS side n hn]
    by_cases h : target = .orders ∧ 1 ≤ narrow (R side).length
    · simp [h, hn]
    · rw [if_neg h]
      refine iff_of_false (by simp) (fun h' => h ⟨h'.1, h'.2.2⟩)
  · rw [cumLevels, if_pos (.inr (by omega))]
    refine iff_of_false (by simp [Double.ofRat]) (fun h => hn h.2.1)

omit hS in
theorem vwap_eq_nan_iff (rows : List (ℚ × ℚ)) :
    vwap (rows.map rowLevel) = .nan ↔ (rows.map Prod.snd).sum ≤ 0 := by
  have hpv : (rows.map rowLevel).map (fun lvl => Double.mul lvl.price lvl.size) =
      (rows.map (fun r => r.1 * r.2)).map ExactDouble.fin := by
    rw [List.map_map, List.map_map]
    rfl
  have hv : (rows.map rowLevel).map Level.size = (rows.map Prod.snd).map ExactDouble.fin := by
    rw [List.map_map, List.map_map]
    rfl
  rw [vwap, hpv, hv, total_fin, total_fin]
  by_cases h : (rows.map Prod.snd).sum ≤ 0
  · rw [if_pos ((ExactDouble.le_zero_iff _).mpr h)]
    exact iff_of_true rfl h
  · have hpos := not_le.mp h
    rw [if_neg (fun hle => h ((ExactDouble.le_zero_iff _).mp hle))]
    exact iff_of_false (by simp [Double.div, ExactDouble.div, hpos.ne']) h

theorem vwapLevels_eq_nan_iff (side : Side) (lv : Range) :
    vwapLevels S side lv = .nan ↔
      sizeBetween (R side) (max 1 lv.a) (min (narrow (R side).length) lv.b) ≤ 0 := by
  rw [vwapLevels, hS, sizeBetween]
  simp only [List.length_map, List.map_eq_nil_iff, slice_map]
  split_ifs with h
  · refine iff_of_true rfl ?_
    have hnil : slice (max 1 lv.a) (min (narrow (R side).length) lv.b) (R side) = [] := by
      rcases h with h | h
      · rw [h]
        simp [slice]
      · exact slice_eq_nil h _
    simp [hnil]
  · exact vwap_eq_nan_iff _

theorem vwapPrice_eq_nan_iff (side : Side) (p1 p2 : ExactDouble) :
    vwapPriceBand S side p1 p2 = .nan ↔
      (((R side).filter (fun r => inBand p1 p2 (rowLevel r))).map Prod.snd).sum ≤ 0 := by
  rw [vwapPriceBand, hS, List.filter_map]
  exact vwap_eq_nan_iff _

/-- The imbalance of two nonnegative quantities. -/
def imbalanceRat (b a : ℚ) : ℚ := if b + a ≤ 0 then 0 else (b - a) / (b + a)

omit hS in
theorem imbalance_fin (b a : ℚ) :
    imbalance (ExactDouble.fin b) (.fin a) = .fin (imbalanceRat b a) := by
  have hsum : Double.add (ExactDouble.fin b) (.fin a) = .fin (b + a) := rfl
  rw [imbalance, hsum, imbalanceRat]
  by_cases h : b + a ≤ 0
  · rw [if_pos h, if_pos ((ExactDouble.le_zero_iff _).mpr h)]
    rfl
  · have hpos := not_le.mp h
    rw [if_neg h, if_neg (fun hle => h ((ExactDouble.le_zero_iff _).mp hle))]
    simp [Double.div, Double.sub, ExactDouble.div, ExactDouble.add, ExactDouble.neg, hpos.ne',
      sub_eq_add_neg]

omit hS in
theorem total_sizes (rows : List (ℚ × ℚ)) :
    total ((rows.map rowLevel).map Level.size) = .fin (rows.map Prod.snd).sum := by
  rw [← total_fin, List.map_map, List.map_map]
  rfl

theorem imbalanceLevels_eq (lv : Range) :
    imbalanceLevels S lv = .fin (imbalanceRat
      (sizeBetween (R .bid) (max 1 lv.a) (min lv.b (narrow (R .bid).length)))
      (sizeBetween (R .ask) (max 1 lv.a) (min lv.b (narrow (R .ask).length)))) := by
  have hb : S.bids = (R .bid).map rowLevel := hS .bid
  have ha : S.asks = (R .ask).map rowLevel := hS .ask
  rw [imbalanceLevels, hb, ha]
  simp only [List.length_map, slice_map, total_sizes]
  exact imbalance_fin _ _

theorem imbalanceBand_ne_nan (p1 p2 : ExactDouble) : imbalanceBand S p1 p2 ≠ .nan := by
  have hb : S.bids = (R .bid).map rowLevel := hS .bid
  have ha : S.asks = (R .ask).map rowLevel := hS .ask
  rw [imbalanceBand, hb, ha]
  simp only [List.filter_map, total_sizes, imbalance_fin]
  simp

/-- Two bid and ask quantities stand in the same proportion; an empty total is matched by
equal quantities. -/
def Proportional (b a b' a' : ℚ) : Prop :=
  b * a' = a * b' ∧ (b + a = 0 → b' = a') ∧ (b' + a' = 0 → b = a)

omit hS in
theorem imbalanceRat_eq_iff {b a b' a' : ℚ} (hb : 0 ≤ b) (ha : 0 ≤ a) (hb' : 0 ≤ b')
    (ha' : 0 ≤ a') : imbalanceRat b a = imbalanceRat b' a' ↔ Proportional b a b' a' := by
  unfold imbalanceRat Proportional
  by_cases h : b + a ≤ 0
  · have hzero : b + a = 0 := le_antisymm h (by linarith)
    have hb0 : b = 0 := by linarith
    have ha0 : a = 0 := by linarith
    subst hb0 ha0
    by_cases h' : b' + a' ≤ 0
    · have hb0' : b' = 0 := by linarith
      have ha0' : a' = 0 := by linarith
      simp [hb0', ha0']
    · have hne : b' + a' ≠ 0 := fun e => h' e.le
      simp only [add_zero, le_refl, if_true, if_neg h', zero_mul, true_and, hne, false_implies,
        and_true, true_implies]
      rw [eq_comm, div_eq_zero_iff]
      simp [hne, sub_eq_zero]
  · have hne : b + a ≠ 0 := fun e => h e.le
    by_cases h' : b' + a' ≤ 0
    · have hb0' : b' = 0 := by linarith
      have ha0' : a' = 0 := by linarith
      subst hb0' ha0'
      simp only [if_neg h, add_zero, le_refl, if_true, mul_zero, true_and, hne, false_implies,
        true_implies]
      rw [div_eq_zero_iff]
      simp [hne, sub_eq_zero]
    · have hne' : b' + a' ≠ 0 := fun e => h' e.le
      simp only [if_neg h, if_neg h', hne, hne', false_implies, and_true]
      rw [div_eq_div_iff hne hne']
      constructor
      · intro e
        linarith
      · intro e
        linarith

omit hS in
theorem metaValue_eq_nan_iff (field : List Char) :
    metaValue S field = .nan ↔ Undefined R (.metaField field) := by
  unfold metaValue
  simp only [Undefined, List.mem_cons, List.not_mem_nil, or_false, not_or]
  split_ifs with h1 h2 h3 _ h4 h5 h6 <;> simp_all [Double.quietNaN]

theorem eval_eq_nan_iff (k : ObKey ExactDouble) : eval S k = .nan ↔ Undefined R k.metric := by
  obtain ⟨metric, mode⟩ := k
  cases metric with
  | spread => exact spread_eq_nan_iff hS
  | mid => exact mid_eq_nan_iff hS
  | best side attr => exact best_eq_nan_iff hS side attr
  | levelIdx side n attr => exact levelIdx_eq_nan_iff hS side n attr
  | levelPx side px attr => exact levelPx_eq_nan_iff hS side px attr
  | rangeIdx side lv reduce target => exact rangeIdx_eq_nan_iff hS side lv reduce target
  | rangePx side p1 p2 reduce target => exact rangePx_eq_nan_iff hS side p1 p2 reduce target
  | cum side n target => exact cum_eq_nan_iff hS side n target
  | vwapLevels side lv => exact vwapLevels_eq_nan_iff hS side lv
  | vwapPrice side p1 p2 => exact vwapPrice_eq_nan_iff hS side p1 p2
  | imbalanceLevels lv =>
    refine iff_of_false ?_ id
    have h : eval S ⟨.imbalanceLevels lv, mode⟩ = imbalanceLevels S lv := rfl
    rw [h, imbalanceLevels_eq hS]
    simp
  | imbalancePrice p1 p2 => exact iff_of_false (imbalanceBand_ne_nan hS p1 p2) id
  | metaField field => exact metaValue_eq_nan_iff field

end

end GmaEngine.Ob
