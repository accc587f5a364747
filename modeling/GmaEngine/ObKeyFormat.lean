import GmaEngine.DecimalNumerals
import GmaEngine.ObKey
import GmaEngine.StreamSegments

/-!
# Formatting an `ob.*` key

`formatObKey` writes a key as tokens with dots between them. A key whose numbers are all integers
is parsed back from its text; the text of a price may contain dots of its own.
-/

namespace GmaEngine.Ob

/-- `toString(Side)`. -/
def sideText : Side → String
  | .bid => "bid"
  | .ask => "ask"

def targetText : Target → String
  | .price => "price"
  | .size => "size"
  | .orders => "orders"
  | _ => "notional"

/-- Cumulative keys have another default. -/
def cumTargetText : Target → String
  | .size => "size"
  | .notional => "notional"
  | .orders => "orders"
  | _ => "price"

/-- The tokens of a reduction with its target. The dot behind `count` ends the text, which leaves
an empty token. -/
def reductionTexts (reduce : Reduce) (target : Target) : List String :=
  match reduce with
  | .sum => ["sum", targetText target]
  | .avg => ["avg", targetText target]
  | .min => ["min", targetText target]
  | .max => ["max", targetText target]
  | .count => ["count", ""]
  | .none => [targetText target]

section
variable {D : Type} (put : D → String)

def rangeText (lv : Range) : String := toString lv.a ++ "-" ++ toString lv.b

def bandText (p1 p2 : D) : String := put p1 ++ "-" ++ put p2

/-- The tokens of a metric; `put` is what `operator<<` writes for a double. -/
def metricTexts : Metric D → List String
  | .spread => ["spread"]
  | .mid => ["mid"]
  | .best side attr => ["best", sideText side, if attr = .price then "price" else "size"]
  | .levelIdx side n attr => ["level", sideText side, toString n, targetText attr]
  | .levelPx side px attr => ["at", sideText side, put px, targetText attr]
  | .rangeIdx side lv reduce target =>
    ["range", sideText side, "levels", rangeText lv] ++ reductionTexts reduce target
  | .rangePx side p1 p2 reduce target =>
    ["range", sideText side, "price", bandText put p1 p2] ++ reductionTexts reduce target
  | .cum side n target => ["cum", sideText side, "levels", toString n, cumTargetText target]
  | .vwapLevels side lv => ["vwap", sideText side, "levels", rangeText lv]
  | .vwapPrice side p1 p2 => ["vwap", sideText side, "price", bandText put p1 p2]
  | .imbalanceLevels lv => ["imbalance", "levels", rangeText lv]
  | .imbalancePrice p1 p2 => ["imbalance", "price", bandText put p1 p2]
  | .metaField field => ["meta", String.ofList field]

def modeTexts : Mode → List String
  | .per => []
  | .agg => ["agg"]

def formatObKey (k : ObKey D) : String :=
  ".".intercalate ("ob" :: metricTexts put k.metric ++ modeTexts k.mode)

end

theorem split_append_cons (sep : Char) (xs ys : List Char) :
    split sep (xs ++ sep :: ys) = split sep xs ++ split sep ys := by
  have hcut : (xs ++ sep :: ys).splitOn sep = xs.splitOn sep ++ ys.splitOn sep :=
    List.splitOnP_append_cons (p := (· == sep)) xs ys (beq_self_eq_true sep)
  rw [split, hcut, List.filter_append]
  rfl

theorem split_of_notMem {sep : Char} {tok : List Char} (hsep : sep ∉ tok) (hne : tok ≠ []) :
    split sep tok = [tok] := by
  have hone : tok.splitOn sep = [tok] := by
    apply List.splitOnP_eq_singleton
    intro c hc
    rw [beq_eq_false_iff_ne]
    rintro rfl
    exact hsep hc
  rw [split, hone]
  simp [hne]

theorem split_spec {sep : Char} {s tok : List Char} (h : tok ∈ split sep s) :
    tok ≠ [] ∧ sep ∉ tok := by
  obtain ⟨hmem, hne⟩ := List.mem_filter.mp h
  exact ⟨by simpa using hne, StreamSegments.sep_notMem s tok hmem⟩

theorem split_intercalate (sep : Char) (toks : List (List Char)) :
    split sep ([sep].intercalate toks) = toks.flatMap (split sep) := by
  induction toks with
  | nil => rfl
  | cons tok toks ih =>
    cases toks with
    | nil => simp
    | cons next toks =>
      rw [List.intercalate_cons_cons, List.append_assoc, List.singleton_append, split_append_cons,
        ih]
      rfl

theorem split_formatObKey {D : Type} (put : D → String) (k : ObKey D) :
    split '.' (formatObKey put k).toList =
      "ob".toList :: (metricTexts put k.metric).flatMap (fun t => split '.' t.toList) ++
        (modeTexts k.mode).flatMap (fun t => split '.' t.toList) := by
  have hob : split '.' "ob".toList = ["ob".toList] := by decide
  rw [formatObKey, String.toList_intercalate]
  change split '.' (['.'].intercalate _) = _
  rw [split_intercalate, List.cons_append, List.map_cons, List.flatMap_cons, hob, List.map_append,
    List.flatMap_append, List.flatMap_map, List.flatMap_map]
  rfl

theorem parseSide_sideText (s : Side) : parseSide (sideText s).toList = some s := by
  cases s <;> decide

theorem parseTarget_targetText {t : Target} (h : t ≠ .none) :
    parseTarget (targetText t).toList = some t := by
  cases t with
  | none => exact absurd rfl h
  | _ => decide

theorem parseTarget_cumTargetText {t : Target} (h : t ≠ .none) :
    parseTarget (cumTargetText t).toList = some t := by
  cases t with
  | none => exact absurd rfl h
  | _ => decide

/-- A positive `int`. -/
def PosInt (n : ℤ) : Prop := 1 ≤ n ∧ n < 2 ^ 31

theorem toString_of_pos {n : ℤ} (h : 1 ≤ n) : toString n = toString n.toNat := by
  obtain ⟨m, rfl⟩ := Int.eq_ofNat_of_zero_le (show 0 ≤ n by omega)
  rfl

open CNumerals in
theorem numeral_posInt {n : ℤ} (h : PosInt n) : Numeral (toString n).toList n.toNat := by
  rw [toString_of_pos h.1]
  exact numeral_toString _

open CNumerals in
theorem cChars_numeral {text rest : List Char} {n : ℕ} (h : Numeral text n)
    (hrest : '\x00' ∉ rest) : cChars (text ++ rest) = text ++ rest := by
  rw [cChars, List.takeWhile_eq_self_iff]
  intro c hc
  rw [decide_eq_true_eq]
  rintro rfl
  rcases List.mem_append.mp hc with hc | hc
  · exact absurd (h.digits _ hc) (by decide)
  · exact hrest hc

section
open CNumerals
variable {x y : List Char} {A B : ℕ} (hx : Numeral x A)
include hx

theorem split_numeral {sep : Char} (hsep : sep.isDigit = false) : split sep x = [x] :=
  split_of_notMem (hx.notMem hsep) hx.ne_nil

theorem parseInt_numeral (hA : A < 2 ^ 31) : parseInt x = some (A : ℤ) := by
  have htext := cChars_numeral hx (by simp : '\x00' ∉ ([] : List Char))
  have hread := strtol_numeral hx ends_nil
  rw [List.append_nil] at htext hread
  have hclamp : min (2 ^ 63 - 1) (A : ℤ) = A := by omega
  rw [parseInt, htext, hread, hclamp]
  dsimp only
  rw [if_pos rfl, narrow_eq_self (by omega) (by omega)]

/-- The text of a range is no single number. -/
theorem parseInt_pair (hy : Numeral y B) : parseInt (x ++ '-' :: y) = none := by
  have hrest : '\x00' ∉ '-' :: y := by
    intro hmem
    rcases List.mem_cons.mp hmem with hdash | hmem
    · exact absurd hdash (by decide)
    · exact hy.notMem (by decide) hmem
  rw [parseInt, cChars_numeral hx hrest, strtol_numeral hx (ends_cons (by decide) _)]
  rfl

theorem parseRange_numeral : parseRange x = none := by
  rw [parseRange, split_numeral hx (by decide)]

theorem parseRange_pair (hA : A < 2 ^ 31) (hy : Numeral y B) (hB : B < 2 ^ 31) :
    parseRange (x ++ '-' :: y) =
      if (A : ℤ) < 1 ∨ (B : ℤ) < A then none else some ⟨A, B⟩ := by
  have hsplit : split '-' (x ++ '-' :: y) = [x, y] := by
    rw [split_append_cons, split_numeral hx (by decide), split_numeral hy (by decide)]
    rfl
  rw [parseRange, hsplit]
  simp only [parseInt_numeral hx hA, parseInt_numeral hy hB, Option.bind_eq_bind, Option.bind_some]

end

theorem parseInt_toString {n : ℤ} (h : PosInt n) : parseInt (toString n).toList = some n := by
  have hread := parseInt_numeral (numeral_posInt h) (by have := h.2; omega)
  rwa [Int.toNat_of_nonneg (by have := h.1; omega)] at hread

/-- A range of levels that a key can have. -/
def Range.Valid (lv : Range) : Prop := 1 ≤ lv.a ∧ lv.a ≤ lv.b ∧ lv.b < 2 ^ 31

theorem toList_rangeText (lv : Range) :
    (rangeText lv).toList = (toString lv.a).toList ++ '-' :: (toString lv.b).toList := by
  rw [rangeText, String.toList_append, String.toList_append, List.append_assoc]
  rfl

section
variable {lv : Range} (h : lv.Valid)
include h

theorem Range.Valid.posInt : PosInt lv.a ∧ PosInt lv.b := by
  obtain ⟨ha, hab, hb⟩ := h
  exact ⟨⟨ha, by omega⟩, ⟨by omega, hb⟩⟩

theorem parseRange_rangeText : parseRange (rangeText lv).toList = some lv := by
  obtain ⟨hpa, hpb⟩ := h.posInt
  obtain ⟨ha, hab, hb⟩ := h
  rw [toList_rangeText, parseRange_pair (numeral_posInt hpa) (by omega) (numeral_posInt hpb)
    (by omega), if_neg (by omega), Int.toNat_of_nonneg (by omega), Int.toNat_of_nonneg (by omega)]

theorem parseLevels_rangeText : parseLevels (rangeText lv).toList = some lv := by
  obtain ⟨hpa, hpb⟩ := h.posInt
  have hnone : parseInt (rangeText lv).toList = none := by
    rw [toList_rangeText]
    exact parseInt_pair (numeral_posInt hpa) (numeral_posInt hpb)
  rw [parseLevels, hnone]
  exact parseRange_rangeText h

theorem split_rangeText : split '.' (rangeText lv).toList = [(rangeText lv).toList] := by
  obtain ⟨hpa, hpb⟩ := h.posInt
  rw [toList_rangeText]
  apply split_of_notMem
  · intro hmem
    rcases List.mem_append.mp hmem with hmem | hmem
    · exact (numeral_posInt hpa).notMem (by decide) hmem
    rcases List.mem_cons.mp hmem with hdash | hmem
    · exact absurd hdash (by decide)
    · exact (numeral_posInt hpb).notMem (by decide) hmem
  · exact List.append_ne_nil_of_right_ne_nil _ (List.cons_ne_nil _ _)

end

theorem split_toString {n : ℤ} (h : PosInt n) : split '.' (toString n).toList = [(toString n).toList] :=
  split_numeral (numeral_posInt h) (by decide)

/-- A reduction with a target, or `count` without one. -/
def ReductionValid (reduce : Reduce) (target : Target) : Prop :=
  (reduce = .count ∧ target = .none) ∨ (reduce ≠ .count ∧ reduce ≠ .none ∧ target ≠ .none)

/-- A meta field is a token, or one behind `levels.`. -/
def FieldValid (field : List Char) : Prop :=
  ∃ tok, tok ≠ [] ∧ '.' ∉ tok ∧ (field = tok ∨ field = "levels.".toList ++ tok)

/-- What the metric of an accepted key satisfies. -/
def Metric.Valid {D : Type} [Double D] : Metric D → Prop
  | .spread => True
  | .mid => True
  | .best _ attr => attr = .price ∨ attr = .size
  | .levelIdx _ n attr => PosInt n ∧ attr ≠ .none
  | .levelPx _ _ attr => attr ≠ .none
  | .rangeIdx _ lv reduce target => lv.Valid ∧ ReductionValid reduce target
  | .rangePx _ p1 p2 reduce target => Double.lt p2 p1 = false ∧ ReductionValid reduce target
  | .cum _ n target => PosInt n ∧ target ≠ .none
  | .vwapLevels _ lv => lv.Valid
  | .vwapPrice _ p1 p2 => Double.lt p2 p1 = false
  | .imbalanceLevels lv => lv.Valid
  | .imbalancePrice p1 p2 => Double.lt p2 p1 = false
  | .metaField field => FieldValid field

theorem parseInt_range {s : List Char} {n : ℤ} (h : parseInt s = some n) :
    -2 ^ 31 ≤ n ∧ n < 2 ^ 31 := by
  rw [parseInt] at h
  dsimp only at h
  split_ifs at h
  obtain rfl := Option.some.inj h
  rw [narrow, Int.bmod_def]
  split_ifs <;> omega

theorem valid_of_parseRange {s : List Char} {lv : Range} (h : parseRange s = some lv) :
    lv.Valid := by
  unfold parseRange at h
  split at h
  · obtain ⟨a, ha, h⟩ := Option.bind_eq_some_iff.mp h
    obtain ⟨b, hb, h⟩ := Option.bind_eq_some_iff.mp h
    split_ifs at h with hbad
    obtain rfl := Option.some.inj h
    have hrange := parseInt_range hb
    exact ⟨by dsimp only; omega, by dsimp only; omega, hrange.2⟩
  · cases h

theorem valid_of_parseLevels {s : List Char} {lv : Range} (h : parseLevels s = some lv) :
    lv.Valid := by
  unfold parseLevels at h
  split at h
  · rename_i n hn
    split_ifs at h with hpos
    · obtain rfl := Option.some.inj h
      exact ⟨le_rfl, hpos, (parseInt_range hn).2⟩
    · exact valid_of_parseRange h
  · exact valid_of_parseRange h

theorem parseTarget_ne_none {s : List Char} {t : Target} (h : parseTarget s = some t) :
    t ≠ .none := by
  unfold parseTarget at h
  dsimp only at h
  split_ifs at h
  all_goals
    obtain rfl := Option.some.inj h
    exact Target.noConfusion

theorem parseReduce_ne_none {s : List Char} {r : Reduce} (h : parseReduce s = some r) :
    r ≠ .none := by
  unfold parseReduce at h
  dsimp only at h
  split_ifs at h
  all_goals
    obtain rfl := Option.some.inj h
    exact Reduce.noConfusion

theorem valid_of_parseReduction {toks : List (List Char)} {r : Reduce} {t : Target}
    (h : parseReduction toks = some (r, t)) : ReductionValid r t := by
  unfold parseReduction at h
  split at h
  · obtain ⟨r', -, h⟩ := Option.bind_eq_some_iff.mp h
    split_ifs at h with hcount
    obtain ⟨rfl, rfl⟩ := Prod.mk.inj (Option.some.inj h)
    exact .inl ⟨hcount, rfl⟩
  · obtain ⟨r', hr, h⟩ := Option.bind_eq_some_iff.mp h
    split_ifs at h with hcount
    · obtain ⟨rfl, rfl⟩ := Prod.mk.inj (Option.some.inj h)
      exact .inl ⟨hcount, rfl⟩
    · obtain ⟨t', ht, h⟩ := Option.bind_eq_some_iff.mp h
      obtain ⟨rfl, rfl⟩ := Prod.mk.inj (Option.some.inj h)
      exact .inr ⟨hcount, parseReduce_ne_none hr, parseTarget_ne_none ht⟩
  · cases h

section
variable {D : Type} [Double D]

/-- The metric names decide the form of a key. -/
theorem parseMetric_cases {toks : List (List Char)} {metric : Metric D}
    (h : parseMetric toks = some metric) :
    (toks = ["spread".toList] ∧ metric = .spread) ∨ (toks = ["mid".toList] ∧ metric = .mid) ∨
    ∃ name args, toks = name :: args ∧
      ((name = "best".toList ∧ parseBest args = some metric) ∨
      (name = "level".toList ∧ parseLevel args = some metric) ∨
      (name = "at".toList ∧ parseAt args = some metric) ∨
      (name = "range".toList ∧ parseRangeKey args = some metric) ∨
      (name = "cum".toList ∧ parseCum args = some metric) ∨
      (name = "vwap".toList ∧ parseVwap args = some metric) ∨
      (name = "imbalance".toList ∧ parseImbalance args = some metric) ∨
      (name.take 4 = "meta".toList ∧ parseMeta args = some metric)) := by
  cases toks with
  | nil => cases h
  | cons name args =>
    rw [parseMetric] at h
    split_ifs at h with hn ha hn ha hn hn hn hn hn hn hn hn
    · exact .inl ⟨by rw [hn, ha], (Option.some.inj h).symm⟩
    · exact .inr (.inl ⟨by rw [hn, ha], (Option.some.inj h).symm⟩)
    all_goals refine .inr (.inr ⟨name, args, rfl, ?_⟩)
    · exact .inl ⟨hn, h⟩
    · exact .inr (.inl ⟨hn, h⟩)
    · exact .inr (.inr (.inl ⟨hn, h⟩))
    · exact .inr (.inr (.inr (.inl ⟨hn, h⟩)))
    · exact .inr (.inr (.inr (.inr (.inl ⟨hn, h⟩))))
    · exact .inr (.inr (.inr (.inr (.inr (.inl ⟨hn, h⟩)))))
    · exact .inr (.inr (.inr (.inr (.inr (.inr (.inl ⟨hn, h⟩))))))
    · exact .inr (.inr (.inr (.inr (.inr (.inr (.inr ⟨hn, h⟩))))))

theorem ordered_of_parseBand {s : List Char} {p1 p2 : D} (h : parseBand s = some (p1, p2)) :
    Double.lt p2 p1 = false := by
  unfold parseBand at h
  split at h
  · obtain ⟨q1, -, h⟩ := Option.bind_eq_some_iff.mp h
    obtain ⟨q2, -, h⟩ := Option.bind_eq_some_iff.mp h
    split_ifs at h with hlt
    obtain ⟨rfl, rfl⟩ := Prod.mk.inj (Option.some.inj h)
    simpa using hlt
  · cases h

section
variable {args : List (List Char)} {metric : Metric D}

omit [Double D] in
theorem parseBest_cases (h : parseBest args = some metric) :
    ∃ side target s t, args = [side, target] ∧ (t = .price ∨ t = .size) ∧ metric = .best s t := by
  unfold parseBest at h
  split at h
  · obtain ⟨s, -, h⟩ := Option.bind_eq_some_iff.mp h
    obtain ⟨t, -, h⟩ := Option.bind_eq_some_iff.mp h
    split_ifs at h with ht
    obtain rfl := Option.some.inj h
    exact ⟨_, _, s, t, rfl, ht, rfl⟩
  · cases h

theorem valid_of_parseBest (h : parseBest args = some metric) : metric.Valid := by
  obtain ⟨_, _, s, t, -, ht, rfl⟩ := parseBest_cases h
  exact ht

omit [Double D] in
theorem parseLevel_cases (h : parseLevel args = some metric) :
    ∃ side tok target s n t, args = [side, tok, target] ∧ parseInt tok = some n ∧ 1 ≤ n ∧
      parseTarget target = some t ∧ metric = .levelIdx s n t := by
  unfold parseLevel at h
  split at h
  · obtain ⟨s, -, h⟩ := Option.bind_eq_some_iff.mp h
    obtain ⟨n, hn, h⟩ := Option.bind_eq_some_iff.mp h
    split_ifs at h with hpos
    obtain ⟨t, ht, h⟩ := Option.bind_eq_some_iff.mp h
    obtain rfl := Option.some.inj h
    exact ⟨_, _, _, s, n, t, rfl, hn, by omega, ht, rfl⟩
  · cases h

theorem valid_of_parseLevel (h : parseLevel args = some metric) : metric.Valid := by
  obtain ⟨_, _, _, s, n, t, -, hn, hpos, ht, rfl⟩ := parseLevel_cases h
  exact ⟨⟨hpos, (parseInt_range hn).2⟩, parseTarget_ne_none ht⟩

theorem parseAt_cases (h : parseAt args = some metric) :
    ∃ side tok target s px t, args = [side, tok, target] ∧ parseDouble tok = some px ∧
      parseTarget target = some t ∧ metric = .levelPx s px t := by
  unfold parseAt at h
  split at h
  · obtain ⟨s, -, h⟩ := Option.bind_eq_some_iff.mp h
    obtain ⟨px, hpx, h⟩ := Option.bind_eq_some_iff.mp h
    obtain ⟨t, ht, h⟩ := Option.bind_eq_some_iff.mp h
    obtain rfl := Option.some.inj h
    exact ⟨_, _, _, s, px, t, rfl, hpx, ht, rfl⟩
  · cases h

theorem valid_of_parseAt (h : parseAt args = some metric) : metric.Valid := by
  obtain ⟨_, _, _, s, px, t, -, -, ht, rfl⟩ := parseAt_cases h
  exact parseTarget_ne_none ht

theorem parseRangeKey_cases (h : parseRangeKey args = some metric) :
    ∃ side tok reduction s r t, parseReduction reduction = some (r, t) ∧
      ((args = side :: "levels".toList :: tok :: reduction ∧
        ∃ lv, parseRange tok = some lv ∧ metric = .rangeIdx s lv r t) ∨
      (args = side :: "price".toList :: tok :: reduction ∧
        ∃ p1 p2, parseBand tok = some (p1, p2) ∧ metric = .rangePx s p1 p2 r t)) := by
  unfold parseRangeKey at h
  split at h
  · split_ifs at h with hl hp
    · obtain ⟨s, -, h⟩ := Option.bind_eq_some_iff.mp h
      obtain ⟨lv, hlv, h⟩ := Option.bind_eq_some_iff.mp h
      obtain ⟨⟨r, t⟩, hr, h⟩ := Option.bind_eq_some_iff.mp h
      obtain rfl := Option.some.inj h
      exact ⟨_, _, _, s, r, t, hr, .inl ⟨by rw [hl], lv, hlv, rfl⟩⟩
    · obtain ⟨s, -, h⟩ := Option.bind_eq_some_iff.mp h
      obtain ⟨⟨p1, p2⟩, hb, h⟩ := Option.bind_eq_some_iff.mp h
      obtain ⟨⟨r, t⟩, hr, h⟩ := Option.bind_eq_some_iff.mp h
      obtain rfl := Option.some.inj h
      exact ⟨_, _, _, s, r, t, hr, .inr ⟨by rw [hp], p1, p2, hb, rfl⟩⟩
  · cases h

theorem valid_of_parseRangeKey (h : parseRangeKey args = some metric) : metric.Valid := by
  obtain ⟨_, _, _, s, r, t, hr, ⟨-, lv, hlv, rfl⟩ | ⟨-, p1, p2, hb, rfl⟩⟩ := parseRangeKey_cases h
  · exact ⟨valid_of_parseRange hlv, valid_of_parseReduction hr⟩
  · exact ⟨ordered_of_parseBand hb, valid_of_parseReduction hr⟩

omit [Double D] in
theorem parseCum_cases (h : parseCum args = some metric) :
    ∃ side tok target s n t, args = [side, "levels".toList, tok, target] ∧ parseInt tok = some n ∧
      1 ≤ n ∧ parseTarget target = some t ∧ metric = .cum s n t := by
  unfold parseCum at h
  split at h
  · split_ifs at h with hl
    obtain ⟨s, -, h⟩ := Option.bind_eq_some_iff.mp h
    obtain ⟨n, hn, h⟩ := Option.bind_eq_some_iff.mp h
    split_ifs at h with hpos
    obtain ⟨t, ht, h⟩ := Option.bind_eq_some_iff.mp h
    obtain rfl := Option.some.inj h
    exact ⟨_, _, _, s, n, t, by rw [hl], hn, by omega, ht, rfl⟩
  · cases h

theorem valid_of_parseCum (h : parseCum args = some metric) : metric.Valid := by
  obtain ⟨_, _, _, s, n, t, -, hn, hpos, ht, rfl⟩ := parseCum_cases h
  exact ⟨⟨hpos, (parseInt_range hn).2⟩, parseTarget_ne_none ht⟩

theorem parseVwap_cases (h : parseVwap args = some metric) :
    ∃ side tok s, (args = [side, "levels".toList, tok] ∧
        ∃ lv, parseLevels tok = some lv ∧ metric = .vwapLevels s lv) ∨
      (args = [side, "price".toList, tok] ∧
        ∃ p1 p2, parseBand tok = some (p1, p2) ∧ metric = .vwapPrice s p1 p2) := by
  unfold parseVwap at h
  split at h
  · obtain ⟨s, -, h⟩ := Option.bind_eq_some_iff.mp h
    split_ifs at h with hl hp
    · obtain ⟨lv, hlv, h⟩ := Option.bind_eq_some_iff.mp h
      obtain rfl := Option.some.inj h
      exact ⟨_, _, s, .inl ⟨by rw [hl], lv, hlv, rfl⟩⟩
    · obtain ⟨⟨p1, p2⟩, hb, h⟩ := Option.bind_eq_some_iff.mp h
      obtain rfl := Option.some.inj h
      exact ⟨_, _, s, .inr ⟨by rw [hp], p1, p2, hb, rfl⟩⟩
  · cases h

theorem valid_of_parseVwap (h : parseVwap args = some metric) : metric.Valid := by
  obtain ⟨_, _, s, ⟨-, lv, hlv, rfl⟩ | ⟨-, p1, p2, hb, rfl⟩⟩ := parseVwap_cases h
  · exact valid_of_parseLevels hlv
  · exact ordered_of_parseBand hb

theorem parseImbalance_cases (h : parseImbalance args = some metric) :
    ∃ tok, (args = ["levels".toList, tok] ∧
        ∃ lv, parseLevels tok = some lv ∧ metric = .imbalanceLevels lv) ∨
      (args = ["price".toList, tok] ∧
        ∃ p1 p2, parseBand tok = some (p1, p2) ∧ metric = .imbalancePrice p1 p2) := by
  unfold parseImbalance at h
  split at h
  · split_ifs at h with hl hp
    · obtain ⟨lv, hlv, h⟩ := Option.bind_eq_some_iff.mp h
      obtain rfl := Option.some.inj h
      exact ⟨_, .inl ⟨by rw [hl], lv, hlv, rfl⟩⟩
    · obtain ⟨⟨p1, p2⟩, hb, h⟩ := Option.bind_eq_some_iff.mp h
      obtain rfl := Option.some.inj h
      exact ⟨_, .inr ⟨by rw [hp], p1, p2, hb, rfl⟩⟩
  · cases h

theorem valid_of_parseImbalance (h : parseImbalance args = some metric) : metric.Valid := by
  obtain ⟨_, ⟨-, lv, hlv, rfl⟩ | ⟨-, p1, p2, hb, rfl⟩⟩ := parseImbalance_cases h
  · exact valid_of_parseLevels hlv
  · exact ordered_of_parseBand hb

omit [Double D] in
theorem parseMeta_cases (h : parseMeta args = some metric) :
    ∃ field, (args = [field] ∧ metric = .metaField field) ∨
      (args = ["levels".toList, field] ∧ metric = .metaField ("levels.".toList ++ field)) := by
  unfold parseMeta at h
  split at h
  · exact ⟨_, .inl ⟨rfl, (Option.some.inj h).symm⟩⟩
  · split_ifs at h with hl
    exact ⟨_, .inr ⟨by rw [hl], (Option.some.inj h).symm⟩⟩
  · cases h

theorem valid_of_parseMeta (hargs : ∀ tok ∈ args, tok ≠ [] ∧ '.' ∉ tok)
    (h : parseMeta args = some metric) : metric.Valid := by
  obtain ⟨field, ⟨rfl, rfl⟩ | ⟨rfl, rfl⟩⟩ := parseMeta_cases h
  · obtain ⟨hne, hdot⟩ := hargs field List.mem_cons_self
    exact ⟨_, hne, hdot, .inl rfl⟩
  · obtain ⟨hne, hdot⟩ := hargs field (List.mem_cons_of_mem _ List.mem_cons_self)
    exact ⟨_, hne, hdot, .inr rfl⟩

theorem valid_of_parseMetric {toks : List (List Char)} (htoks : ∀ tok ∈ toks, tok ≠ [] ∧ '.' ∉ tok)
    (h : parseMetric toks = some metric) : metric.Valid := by
  rcases parseMetric_cases h with ⟨-, rfl⟩ | ⟨-, rfl⟩ | ⟨name, args, rfl, hform⟩
  · trivial
  · trivial
  obtain ⟨-, h⟩ | ⟨-, h⟩ | ⟨-, h⟩ | ⟨-, h⟩ | ⟨-, h⟩ | ⟨-, h⟩ | ⟨-, h⟩ | ⟨-, h⟩ := hform
  · exact valid_of_parseBest h
  · exact valid_of_parseLevel h
  · exact valid_of_parseAt h
  · exact valid_of_parseRangeKey h
  · exact valid_of_parseCum h
  · exact valid_of_parseVwap h
  · exact valid_of_parseImbalance h
  · exact valid_of_parseMeta (fun tok htok => htoks tok (List.mem_cons_of_mem _ htok)) h

end

/-- The tokens of an accepted key behind `ob`, and the mode at their end. -/
theorem parseObKey_eq_some {s : String} {k : ObKey D} (h : parseObKey s = some k) :
    ∃ toks, split '.' s.toList = "ob".toList :: toks ∧ k.mode = (takeMode toks).1 ∧
      parseMetric (takeMode toks).2 = some k.metric := by
  unfold parseObKey at h
  split at h
  · cases h
  · rename_i ob toks hsplit
    split_ifs at h with hob
    obtain ⟨metric, hm, h⟩ := Option.bind_eq_some_iff.mp h
    obtain rfl := Option.some.inj h
    exact ⟨toks, by rw [hsplit, not_not.mp hob], rfl, hm⟩

theorem takeMode_subset (toks : List (List Char)) : (takeMode toks).2 ⊆ toks := by
  unfold takeMode
  split_ifs
  · exact List.dropLast_subset _
  · exact List.dropLast_subset _
  · exact List.Subset.refl _

/-- The tokens of the metric are pieces of the text. -/
theorem parseObKey_toks {s : String} {k : ObKey D} (h : parseObKey s = some k) :
    ∃ toks, (∀ tok ∈ toks, tok ≠ [] ∧ '.' ∉ tok) ∧ parseMetric toks = some k.metric := by
  obtain ⟨toks, hsplit, -, hm⟩ := parseObKey_eq_some h
  refine ⟨_, fun tok htok => split_spec (s := s.toList) ?_, hm⟩
  rw [hsplit]
  exact List.mem_cons_of_mem _ (takeMode_subset toks htok)

theorem valid_of_parseObKey {s : String} {k : ObKey D} (h : parseObKey s = some k) :
    k.metric.Valid := by
  obtain ⟨toks, htoks, hm⟩ := parseObKey_toks h
  exact valid_of_parseMetric htoks hm

/-- A token that ends a key without being taken for its mode. -/
def NoMode (tok : List Char) : Prop := tok ≠ "per".toList ∧ tok ≠ "agg".toList

theorem takeMode_modeTexts {toks : List (List Char)} {last : List Char} {mode : Mode}
    (h : mode = .agg ∨ NoMode last) :
    takeMode (toks ++ [last] ++ (modeTexts mode).flatMap (fun t => split '.' t.toList)) =
      (mode, toks ++ [last]) := by
  cases mode with
  | per =>
    obtain ⟨hper, hagg⟩ := h.resolve_left Mode.noConfusion
    have hmode : (modeTexts .per).flatMap (fun t => split '.' t.toList) = [] := rfl
    rw [hmode, List.append_nil, takeMode, List.getLast?_concat, if_neg (by simpa using hagg),
      if_neg (by simpa using hper)]
  | agg =>
    have hmode : (modeTexts .agg).flatMap (fun t => split '.' t.toList) = ["agg".toList] := by decide
    rw [hmode, takeMode, List.getLast?_concat, if_pos rfl, List.dropLast_concat]

/-- A formatted key is parsed through the tokens of its metric. -/
theorem parseObKey_formatObKey (put : D → String) (k : ObKey D) {toks : List (List Char)}
    {last : List Char}
    (hsplit : (metricTexts put k.metric).flatMap (fun t => split '.' t.toList) = toks ++ [last])
    (hlast : k.mode = .agg ∨ NoMode last) :
    parseObKey (formatObKey put k) =
      (parseMetric (toks ++ [last])).map (fun metric : Metric D => ⟨metric, k.mode⟩) := by
  unfold parseObKey
  rw [split_formatObKey, hsplit, List.cons_append]
  dsimp only
  rw [if_neg (by simp), takeMode_modeTexts hlast]
  cases parseMetric (D := D) (toks ++ [last]) <;> rfl

end

/-- The metrics whose keys hold no price and no field name. -/
def Metric.byLevels {D : Type} : Metric D → Bool
  | .levelPx .. | .rangePx .. | .vwapPrice .. | .imbalancePrice .. | .metaField .. => false
  | _ => true

/-- The words that a formatted key may hold. -/
def keyWords : List String :=
  ["spread", "mid", "best", "level", "at", "range", "levels", "price", "cum", "vwap", "imbalance",
    "meta", "size", "orders", "notional", "sum", "avg", "min", "max", "count", "bid", "ask"]

theorem split_word {w : String} (h : w ∈ keyWords) :
    split '.' w.toList = [w.toList] ∧ NoMode w.toList := by
  have hall : ∀ w ∈ keyWords, '.' ∉ w.toList ∧ w.toList ≠ [] ∧ w.toList ≠ "per".toList ∧
      w.toList ≠ "agg".toList := by
    decide
  obtain ⟨hdot, hne, hmode⟩ := hall w h
  exact ⟨split_of_notMem hdot hne, hmode⟩

theorem sideText_mem (s : Side) : sideText s ∈ keyWords := by
  cases s <;> decide

theorem targetText_mem (t : Target) : targetText t ∈ keyWords := by
  cases t <;> decide

theorem cumTargetText_mem (t : Target) : cumTargetText t ∈ keyWords := by
  cases t <;> decide

theorem split_sideText (s : Side) : split '.' (sideText s).toList = [(sideText s).toList] :=
  (split_word (sideText_mem s)).1

/-- Texts of one piece each are the tokens themselves. -/
theorem tokens_of_words {texts : List String}
    (h : ∀ t ∈ texts, split '.' t.toList = [t.toList]) :
    texts.flatMap (fun t => split '.' t.toList) = texts.map String.toList := by
  have hpieces : texts.flatMap (fun t => split '.' t.toList) = texts.flatMap (fun t => [t.toList]) :=
    List.flatMap_congr h
  rw [hpieces, List.map_eq_flatMap]

theorem noMode_rangeText {lv : Range} : NoMode (rangeText lv).toList := by
  have hmem : '-' ∈ (rangeText lv).toList := by
    rw [toList_rangeText]
    exact List.mem_append_right _ List.mem_cons_self
  constructor
  · intro h
    rw [h] at hmem
    exact absurd hmem (by decide)
  · intro h
    rw [h] at hmem
    exact absurd hmem (by decide)

/-- The tokens of a reduction are read back. -/
theorem reductionTexts_read {r : Reduce} {t : Target} (h : ReductionValid r t) :
    ∃ toks last, (reductionTexts r t).flatMap (fun t => split '.' t.toList) = toks ++ [last] ∧
      NoMode last ∧ parseReduction (toks ++ [last]) = some (r, t) := by
  rcases h with ⟨rfl, rfl⟩ | ⟨hcount, hnone, ht⟩
  · exact ⟨[], "count".toList, by decide, (split_word (by decide)).2, by decide⟩
  have hread : ∀ w : String, w ∈ keyWords → parseReduce w.toList = some r →
      ∃ toks last, [w, targetText t].flatMap (fun t => split '.' t.toList) = toks ++ [last] ∧
        NoMode last ∧ parseReduction (toks ++ [last]) = some (r, t) := by
    intro w hw hr
    refine ⟨[w.toList], (targetText t).toList, ?_, (split_word (targetText_mem t)).2, ?_⟩
    · rw [List.flatMap_cons, List.flatMap_singleton, (split_word hw).1,
        (split_word (targetText_mem t)).1]
    · have hred : parseReduction ([w.toList] ++ [(targetText t).toList]) =
          (parseReduce w.toList).bind (fun r => if r = .count then some (r, .none)
            else (parseTarget (targetText t).toList).bind (fun t => some (r, t))) := rfl
      rw [hred, hr, Option.bind_some, if_neg hcount, parseTarget_targetText ht, Option.bind_some]
  cases r with
  | sum => exact hread "sum" (by decide) (by decide)
  | avg => exact hread "avg" (by decide) (by decide)
  | min => exact hread "min" (by decide) (by decide)
  | max => exact hread "max" (by decide) (by decide)
  | count => exact absurd rfl hcount
  | none => exact absurd rfl hnone

section
variable {D : Type} [Double D]

/-- The texts of the metric end with a token that is no mode, and their tokens are read back. -/
def ReadsBack (put : D → String) (metric : Metric D) : Prop :=
  ∃ toks last, (metricTexts put metric).flatMap (fun t => split '.' t.toList) = toks ++ [last] ∧
    NoMode last ∧ parseMetric (toks ++ [last]) = some metric

theorem readsBack_of_words {put : D → String} {metric : Metric D} {texts : List String}
    {last : String} (htexts : metricTexts put metric = texts ++ [last])
    (hwords : ∀ t ∈ texts, split '.' t.toList = [t.toList])
    (hlast : split '.' last.toList = [last.toList]) (hmode : NoMode last.toList)
    (hparse : parseMetric (texts.map String.toList ++ [last.toList]) = some metric) :
    ReadsBack put metric := by
  refine ⟨texts.map String.toList, last.toList, ?_, hmode, hparse⟩
  rw [htexts, List.flatMap_append, List.flatMap_singleton, hlast, tokens_of_words hwords]

section
variable {put : D → String} {s : Side} {lv : Range} {n : ℤ}

theorem readsBack_best {attr : Target} (hvalid : (.best s attr : Metric D).Valid) :
    ReadsBack put (.best s attr) := by
  have hattr : (if attr = .price then "price" else "size") = targetText attr := by
    rcases hvalid with rfl | rfl <;> rfl
  have hknown : attr ≠ .none := by
    rintro rfl
    exact hvalid.elim Target.noConfusion Target.noConfusion
  have htexts : metricTexts put (.best s attr) = ["best", sideText s] ++ [targetText attr] := by
    rw [metricTexts, hattr]
    rfl
  obtain ⟨hlast, hmode⟩ := split_word (targetText_mem attr)
  have hparse : parseMetric (D := D) (["best", sideText s].map String.toList ++
      [(targetText attr).toList]) = (parseSide (sideText s).toList).bind (fun s =>
        (parseTarget (targetText attr).toList).bind (fun t =>
          if t = .price ∨ t = .size then some (.best s t) else none)) := rfl
  refine readsBack_of_words htexts ?_ hlast hmode ?_
  · rw [List.forall_mem_cons, List.forall_mem_singleton]
    exact ⟨(split_word (by decide)).1, split_sideText s⟩
  · rw [hparse, parseSide_sideText, parseTarget_targetText hknown, Option.bind_some,
      Option.bind_some]
    exact if_pos hvalid

theorem readsBack_levelIdx {attr : Target} (hvalid : (.levelIdx s n attr : Metric D).Valid) :
    ReadsBack put (.levelIdx s n attr) := by
  obtain ⟨hn, hattr⟩ := hvalid
  obtain ⟨hlast, hmode⟩ := split_word (targetText_mem attr)
  have htexts : metricTexts put (.levelIdx s n attr) =
      ["level", sideText s, toString n] ++ [targetText attr] := rfl
  have hparse : parseMetric (D := D) (["level", sideText s, toString n].map String.toList ++
      [(targetText attr).toList]) = (parseSide (sideText s).toList).bind (fun s =>
        (parseInt (toString n).toList).bind (fun n => if n < 1 then none
          else (parseTarget (targetText attr).toList).bind (fun t =>
            some (.levelIdx s n t)))) := rfl
  refine readsBack_of_words htexts ?_ hlast hmode ?_
  · rw [List.forall_mem_cons, List.forall_mem_cons, List.forall_mem_singleton]
    exact ⟨(split_word (by decide)).1, split_sideText s, split_toString hn⟩
  · rw [hparse, parseSide_sideText, parseInt_toString hn, parseTarget_targetText hattr,
      Option.bind_some, Option.bind_some, if_neg (not_lt.mpr hn.1), Option.bind_some]

theorem readsBack_rangeIdx {r : Reduce} {t : Target}
    (hvalid : (.rangeIdx s lv r t : Metric D).Valid) : ReadsBack put (.rangeIdx s lv r t) := by
  obtain ⟨hlv, hred⟩ := hvalid
  obtain ⟨toks, last, hsplit, hlast, hread⟩ := reductionTexts_read hred
  refine ⟨["range".toList, (sideText s).toList, "levels".toList, (rangeText lv).toList] ++ toks,
    last, ?_, hlast, ?_⟩
  · rw [metricTexts, List.flatMap_append, hsplit, List.append_assoc, List.flatMap_cons,
      List.flatMap_cons, List.flatMap_cons, List.flatMap_singleton, split_sideText,
      split_rangeText hlv, (split_word (w := "range") (by decide)).1,
      (split_word (w := "levels") (by decide)).1]
    rfl
  · have hparse : parseMetric (D := D) ((["range".toList, (sideText s).toList, "levels".toList,
        (rangeText lv).toList] ++ toks) ++ [last]) =
        (parseSide (sideText s).toList).bind (fun s =>
          (parseRange (rangeText lv).toList).bind (fun lv =>
            (parseReduction (toks ++ [last])).bind (fun rt =>
              some (.rangeIdx s lv rt.1 rt.2)))) := by
      rw [List.append_assoc]
      rfl
    rw [hparse, parseSide_sideText, parseRange_rangeText hlv, hread]
    rfl

theorem readsBack_cum {t : Target} (hvalid : (.cum s n t : Metric D).Valid) :
    ReadsBack put (.cum s n t) := by
  obtain ⟨hn, ht⟩ := hvalid
  obtain ⟨hlast, hmode⟩ := split_word (cumTargetText_mem t)
  have htexts : metricTexts put (.cum s n t) =
      ["cum", sideText s, "levels", toString n] ++ [cumTargetText t] := rfl
  have hparse : parseMetric (D := D) (["cum", sideText s, "levels", toString n].map
      String.toList ++ [(cumTargetText t).toList]) =
      (parseSide (sideText s).toList).bind (fun s =>
        (parseInt (toString n).toList).bind (fun n => if n < 1 then none
          else (parseTarget (cumTargetText t).toList).bind (fun t => some (.cum s n t)))) := rfl
  refine readsBack_of_words htexts ?_ hlast hmode ?_
  · rw [List.forall_mem_cons, List.forall_mem_cons, List.forall_mem_cons,
      List.forall_mem_singleton]
    exact ⟨(split_word (by decide)).1, split_sideText s, (split_word (by decide)).1,
      split_toString hn⟩
  · rw [hparse, parseSide_sideText, parseInt_toString hn, parseTarget_cumTargetText ht,
      Option.bind_some, Option.bind_some, if_neg (not_lt.mpr hn.1), Option.bind_some]

theorem readsBack_vwapLevels (hvalid : (.vwapLevels s lv : Metric D).Valid) :
    ReadsBack put (.vwapLevels s lv) := by
  have htexts : metricTexts put (.vwapLevels s lv) =
      ["vwap", sideText s, "levels"] ++ [rangeText lv] := rfl
  have hparse : parseMetric (D := D) (["vwap", sideText s, "levels"].map String.toList ++
      [(rangeText lv).toList]) = (parseSide (sideText s).toList).bind (fun s =>
        (parseLevels (rangeText lv).toList).bind (fun lv => some (.vwapLevels s lv))) := rfl
  refine readsBack_of_words htexts ?_ (split_rangeText hvalid) noMode_rangeText ?_
  · rw [List.forall_mem_cons, List.forall_mem_cons, List.forall_mem_singleton]
    exact ⟨(split_word (by decide)).1, split_sideText s, (split_word (by decide)).1⟩
  · rw [hparse, parseSide_sideText, parseLevels_rangeText hvalid]
    rfl

theorem readsBack_imbalanceLevels (hvalid : (.imbalanceLevels lv : Metric D).Valid) :
    ReadsBack put (.imbalanceLevels lv) := by
  have htexts : metricTexts put (.imbalanceLevels lv) =
      ["imbalance", "levels"] ++ [rangeText lv] := rfl
  have hparse : parseMetric (D := D) (["imbalance", "levels"].map String.toList ++
      [(rangeText lv).toList]) =
      (parseLevels (rangeText lv).toList).bind (fun lv => some (.imbalanceLevels lv)) := rfl
  refine readsBack_of_words htexts ?_ (split_rangeText hvalid) noMode_rangeText ?_
  · rw [List.forall_mem_cons, List.forall_mem_singleton]
    exact ⟨(split_word (by decide)).1, (split_word (by decide)).1⟩
  · rw [hparse, parseLevels_rangeText hvalid]
    rfl

end

/-- A metric with integers only is read back. -/
theorem readsBack_of_byLevels (put : D → String) {metric : Metric D} (hvalid : metric.Valid)
    (hlevels : metric.byLevels = true) : ReadsBack put metric := by
  cases metric with
  | spread =>
    obtain ⟨hsplit, hmode⟩ := split_word (w := "spread") (by decide)
    exact ⟨[], "spread".toList, hsplit, hmode, rfl⟩
  | mid =>
    obtain ⟨hsplit, hmode⟩ := split_word (w := "mid") (by decide)
    exact ⟨[], "mid".toList, hsplit, hmode, rfl⟩
  | best s attr => exact readsBack_best hvalid
  | levelIdx s n attr => exact readsBack_levelIdx hvalid
  | rangeIdx s lv r t => exact readsBack_rangeIdx hvalid
  | cum s n t => exact readsBack_cum hvalid
  | vwapLevels s lv => exact readsBack_vwapLevels hvalid
  | imbalanceLevels lv => exact readsBack_imbalanceLevels hvalid
  | _ => cases hlevels

/-- A key that is accepted and holds integers only is parsed back from its text, and formatting
the parsed key gives the same text again; what is written for prices plays no part. -/
theorem formatObKey_levels (put : D → String) (s : String) (k : ObKey D)
    (hk : parseObKey s = some k) (hlevels : k.metric.byLevels = true) :
    parseObKey (formatObKey put k) = some k ∧
      (parseObKey (formatObKey put k)).map (formatObKey put) = some (formatObKey put k) := by
  obtain ⟨toks, last, hsplit, hlast, hread⟩ :=
    readsBack_of_byLevels put (valid_of_parseObKey hk) hlevels
  have hback : parseObKey (formatObKey put k) = some k := by
    rw [parseObKey_formatObKey put k hsplit (.inr hlast), hread]
    rfl
  exact ⟨hback, by rw [hback]; rfl⟩

theorem formatObKey_count_agg :
    let k : ObKey ExactDouble := ⟨.rangeIdx .ask ⟨3, 5⟩ .count .none, .agg⟩
    parseObKey (formatObKey (fun _ => "") k) = some k ∧
      (parseObKey (D := ExactDouble) (formatObKey (fun _ => "") k)).map (formatObKey (fun _ => "")) =
        some (formatObKey (fun _ => "") k) :=
  formatObKey_levels _ "ob.range.ASK.levels.03-5.count.size.agg" _ (by decide +kernel) rfl

end
end GmaEngine.Ob
