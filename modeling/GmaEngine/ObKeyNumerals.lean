import GmaEngine.ObKeyFormat

/-!
# The level numbers of a key

The parser cuts a level token at its dashes, hands the pieces to the C library and narrows the
results. The numbers it stores are those written in the token exactly when the token holds digits
and at most one dash between them, and no numeral that an `int` cannot hold.
-/

namespace GmaEngine.Ob
open CNumerals

/-- The metrics with level numbers. -/
def Metric.hasLevels {D : Type} : Metric D → Bool
  | .levelIdx .. | .rangeIdx .. | .cum .. | .vwapLevels .. | .imbalanceLevels .. => true
  | _ => false

/-- The token that the parser reads the level numbers of a key from. -/
def levelToken (keyStr : String) : Option (List Char) :=
  match (takeMode ((split '.' keyStr.toList).drop 1)).2 with
  | [] => none
  | name :: args =>
    if name = "level".toList ∨ name = "imbalance".toList then args[1]? else args[2]?

/-- A decimal numeral and its value. -/
def ReadsNumeral (tok : List Char) (n : ℤ) : Prop := ∃ N, Numeral tok N ∧ n = N

/-- Two decimal numerals around a dash and their values. -/
def ReadsPair (tok : List Char) (lv : Range) : Prop :=
  ∃ x y A B, tok = x ++ '-' :: y ∧ Numeral x A ∧ Numeral y B ∧ lv = ⟨A, B⟩

/-- The level numbers of a metric are those that its token holds. -/
def ReadExactly {D : Type} (tok : List Char) : Metric D → Prop
  | .levelIdx _ n _ => ReadsNumeral tok n
  | .cum _ n _ => ReadsNumeral tok n
  | .rangeIdx _ lv _ _ => ReadsPair tok lv
  | .vwapLevels _ lv => (∃ n, ReadsNumeral tok n ∧ lv = ⟨1, n⟩) ∨ ReadsPair tok lv
  | .imbalanceLevels lv => (∃ n, ReadsNumeral tok n ∧ lv = ⟨1, n⟩) ∨ ReadsPair tok lv
  | _ => True

/-- Digits with at most one dash, which stands between digits, and numerals that fit an `int`. -/
structure PlainNumerals (tok : List Char) : Prop where
  chars : ∀ c ∈ tok, c.isDigit = true ∨ c = '-'
  dash : tok.count '-' ≤ 1
  head : tok.head? ≠ some '-'
  last : tok.getLast? ≠ some '-'
  small : ∀ part ∈ split '-' tok, ofDigits 10 part < 2 ^ 31

section
variable {tok x y : List Char} {A B N : ℕ}

theorem plainNumerals_numeral (h : Numeral tok N) (hN : N < 2 ^ 31) : PlainNumerals tok := by
  have hdash : '-' ∉ tok := h.notMem (by decide)
  constructor
  · exact fun c hc => .inl (h.digits c hc)
  · rw [List.count_eq_zero.mpr hdash]
    exact Nat.zero_le 1
  · exact fun hhead => hdash (List.mem_of_mem_head? hhead)
  · exact fun hlast => hdash (List.mem_of_getLast? hlast)
  · intro part hpart
    rw [split_numeral h (by decide), List.mem_singleton] at hpart
    rwa [hpart, h.value]

theorem plainNumerals_pair (hx : Numeral x A) (hy : Numeral y B) (hA : A < 2 ^ 31)
    (hB : B < 2 ^ 31) : PlainNumerals (x ++ '-' :: y) := by
  have hdx : '-' ∉ x := hx.notMem (by decide)
  have hdy : '-' ∉ y := hy.notMem (by decide)
  constructor
  · intro c hc
    rcases List.mem_append.mp hc with hc | hc
    · exact .inl (hx.digits c hc)
    rcases List.mem_cons.mp hc with hc | hc
    · exact .inr hc
    · exact .inl (hy.digits c hc)
  · rw [List.count_append, List.count_cons_self, List.count_eq_zero.mpr hdx,
      List.count_eq_zero.mpr hdy]
  · rw [List.head?_append_of_ne_nil _ hx.ne_nil]
    exact fun hhead => hdx (List.mem_of_mem_head? hhead)
  · rw [List.getLast?_append_of_ne_nil _ (List.cons_ne_nil _ _),
      List.getLast?_cons_of_ne_nil hy.ne_nil]
    exact fun hlast => hdy (List.mem_of_getLast? hlast)
  · intro part hpart
    rw [split_append_cons, split_numeral hx (by decide), split_numeral hy (by decide)] at hpart
    rcases List.mem_cons.mp hpart with rfl | hpart
    · rwa [hx.value]
    · rwa [List.mem_singleton.mp hpart, hy.value]

/-- A plain token is a numeral, or two of them around a dash. -/
theorem PlainNumerals.cases (h : PlainNumerals tok) (hne : tok ≠ []) :
    (∃ N, Numeral tok N ∧ N < 2 ^ 31) ∨
    ∃ x y A B, tok = x ++ '-' :: y ∧ Numeral x A ∧ Numeral y B ∧ A < 2 ^ 31 ∧ B < 2 ^ 31 := by
  have hdigits : ∀ part, part ⊆ tok → '-' ∉ part → ∀ c ∈ part, c.isDigit = true := by
    intro part hsub hdash c hc
    refine (h.chars c (hsub hc)).resolve_right ?_
    rintro rfl
    exact hdash hc
  by_cases hdash : '-' ∈ tok
  · right
    obtain ⟨x, y, rfl⟩ := List.append_of_mem hdash
    have hcount := h.dash
    rw [List.count_append, List.count_cons_self] at hcount
    have hdx : '-' ∉ x := List.count_eq_zero.mp (by omega)
    have hdy : '-' ∉ y := List.count_eq_zero.mp (by omega)
    have hxne : x ≠ [] := by
      rintro rfl
      exact h.head rfl
    have hyne : y ≠ [] := by
      rintro rfl
      exact h.last List.getLast?_concat
    have hx : Numeral x (ofDigits 10 x) :=
      ⟨hxne, hdigits x (List.subset_append_left _ _) hdx, rfl⟩
    have hy : Numeral y (ofDigits 10 y) := by
      refine ⟨hyne, hdigits y ?_ hdy, rfl⟩
      exact fun c hc => List.mem_append_right _ (List.mem_cons_of_mem _ hc)
    have hsplit : split '-' (x ++ '-' :: y) = [x, y] := by
      rw [split_append_cons, split_numeral hx (by decide), split_numeral hy (by decide)]
      rfl
    refine ⟨x, y, _, _, rfl, hx, hy, h.small x ?_, h.small y ?_⟩
    · rw [hsplit]
      exact List.mem_cons_self
    · rw [hsplit]
      exact List.mem_cons_of_mem _ List.mem_cons_self
  · left
    have hnum : Numeral tok (ofDigits 10 tok) := ⟨hne, hdigits tok (List.Subset.refl _) hdash, rfl⟩
    refine ⟨_, hnum, h.small tok ?_⟩
    rw [split_numeral hnum (by decide)]
    exact List.mem_cons_self

variable (hne : tok ≠ [])
include hne

theorem readsNumeral_iff {n : ℤ} (hread : parseInt tok = some n) :
    ReadsNumeral tok n ↔ PlainNumerals tok := by
  constructor
  · rintro ⟨N, hN, rfl⟩
    have hlt := (parseInt_range hread).2
    exact plainNumerals_numeral hN (by omega)
  · intro h
    obtain ⟨N, hN, hlt⟩ | ⟨x, y, A, B, rfl, hx, hy, -, -⟩ := h.cases hne
    · rw [parseInt_numeral hN hlt] at hread
      exact ⟨N, hN, (Option.some.inj hread).symm⟩
    · rw [parseInt_pair hx hy] at hread
      cases hread

omit hne in
theorem plainNumerals_of_readsPair {lv : Range} (hlv : lv.Valid) (h : ReadsPair tok lv) :
    PlainNumerals tok := by
  obtain ⟨x, y, A, B, rfl, hx, hy, rfl⟩ := h
  obtain ⟨-, hab, hb⟩ := hlv
  dsimp only at hab hb
  exact plainNumerals_pair hx hy (by omega) (by omega)

theorem readsPair_iff {lv : Range} (hread : parseRange tok = some lv) :
    ReadsPair tok lv ↔ PlainNumerals tok := by
  refine ⟨plainNumerals_of_readsPair (valid_of_parseRange hread), ?_⟩
  intro h
  obtain ⟨N, hN, -⟩ | ⟨x, y, A, B, rfl, hx, hy, hA, hB⟩ := h.cases hne
  · rw [parseRange_numeral hN] at hread
    cases hread
  · rw [parseRange_pair hx hA hy hB] at hread
    split_ifs at hread
    exact ⟨x, y, A, B, rfl, hx, hy, (Option.some.inj hread).symm⟩

/-- A token that may be a single number or a range. -/
theorem readsLevels_iff {lv : Range} (hread : parseLevels tok = some lv) :
    ((∃ n, ReadsNumeral tok n ∧ lv = ⟨1, n⟩) ∨ ReadsPair tok lv) ↔ PlainNumerals tok := by
  have hvalid := valid_of_parseLevels hread
  constructor
  · rintro (⟨n, ⟨N, hN, rfl⟩, rfl⟩ | hpair)
    · have hlt := hvalid.2.2
      dsimp only at hlt
      exact plainNumerals_numeral hN (by omega)
    · exact plainNumerals_of_readsPair hvalid hpair
  · intro h
    obtain ⟨N, hN, hlt⟩ | ⟨x, y, A, B, rfl, hx, hy, hA, hB⟩ := h.cases hne
    · rw [parseLevels, parseInt_numeral hN hlt, parseRange_numeral hN] at hread
      dsimp only at hread
      split_ifs at hread
      exact .inl ⟨N, ⟨N, hN, rfl⟩, (Option.some.inj hread).symm⟩
    · rw [parseLevels, parseInt_pair hx hy] at hread
      exact .inr ((readsPair_iff hne hread).mpr h)

end

theorem levelToken_eq {s : String} {toks args : List (List Char)} {name : List Char}
    (hsplit : split '.' s.toList = "ob".toList :: toks) (htoks : (takeMode toks).2 = name :: args) :
    levelToken s =
      if name = "level".toList ∨ name = "imbalance".toList then args[1]? else args[2]? := by
  rw [levelToken, hsplit, List.drop_one, List.tail_cons, htoks]

/-- An accepted key with level numbers has a level token, and its numbers are those written there
exactly when the token is plain. -/
theorem levelNumbers_exact_iff {D : Type} [Double D] (s : String) (k : ObKey D)
    (hk : parseObKey s = some k) (hlevels : k.metric.hasLevels = true) :
    ∃ tok, levelToken s = some tok ∧ (ReadExactly tok k.metric ↔ PlainNumerals tok) := by
  obtain ⟨toks, hsplit, -, hm⟩ := parseObKey_eq_some hk
  have hne : ∀ tok ∈ (takeMode toks).2, tok ≠ [] := by
    intro tok htok
    have hpiece : tok ∈ split '.' s.toList := by
      rw [hsplit]
      exact List.mem_cons_of_mem _ (takeMode_subset toks htok)
    exact (split_spec hpiece).1
  rcases parseMetric_cases hm with ⟨-, hmetric⟩ | ⟨-, hmetric⟩ | ⟨name, args, htoks, hform⟩
  · rw [hmetric] at hlevels
    cases hlevels
  · rw [hmetric] at hlevels
    cases hlevels
  rw [levelToken_eq hsplit htoks]
  rw [htoks] at hne
  obtain ⟨-, h⟩ | ⟨rfl, h⟩ | ⟨-, h⟩ | ⟨rfl, h⟩ | ⟨rfl, h⟩ | ⟨rfl, h⟩ | ⟨rfl, h⟩ | ⟨-, h⟩ := hform
  · obtain ⟨_, _, _, _, -, -, hmetric⟩ := parseBest_cases h
    rw [hmetric] at hlevels
    cases hlevels
  · obtain ⟨side, tok, target, s, n, t, rfl, hn, -, -, hmetric⟩ := parseLevel_cases h
    rw [hmetric]
    exact ⟨tok, by rw [if_pos (.inl rfl)]; rfl, readsNumeral_iff (hne tok (by simp)) hn⟩
  · obtain ⟨_, _, _, _, _, _, -, -, -, hmetric⟩ := parseAt_cases h
    rw [hmetric] at hlevels
    cases hlevels
  · obtain ⟨side, tok, reduction, s, r, t, -, ⟨rfl, lv, hlv, hmetric⟩ | ⟨-, _, _, -, hmetric⟩⟩ :=
      parseRangeKey_cases h
    · rw [hmetric]
      exact ⟨tok, by rw [if_neg (by decide)]; rfl, readsPair_iff (hne tok (by simp)) hlv⟩
    · rw [hmetric] at hlevels
      cases hlevels
  · obtain ⟨side, tok, target, s, n, t, rfl, hn, -, -, hmetric⟩ := parseCum_cases h
    rw [hmetric]
    exact ⟨tok, by rw [if_neg (by decide)]; rfl, readsNumeral_iff (hne tok (by simp)) hn⟩
  · obtain ⟨side, tok, s, ⟨rfl, lv, hlv, hmetric⟩ | ⟨-, _, _, -, hmetric⟩⟩ := parseVwap_cases h
    · rw [hmetric]
      exact ⟨tok, by rw [if_neg (by decide)]; rfl, readsLevels_iff (hne tok (by simp)) hlv⟩
    · rw [hmetric] at hlevels
      cases hlevels
  · obtain ⟨tok, ⟨rfl, lv, hlv, hmetric⟩ | ⟨-, _, _, -, hmetric⟩⟩ := parseImbalance_cases h
    · rw [hmetric]
      exact ⟨tok, by rw [if_pos (.inr rfl)]; rfl, readsLevels_iff (hne tok (by simp)) hlv⟩
    · rw [hmetric] at hlevels
      cases hlevels
  · obtain ⟨_, ⟨-, hmetric⟩ | ⟨-, hmetric⟩⟩ := parseMeta_cases h
    · rw [hmetric] at hlevels
      cases hlevels
    · rw [hmetric] at hlevels
      cases hlevels

theorem levelNumbers_exact_range :
    ∃ tok, levelToken "ob.range.ask.levels.007-12.avg.size" = some tok ∧
      (ReadExactly (D := ExactDouble) tok (.rangeIdx .ask ⟨7, 12⟩ .avg .size) ↔
        PlainNumerals tok) :=
  levelNumbers_exact_iff "ob.range.ask.levels.007-12.avg.size"
    ⟨.rangeIdx .ask ⟨7, 12⟩ .avg .size, .per⟩ (by decide +kernel) rfl

/-- 2^32 + 1 becomes 1, and the second dash of `1--5` is dropped. -/
theorem levelNumbers_wrap :
    (∃ k : ObKey ExactDouble, parseObKey "ob.level.bid.4294967297.price" = some k ∧
      k.metric = .levelIdx .bid 1 .price ∧
      levelToken "ob.level.bid.4294967297.price" = some "4294967297".toList ∧
      ¬ ReadExactly "4294967297".toList k.metric) ∧
    ∃ k : ObKey ExactDouble, parseObKey "ob.vwap.ask.levels.1--5" = some k ∧
      k.metric = .vwapLevels .ask ⟨1, 5⟩ ∧
      levelToken "ob.vwap.ask.levels.1--5" = some "1--5".toList ∧
      ¬ ReadExactly "1--5".toList k.metric := by
  have hwrap : ¬ ReadExactly "4294967297".toList (.levelIdx .bid 1 .price : Metric ExactDouble) := by
    rintro ⟨N, hN, hone⟩
    have hvalue : ofDigits 10 "4294967297".toList = 4294967297 := by decide +kernel
    have hN' := hN.value.symm.trans hvalue
    omega
  have hdash : ¬ ReadExactly "1--5".toList (.vwapLevels .ask ⟨1, 5⟩ : Metric ExactDouble) := by
    intro h
    have hplain : PlainNumerals "1--5".toList :=
      (readsLevels_iff (by decide) (by decide +kernel)).mp h
    exact absurd hplain.dash (by decide)
  refine ⟨⟨⟨.levelIdx .bid 1 .price, .per⟩, by decide +kernel, rfl, by decide +kernel, hwrap⟩,
    ⟨⟨.vwapLevels .ask ⟨1, 5⟩, .per⟩, by decide +kernel, rfl, by decide +kernel, hdash⟩⟩

end GmaEngine.Ob
