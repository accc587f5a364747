import GmaEngine.DoubleText
import GmaEngine.ObKeyFormat

/-!
# Price and meta keys

The text of a price may hold a point, which the parser takes for the end of a token, and it has
six digits at most. A field name may be the name of a mode. Which keys come back from their text
can be read off their prices and fields.
-/

namespace GmaEngine.Ob
open CNumerals

/-- The prices that a token without a minus and without a point can hold. -/
def BandPrice : ExactDouble → Prop
  | .nan => True
  | .inf negative => negative = false
  | .fin q => ∃ n : ℕ, q = n

section
variable {cs : List Char}

theorem takeSign_of_notMem (h : '-' ∉ cs) : (takeSign cs).1 = false ∧ (takeSign cs).2 <:+ cs := by
  unfold takeSign
  split
  · exact absurd List.mem_cons_self h
  · exact ⟨rfl, List.suffix_cons _ _⟩
  · exact ⟨rfl, List.suffix_refl _⟩

theorem readMantissa_of_notMem {isDigit : Char → Bool} {base : ℕ} (h : '.' ∉ cs) :
    readMantissa isDigit base cs = if cs.takeWhile isDigit = [] then none
      else some ((ofDigits base (cs.takeWhile isDigit) : ℚ), cs.dropWhile isDigit) := by
  have hdot : '.' ∉ cs.dropWhile isDigit := fun hmem => h ((List.dropWhile_suffix _).subset hmem)
  unfold readMantissa
  split
  rename_i frac rest heq
  split at heq
  · rename_i t ht
    rw [ht] at hdot
    exact absurd List.mem_cons_self hdot
  · obtain ⟨rfl, rfl⟩ := Prod.mk.inj heq
    simp

theorem readMantissa_natural {isDigit : Char → Bool} {base : ℕ} (h : '.' ∉ cs) {q : ℚ}
    {rest : List Char} (hread : readMantissa isDigit base cs = some (q, rest)) :
    (∃ n : ℕ, q = n) ∧ rest <:+ cs := by
  rw [readMantissa_of_notMem h] at hread
  split_ifs at hread
  obtain ⟨rfl, rfl⟩ := Prod.mk.inj (Option.some.inj hread)
  exact ⟨⟨_, rfl⟩, List.dropWhile_suffix _⟩

theorem readExponent_nonneg (lower upper : Char) (h : '-' ∉ cs) :
    ∃ n : ℕ, (readExponent lower upper cs).1 = n := by
  cases cs with
  | nil => exact ⟨0, rfl⟩
  | cons c cs =>
    have hsign := (takeSign_of_notMem (fun hmem => h (List.mem_cons_of_mem c hmem))).1
    unfold readExponent
    dsimp only
    rw [hsign]
    split_ifs
    · exact ⟨_, rfl⟩
    · exact ⟨0, rfl⟩

theorem readDecimal_natural (hminus : '-' ∉ cs) (hdot : '.' ∉ cs) {q : ℚ} {rest : List Char}
    (hread : readDecimal cs = some (q, rest)) : ∃ n : ℕ, q = n := by
  obtain ⟨⟨m, rest'⟩, hm, hread⟩ := Option.bind_eq_some_iff.mp hread
  obtain ⟨⟨n, hn⟩, hsuffix⟩ := readMantissa_natural hdot hm
  obtain ⟨e, he⟩ := readExponent_nonneg 'e' 'E'
    (fun hmem => hminus (hsuffix.subset hmem))
  obtain ⟨rfl, -⟩ := Prod.mk.inj (Option.some.inj hread)
  refine ⟨n * 10 ^ e, ?_⟩
  change m * 10 ^ (readExponent 'e' 'E' rest').1 = _
  rw [he, hn, zpow_natCast, Nat.cast_mul, Nat.cast_pow, Nat.cast_ofNat]

theorem readHex_natural (hminus : '-' ∉ cs) (hdot : '.' ∉ cs) {q : ℚ} {rest : List Char}
    (hread : readHex cs = some (q, rest)) : ∃ n : ℕ, q = n := by
  unfold readHex at hread
  split at hread
  · rename_i x cs'
    have hsuffix' : cs' <:+ '0' :: x :: cs' := (List.suffix_cons _ _).trans (List.suffix_cons _ _)
    split_ifs at hread
    obtain ⟨⟨m, rest'⟩, hm, hread⟩ := Option.bind_eq_some_iff.mp hread
    obtain ⟨⟨n, hn⟩, hsuffix⟩ := readMantissa_natural (fun hmem => hdot (hsuffix'.subset hmem)) hm
    obtain ⟨e, he⟩ := readExponent_nonneg 'p' 'P'
      (fun hmem => hminus (hsuffix'.subset (hsuffix.subset hmem)))
    obtain ⟨rfl, -⟩ := Prod.mk.inj (Option.some.inj hread)
    refine ⟨n * 2 ^ e, ?_⟩
    change m * 2 ^ (readExponent 'p' 'P' rest').1 = _
    rw [he, hn, zpow_natCast, Nat.cast_mul, Nat.cast_pow, Nat.cast_ofNat]
  · cases hread

theorem readMagnitude_bandPrice (hminus : '-' ∉ cs) (hdot : '.' ∉ cs) {x : ExactDouble}
    {rest : List Char} (hread : readMagnitude cs = some (x, rest)) : BandPrice x := by
  have hvalue : (infinity : ExactDouble) = .inf false := by decide +kernel
  have hinf : BandPrice infinity := by
    rw [hvalue]
    exact rfl
  rw [readMagnitude] at hread
  rcases Option.or_eq_some_iff.mp hread with hread | ⟨-, hread⟩
  · obtain ⟨_, -, he⟩ := Option.map_eq_some_iff.mp hread
    rw [← (Prod.mk.inj he).1]
    exact hinf
  rcases Option.or_eq_some_iff.mp hread with hread | ⟨-, hread⟩
  · obtain ⟨_, -, he⟩ := Option.map_eq_some_iff.mp hread
    rw [← (Prod.mk.inj he).1]
    exact hinf
  rcases Option.or_eq_some_iff.mp hread with hread | ⟨-, hread⟩
  · obtain ⟨_, -, he⟩ := Option.map_eq_some_iff.mp hread
    rw [← (Prod.mk.inj he).1]
    trivial
  obtain ⟨⟨q, rest'⟩, hq, he⟩ := Option.map_eq_some_iff.mp hread
  rw [← (Prod.mk.inj he).1]
  rcases Option.or_eq_some_iff.mp hq with hq | ⟨-, hq⟩
  · exact readHex_natural hminus hdot hq
  · exact readDecimal_natural hminus hdot hq

/-- Behind the sign of a band stands another price, so no price of a band has a sign. -/
theorem bandPrice_of_parseDouble {tok : List Char} (hminus : '-' ∉ tok) (hdot : '.' ∉ tok)
    {x : ExactDouble} (h : parseDouble tok = some x) : BandPrice x := by
  have hsub : (cChars tok).dropWhile isSpace ⊆ tok := by
    intro c hc
    exact (List.takeWhile_prefix _).subset ((List.dropWhile_suffix _).subset hc)
  obtain ⟨hsign, hsuffix⟩ := takeSign_of_notMem (fun hmem => hminus (hsub hmem))
  have hsub' : ∀ c ∈ (takeSign ((cChars tok).dropWhile isSpace)).2, c ∈ tok :=
    fun c hc => hsub (hsuffix.subset hc)
  rw [parseDouble] at h
  dsimp only at h
  split_ifs at h
  obtain rfl := Option.some.inj h
  unfold strtod
  dsimp only
  rw [hsign]
  cases hm : readMagnitude (D := ExactDouble) (takeSign ((cChars tok).dropWhile isSpace)).2 with
  | none => exact ⟨0, rfl⟩
  | some r =>
    exact readMagnitude_bandPrice (fun hmem => hminus (hsub' _ hmem))
      (fun hmem => hdot (hsub' _ hmem)) hm

end

theorem bandPrice_of_parseBand {tok : List Char} (hdot : '.' ∉ tok) {p1 p2 : ExactDouble}
    (h : parseBand tok = some (p1, p2)) : BandPrice p1 ∧ BandPrice p2 := by
  unfold parseBand at h
  split at h
  · rename_i x y hsplit
    have hpart : ∀ part ∈ split '-' tok, '-' ∉ part ∧ '.' ∉ part := by
      intro part hmem
      refine ⟨(split_spec hmem).2, fun hc => hdot ?_⟩
      exact StreamSegments.subset_of_mem_splitOn tok part (List.mem_of_mem_filter hmem) hc
    obtain ⟨q1, h1, h⟩ := Option.bind_eq_some_iff.mp h
    obtain ⟨q2, h2, h⟩ := Option.bind_eq_some_iff.mp h
    split_ifs at h with hlt
    obtain ⟨rfl, rfl⟩ := Prod.mk.inj (Option.some.inj h)
    obtain ⟨hx, hx'⟩ := hpart x (hsplit ▸ List.mem_cons_self)
    obtain ⟨hy, hy'⟩ := hpart y (hsplit ▸ List.mem_cons_of_mem _ List.mem_cons_self)
    exact ⟨bandPrice_of_parseDouble hx hx' h1, bandPrice_of_parseDouble hy hy' h2⟩
  · cases h

/-- What `operator<<` writes for a price. -/
def putPrice (x : ExactDouble) : String := String.ofList (putDouble x)

theorem toList_putPrice (x : ExactDouble) : (putPrice x).toList = putDouble x :=
  String.toList_ofList

/-- The characters that are written for doubles. -/
def priceChar (c : Char) : Bool := c.isDigit || "+-.einaf".toList.contains c

theorem priceChar_of_isDigit {c : Char} (hc : c.isDigit = true) : priceChar c = true := by
  rw [priceChar, hc, Bool.true_or]

theorem priceChar_toDigits (n : ℕ) : ∀ c ∈ Nat.toDigits 10 n, priceChar c = true :=
  fun c hc => priceChar_of_isDigit ((numeral_toDigits n).digits c hc)

theorem priceChar_putPositive (q : ℚ) : ∀ c ∈ putPositive q, priceChar c = true := by
  have hexponent : ∀ e, ∀ c ∈ putExponent e, priceChar c = true := by
    intro e c hc
    rcases List.mem_cons.mp hc with rfl | hc
    · decide
    rcases List.mem_cons.mp hc with rfl | hc
    · split_ifs <;> decide
    · exact priceChar_of_isDigit ((numeral_leftpad e.natAbs 2).digits c hc)
  intro c hc
  rw [putPositive_eq] at hc
  rcases List.mem_append.mp hc with hc | hc
  · rw [putFixed] at hc
    split_ifs at hc with hp
    · rw [List.append_nil] at hc
      exact priceChar_toDigits _ c hc
    · obtain ⟨d, ds, hds, hdigits⟩ := fraction_digits hp
      rw [hds] at hc
      rcases List.mem_append.mp hc with hc | hc
      · exact priceChar_toDigits _ c hc
      rcases List.mem_cons.mp hc with rfl | hc
      · decide
      · exact priceChar_of_isDigit (hdigits c hc)
  · split_ifs at hc
    · cases hc
    · exact hexponent _ c hc

theorem priceChar_putDouble (x : ExactDouble) : ∀ c ∈ putDouble x, priceChar c = true := by
  have hwords : "nan".toList.all priceChar = true ∧ "inf".toList.all priceChar = true ∧
      "-inf".toList.all priceChar = true := by
    decide
  obtain ⟨hnan, hinf, hminus⟩ := hwords
  cases x with
  | nan => exact List.all_eq_true.mp hnan
  | inf negative =>
    cases negative with
    | false => exact List.all_eq_true.mp hinf
    | true => exact List.all_eq_true.mp hminus
  | fin q =>
    intro c hc
    rw [putDouble] at hc
    split_ifs at hc
    · rw [List.mem_singleton.mp hc]
      decide
    · rcases List.mem_cons.mp hc with rfl | hc
      · decide
      · exact priceChar_putPositive _ c hc
    · exact priceChar_putPositive _ c hc

theorem putDouble_ne_nil (x : ExactDouble) : putDouble x ≠ [] := by
  have hpositive : ∀ q, putPositive q ≠ [] := by
    intro q
    rw [putPositive_eq, putFixed, List.append_assoc]
    exact List.append_ne_nil_of_left_ne_nil Nat.toDigits_ne_nil _
  cases x with
  | nan => decide
  | inf negative => cases negative <;> decide
  | fin q =>
    rw [putDouble]
    split_ifs
    · exact List.cons_ne_nil _ _
    · exact List.cons_ne_nil _ _
    · exact hpositive q

/-- The price of a band is written without a minus. -/
theorem dash_notMem_putDouble {x : ExactDouble} (h : BandPrice x) : '-' ∉ putDouble x := by
  have hdigits : ∀ n, '-' ∉ Nat.toDigits 10 n := fun n => (numeral_toDigits n).notMem (by decide)
  cases x with
  | nan => decide
  | inf negative =>
    obtain rfl : negative = false := h
    decide
  | fin q =>
    obtain ⟨n, rfl⟩ := h
    rw [putDouble]
    split_ifs with hzero hneg
    · decide
    · exact absurd hneg (not_lt.mpr (Nat.cast_nonneg n))
    -- the exponent of a number from one on is not negative
    have hn : n ≠ 0 := fun e => hzero (by rw [e, Nat.cast_zero])
    have hlog : (0 : ℤ) ≤ Int.log 10 (n : ℚ) := by
      rw [Int.log_natCast]
      exact Int.natCast_nonneg _
    have hexp : ¬ (sixDigits (n : ℚ)).2 < 0 := by
      rw [sixDigits]
      split_ifs
      · dsimp only
        omega
      · dsimp only
        omega
    intro hmem
    rw [putPositive_eq] at hmem
    rcases List.mem_append.mp hmem with hmem | hmem
    · rw [putFixed] at hmem
      split_ifs at hmem with hp
      · rw [List.append_nil] at hmem
        exact hdigits _ hmem
      · obtain ⟨d, ds, hds, hall⟩ := fraction_digits hp
        rw [hds] at hmem
        rcases List.mem_append.mp hmem with hmem | hmem
        · exact hdigits _ hmem
        rcases List.mem_cons.mp hmem with hmem | hmem
        · exact absurd hmem (by decide)
        · exact absurd (hall _ hmem) (by decide)
    · split_ifs at hmem
      · cases hmem
      rcases List.mem_cons.mp hmem with hmem | hmem
      · exact absurd hmem (by decide)
      rcases List.mem_cons.mp hmem with hmem | hmem
      · rw [if_neg hexp] at hmem
        exact absurd hmem (by decide)
      · exact (numeral_leftpad _ 2).notMem (by decide) hmem

theorem parseDouble_putDouble {x r : ExactDouble} (h : strtod (putDouble x) = (r, [])) :
    parseDouble (putDouble x) = some r := by
  have hchars : cChars (putDouble x) = putDouble x := by
    rw [cChars, List.takeWhile_eq_self_iff]
    intro c hc
    rw [decide_eq_true_eq]
    rintro rfl
    exact absurd (priceChar_putDouble x _ hc) (by decide)
  rw [parseDouble, hchars, h]
  rfl

theorem split_pointed {text : List Char} (h : Pointed text) :
    ∃ u c t rest, split '.' text = u :: (c :: t) :: rest ∧ c.isDigit = true := by
  obtain ⟨u, c, s, rfl, hu, hdot, hc⟩ := h
  have hne : c ≠ '.' := ne_of_isDigit hc (by decide)
  cases hsplit : s.splitOn '.' with
  | nil => exact absurd hsplit (List.splitOnP_ne_nil _ s)
  | cons first segs =>
    refine ⟨u, c, first, segs.filter (· ≠ []), ?_, hc⟩
    rw [split_append_cons, split_of_notMem hdot hu, split, StreamSegments.splitOn_cons_of_ne hne,
      hsplit, List.modifyHead_cons]
    simp

/-- No token of a text of prices is a mode. -/
theorem noMode_of_priceChar {text tok : List Char} (h : ∀ c ∈ text, priceChar c = true)
    (hmem : tok ∈ split '.' text) : NoMode tok := by
  have hchars : ∀ c ∈ tok, priceChar c = true := fun c hc =>
    h c (StreamSegments.subset_of_mem_splitOn text tok (List.mem_of_mem_filter hmem) hc)
  constructor
  · rintro rfl
    exact absurd (hchars 'r' (by decide)) (by decide)
  · rintro rfl
    exact absurd (hchars 'g' (by decide)) (by decide)

/-- A token that starts with a digit is no reduction. -/
theorem parseReduction_of_isDigit {c : Char} {t : List Char} (hc : c.isDigit = true)
    (rest : List (List Char)) {r : List Char} : parseReduction ((c :: t) :: rest ++ [r]) = none := by
  have hreduce : parseReduce (c :: t) = none := by
    have hword : ∀ w : List Char, (∃ v vs, w = v :: vs ∧ v.isDigit = false) →
        lower (c :: t) ≠ w := by
      rintro w ⟨v, vs, rfl, hv⟩ heq
      have hhead := (List.cons.inj heq).1
      rw [toLower_of_isDigit hc] at hhead
      exact ne_of_isDigit hc hv hhead
    rw [parseReduce, if_neg (hword "sum".toList ⟨'s', _, rfl, by decide⟩),
      if_neg (hword "avg".toList ⟨'a', _, rfl, by decide⟩),
      if_neg (hword "min".toList ⟨'m', _, rfl, by decide⟩),
      if_neg (hword "max".toList ⟨'m', _, rfl, by decide⟩),
      if_neg (hword "count".toList ⟨'c', _, rfl, by decide⟩)]
  cases rest with
  | nil =>
    change (parseReduce (c :: t)).bind _ = none
    rw [hreduce, Option.bind_none]
  | cons x rest =>
    cases rest <;> rfl

theorem toList_bandText (p1 p2 : ExactDouble) :
    (bandText putPrice p1 p2).toList = putDouble p1 ++ '-' :: putDouble p2 := by
  rw [bandText, String.toList_append, String.toList_append, toList_putPrice, toList_putPrice,
    List.append_assoc]
  rfl

theorem priceChar_bandText (p1 p2 : ExactDouble) :
    ∀ c ∈ (bandText putPrice p1 p2).toList, priceChar c = true := by
  intro c hc
  rw [toList_bandText] at hc
  rcases List.mem_append.mp hc with hc | hc
  · exact priceChar_putDouble p1 c hc
  rcases List.mem_cons.mp hc with rfl | hc
  · decide
  · exact priceChar_putDouble p2 c hc

/-- A band is written with a point, or it is one token that is read back as the same band exactly
when both prices are plain. -/
theorem bandText_cases {p1 p2 : ExactDouble} (h1 : BandPrice p1) (h2 : BandPrice p2)
    (hord : Double.lt p2 p1 = false) :
    (Pointed (bandText putPrice p1 p2).toList ∧ ¬ (PlainDouble p1 ∧ PlainDouble p2)) ∨
    (split '.' (bandText putPrice p1 p2).toList = [(bandText putPrice p1 p2).toList] ∧
      (parseBand (bandText putPrice p1 p2).toList = some (p1, p2) ↔
        PlainDouble p1 ∧ PlainDouble p2)) := by
  rw [toList_bandText]
  have hminus : '.' ∉ ['-'] := by decide
  obtain ⟨hp1, hn1⟩ | ⟨hdot1, r1, hr1, hiff1⟩ := putDouble_cases p1
  · exact .inl ⟨hp1.append _, fun h => hn1 h.1⟩
  obtain ⟨hp2, hn2⟩ | ⟨hdot2, r2, hr2, hiff2⟩ := putDouble_cases p2
  · left
    refine ⟨?_, fun h => hn2 h.2⟩
    exact ((hp2.prepend hminus).prepend hdot1)
  right
  refine ⟨?_, ?_⟩
  · apply split_of_notMem
    · intro hmem
      rcases List.mem_append.mp hmem with hmem | hmem
      · exact hdot1 hmem
      rcases List.mem_cons.mp hmem with hmem | hmem
      · exact absurd hmem (by decide)
      · exact hdot2 hmem
    · exact List.append_ne_nil_of_right_ne_nil _ (List.cons_ne_nil _ _)
  · have hsplit : split '-' (putDouble p1 ++ '-' :: putDouble p2) = [putDouble p1, putDouble p2] := by
      rw [split_append_cons, split_of_notMem (dash_notMem_putDouble h1) (putDouble_ne_nil p1),
        split_of_notMem (dash_notMem_putDouble h2) (putDouble_ne_nil p2)]
      rfl
    rw [parseBand, hsplit]
    simp only [parseDouble_putDouble hr1, parseDouble_putDouble hr2, Option.bind_eq_bind,
      Option.bind_some]
    rw [← hiff1, ← hiff2]
    constructor
    · intro h
      split_ifs at h
      exact Prod.mk.inj (Option.some.inj h)
    · rintro ⟨rfl, rfl⟩
      rw [hord]
      rfl

/-- A pointed text of prices ends with a token that is no mode, behind other tokens. -/
theorem split_pointed_concat {text : List Char} (h : Pointed text)
    (hchars : ∀ c ∈ text, priceChar c = true) :
    ∃ x xs last, split '.' text = x :: (xs ++ [last]) ∧ NoMode last := by
  obtain ⟨u, c, t, rest, hsplit, -⟩ := split_pointed h
  obtain ⟨xs, last, hconcat⟩ := List.eq_nil_or_concat' ((c :: t) :: rest) |>.resolve_left
    (List.cons_ne_nil _ _)
  have heq : split '.' text = u :: (xs ++ [last]) := by rw [hsplit, hconcat]
  refine ⟨u, xs, last, heq, noMode_of_priceChar hchars ?_⟩
  rw [heq]
  exact List.mem_cons_of_mem _ (List.mem_append_right _ (List.mem_singleton_self last))

section
variable {side : Side} {mode : Mode} {p1 p2 : ExactDouble}

theorem formatObKey_levelPx {px : ExactDouble} {attr : Target} (hattr : attr ≠ .none) :
    parseObKey (formatObKey putPrice ⟨.levelPx side px attr, mode⟩) =
      some ⟨.levelPx side px attr, mode⟩ ↔ PlainDouble px := by
  have hsplit : (metricTexts putPrice (.levelPx side px attr)).flatMap
      (fun t => split '.' t.toList) =
      (["at".toList, (sideText side).toList] ++ split '.' (putDouble px)) ++
        [(targetText attr).toList] := by
    simp only [metricTexts, List.flatMap_cons, List.flatMap_nil, toList_putPrice,
      (split_word (w := "at") (by decide)).1, split_sideText side,
      (split_word (targetText_mem attr)).1]
    simp
  have hparse := parseObKey_formatObKey putPrice ⟨.levelPx side px attr, mode⟩ hsplit
    (.inr (split_word (targetText_mem attr)).2)
  rw [hparse]
  obtain ⟨hp, hn⟩ | ⟨hdot, r, hr, hiff⟩ := putDouble_cases px
  · obtain ⟨u, c, t, rest, hpieces, -⟩ := split_pointed hp
    rw [hpieces]
    -- two pieces of the price are one argument too many
    have hnone : parseMetric (D := ExactDouble) ((["at".toList, (sideText side).toList] ++
        (u :: (c :: t) :: rest)) ++ [(targetText attr).toList]) = none := by
      cases rest <;> rfl
    rw [hnone]
    refine iff_of_false ?_ hn
    intro h
    cases h
  · rw [split_of_notMem hdot (putDouble_ne_nil px)]
    have hat : parseMetric (D := ExactDouble) ((["at".toList, (sideText side).toList] ++
        [putDouble px]) ++ [(targetText attr).toList]) =
        (parseSide (sideText side).toList).bind (fun s =>
          (parseDouble (putDouble px)).bind (fun px =>
            (parseTarget (targetText attr).toList).bind (fun t => some (.levelPx s px t)))) := rfl
    rw [hat, parseSide_sideText, parseDouble_putDouble hr, parseTarget_targetText hattr, ← hiff]
    simp

variable (h1 : BandPrice p1) (h2 : BandPrice p2) (hord : Double.lt p2 p1 = false)
include h1 h2 hord

theorem formatObKey_rangePx {reduce : Reduce} {target : Target}
    (hred : ReductionValid reduce target) :
    parseObKey (formatObKey putPrice ⟨.rangePx side p1 p2 reduce target, mode⟩) =
      some ⟨.rangePx side p1 p2 reduce target, mode⟩ ↔ PlainDouble p1 ∧ PlainDouble p2 := by
  obtain ⟨toks, last, hreduce, hlast, hread⟩ := reductionTexts_read hred
  have hsplit : (metricTexts putPrice (.rangePx side p1 p2 reduce target)).flatMap
      (fun t => split '.' t.toList) =
      ("range".toList :: (sideText side).toList :: "price".toList ::
        (split '.' (bandText putPrice p1 p2).toList ++ toks)) ++ [last] := by
    rw [metricTexts, List.flatMap_append, hreduce]
    simp only [List.flatMap_cons, List.flatMap_nil, (split_word (w := "range") (by decide)).1,
      split_sideText side, (split_word (w := "price") (by decide)).1]
    simp
  have hparse := parseObKey_formatObKey putPrice ⟨.rangePx side p1 p2 reduce target, mode⟩ hsplit
    (.inr hlast)
  rw [hparse]
  have hrange : ∀ ab rest, parseMetric (D := ExactDouble) (("range".toList ::
      (sideText side).toList :: "price".toList :: (ab :: rest)) ++ [last]) =
      (parseSide (sideText side).toList).bind (fun s => (parseBand ab).bind (fun p =>
        (parseReduction (rest ++ [last])).bind (fun rt =>
          some (.rangePx s p.1 p.2 rt.1 rt.2)))) := fun ab rest => rfl
  obtain ⟨hp, hn⟩ | ⟨hone, hiff⟩ := bandText_cases h1 h2 hord
  · obtain ⟨u, c, t, rest, hpieces, hc⟩ := split_pointed hp
    have hnone := parseReduction_of_isDigit (t := t) hc (rest ++ toks) (r := last)
    have hpieces' : split '.' (bandText putPrice p1 p2).toList ++ toks =
        u :: ((c :: t) :: (rest ++ toks)) := by
      rw [hpieces]
      rfl
    rw [hpieces', hrange, hnone, parseSide_sideText]
    refine iff_of_false ?_ hn
    cases parseBand (D := ExactDouble) u <;> simp
  · rw [hone, List.singleton_append, hrange, hread, parseSide_sideText, ← hiff]
    cases parseBand (D := ExactDouble) (bandText putPrice p1 p2).toList <;> simp [Prod.ext_iff]

/-- A band at the end of a key is read back when both prices are plain; with a point in it there
is an argument too many. -/
theorem formatObKey_lastBand {m : Mode} {build : ExactDouble × ExactDouble → Metric ExactDouble}
    (hbuild : build.Injective) {texts : List String}
    (htexts : metricTexts putPrice (build (p1, p2)) = texts ++ [bandText putPrice p1 p2])
    (hwords : ∀ t ∈ texts, split '.' t.toList = [t.toList])
    (hband : ∀ ab, parseMetric (texts.map String.toList ++ [ab]) = (parseBand ab).map build)
    (hmore : ∀ x y ys, parseMetric (D := ExactDouble) (texts.map String.toList ++ x :: y :: ys) =
      none) :
    parseObKey (formatObKey putPrice ⟨build (p1, p2), m⟩) = some ⟨build (p1, p2), m⟩ ↔
      PlainDouble p1 ∧ PlainDouble p2 := by
  have hsplit : (metricTexts putPrice (build (p1, p2))).flatMap (fun t => split '.' t.toList) =
      texts.map String.toList ++ split '.' (bandText putPrice p1 p2).toList := by
    rw [htexts, List.flatMap_append, List.flatMap_singleton, tokens_of_words hwords]
  obtain ⟨hp, hn⟩ | ⟨hone, hiff⟩ := bandText_cases h1 h2 hord
  · obtain ⟨x, xs, last, hpieces, hlast⟩ := split_pointed_concat hp (priceChar_bandText p1 p2)
    rw [hpieces, ← List.cons_append, ← List.append_assoc] at hsplit
    have hnone : parseMetric (D := ExactDouble) (texts.map String.toList ++ x :: xs ++ [last]) =
        none := by
      rw [List.append_assoc]
      cases xs with
      | nil => exact hmore x last []
      | cons y ys => exact hmore x y (ys ++ [last])
    rw [parseObKey_formatObKey putPrice ⟨build (p1, p2), m⟩ hsplit (.inr hlast), hnone]
    exact iff_of_false (fun h => nomatch h) hn
  · rw [hone] at hsplit
    have hlast : NoMode (bandText putPrice p1 p2).toList :=
      noMode_of_priceChar (priceChar_bandText p1 p2) (by rw [hone]; exact List.mem_cons_self)
    rw [parseObKey_formatObKey putPrice ⟨build (p1, p2), m⟩ hsplit (.inr hlast), hband, ← hiff]
    cases parseBand (D := ExactDouble) (bandText putPrice p1 p2).toList with
    | none => simp
    | some p => simp [hbuild.eq_iff]

theorem formatObKey_vwapPrice :
    parseObKey (formatObKey putPrice ⟨.vwapPrice side p1 p2, mode⟩) =
      some ⟨.vwapPrice side p1 p2, mode⟩ ↔ PlainDouble p1 ∧ PlainDouble p2 := by
  have hbuild : (fun p : ExactDouble × ExactDouble => Metric.vwapPrice side p.1 p.2).Injective := by
    intro p q h
    obtain ⟨-, hfst, hsnd⟩ := Metric.vwapPrice.inj h
    exact Prod.ext hfst hsnd
  have htexts : metricTexts putPrice (.vwapPrice side p1 p2) =
      ["vwap", sideText side, "price"] ++ [bandText putPrice p1 p2] := rfl
  have hmore : ∀ x y ys, parseMetric (D := ExactDouble) (["vwap", sideText side, "price"].map
      String.toList ++ x :: y :: ys) = none := fun _ _ _ => rfl
  have hwords : ∀ t ∈ ["vwap", sideText side, "price"], split '.' t.toList = [t.toList] := by
    rw [List.forall_mem_cons, List.forall_mem_cons, List.forall_mem_singleton]
    exact ⟨(split_word (by decide)).1, split_sideText side, (split_word (by decide)).1⟩
  have hband : ∀ ab, parseMetric (["vwap", sideText side, "price"].map String.toList ++ [ab]) =
      (parseBand ab).map (fun p : ExactDouble × ExactDouble => .vwapPrice side p.1 p.2) := by
    intro ab
    have hparse : parseMetric (D := ExactDouble) (["vwap", sideText side, "price"].map
        String.toList ++ [ab]) = (parseSide (sideText side).toList).bind (fun s =>
          (parseBand ab).bind (fun p => some (.vwapPrice s p.1 p.2))) := rfl
    rw [hparse, parseSide_sideText, Option.bind_some, Option.map_eq_bind]
    rfl
  exact (formatObKey_lastBand h1 h2 hord hbuild htexts hwords hband hmore (m := mode) :)

theorem formatObKey_imbalancePrice :
    parseObKey (formatObKey putPrice ⟨.imbalancePrice p1 p2, mode⟩) =
      some ⟨.imbalancePrice p1 p2, mode⟩ ↔ PlainDouble p1 ∧ PlainDouble p2 := by
  have hbuild : (fun p : ExactDouble × ExactDouble => Metric.imbalancePrice p.1 p.2).Injective := by
    intro p q h
    obtain ⟨hfst, hsnd⟩ := Metric.imbalancePrice.inj h
    exact Prod.ext hfst hsnd
  have htexts : metricTexts putPrice (.imbalancePrice p1 p2) =
      ["imbalance", "price"] ++ [bandText putPrice p1 p2] := rfl
  have hmore : ∀ x y ys, parseMetric (D := ExactDouble) (["imbalance", "price"].map
      String.toList ++ x :: y :: ys) = none := fun _ _ _ => rfl
  have hwords : ∀ t ∈ ["imbalance", "price"], split '.' t.toList = [t.toList] := by
    rw [List.forall_mem_cons, List.forall_mem_singleton]
    exact ⟨(split_word (by decide)).1, (split_word (by decide)).1⟩
  have hband : ∀ ab, parseMetric (["imbalance", "price"].map String.toList ++ [ab]) =
      (parseBand ab).map (fun p : ExactDouble × ExactDouble => .imbalancePrice p.1 p.2) := by
    intro ab
    have hparse : parseMetric (D := ExactDouble) (["imbalance", "price"].map String.toList ++
        [ab]) = (parseBand ab).bind (fun p => some (.imbalancePrice p.1 p.2)) := rfl
    rw [hparse, Option.map_eq_bind]
    rfl
  exact (formatObKey_lastBand h1 h2 hord hbuild htexts hwords hband hmore (m := mode) :)

end

/-- The fields that end with the name of a mode. -/
def modeFields : List (List Char) :=
  ["per".toList, "agg".toList, "levels.per".toList, "levels.agg".toList]

theorem noMode_iff {tok field : List Char} (hdot : '.' ∉ tok)
    (h : field = tok ∨ field = "levels.".toList ++ tok) : NoMode tok ↔ field ∉ modeFields := by
  have hlong : ∀ rest, tok ≠ "levels.".toList ++ rest := by
    rintro rest rfl
    exact hdot (List.mem_append_left _ (by decide))
  have hper : "levels.per".toList = "levels.".toList ++ "per".toList := by decide
  have hagg : "levels.agg".toList = "levels.".toList ++ "agg".toList := by decide
  have hlevels : ∀ w, w = "per".toList ∨ w = "agg".toList → "levels.".toList ++ tok ≠ w := by
    rintro w hw heq
    have hlen : ("levels.".toList ++ tok).length = w.length := by rw [heq]
    rw [List.length_append] at hlen
    have hw3 : w.length = 3 := by
      rcases hw with rfl | rfl <;> decide
    have h7 : "levels.".toList.length = 7 := by decide
    omega
  rw [modeFields, NoMode, hper, hagg]
  simp only [List.mem_cons, List.not_mem_nil, or_false, not_or]
  rcases h with rfl | rfl
  · exact ⟨fun h => ⟨h.1, h.2, hlong _, hlong _⟩, fun h => ⟨h.1, h.2.1⟩⟩
  · simp only [List.append_right_inj]
    exact ⟨fun h => ⟨hlevels _ (.inl rfl), hlevels _ (.inr rfl), h.1, h.2⟩,
      fun h => ⟨h.2.2.1, h.2.2.2⟩⟩

/-- Two tokens of a field, or one. -/
theorem split_field {tok field : List Char} (hne : tok ≠ []) (hdot : '.' ∉ tok)
    (h : field = tok ∨ field = "levels.".toList ++ tok) :
    ∃ toks, split '.' field = toks ++ [tok] ∧ (toks = [] ∨ toks = ["levels".toList]) ∧
      parseMeta (toks ++ [tok]) = some (.metaField field : Metric ExactDouble) := by
  have hone := split_of_notMem hdot hne
  rcases h with rfl | rfl
  · exact ⟨[], hone, .inl rfl, rfl⟩
  · refine ⟨["levels".toList], ?_, .inr rfl, rfl⟩
    have htext : "levels.".toList ++ tok = "levels".toList ++ '.' :: tok := rfl
    rw [htext, split_append_cons, hone, split_of_notMem (by decide) (by decide)]

theorem formatObKey_metaField {field : List Char} {mode : Mode} (hfield : FieldValid field) :
    parseObKey (D := ExactDouble) (formatObKey putPrice ⟨.metaField field, mode⟩) =
      some ⟨.metaField field, mode⟩ ↔
      mode = .agg ∨ field ∉ modeFields := by
  obtain ⟨tok, hne, hdot, hform⟩ := hfield
  obtain ⟨toks, hsplit, htoks, hread⟩ := split_field hne hdot hform
  have htext : (metricTexts putPrice (.metaField field)).flatMap (fun t => split '.' t.toList) =
      ("meta".toList :: toks) ++ [tok] := by
    simp only [metricTexts, List.flatMap_cons, List.flatMap_nil, String.toList_ofList, hsplit,
      (split_word (w := "meta") (by decide)).1]
    simp
  have hmeta : ∀ args, parseMetric (D := ExactDouble) ("meta".toList :: args) = parseMeta args :=
    fun args => rfl
  rw [← noMode_iff hdot hform]
  by_cases hlast : mode = .agg ∨ NoMode tok
  · have hparse := parseObKey_formatObKey putPrice ⟨.metaField field, mode⟩ htext hlast
    rw [hparse, List.cons_append, hmeta, hread]
    exact iff_of_true rfl hlast
  · refine iff_of_false ?_ hlast
    -- the last token is taken for the mode
    rw [not_or] at hlast
    obtain ⟨hagg, hmode⟩ := hlast
    cases mode with
    | agg => exact absurd rfl hagg
    | per =>
      intro hback
      obtain ⟨toks', hsplit', -, hm⟩ := parseObKey_eq_some hback
      rw [split_formatObKey, htext] at hsplit'
      obtain rfl : toks' = ("meta".toList :: toks) ++ [tok] := by
        have htail := (List.cons.inj hsplit').2
        rw [← htail]
        exact List.append_nil (("meta".toList :: toks) ++ [tok])
      have hdrop : (takeMode (("meta".toList :: toks) ++ [tok])).2 = "meta".toList :: toks := by
        have htok : tok = "per".toList ∨ tok = "agg".toList := by
          by_contra hno
          exact hmode (not_or.mp hno)
        rw [takeMode, List.getLast?_concat]
        rcases htok with rfl | rfl
        · rw [if_neg (by decide), if_pos rfl, List.dropLast_concat]
        · rw [if_pos rfl, List.dropLast_concat]
      rw [hdrop, hmeta] at hm
      rcases htoks with rfl | rfl
      · cases hm
      · have hfield : field = "levels".toList :=
          (Metric.metaField.inj (Option.some.inj hm)).symm
        rcases hform with rfl | rfl
        · rw [split_of_notMem (by rw [hfield]; decide) hne] at hsplit
          exact absurd (List.cons.inj hsplit).2 (by simp)
        · have hlen := congrArg List.length hfield
          rw [List.length_append] at hlen
          have h7 : "levels.".toList.length = 7 := by decide
          have h6 : "levels".toList.length = 6 := by decide
          omega

/-- The prices are plain, and the end of a field is not taken for the mode. -/
def Survives (k : ObKey ExactDouble) : Prop :=
  match k.metric with
  | .levelPx _ px _ => PlainDouble px
  | .rangePx _ p1 p2 _ _ => PlainDouble p1 ∧ PlainDouble p2
  | .vwapPrice _ p1 p2 => PlainDouble p1 ∧ PlainDouble p2
  | .imbalancePrice p1 p2 => PlainDouble p1 ∧ PlainDouble p2
  | .metaField field => k.mode = .agg ∨ field ∉ modeFields
  | _ => True

/-- The prices of a band in an accepted key have no sign and no fraction. -/
def BandPrices : Metric ExactDouble → Prop
  | .rangePx _ p1 p2 _ _ => BandPrice p1 ∧ BandPrice p2
  | .vwapPrice _ p1 p2 => BandPrice p1 ∧ BandPrice p2
  | .imbalancePrice p1 p2 => BandPrice p1 ∧ BandPrice p2
  | _ => True

theorem bandPrices_of_parseObKey {s : String} {k : ObKey ExactDouble} (h : parseObKey s = some k) :
    BandPrices k.metric := by
  obtain ⟨toks, htoks, hm⟩ := parseObKey_toks h
  rcases parseMetric_cases hm with ⟨-, hmetric⟩ | ⟨-, hmetric⟩ | ⟨name, args, rfl, hform⟩
  · rw [hmetric]
    trivial
  · rw [hmetric]
    trivial
  have hdot : ∀ tok ∈ args, '.' ∉ tok := fun tok htok => (htoks tok (List.mem_cons_of_mem _ htok)).2
  obtain ⟨-, h⟩ | ⟨-, h⟩ | ⟨-, h⟩ | ⟨-, h⟩ | ⟨-, h⟩ | ⟨-, h⟩ | ⟨-, h⟩ | ⟨-, h⟩ := hform
  · obtain ⟨_, _, _, _, -, -, hmetric⟩ := parseBest_cases h
    rw [hmetric]
    trivial
  · obtain ⟨_, _, _, _, _, _, -, -, -, -, hmetric⟩ := parseLevel_cases h
    rw [hmetric]
    trivial
  · obtain ⟨_, _, _, _, _, _, -, -, -, hmetric⟩ := parseAt_cases h
    rw [hmetric]
    trivial
  · obtain ⟨_, _, _, _, _, _, -, ⟨-, _, -, hmetric⟩ | ⟨rfl, p1, p2, hb, hmetric⟩⟩ :=
      parseRangeKey_cases h
    · rw [hmetric]
      trivial
    · rw [hmetric]
      exact bandPrice_of_parseBand (hdot _ (by simp)) hb
  · obtain ⟨_, _, _, _, _, _, -, -, -, -, hmetric⟩ := parseCum_cases h
    rw [hmetric]
    trivial
  · obtain ⟨_, _, _, ⟨-, _, -, hmetric⟩ | ⟨rfl, p1, p2, hb, hmetric⟩⟩ := parseVwap_cases h
    · rw [hmetric]
      trivial
    · rw [hmetric]
      exact bandPrice_of_parseBand (hdot _ (by simp)) hb
  · obtain ⟨_, ⟨-, _, -, hmetric⟩ | ⟨rfl, p1, p2, hb, hmetric⟩⟩ := parseImbalance_cases h
    · rw [hmetric]
      trivial
    · rw [hmetric]
      exact bandPrice_of_parseBand (hdot _ (by simp)) hb
  · obtain ⟨_, ⟨-, hmetric⟩ | ⟨-, hmetric⟩⟩ := parseMeta_cases h
    · rw [hmetric]
      trivial
    · rw [hmetric]
      trivial

/-- An accepted key comes back from its text exactly when its prices are plain and its field does
not end with the name of a mode. -/
theorem formatObKey_prices (s : String) (k : ObKey ExactDouble) (hk : parseObKey s = some k) :
    parseObKey (formatObKey putPrice k) = some k ↔ Survives k := by
  have hvalid := valid_of_parseObKey hk
  have hbands := bandPrices_of_parseObKey hk
  obtain ⟨metric, mode⟩ := k
  dsimp only at hvalid hbands
  cases hlevels : metric.byLevels with
  | true =>
    obtain ⟨toks, last, hsplit, hlast, hread⟩ := readsBack_of_byLevels putPrice hvalid hlevels
    have hback : parseObKey (formatObKey putPrice ⟨metric, mode⟩) = some ⟨metric, mode⟩ := by
      rw [parseObKey_formatObKey putPrice ⟨metric, mode⟩ hsplit (.inr hlast), hread]
      rfl
    refine iff_of_true hback ?_
    cases metric with
    | levelPx | rangePx | vwapPrice | imbalancePrice | metaField => cases hlevels
    | _ => trivial
  | false =>
    cases metric with
    | levelPx side px attr => exact formatObKey_levelPx hvalid
    | rangePx side p1 p2 reduce target =>
      exact formatObKey_rangePx hbands.1 hbands.2 hvalid.1 hvalid.2
    | vwapPrice side p1 p2 => exact formatObKey_vwapPrice hbands.1 hbands.2 hvalid
    | imbalancePrice p1 p2 => exact formatObKey_imbalancePrice hbands.1 hbands.2 hvalid
    | metaField field => exact formatObKey_metaField hvalid
    | _ => cases hlevels

theorem formatObKey_prices_band :
    let k : ObKey ExactDouble := ⟨.vwapPrice .bid (.fin 100) (.fin 2000000), .per⟩
    parseObKey (formatObKey putPrice k) = some k ↔ Survives k :=
  formatObKey_prices "ob.vwap.bid.price.100-2000000" _ (by decide +kernel)

/-- A price of seven digits is written with a point, and the mode of a field is lost. -/
theorem formatObKey_splits :
    (∃ k : ObKey ExactDouble, parseObKey "ob.at.bid.1234567.size" = some k ∧
      formatObKey putPrice k = "ob.at.bid.1.23457e+06.size" ∧
      parseObKey (D := ExactDouble) (formatObKey putPrice k) = none) ∧
    (∃ k : ObKey ExactDouble, parseObKey "ob.meta.per.per" = some k ∧
      parseObKey (D := ExactDouble) (formatObKey putPrice k) = none) := by
  refine ⟨⟨⟨.levelPx .bid (.fin 1234567) .size, .per⟩, ?_, ?_, ?_⟩,
    ⟨.metaField "per".toList, .per⟩, ?_, ?_⟩
  all_goals decide +kernel

end GmaEngine.Ob
