import GmaEngine.DecimalNumerals
import Mathlib.Data.Int.Log
import Mathlib.Data.List.DropRight

/-!
# The text of a double

`operator<<` with its default precision: six significant digits, rounded half to even, trailing
zeros left out, an exponent for large and small numbers. Which numbers are read back from their
text, and which are written without a point, can be told from six digits and an exponent.
-/

namespace GmaEngine.CNumerals

/-- Rounding of a nonnegative number. -/
def roundHalfEven (q : ℚ) : ℕ :=
  let n := ⌊q⌋.toNat
  if q - n < 1 / 2 then n else if 1 / 2 < q - n then n + 1 else n + n % 2

/-- Digits `m` and an exponent `e` for a positive number close to `m * 10 ^ (e - 5)`. -/
def sixDigits (q : ℚ) : ℕ × ℤ :=
  let e := Int.log 10 q
  let m := roundHalfEven (q / 10 ^ (e - 5))
  if m = 10 ^ 6 then (10 ^ 5, e + 1) else (m, e)

theorem roundHalfEven_natCast (n : ℕ) : roundHalfEven n = n := by
  simp [roundHalfEven]

theorem roundHalfEven_bounds {q : ℚ} {lo hi : ℕ} (hlo : lo ≤ q) (hhi : q < hi) :
    lo ≤ roundHalfEven q ∧ roundHalfEven q ≤ hi := by
  have hfloor : (lo : ℤ) ≤ ⌊q⌋ := Int.le_floor.mpr (by exact_mod_cast hlo)
  have hlt : ⌊q⌋ < (hi : ℤ) := Int.floor_lt.mpr (by exact_mod_cast hhi)
  have hmod : ⌊q⌋.toNat % 2 ≤ 1 := by omega
  rw [roundHalfEven]
  split_ifs
  · omega
  · omega
  · omega

theorem log_bounds {q : ℚ} (hq : 0 < q) :
    (10 : ℚ) ^ (Int.log 10 q) ≤ q ∧ q < (10 : ℚ) ^ (Int.log 10 q + 1) := by
  have hlo := Int.zpow_log_le_self (b := 10) (by decide) hq
  have hhi := Int.lt_zpow_succ_log_self (b := 10) (by decide) q
  exact ⟨by exact_mod_cast hlo, by exact_mod_cast hhi⟩

theorem pow_mul_zpow (k : ℕ) (e : ℤ) : ((10 ^ k : ℕ) : ℚ) * 10 ^ e = 10 ^ (e + k) := by
  rw [Nat.cast_pow, Nat.cast_ofNat, ← zpow_natCast, ← zpow_add₀ (by norm_num), add_comm]

/-- Six digits, the first of which is not zero. -/
theorem sixDigits_bounds {q : ℚ} (hq : 0 < q) :
    10 ^ 5 ≤ (sixDigits q).1 ∧ (sixDigits q).1 < 10 ^ 6 := by
  obtain ⟨hlo, hhi⟩ := log_bounds hq
  have hpos : (0 : ℚ) < 10 ^ (Int.log 10 q - 5) := zpow_pos (by norm_num) _
  have hlo' : ((10 ^ 5 : ℕ) : ℚ) ≤ q / 10 ^ (Int.log 10 q - 5) := by
    rw [le_div_iff₀ hpos, pow_mul_zpow, Nat.cast_ofNat, sub_add_cancel]
    exact hlo
  have hhi' : q / 10 ^ (Int.log 10 q - 5) < ((10 ^ 6 : ℕ) : ℚ) := by
    have hexp : Int.log 10 q - 5 + (6 : ℕ) = Int.log 10 q + 1 := by
      push_cast
      ring
    rw [div_lt_iff₀ hpos, pow_mul_zpow, hexp]
    exact hhi
  obtain ⟨hm, hm'⟩ := roundHalfEven_bounds hlo' hhi'
  rw [sixDigits]
  split_ifs with htop
  · exact ⟨le_rfl, by norm_num⟩
  · exact ⟨hm, lt_of_le_of_ne hm' htop⟩

theorem log_eq {q : ℚ} {e : ℤ} (hlo : (10 : ℚ) ^ e ≤ q) (hhi : q < (10 : ℚ) ^ (e + 1)) :
    Int.log 10 q = e := by
  have hq : 0 < q := lt_of_lt_of_le (zpow_pos (by norm_num) e) hlo
  have hle : e ≤ Int.log 10 q :=
    (Int.zpow_le_iff_le_log (b := 10) (by decide) hq).mp (by exact_mod_cast hlo)
  have hlt : Int.log 10 q < e + 1 :=
    (Int.lt_zpow_iff_log_lt (b := 10) (by decide) hq).mp (by exact_mod_cast hhi)
  omega

/-- A number of six digits is not rounded. -/
theorem sixDigits_eq {m : ℕ} {e : ℤ} (hlo : 10 ^ 5 ≤ m) (hhi : m < 10 ^ 6) :
    sixDigits (m * 10 ^ (e - 5)) = (m, e) := by
  have hpos : (0 : ℚ) < 10 ^ (e - 5) := zpow_pos (by norm_num) _
  have hlo' : ((10 ^ 5 : ℕ) : ℚ) ≤ m := by exact_mod_cast hlo
  have hhi' : (m : ℚ) < ((10 ^ 6 : ℕ) : ℚ) := by exact_mod_cast hhi
  have hlog : Int.log 10 ((m : ℚ) * 10 ^ (e - 5)) = e := by
    apply log_eq
    · calc (10 : ℚ) ^ e = ((10 ^ 5 : ℕ) : ℚ) * 10 ^ (e - 5) := by
            rw [pow_mul_zpow, Nat.cast_ofNat, sub_add_cancel]
        _ ≤ m * 10 ^ (e - 5) := mul_le_mul_of_nonneg_right hlo' hpos.le
    · have hexp : e + 1 = e - 5 + (6 : ℕ) := by
        push_cast
        ring
      calc (m : ℚ) * 10 ^ (e - 5) < ((10 ^ 6 : ℕ) : ℚ) * 10 ^ (e - 5) :=
            mul_lt_mul_of_pos_right hhi' hpos
        _ = (10 : ℚ) ^ (e + 1) := by rw [pow_mul_zpow, hexp]
  rw [sixDigits, hlog, mul_div_cancel_right₀ _ hpos.ne', roundHalfEven_natCast, if_neg (by omega)]

/-- `n / 10 ^ places` without trailing zeros. -/
def putFixed (n places : ℕ) : List Char :=
  Nat.toDigits 10 (n / 10 ^ places) ++
    if n % 10 ^ places = 0 then []
    else '.' :: ((Nat.toDigits 10 (n % 10 ^ places)).leftpad places '0').rdropWhile (· = '0')

/-- An exponent has at least two digits. -/
def putExponent (e : ℤ) : List Char :=
  'e' :: (if e < 0 then '-' else '+') :: (Nat.toDigits 10 e.natAbs).leftpad 2 '0'

def putPositive (q : ℚ) : List Char :=
  let (m, e) := sixDigits q
  if -4 ≤ e ∧ e < 6 then putFixed m (5 - e).toNat else putFixed m 5 ++ putExponent e

/-- `operator<<`; the sign of a NaN is not kept. -/
def putDouble : ExactDouble → List Char
  | .nan => "nan".toList
  | .inf negative => if negative then "-inf".toList else "inf".toList
  | .fin q =>
    if q = 0 then ['0'] else if q < 0 then '-' :: putPositive (-q) else putPositive q

example : putDouble (.fin (-5 / 4)) = "-1.25".toList ∧
    putDouble (.fin 1234567) = "1.23457e+06".toList := by
  decide +kernel

theorem dot_notMem_toDigits (n : ℕ) : '.' ∉ Nat.toDigits 10 n :=
  (numeral_toDigits n).notMem (by decide)

theorem putFixed_of_dvd {n places : ℕ} (h : n % 10 ^ places = 0) :
    putFixed n places = Nat.toDigits 10 (n / 10 ^ places) := by
  rw [putFixed, if_pos h, List.append_nil]

/-- The digits behind a point: there are some, and the last one is not zero. -/
theorem fraction_digits {n places : ℕ} (h : n % 10 ^ places ≠ 0) :
    ∃ c cs, ((Nat.toDigits 10 (n % 10 ^ places)).leftpad places '0').rdropWhile (· = '0') = c :: cs ∧
      ∀ d ∈ c :: cs, d.isDigit = true := by
  have hdigits : ∀ d ∈ (Nat.toDigits 10 (n % 10 ^ places)).leftpad places '0', d.isDigit = true := by
    intro d hd
    rcases List.mem_append.mp hd with hd | hd
    · rw [List.eq_of_mem_replicate hd]
      decide
    · exact (numeral_toDigits _).digits d hd
  have hne : ((Nat.toDigits 10 (n % 10 ^ places)).leftpad places '0').rdropWhile (· = '0') ≠ [] := by
    rw [ne_eq, List.rdropWhile_eq_nil_iff]
    intro hzeros
    apply h
    have hrep : Nat.toDigits 10 (n % 10 ^ places) =
        List.replicate (Nat.toDigits 10 (n % 10 ^ places)).length '0' := by
      rw [List.eq_replicate_iff]
      refine ⟨rfl, ?_⟩
      intro d hd
      simpa using hzeros d (List.mem_append_right _ hd)
    rw [← Nat.ofDigitChars_ten_toDigits (n := n % 10 ^ places), hrep,
      Nat.ofDigitChars_replicate_zero, mul_zero]
  obtain ⟨c, cs, hcs⟩ := List.exists_cons_of_ne_nil hne
  refine ⟨c, cs, hcs, ?_⟩
  intro d hd
  rw [← hcs] at hd
  exact hdigits d ((List.rdropWhile_prefix _ _).subset hd)

/-- A point stands between digits, and there is no other one. -/
def Pointed (text : List Char) : Prop :=
  ∃ u c s, text = u ++ '.' :: c :: s ∧ u ≠ [] ∧ '.' ∉ u ∧ c.isDigit = true

theorem dot_notMem_putExponent (e : ℤ) : '.' ∉ putExponent e := by
  intro h
  rcases List.mem_cons.mp h with h | h
  · exact absurd h (by decide)
  rcases List.mem_cons.mp h with h | h
  · split_ifs at h
    · exact absurd h (by decide)
    · exact absurd h (by decide)
  · rcases List.mem_append.mp h with h | h
    · exact absurd (List.eq_of_mem_replicate h) (by decide)
    · exact dot_notMem_toDigits _ h

theorem Pointed.append {text : List Char} (h : Pointed text) (rest : List Char) :
    Pointed (text ++ rest) := by
  obtain ⟨u, c, s, rfl, hu, hdot, hc⟩ := h
  exact ⟨u, c, s ++ rest, by simp, hu, hdot, hc⟩

theorem Pointed.prepend {text before : List Char} (h : Pointed text) (hdot : '.' ∉ before) :
    Pointed (before ++ text) := by
  obtain ⟨u, c, s, rfl, hu, hdot', hc⟩ := h
  refine ⟨before ++ u, c, s, by simp, List.append_ne_nil_of_right_ne_nil _ hu, ?_, hc⟩
  intro hmem
  exact (List.mem_append.mp hmem).elim hdot hdot'

theorem pointed_putFixed {n places : ℕ} (h : n % 10 ^ places ≠ 0) : Pointed (putFixed n places) := by
  obtain ⟨c, cs, hcs, hdigits⟩ := fraction_digits h
  refine ⟨Nat.toDigits 10 (n / 10 ^ places), c, cs, ?_, Nat.toDigits_ne_nil, dot_notMem_toDigits _,
    hdigits c List.mem_cons_self⟩
  rw [putFixed, if_neg h, hcs]

/-- The digits behind the point, if there is one. -/
def pointPlaces (e : ℤ) : ℕ := if -4 ≤ e ∧ e < 6 then (5 - e).toNat else 5

/-- The number that six digits stand for. -/
def shown (q : ℚ) : ℚ := (sixDigits q).1 * 10 ^ ((sixDigits q).2 - 5)

/-- No digit behind the point is left. -/
def Pointless (q : ℚ) : Prop := (sixDigits q).1 % 10 ^ pointPlaces (sixDigits q).2 = 0

instance (q : ℚ) : Decidable (Pointless q) :=
  inferInstanceAs (Decidable ((sixDigits q).1 % 10 ^ pointPlaces (sixDigits q).2 = 0))

theorem putPositive_eq (q : ℚ) : putPositive q =
    putFixed (sixDigits q).1 (pointPlaces (sixDigits q).2) ++
      if -4 ≤ (sixDigits q).2 ∧ (sixDigits q).2 < 6 then [] else putExponent (sixDigits q).2 := by
  unfold putPositive pointPlaces
  obtain ⟨m, e⟩ := sixDigits q
  dsimp only
  split_ifs
  · rw [List.append_nil]
  · rfl

theorem pointed_putPositive {q : ℚ} (h : ¬ Pointless q) : Pointed (putPositive q) := by
  rw [putPositive_eq]
  exact (pointed_putFixed h).append _

theorem dot_notMem_putPositive {q : ℚ} (h : Pointless q) : '.' ∉ putPositive q := by
  rw [putPositive_eq, putFixed_of_dvd h]
  intro hmem
  rcases List.mem_append.mp hmem with hmem | hmem
  · exact dot_notMem_toDigits _ hmem
  · split_ifs at hmem
    · cases hmem
    · exact dot_notMem_putExponent _ hmem

/-- A natural number below a million, or one digit times a power of ten that is written with an
exponent. -/
def Plain (q : ℚ) : Prop :=
  (∃ n : ℕ, n < 10 ^ 6 ∧ q = n) ∨
    ∃ (d : ℕ) (e : ℤ), 1 ≤ d ∧ d ≤ 9 ∧ (6 ≤ e ∨ e ≤ -5) ∧ q = d * 10 ^ e

theorem shown_eq_of_sixDigits {m : ℕ} {e : ℤ} (hlo : 10 ^ 5 ≤ m) (hhi : m < 10 ^ 6) :
    shown (m * 10 ^ (e - 5)) = m * 10 ^ (e - 5) := by
  rw [shown, sixDigits_eq hlo hhi]

/-- The digits of a natural number below a million are padded with zeros, and these are left
out. -/
theorem shown_nat {n : ℕ} (hpos : n ≠ 0) (hn : n < 10 ^ 6) : Pointless n ∧ shown n = n := by
  have hlog : Nat.log 10 n ≤ 5 := Nat.lt_succ_iff.mp (Nat.log_lt_of_lt_pow hpos hn)
  obtain ⟨k, hk⟩ := Nat.exists_eq_add_of_le hlog
  have hlo := Nat.pow_log_le_self 10 hpos
  have hhi := Nat.lt_pow_succ_log_self (b := 10) (by decide) n
  have hm : 10 ^ 5 ≤ n * 10 ^ k := by
    calc 10 ^ 5 = 10 ^ Nat.log 10 n * 10 ^ k := by rw [← pow_add, ← hk]
      _ ≤ n * 10 ^ k := Nat.mul_le_mul_right _ hlo
  have hm' : n * 10 ^ k < 10 ^ 6 := by
    calc n * 10 ^ k < 10 ^ (Nat.log 10 n + 1) * 10 ^ k :=
          Nat.mul_lt_mul_of_pos_right hhi (by positivity)
      _ = 10 ^ 6 := by
          rw [← pow_add]
          congr 1
          omega
  have hn : (n : ℚ) = ((n * 10 ^ k : ℕ) : ℚ) * 10 ^ (((5 - k : ℕ) : ℤ) - 5) := by
    have hcancel : ((10 ^ k : ℕ) : ℚ) * 10 ^ (((5 - k : ℕ) : ℤ) - 5) = 1 := by
      rw [pow_mul_zpow, show ((5 - k : ℕ) : ℤ) - 5 + (k : ℕ) = 0 by omega, zpow_zero]
    rw [Nat.cast_mul, mul_assoc, hcancel, mul_one]
  have hsix := sixDigits_eq (e := ((5 - k : ℕ) : ℤ)) hm hm'
  constructor
  · have hplaces : pointPlaces ((5 - k : ℕ) : ℤ) = k := by
      rw [pointPlaces, if_pos (by omega)]
      omega
    rw [Pointless, hn, hsix, hplaces]
    exact Nat.mul_mod_left _ _
  · rw [hn]
    exact shown_eq_of_sixDigits hm hm'

/-- One digit is followed by five zeros, which are left out in front of the exponent. -/
theorem shown_digit {d : ℕ} {e : ℤ} (hd : 1 ≤ d) (hd' : d ≤ 9) (he : 6 ≤ e ∨ e ≤ -5) :
    Pointless (d * 10 ^ e) ∧ shown (d * 10 ^ e) = d * 10 ^ e := by
  have hm : 10 ^ 5 ≤ d * 10 ^ 5 := Nat.le_mul_of_pos_left _ hd
  have hm' : d * 10 ^ 5 < 10 ^ 6 := by omega
  have hval : (d : ℚ) * 10 ^ e = ((d * 10 ^ 5 : ℕ) : ℚ) * 10 ^ (e - 5) := by
    rw [Nat.cast_mul, mul_assoc, pow_mul_zpow, Nat.cast_ofNat, sub_add_cancel]
  have hsix := sixDigits_eq (e := e) hm hm'
  constructor
  · rw [Pointless, hval, hsix, pointPlaces, if_neg (by omega)]
    exact Nat.mul_mod_left _ _
  · rw [hval]
    exact shown_eq_of_sixDigits hm hm'

theorem plain_of_pointless {q : ℚ} (hq : 0 < q) (hpoint : Pointless q) (hshown : shown q = q) :
    Plain q := by
  obtain ⟨hlo, hhi⟩ := sixDigits_bounds hq
  rw [shown] at hshown
  rw [Pointless] at hpoint
  generalize (sixDigits q).1 = m at *
  generalize (sixDigits q).2 = e at *
  obtain ⟨n, hn⟩ := Nat.dvd_of_mod_eq_zero hpoint
  rw [pointPlaces] at hn
  subst hshown
  split_ifs at hn with he
  · left
    refine ⟨n, ?_, ?_⟩
    · refine lt_of_le_of_lt ?_ hhi
      rw [hn]
      exact Nat.le_mul_of_pos_left _ (by positivity)
    · have hcancel : ((10 ^ (5 - e).toNat : ℕ) : ℚ) * 10 ^ (e - 5) = 1 := by
        rw [pow_mul_zpow, show e - 5 + ((5 - e).toNat : ℕ) = 0 by omega, zpow_zero]
      rw [hn, Nat.cast_mul, mul_right_comm, hcancel, one_mul]
  · right
    refine ⟨n, e, by omega, by omega, by omega, ?_⟩
    rw [hn, Nat.cast_mul, mul_right_comm, pow_mul_zpow, Nat.cast_ofNat, sub_add_cancel, mul_comm]

/-- Exactly the plain numbers are shown as they are and without a point. -/
theorem plain_iff {q : ℚ} (hq : 0 < q) : Plain q ↔ Pointless q ∧ shown q = q := by
  constructor
  · rintro (⟨n, hn, rfl⟩ | ⟨d, e, hd, hd', he, rfl⟩)
    · exact shown_nat (Nat.cast_ne_zero.mp hq.ne') hn
    · exact shown_digit hd hd' he
  · exact fun h => plain_of_pointless hq h.1 h.2

section
variable {text : List Char} {n : ℕ}

theorem toLower_of_isDigit {c : Char} (hc : c.isDigit = true) : c.toLower = c := by
  have hrange := isDigit_iff.mp hc
  rw [Char.toLower, dif_neg]
  rintro ⟨hge, -⟩
  have hnat : 65 ≤ c.toNat := UInt32.le_iff_toNat_le.mp hge
  omega

theorem dropWord_of_isDigit {w c : Char} {word cs : List Char} (hw : w.isDigit = false)
    (hc : c.isDigit = true) : dropWord (w :: word) (c :: cs) = none := by
  rw [dropWord, if_neg]
  intro h
  have hhead := (List.cons.inj h).1
  rw [toLower_of_isDigit hc] at hhead
  exact ne_of_isDigit hc hw hhead

/-- A text behind a numeral that reads as an exponent or nothing. -/
def readsExponent (rest : List Char) (e : ℤ) : Prop :=
  readExponent 'e' 'E' rest = (e, []) ∧ (rest = [] ∨ ∃ cs, rest = 'e' :: cs)

theorem readHex_numeral (h : Numeral text n) {rest : List Char} {e : ℤ}
    (hrest : readsExponent rest e) : readHex (text ++ rest) = none := by
  have hnot : ∀ c : Char, c = 'x' ∨ c = 'X' → c.isDigit = false := by
    rintro c (rfl | rfl) <;> decide
  unfold readHex
  split
  · rename_i x cs heq
    rw [if_neg]
    intro hx
    cases text with
    | nil => exact h.ne_nil rfl
    | cons c text =>
      cases text with
      | nil =>
        rcases hrest.2 with rfl | ⟨ds, rfl⟩
        · cases heq
        · obtain rfl : 'e' = x := (List.cons.inj (List.cons.inj heq).2).1
          exact absurd hx (by decide)
      | cons d text =>
        obtain rfl : d = x := (List.cons.inj (List.cons.inj heq).2).1
        have hd := h.digits d (List.mem_cons_of_mem _ List.mem_cons_self)
        rw [hnot d hx] at hd
        cases hd
  · rfl

theorem readDecimal_numeral (h : Numeral text n) {rest : List Char} {e : ℤ}
    (hrest : readsExponent rest e) : readDecimal (text ++ rest) = some ((n : ℚ) * 10 ^ e, []) := by
  have hends : Ends rest := by
    rcases hrest.2 with rfl | ⟨cs, rfl⟩
    · exact ends_nil
    · exact ends_cons (by decide) cs
  have hmantissa : readMantissa Char.isDigit 10 (text ++ rest) = some ((n : ℚ), rest) := by
    rw [readMantissa, takeWhile_numeral h hends, dropWhile_numeral h hends]
    rcases hrest.2 with rfl | ⟨cs, rfl⟩ <;>
      simp [h.ne_nil, h.value]
  rw [readDecimal, hmantissa]
  simp only [Option.bind_eq_bind, Option.bind_some, hrest.1]
  rfl

theorem readMagnitude_numeral (h : Numeral text n) {rest : List Char} {e : ℤ}
    (hrest : readsExponent rest e) :
    readMagnitude (text ++ rest) = some (ExactDouble.fin (n * 10 ^ e), []) := by
  have hhex := readHex_numeral h hrest
  have hdecimal := readDecimal_numeral h hrest
  cases text with
  | nil => exact absurd rfl h.ne_nil
  | cons c text =>
    have hc := h.digits c List.mem_cons_self
    have hword : ∀ w word, w.isDigit = false → dropWord (w :: word) (c :: text ++ rest) = none :=
      fun w word hw => dropWord_of_isDigit hw hc
    rw [readMagnitude, hhex, hdecimal]
    change ((dropWord ('i' :: _) _).map _).or (((dropWord ('i' :: _) _).map _).or
      (((dropWord ('n' :: _) _).map _).or _)) = _
    rw [hword 'i' _ (by decide), hword 'i' _ (by decide), hword 'n' _ (by decide)]
    rfl

/-- A numeral with an exponent, and one behind a minus. -/
theorem strtod_numeral (h : Numeral text n) {rest : List Char} {e : ℤ}
    (hrest : readsExponent rest e) :
    strtod (text ++ rest) = (ExactDouble.fin (n * 10 ^ e), []) ∧
      strtod ('-' :: (text ++ rest)) = (ExactDouble.fin (-(n * 10 ^ e)), []) := by
  have hmagnitude := readMagnitude_numeral h hrest
  constructor
  · rw [strtod, takeSign_numeral h]
    dsimp only
    rw [hmagnitude]
    rfl
  · have hsign : takeSign (('-' :: (text ++ rest)).dropWhile isSpace) = (true, text ++ rest) := by
      rw [List.dropWhile_cons_of_neg (by decide)]
      rfl
    have hnonneg : ¬ (n : ℚ) * 10 ^ e < 0 := not_lt.mpr (by positivity)
    rw [strtod, hsign]
    dsimp only
    rw [hmagnitude]
    simp [Double.copysign, ExactDouble.signbit, ExactDouble.neg, Double.ofRat, hnonneg]

end

theorem readsExponent_nil : readsExponent [] 0 := ⟨rfl, .inl rfl⟩

theorem numeral_leftpad (n width : ℕ) : Numeral ((Nat.toDigits 10 n).leftpad width '0') n := by
  have hdigits : ∀ d ∈ (Nat.toDigits 10 n).leftpad width '0', d.isDigit = true := by
    intro d hd
    rcases List.mem_append.mp hd with hd | hd
    · rw [List.eq_of_mem_replicate hd]
      decide
    · exact (numeral_toDigits n).digits d hd
  refine ⟨List.append_ne_nil_of_right_ne_nil _ Nat.toDigits_ne_nil, hdigits, ?_⟩
  rw [ofDigits_eq_ofDigitChars hdigits, List.leftpad, Nat.ofDigitChars_append,
    Nat.ofDigitChars_replicate_zero, mul_zero, Nat.ofDigitChars_ten_toDigits]

theorem readsExponent_putExponent (e : ℤ) : readsExponent (putExponent e) e := by
  have hnum := numeral_leftpad e.natAbs 2
  have htake := takeWhile_numeral hnum ends_nil
  have hdrop := dropWhile_numeral hnum ends_nil
  rw [List.append_nil] at htake hdrop
  refine ⟨?_, .inr ⟨_, rfl⟩⟩
  have hsign : takeSign ((if e < 0 then '-' else '+') :: (Nat.toDigits 10 e.natAbs).leftpad 2 '0') =
      (decide (e < 0), (Nat.toDigits 10 e.natAbs).leftpad 2 '0') := by
    split_ifs with he
    · rw [decide_eq_true he]
      rfl
    · rw [decide_eq_false he]
      rfl
  rw [putExponent, readExponent, hsign]
  dsimp only
  rw [htake, hdrop, if_pos ⟨.inl rfl, hnum.ne_nil⟩, hnum.value, signed]
  congr 1
  by_cases he : e < 0
  · rw [decide_eq_true he, if_pos rfl]
    omega
  · rw [decide_eq_false he, if_neg Bool.false_ne_true]
    omega

/-- What is written without a point is read as what is shown. -/
theorem strtod_putPositive {q : ℚ} (hq : 0 < q) (h : Pointless q) :
    strtod (putPositive q) = (ExactDouble.fin (shown q), []) ∧
      strtod ('-' :: putPositive q) = (ExactDouble.fin (-shown q), []) := by
  obtain ⟨hlo, hhi⟩ := sixDigits_bounds hq
  obtain ⟨n, hn⟩ := Nat.dvd_of_mod_eq_zero h
  have hfixed : putFixed (sixDigits q).1 (pointPlaces (sixDigits q).2) = Nat.toDigits 10 n := by
    rw [putFixed_of_dvd h]
    congr 1
    rw [hn]
    exact Nat.mul_div_cancel_left _ (by positivity)
  rw [putPositive_eq, hfixed]
  by_cases he : -4 ≤ (sixDigits q).2 ∧ (sixDigits q).2 < 6
  · have hshown : shown q = n * 10 ^ (0 : ℤ) := by
      rw [shown, hn, pointPlaces, if_pos he, Nat.cast_mul, mul_right_comm, pow_mul_zpow,
        show (sixDigits q).2 - 5 + ((5 - (sixDigits q).2).toNat : ℕ) = 0 by omega, mul_comm]
    rw [if_pos he, hshown]
    exact strtod_numeral (numeral_toDigits n) readsExponent_nil
  · have hshown : shown q = n * 10 ^ (sixDigits q).2 := by
      rw [shown, hn, pointPlaces, if_neg he, Nat.cast_mul, mul_right_comm, pow_mul_zpow,
        Nat.cast_ofNat, sub_add_cancel, mul_comm]
    rw [if_neg he, hshown]
    exact strtod_numeral (numeral_toDigits n) (readsExponent_putExponent _)

/-- A double that is read back from its text, which has no point. -/
def PlainDouble : ExactDouble → Prop
  | .nan => True
  | .inf _ => True
  | .fin q => Plain |q|

theorem plain_zero : Plain 0 := .inl ⟨0, by decide, by simp⟩

/-- A double is written with a point between digits, or it is read back whole; the number read is
the same exactly for the plain doubles. -/
theorem putDouble_cases (x : ExactDouble) :
    (Pointed (putDouble x) ∧ ¬ PlainDouble x) ∨
    ('.' ∉ putDouble x ∧ ∃ r, strtod (putDouble x) = (r, []) ∧ (r = x ↔ PlainDouble x)) := by
  cases x with
  | nan => exact .inr ⟨by decide, .nan, by decide +kernel, iff_of_true rfl trivial⟩
  | inf negative =>
    right
    refine ⟨?_, .inf negative, ?_, iff_of_true rfl trivial⟩
    · cases negative <;> decide
    · cases negative <;> decide +kernel
  | fin q =>
    rcases lt_trichotomy q 0 with hq | rfl | hq
    · have hput : putDouble (.fin q) = '-' :: putPositive (-q) := by
        rw [putDouble, if_neg hq.ne, if_pos hq]
      have hpos : 0 < -q := neg_pos.mpr hq
      have hplain : PlainDouble (.fin q) ↔ Pointless (-q) ∧ shown (-q) = -q := by
        rw [PlainDouble, abs_of_neg hq]
        exact plain_iff hpos
      rw [hput]
      by_cases hp : Pointless (-q)
      · right
        refine ⟨?_, _, (strtod_putPositive hpos hp).2, ?_⟩
        · intro h
          rcases List.mem_cons.mp h with h | h
          · exact absurd h (by decide)
          · exact dot_notMem_putPositive hp h
        · rw [hplain, ExactDouble.fin.injEq, and_iff_right hp, neg_eq_iff_eq_neg]
      · left
        refine ⟨?_, fun h => hp (hplain.mp h).1⟩
        exact (pointed_putPositive hp).prepend (by decide : '.' ∉ ['-'])
    · have hplain : PlainDouble (.fin 0) := by simpa [PlainDouble] using plain_zero
      exact .inr ⟨by decide, .fin 0, by decide +kernel, iff_of_true rfl hplain⟩
    · have hput : putDouble (.fin q) = putPositive q := by
        rw [putDouble, if_neg hq.ne', if_neg hq.not_gt]
      have hplain : PlainDouble (.fin q) ↔ Pointless q ∧ shown q = q := by
        rw [PlainDouble, abs_of_pos hq]
        exact plain_iff hq
      rw [hput]
      by_cases hp : Pointless q
      · right
        refine ⟨dot_notMem_putPositive hp, _, (strtod_putPositive hq hp).1, ?_⟩
        rw [hplain, ExactDouble.fin.injEq, and_iff_right hp]
      · exact .inl ⟨pointed_putPositive hp, fun h => hp (hplain.mp h).1⟩

end GmaEngine.CNumerals
