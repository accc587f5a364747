import GmaEngine.CNumerals

/-!
# Decimal numerals

A numeral is a nonempty text of digits. The readers of the C library give its value and stop
behind it; the text of a natural number is a numeral of that value.
-/

namespace GmaEngine.CNumerals

structure Numeral (text : List Char) (n : ℕ) : Prop where
  ne_nil : text ≠ []
  digits : ∀ c ∈ text, c.isDigit = true
  value : ofDigits 10 text = n

/-- A numeral ends in front of such a text. -/
def Ends (rest : List Char) : Prop := ∀ c ∈ rest.head?, c.isDigit = false

theorem ends_nil : Ends [] := fun c hc => by cases hc

theorem ends_cons {c : Char} (hc : c.isDigit = false) (rest : List Char) : Ends (c :: rest) := by
  intro d hd
  cases hd
  exact hc

theorem isDigit_iff {c : Char} : c.isDigit = true ↔ 48 ≤ c.toNat ∧ c.toNat ≤ 57 := by
  rw [Char.isDigit, Bool.and_eq_true, decide_eq_true_iff, decide_eq_true_iff, ge_iff_le,
    UInt32.le_iff_toNat_le, UInt32.le_iff_toNat_le]
  exact Iff.rfl

theorem ne_of_isDigit {c d : Char} (hc : c.isDigit = true) (hd : d.isDigit = false) : c ≠ d := by
  rintro rfl
  rw [hc] at hd
  cases hd

theorem isSpace_of_isDigit {c : Char} (hc : c.isDigit = true) : isSpace c = false := by
  have hrange := isDigit_iff.mp hc
  have hle : ¬ c ≤ '\r' := by
    intro h
    have hnat : c.toNat ≤ 13 := by
      have := UInt32.le_iff_toNat_le.mp h
      exact this
    omega
  simp [isSpace, ne_of_isDigit hc (show (' ' : Char).isDigit = false by decide), hle]

theorem digitValue_of_isDigit {c : Char} (hc : c.isDigit = true) :
    digitValue c = c.toNat - '0'.toNat := if_pos hc

theorem ofDigits_eq_ofDigitChars {text : List Char} (h : ∀ c ∈ text, c.isDigit = true) :
    ofDigits 10 text = Nat.ofDigitChars 10 text 0 := by
  have hstep : ∀ acc, ∀ cs : List Char, (∀ c ∈ cs, c.isDigit = true) →
      cs.foldl (fun acc c => acc * 10 + digitValue c) acc =
        cs.foldl (fun acc c => 10 * acc + (c.toNat - '0'.toNat)) acc := by
    intro acc cs hcs
    induction cs generalizing acc with
    | nil => rfl
    | cons c cs ih =>
      rw [List.foldl_cons, List.foldl_cons, digitValue_of_isDigit (hcs c List.mem_cons_self),
        mul_comm acc 10]
      exact ih _ (fun d hd => hcs d (List.mem_cons_of_mem _ hd))
  exact hstep 0 text h

theorem numeral_toDigits (n : ℕ) : Numeral (Nat.toDigits 10 n) n := by
  have hdigits : ∀ c ∈ Nat.toDigits 10 n, c.isDigit = true :=
    fun c hc => Nat.isDigit_of_mem_toDigits (by decide) (by decide) hc
  refine ⟨Nat.toDigits_ne_nil, hdigits, ?_⟩
  rw [ofDigits_eq_ofDigitChars hdigits, Nat.ofDigitChars_ten_toDigits]

/-- The decimal text of a natural number. -/
theorem numeral_toString (n : ℕ) : Numeral (toString n).toList n := by
  rw [Nat.toString_eq_repr, Nat.toList_repr]
  exact numeral_toDigits n

theorem Numeral.notMem {text : List Char} {n : ℕ} (h : Numeral text n) {c : Char}
    (hc : c.isDigit = false) : c ∉ text := by
  intro hmem
  rw [h.digits c hmem] at hc
  cases hc

section
variable {text rest : List Char} {n : ℕ}

theorem takeWhile_numeral (h : Numeral text n) (hrest : Ends rest) :
    (text ++ rest).takeWhile Char.isDigit = text := by
  rw [List.takeWhile_append_of_pos h.digits]
  cases rest with
  | nil => simp
  | cons c rest => simp [hrest c rfl]

theorem dropWhile_numeral (h : Numeral text n) (hrest : Ends rest) :
    (text ++ rest).dropWhile Char.isDigit = rest := by
  rw [List.dropWhile_append_of_pos h.digits]
  cases rest with
  | nil => rfl
  | cons c rest => simp [hrest c rfl]

/-- A numeral starts with neither a space nor a sign. -/
theorem takeSign_numeral (h : Numeral text n) :
    takeSign ((text ++ rest).dropWhile isSpace) = (false, text ++ rest) := by
  cases text with
  | nil => exact absurd rfl h.ne_nil
  | cons c text =>
    have hc := h.digits c List.mem_cons_self
    have hminus := ne_of_isDigit hc (show ('-' : Char).isDigit = false by decide)
    have hplus := ne_of_isDigit hc (show ('+' : Char).isDigit = false by decide)
    rw [List.cons_append, List.dropWhile_cons_of_neg (by simp [isSpace_of_isDigit hc])]
    unfold takeSign
    split
    · rename_i heq
      exact absurd (List.cons.inj heq).1 hminus
    · rename_i heq
      exact absurd (List.cons.inj heq).1 hplus
    · rfl

theorem readInt_numeral (h : Numeral text n) (hrest : Ends rest) :
    readInt (text ++ rest) = some ((n : ℤ), rest) := by
  rw [readInt, takeSign_numeral h]
  dsimp only
  rw [takeWhile_numeral h hrest, dropWhile_numeral h hrest, if_neg h.ne_nil, h.value]
  rfl

theorem strtol_numeral (h : Numeral text n) (hrest : Ends rest) :
    strtol (text ++ rest) = (min (2 ^ 63 - 1) (n : ℤ), rest) := by
  rw [strtol, readInt_numeral h hrest]
  dsimp only
  rw [max_eq_right (by omega)]

theorem stoi_numeral (h : Numeral text n) (hn : (n : ℤ) < 2 ^ 31) : stoi text = some (n : ℤ) := by
  have hread := readInt_numeral h ends_nil
  rw [List.append_nil] at hread
  have hrange : (-2 ^ 31 : ℤ) ≤ n ∧ (n : ℤ) < 2 ^ 31 := ⟨by omega, hn⟩
  rw [stoi, hread, Option.bind_eq_bind, Option.bind_some]
  dsimp only
  rw [if_pos hrange]

end
end GmaEngine.CNumerals
