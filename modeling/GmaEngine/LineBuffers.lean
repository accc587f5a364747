import Mathlib.Data.List.Basic
import Mathlib.Data.Nat.Init

/-!
# Lines read through a buffer

`fgets` takes from a stream what its buffer holds: up to the next newline, which it keeps, or as
much as there is room for.
-/

namespace GmaEngine.LineBuffers

variable {n : ℕ} {line s tail : List Char}

/-- At most `n` characters, none after a newline, and what is left of the stream. -/
def fgets : ℕ → List Char → List Char × List Char
  | 0, s => ([], s)
  | _ + 1, [] => ([], [])
  | n + 1, c :: s =>
    if c = '\n' then ([c], s)
    else
      let (chunk, rest) := fgets n s
      (c :: chunk, rest)

/-- A line that fits is taken with its newline. -/
theorem fgets_line (hline : '\n' ∉ line) (hlen : line.length < n) (rest : List Char) :
    fgets n (line ++ '\n' :: rest) = (line ++ ['\n'], rest) := by
  induction line generalizing n with
  | nil =>
    obtain ⟨n, rfl⟩ := Nat.exists_eq_add_one.mpr hlen
    rfl
  | cons c line ih =>
    obtain ⟨hc, hline⟩ := not_or.mp (mt List.mem_cons.mpr hline)
    obtain ⟨n, rfl⟩ := Nat.exists_eq_add_one.mpr (Nat.zero_lt_of_lt hlen)
    rw [List.cons_append, fgets, if_neg (Ne.symm hc), ih hline (Nat.lt_of_succ_lt_succ hlen)]
    rfl

theorem fgets_last (hline : '\n' ∉ line) (hlen : line.length ≤ n) : fgets n line = (line, []) := by
  induction line generalizing n with
  | nil => cases n <;> rfl
  | cons c line ih =>
    obtain ⟨hc, hline⟩ := not_or.mp (mt List.mem_cons.mpr hline)
    obtain ⟨n, rfl⟩ := Nat.exists_eq_add_one.mpr (Nat.zero_lt_of_lt hlen)
    rw [fgets, if_neg (Ne.symm hc), ih hline (Nat.le_of_succ_le_succ hlen)]

/-- A line that does not fit is taken in part, without a newline. -/
theorem fgets_full (hline : '\n' ∉ line) (hlen : n ≤ line.length) (tail : List Char) :
    fgets n (line ++ tail) = (line.take n, line.drop n ++ tail) := by
  induction n generalizing line with
  | zero => cases line <;> rfl
  | succ n ih =>
    cases line with
    | nil => cases hlen
    | cons c line =>
      obtain ⟨hc, hline⟩ := not_or.mp (mt List.mem_cons.mpr hline)
      rw [List.cons_append, fgets, if_neg (Ne.symm hc), ih hline (Nat.le_of_succ_le_succ hlen)]
      rfl

theorem length_fgets_le (n : ℕ) (s : List Char) : (fgets n s).2.length ≤ s.length := by
  induction n generalizing s with
  | zero => exact Nat.le_refl _
  | succ n ih =>
    cases s with
    | nil => exact Nat.le_refl _
    | cons c s =>
      rw [fgets]
      split_ifs
      · exact Nat.le_succ _
      · exact Nat.le_trans (ih s) (Nat.le_succ _)

/-- A buffer with room takes something. -/
theorem length_fgets_lt (hn : 0 < n) (hs : s ≠ []) : (fgets n s).2.length < s.length := by
  obtain ⟨n, rfl⟩ := Nat.exists_eq_add_one.mpr hn
  obtain ⟨c, s, rfl⟩ := List.exists_cons_of_ne_nil hs
  rw [fgets]
  split_ifs
  · exact Nat.lt_succ_self _
  · exact Nat.lt_succ_of_le (length_fgets_le n s)

/-- Induction on the lines of a stream. -/
theorem lines_induction {P : List Char → Prop} (last : ∀ line, '\n' ∉ line → P line)
    (more : ∀ line rest, '\n' ∉ line → P rest → P (line ++ '\n' :: rest)) (s : List Char) :
    P s := by
  induction hlen : s.length using Nat.strong_induction_on generalizing s with
  | h len ih =>
    by_cases hs : '\n' ∈ s
    · obtain ⟨line, rest, rfl, hline⟩ := List.eq_append_cons_of_mem hs
      have hlt : rest.length < len := by
        rw [← hlen, List.length_append, List.length_cons]
        omega
      exact more line rest hline (ih rest.length hlt rest rfl)
    · exact last s hs

end GmaEngine.LineBuffers
