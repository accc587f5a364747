import Mathlib.Data.List.DropRight

/-!
# Histories of bounded length

A history keeps the latest `cap` entries: a new one is appended and the oldest one leaves when
there are too many.
-/

namespace GmaEngine.SlidingHistory

variable {α : Type*} {cap : ℕ} {xs ys : List α} {a : α}

def push (cap : ℕ) (hist : List α) (a : α) : List α :=
  let hist := hist ++ [a]
  if cap < hist.length then hist.tail else hist

/-- Pushing on the last `cap` entries of a sequence gives those of the longer sequence. -/
theorem push_rtake (hcap : 0 < cap) : push cap (xs.rtake cap) a = (xs ++ [a]).rtake cap := by
  have hlen : (xs.rtake cap ++ [a]).length = min cap xs.length + 1 := by
    simp only [List.rtake, List.length_append, List.length_drop, List.length_singleton]
    omega
  simp only [push, hlen, ← List.drop_one]
  split_ifs with hfull
  · rw [List.drop_append_of_le_length (by simp [List.rtake]; omega), List.rtake, List.rtake,
      List.drop_drop, List.drop_append_of_le_length (by simp; omega)]
    congr 2
    simp only [List.length_append, List.length_singleton]
    omega
  · rw [List.rtake, List.rtake, ← List.drop_append_of_le_length (by omega)]
    congr 1
    simp only [List.length_append, List.length_singleton]
    omega

theorem foldl_push (hcap : 0 < cap) :
    ys.foldl (push cap) (xs.rtake cap) = (xs ++ ys).rtake cap := by
  induction ys generalizing xs with
  | nil => simp
  | cons y ys ih =>
    rw [List.foldl_cons, push_rtake hcap, ih]
    simp

theorem getElem?_rtake {i : ℕ} :
    (xs.rtake cap)[i]? = xs[xs.length - cap + i]? := by
  rw [List.rtake, List.getElem?_drop]

theorem length_rtake : (xs.rtake cap).length = min cap xs.length := by
  simp only [List.rtake, List.length_drop]
  omega

theorem rtake_append_of_le (h : cap ≤ ys.length) : (xs ++ ys).rtake cap = ys.rtake cap := by
  have hlen : (xs ++ ys).length - cap = xs.length + (ys.length - cap) := by
    rw [List.length_append]
    omega
  rw [List.rtake, hlen, List.drop_length_add_append, List.rtake]

/-- Only the last entries of a longer sequence count. -/
theorem rtake_rtake_append : ((xs.rtake cap) ++ ys).rtake cap = (xs ++ ys).rtake cap := by
  rcases Nat.le_total cap xs.length with hlong | hshort
  · have hsplit : xs ++ ys = xs.take (xs.length - cap) ++ (xs.rtake cap ++ ys) := by
      rw [List.rtake, ← List.append_assoc, List.take_append_drop]
    have hlen : cap ≤ (xs.rtake cap ++ ys).length := by
      rw [List.length_append, length_rtake]
      omega
    rw [hsplit, rtake_append_of_le hlen]
  · have hsame : xs.rtake cap = xs := by
      rw [List.rtake, Nat.sub_eq_zero_of_le hshort, List.drop_zero]
    rw [hsame]

section Repeated
variable {k : ℕ} (hcap : cap ≤ xs.length + 1)
include hcap

/-- The entries after `k` pushes: those of one push, moved up by `k - 1`. -/
theorem getElem?_rtake_replicate_of_lt {j : ℕ} (hj : j + (k - 1) < cap) (hk : 0 < k) :
    ((xs ++ List.replicate k a).rtake cap)[j]? = ((xs ++ [a]).rtake cap)[j + (k - 1)]? := by
  rw [getElem?_rtake, getElem?_rtake]
  simp only [List.length_append, List.length_replicate, List.length_singleton]
  rcases Nat.lt_or_ge (xs.length + k - cap + j) xs.length with hin | hin
  · rw [List.getElem?_append_left hin, List.getElem?_append_left (by omega)]
    congr 1
    omega
  · have hzero : xs.length + 1 - cap + (j + (k - 1)) - xs.length = 0 := by omega
    rw [List.getElem?_append_right hin, List.getElem?_append_right (by omega),
      List.getElem?_replicate, if_pos (by omega), hzero, List.getElem?_cons_zero]

theorem getElem?_rtake_replicate_of_ge {j : ℕ} (hj : j < cap) (hge : cap ≤ j + (k - 1)) :
    ((xs ++ List.replicate k a).rtake cap)[j]? = some a := by
  rw [getElem?_rtake]
  simp only [List.length_append, List.length_replicate]
  rw [List.getElem?_append_right (by omega), List.getElem?_replicate, if_pos (by omega)]

/-- If the repetition does not show, every entry is the repeated one. -/
theorem rtake_eq_replicate_of_repeated (hk : 1 < k)
    (heq : (xs ++ List.replicate k a).rtake cap = (xs ++ [a]).rtake cap) :
    (xs ++ [a]).rtake cap = List.replicate cap a := by
  have hall : ∀ n j, cap - j ≤ n → j < cap → ((xs ++ [a]).rtake cap)[j]? = some a := by
    intro n
    induction n with
    | zero =>
      intro j hn hj
      omega
    | succ n ih =>
      intro j hn hj
      rw [← heq]
      rcases Nat.lt_or_ge (j + (k - 1)) cap with hlt | hge
      · rw [getElem?_rtake_replicate_of_lt hcap hlt (by omega)]
        exact ih _ (by omega) hlt
      · exact getElem?_rtake_replicate_of_ge hcap hj hge
  apply List.ext_getElem?
  intro j
  rcases Nat.lt_or_ge j cap with hj | hj
  · rw [hall _ j le_rfl hj, List.getElem?_replicate, if_pos hj]
  · rw [List.getElem?_eq_none (by rw [length_rtake]; omega),
      List.getElem?_eq_none (by simpa using hj)]

theorem rtake_replicate_of_eq_replicate (hk : 0 < k)
    (hrep : (xs ++ [a]).rtake cap = List.replicate cap a) :
    (xs ++ List.replicate k a).rtake cap = List.replicate cap a := by
  apply List.ext_getElem?
  intro j
  rcases Nat.lt_or_ge j cap with hj | hj
  · rw [List.getElem?_replicate, if_pos hj]
    rcases Nat.lt_or_ge (j + (k - 1)) cap with hlt | hge
    · rw [getElem?_rtake_replicate_of_lt hcap hlt hk, hrep, List.getElem?_replicate, if_pos hlt]
    · exact getElem?_rtake_replicate_of_ge hcap hj hge
  · rw [List.getElem?_eq_none (by rw [length_rtake]; omega),
      List.getElem?_eq_none (by simpa using hj)]

end Repeated

/-- When several pushes of one entry leave the history that a single push would. -/
theorem rtake_append_replicate_eq_iff {k : ℕ} (hk : 0 < k) :
    (xs ++ List.replicate k a).rtake cap = (xs ++ [a]).rtake cap ↔
      k = 1 ∨ (xs ++ [a]).rtake cap = List.replicate cap a := by
  constructor
  · intro heq
    rcases Nat.lt_or_ge 1 k with hk1 | hk1
    · have hlen := congrArg List.length heq
      simp only [length_rtake, List.length_append, List.length_replicate,
        List.length_singleton] at hlen
      exact .inr (rtake_eq_replicate_of_repeated (by omega) hk1 heq)
    · exact .inl (by omega)
  · rintro (rfl | hrep)
    · rfl
    · have hlen := congrArg List.length hrep
      simp only [length_rtake, List.length_append, List.length_replicate,
        List.length_singleton] at hlen
      rw [hrep, rtake_replicate_of_eq_replicate (by omega) hk hrep]

end GmaEngine.SlidingHistory
