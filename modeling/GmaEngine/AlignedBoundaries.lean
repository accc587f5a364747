import Mathlib.Order.Bounds.Basic
import Mathlib.Tactic.Linarith
import Mathlib.Tactic.Ring

/-!
# Aligned boundaries

A window node waits for the next multiple of its period on the wall clock. A time point counts
nanoseconds since the epoch, a period milliseconds, both in an `int64_t`; the boundary is computed
from whole milliseconds.
-/

namespace GmaEngine

namespace Multiples
variable {p a b : ℤ}

/-- The multiples of `p` after `a`. -/
def after (p a : ℤ) : Set ℤ := {t | a < t ∧ p ∣ t}

theorem isLeast_after (hp : 0 < p) (a : ℤ) : IsLeast (after p a) ((a / p + 1) * p) := by
  constructor
  · refine ⟨?_, dvd_mul_left p _⟩
    have hlt := Int.lt_ediv_add_one_mul_self a hp
    exact hlt
  · rintro t ⟨hlt, k, rfl⟩
    have hquot : a / p < k := Int.ediv_lt_of_lt_mul hp (by rwa [mul_comm k p])
    rw [mul_comm p k]
    exact mul_le_mul_of_nonneg_right hquot hp.le

theorem after_anti (h : a ≤ b) : after p b ⊆ after p a :=
  fun _ ht => ⟨h.trans_lt ht.1, ht.2⟩

/-- No multiple lies between a boundary and the next one. -/
theorem after_of_isLeast {m t : ℤ} (ht : IsLeast (after p a) t) (hm : m ∈ after p a) :
    m = t ∨ m ∈ after p t := by
  rcases (ht.2 hm).eq_or_lt with heq | hlt
  · exact .inl heq.symm
  · exact .inr ⟨hlt, hm.2⟩

end Multiples

namespace BucketTime
open Multiples

/-- An `int64_t` result; `none` is an overflow. -/
def int64 (n : ℤ) : Option ℤ := if -2 ^ 63 ≤ n ∧ n < 2 ^ 63 then some n else none

/-- `duration_cast<milliseconds>`, which truncates. -/
def toMilliseconds (ns : ℤ) : ℤ := ns.tdiv 1000000

def nextAlignedAfter (start period : ℤ) : Option ℤ :=
  let epochMs := toMilliseconds start
  if period ≤ 0 then some start
  else do
    let count ← int64 (epochMs.tdiv period + 1)
    let nextMs ← int64 (count * period)
    int64 (nextMs * 1000000)

/-- The boundaries from a start on: the start, the boundary after it, and so on. -/
def boundary (start period : ℤ) : ℕ → Option ℤ
  | 0 => some start
  | n + 1 => do nextAlignedAfter (← boundary start period n) period

/-- A period in nanoseconds. -/
def nanoseconds (period : ℤ) : ℤ := period * 1000000

variable {start period t : ℤ}

theorem int64_eq_some_iff {n m : ℤ} : int64 n = some m ↔ n = m ∧ -2 ^ 63 ≤ n ∧ n < 2 ^ 63 := by
  rw [int64, Option.ite_none_right_eq_some, Option.some_inj, and_comm]

theorem nanoseconds_pos (hperiod : 0 < period) : 0 < nanoseconds period := by
  unfold nanoseconds
  omega

/-- Truncation to milliseconds does not change the bucket. -/
theorem toMilliseconds_tdiv (hstart : 0 ≤ start) :
    (toMilliseconds start).tdiv period = start / nanoseconds period := by
  have hms : toMilliseconds start = start / 1000000 := Int.tdiv_eq_ediv_of_nonneg hstart
  have hnonneg : 0 ≤ start / 1000000 := Int.ediv_nonneg hstart (by norm_num)
  rw [hms, Int.tdiv_eq_ediv_of_nonneg hnonneg, Int.ediv_ediv_of_nonneg (by norm_num), nanoseconds,
    mul_comm period]

/-- The computation succeeds exactly if its last result is in range: the others are smaller. -/
theorem nextAlignedAfter_eq_some_iff (hstart : 0 ≤ start) (hperiod : 0 < period) :
    nextAlignedAfter start period = some t ↔
      t = (start / nanoseconds period + 1) * nanoseconds period ∧ t < 2 ^ 63 := by
  have hquot : 0 ≤ start / nanoseconds period :=
    Int.ediv_nonneg hstart (nanoseconds_pos hperiod).le
  have hassoc : ∀ k : ℤ, k * nanoseconds period = k * period * 1000000 := by
    intro k
    unfold nanoseconds
    ring
  rw [nextAlignedAfter, if_neg hperiod.not_ge, toMilliseconds_tdiv hstart]
  generalize start / nanoseconds period = q at hquot
  have hcount : q + 1 ≤ (q + 1) * period := le_mul_of_one_le_right (by omega) hperiod
  simp only [Option.bind_eq_bind, Option.bind_eq_some_iff, int64_eq_some_iff, hassoc]
  constructor
  · rintro ⟨k, ⟨rfl, -⟩, m, ⟨rfl, -⟩, rfl, -, hlt⟩
    exact ⟨rfl, hlt⟩
  · rintro ⟨rfl, hlt⟩
    exact ⟨_, ⟨rfl, by omega⟩, _, ⟨rfl, by omega⟩, rfl, by omega⟩

/-- The boundary is the least later multiple of the period, whenever that one is a time point. -/
theorem nextAlignedAfter_iff_isLeast (hstart : 0 ≤ start) (hperiod : 0 < period) :
    nextAlignedAfter start period = some t ↔
      IsLeast (after (nanoseconds period) start) t ∧ t < 2 ^ 63 := by
  have hleast := isLeast_after (nanoseconds_pos hperiod) start
  rw [nextAlignedAfter_eq_some_iff hstart hperiod]
  constructor
  · rintro ⟨rfl, hlt⟩
    exact ⟨hleast, hlt⟩
  · rintro ⟨ht, hlt⟩
    exact ⟨ht.unique hleast, hlt⟩

/-- Every boundary after the start is a later multiple. -/
theorem boundary_succ_mem (hstart : 0 ≤ start) (hperiod : 0 < period) {n : ℕ}
    (h : boundary start period (n + 1) = some t) : t ∈ after (nanoseconds period) start := by
  induction n generalizing t with
  | zero => exact ((nextAlignedAfter_iff_isLeast hstart hperiod).mp h).1.1
  | succ n ih =>
    obtain ⟨prev, hprev, hnext⟩ := Option.bind_eq_some_iff.mp h
    have hmem := ih hprev
    have hleast := ((nextAlignedAfter_iff_isLeast (hstart.trans hmem.1.le) hperiod).mp hnext).1
    exact after_anti hmem.1.le hleast.1

theorem boundary_nonneg (hstart : 0 ≤ start) (hperiod : 0 < period) {n : ℕ}
    (h : boundary start period n = some t) : 0 ≤ t := by
  cases n with
  | zero =>
    cases h
    exact hstart
  | succ n => exact hstart.trans (boundary_succ_mem hstart hperiod h).1.le

/-- The boundaries increase. -/
theorem boundary_lt (hstart : 0 ≤ start) (hperiod : 0 < period) {n k : ℕ} {t' : ℤ}
    (h : boundary start period n = some t) (h' : boundary start period (n + k + 1) = some t') :
    t < t' := by
  induction k generalizing t' with
  | zero =>
    obtain ⟨prev, hprev, hnext⟩ := Option.bind_eq_some_iff.mp h'
    have hsame : t = prev := Option.some.inj (h.symm.trans hprev)
    have hnonneg := boundary_nonneg hstart hperiod hprev
    rw [hsame]
    exact ((nextAlignedAfter_iff_isLeast hnonneg hperiod).mp hnext).1.1.1
  | succ k ih =>
    obtain ⟨prev, hprev, hnext⟩ := Option.bind_eq_some_iff.mp h'
    have hnonneg := boundary_nonneg hstart hperiod hprev
    exact (ih hprev).trans ((nextAlignedAfter_iff_isLeast hnonneg hperiod).mp hnext).1.1.1

theorem boundary_injective (hstart : 0 ≤ start) (hperiod : 0 < period) {n n' : ℕ}
    (h : boundary start period n = some t) (h' : boundary start period n' = some t) : n = n' := by
  rcases Nat.lt_trichotomy n n' with hlt | heq | hlt
  · obtain ⟨k, rfl⟩ := Nat.exists_eq_add_of_lt hlt
    exact absurd (boundary_lt hstart hperiod h h') (lt_irrefl t)
  · exact heq
  · obtain ⟨k, rfl⟩ := Nat.exists_eq_add_of_lt hlt
    exact absurd (boundary_lt hstart hperiod h' h) (lt_irrefl t)

/-- Every later multiple is reached. The induction is on the multiples that are left. -/
theorem exists_boundary (hperiod : 0 < period) {m : ℤ} (hm : m < 2 ^ 63) (hstart : 0 ≤ start)
    (hmem : m ∈ after (nanoseconds period) start) : ∃ n, boundary start period n = some m := by
  suffices hreach : ∀ left : ℕ, ∀ n t, boundary start period n = some t →
      m ∈ after (nanoseconds period) t → m - t ≤ left → ∃ n, boundary start period n = some m by
    exact hreach (m - start).toNat 0 start rfl hmem (by omega)
  intro left
  induction left with
  | zero =>
    intro n t _ hlater hleft
    have hlt := hlater.1
    omega
  | succ left ih =>
    intro n t hn hlater hleft
    have hnonneg := boundary_nonneg hstart hperiod hn
    have hleast := isLeast_after (nanoseconds_pos hperiod) t
    have hbound := (hleast.2 hlater).trans_lt hm
    have hnext := (nextAlignedAfter_iff_isLeast hnonneg hperiod).mpr ⟨hleast, hbound⟩
    have hsucc : boundary start period (n + 1) = nextAlignedAfter t period := by
      rw [boundary, hn, Option.bind_eq_bind, Option.bind_some]
    rw [hnext] at hsucc
    rcases after_of_isLeast hleast hlater with rfl | hrest
    · exact ⟨n + 1, hsucc⟩
    · refine ih (n + 1) _ hsucc hrest ?_
      have hlt := hleast.1.1
      omega

/-- The boundary after a time point is the least later multiple of the period, as far as there is
one in range. So it is monotone and the same within a bucket, and its iteration visits the later
multiples, each one once. -/
theorem aligned_boundaries (hstart : 0 ≤ start) (hperiod : 0 < period) :
    (∀ t, nextAlignedAfter start period = some t ↔
      IsLeast (after (nanoseconds period) start) t ∧ t < 2 ^ 63) ∧
    (∀ later, start ≤ later → ∀ t', nextAlignedAfter later period = some t' →
      ∃ t, nextAlignedAfter start period = some t ∧ t ≤ t') ∧
    (∀ other, 0 ≤ other → other / nanoseconds period = start / nanoseconds period →
      nextAlignedAfter other period = nextAlignedAfter start period) ∧
    (∀ m < 2 ^ 63, m ∈ after (nanoseconds period) start →
      ∃! n, boundary start period n = some m) ∧
    (∀ n m, boundary start period (n + 1) = some m → m ∈ after (nanoseconds period) start) := by
  refine ⟨?_, ?_, ?_, ?_, ?_⟩
  · exact fun t => nextAlignedAfter_iff_isLeast hstart hperiod
  · intro later hle t' ht'
    obtain ⟨hleast', hlt'⟩ :=
      (nextAlignedAfter_iff_isLeast (hstart.trans hle) hperiod).mp ht'
    have hleast := isLeast_after (nanoseconds_pos hperiod) start
    have hbound := hleast.2 (after_anti hle hleast'.1)
    exact ⟨_, (nextAlignedAfter_iff_isLeast hstart hperiod).mpr ⟨hleast, hbound.trans_lt hlt'⟩,
      hbound⟩
  · intro other hother hsame
    ext t
    rw [nextAlignedAfter_eq_some_iff hother hperiod,
      nextAlignedAfter_eq_some_iff hstart hperiod, hsame]
  · intro m hm hmem
    obtain ⟨n, hn⟩ := exists_boundary hperiod hm hstart hmem
    exact ⟨n, hn, fun n' hn' => boundary_injective hstart hperiod hn' hn⟩
  · exact fun n m h => boundary_succ_mem hstart hperiod h

/-- From one nanosecond before the second minute, with a period of one minute. -/
theorem aligned_boundaries_minute : nextAlignedAfter 119999999999 60000 = some 120000000000 ∧
    IsLeast (after (nanoseconds 60000) 119999999999) 120000000000 := by
  have hnext : nextAlignedAfter 119999999999 60000 = some 120000000000 := by decide
  exact ⟨hnext, (((aligned_boundaries (by decide) (by decide)).1 _).mp hnext).1⟩

end BucketTime
end GmaEngine
