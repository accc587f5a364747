import Mathlib.Algebra.Order.Field.Basic
import Mathlib.Data.List.Basic
import Mathlib.Tactic.Linarith
import Mathlib.Tactic.Ring

/-!
# Token buckets

A bucket holds at most `burst` tokens and gains `rate` of them in a unit of time. The refill is
made up for at each attempt, granted or not; a granted attempt takes one token.
-/

namespace GmaEngine

structure TokenBucket (K : Type*) where
  tokens : K
  lastRefill : K

namespace TokenBucket
variable {K : Type*} [Field K] [LinearOrder K]

section
variable (burst rate : K)

/-- The tokens at a time, before the attempt made then. -/
def refilled (b : TokenBucket K) (now : K) : K :=
  min burst (b.tokens + (now - b.lastRefill) * rate)

def granted (b : TokenBucket K) (now : K) : Bool := decide (1 ≤ b.refilled burst rate now)

def attempt (b : TokenBucket K) (now : K) : TokenBucket K :=
  ⟨b.refilled burst rate now - if b.granted burst rate now then 1 else 0, now⟩

/-- The attempts of a run at the given times, each with its answer. -/
def answers (b : TokenBucket K) : List K → List (K × Bool)
  | [] => []
  | now :: times => (now, b.granted burst rate now) :: answers (b.attempt burst rate now) times

def run (b : TokenBucket K) (times : List K) : TokenBucket K := times.foldl (attempt burst rate) b

end

/-- How many of the attempts in an interval were granted. -/
def grantedIn (s t : K) (answers : List (K × Bool)) : ℕ :=
  answers.countP (fun a => a.2 && decide (s ≤ a.1 ∧ a.1 ≤ t))

/-- How many attempts were made from a time on. -/
def madeSince (s : K) (times : List K) : ℕ := times.countP (fun x => decide (s ≤ x))

/-- At no attempt are there more attempts in an interval that ends with it than the burst and what
is gained in the interval. -/
def WithinRate (burst rate : K) (times : List K) : Prop :=
  ∀ before now after, times = before ++ now :: after → ∀ s ≤ now,
    (madeSince s (before ++ [now]) : K) ≤ burst + rate * (now - s)

structure Valid (burst : K) (b : TokenBucket K) : Prop where
  nonneg : 0 ≤ b.tokens
  bounded : b.tokens ≤ burst

section Attempts
variable {burst rate s t now : K} {b : TokenBucket K} {times : List K}

theorem refilled_le_burst : b.refilled burst rate now ≤ burst := min_le_left _ _

theorem refilled_le : b.refilled burst rate now ≤ b.tokens + (now - b.lastRefill) * rate :=
  min_le_right _ _

/-- A granted attempt takes one of the tokens. -/
theorem tokens_attempt : (b.attempt burst rate now).tokens =
    b.refilled burst rate now - if b.granted burst rate now then 1 else 0 := rfl

@[simp] theorem lastRefill_attempt : (b.attempt burst rate now).lastRefill = now := rfl

theorem one_le_of_granted (h : b.granted burst rate now = true) : 1 ≤ b.refilled burst rate now :=
  of_decide_eq_true h

theorem fst_mem_of_mem_answers {a : K × Bool} (ha : a ∈ b.answers burst rate times) :
    a.1 ∈ times := by
  induction times generalizing b with
  | nil => cases ha
  | cons now times ih =>
    rcases List.mem_cons.mp ha with rfl | ha
    · exact List.mem_cons_self
    · exact List.mem_cons_of_mem _ (ih ha)

omit [Field K] in
theorem grantedIn_cons (a : K × Bool) (as : List (K × Bool)) : grantedIn s t (a :: as) =
    grantedIn s t as + if a.2 = true ∧ s ≤ a.1 ∧ a.1 ≤ t then 1 else 0 := by
  simp [grantedIn, List.countP_cons]

omit [Field K] in
theorem madeSince_concat : madeSince s (times ++ [now]) =
    madeSince s times + if s ≤ now then 1 else 0 := by
  simp [madeSince, List.countP_append, List.countP_singleton]

/-- After the interval nothing counts. -/
theorem grantedIn_of_late (hlate : t < now) (htimes : ∀ x ∈ times, now ≤ x) :
    grantedIn s t (b.answers burst rate times) = 0 := by
  rw [grantedIn, List.countP_eq_zero]
  intro a ha
  have hgt : ¬ a.1 ≤ t := (hlate.trans_le (htimes a.1 (fst_mem_of_mem_answers ha))).not_ge
  simp [hgt]

variable [IsStrictOrderedRing K]

theorem refilled_nonneg (hrate : 0 ≤ rate) (hb : b.Valid burst) (hnow : b.lastRefill ≤ now) :
    0 ≤ b.refilled burst rate now := by
  have hgain : 0 ≤ (now - b.lastRefill) * rate := mul_nonneg (sub_nonneg.mpr hnow) hrate
  exact le_min (hb.nonneg.trans hb.bounded) (add_nonneg hb.nonneg hgain)

theorem Valid.attempt (hrate : 0 ≤ rate) (hb : b.Valid burst) (hnow : b.lastRefill ≤ now) :
    (b.attempt burst rate now).Valid burst := by
  have hle : b.refilled burst rate now ≤ burst := refilled_le_burst
  constructor
  · rw [tokens_attempt]
    split_ifs with h
    · exact sub_nonneg.mpr (one_le_of_granted h)
    · rw [sub_zero]
      exact refilled_nonneg hrate hb hnow
  · rw [tokens_attempt]
    split_ifs with h
    · linarith
    · linarith

theorem Valid.run (hrate : 0 ≤ rate) (hb : b.Valid burst)
    (htimes : (b.lastRefill :: times).Pairwise (· ≤ ·)) : (b.run burst rate times).Valid burst := by
  induction times generalizing b with
  | nil => exact hb
  | cons now times ih =>
    obtain ⟨hfirst, hrest⟩ := List.pairwise_cons.mp htimes
    exact ih (hb.attempt hrate (hfirst now List.mem_cons_self)) hrest

/-- What the first attempt takes, the others cannot take any more. -/
theorem grantedIn_answers_cons_le
    (h : (grantedIn s t ((b.attempt burst rate now).answers burst rate times) : K) ≤
      (b.attempt burst rate now).tokens + rate * (t - now)) :
    (grantedIn s t (b.answers burst rate (now :: times)) : K) ≤
      b.refilled burst rate now + rate * (t - now) := by
  rw [tokens_attempt] at h
  rw [answers, grantedIn_cons, Nat.cast_add]
  cases hgranted : b.granted burst rate now with
  | true =>
    rw [hgranted, if_pos rfl] at h
    have hone : ((if true = true ∧ s ≤ now ∧ now ≤ t then 1 else 0 : ℕ) : K) ≤ 1 := by
      split_ifs <;> simp
    linarith
  | false =>
    rw [hgranted, if_neg Bool.false_ne_true] at h
    simpa using h

/-- Up to a time no more are granted than there are tokens and tokens gained. -/
theorem grantedIn_le_tokens (hrate : 0 ≤ rate) (hb : b.Valid burst) (ht : b.lastRefill ≤ t)
    (htimes : (b.lastRefill :: times).Pairwise (· ≤ ·)) :
    (grantedIn s t (b.answers burst rate times) : K) ≤ b.tokens + rate * (t - b.lastRefill) := by
  have hroom : 0 ≤ b.tokens + rate * (t - b.lastRefill) :=
    add_nonneg hb.nonneg (mul_nonneg hrate (sub_nonneg.mpr ht))
  induction times generalizing b with
  | nil => simpa [answers, grantedIn] using hroom
  | cons now times ih =>
    obtain ⟨hfirst, hrest⟩ := List.pairwise_cons.mp htimes
    have hnow := hfirst now List.mem_cons_self
    rcases le_or_gt now t with hin | hlate
    · have hvalid := hb.attempt hrate hnow
      have hrest' := ih hvalid hin hrest
        (add_nonneg hvalid.nonneg (mul_nonneg hrate (sub_nonneg.mpr hin)))
      have hgain : b.refilled burst rate now ≤ b.tokens + (now - b.lastRefill) * rate :=
        refilled_le
      refine (grantedIn_answers_cons_le hrest').trans ?_
      linarith
    · have hafter : ∀ x ∈ now :: times, now ≤ x := by
        intro x hx
        rcases List.mem_cons.mp hx with rfl | hx
        · exact le_rfl
        · exact (List.pairwise_cons.mp hrest).1 x hx
      rw [grantedIn_of_late hlate hafter, Nat.cast_zero]
      exact hroom

/-- In no interval are more attempts granted than the burst and what is gained in the interval: at
the first attempt in it there are at most `burst` tokens. -/
theorem grantedIn_le (hrate : 0 ≤ rate) (hb : b.Valid burst) (hst : s ≤ t)
    (htimes : (b.lastRefill :: times).Pairwise (· ≤ ·)) :
    (grantedIn s t (b.answers burst rate times) : K) ≤ burst + rate * (t - s) := by
  induction times generalizing b with
  | nil =>
    rw [answers, grantedIn, List.countP_nil, Nat.cast_zero]
    exact add_nonneg (hb.nonneg.trans hb.bounded) (mul_nonneg hrate (sub_nonneg.mpr hst))
  | cons now times ih =>
    obtain ⟨hfirst, hrest⟩ := List.pairwise_cons.mp htimes
    have hvalid := hb.attempt hrate (hfirst now List.mem_cons_self)
    by_cases hin : s ≤ now ∧ now ≤ t
    · have hcount := grantedIn_answers_cons_le
        (grantedIn_le_tokens (s := s) hrate hvalid hin.2 hrest)
      have hfull : b.refilled burst rate now ≤ burst := refilled_le_burst
      have hgain : rate * (t - now) ≤ rate * (t - s) :=
        mul_le_mul_of_nonneg_left (sub_le_sub_left hin.1 t) hrate
      linarith
    · rw [answers, grantedIn_cons, if_neg (fun h => hin h.2), Nat.add_zero]
      exact ih hvalid hrest

/-- At some time the bucket was full, and what was taken since are the attempts made since. -/
def Accounted (burst rate : K) (before : List K) (b : TokenBucket K) : Prop :=
  ∃ s ≤ b.lastRefill, burst + rate * (b.lastRefill - s) - madeSince s before ≤ b.tokens

/-- An attempt within the rate is granted, and stays accounted for. -/
theorem Accounted.attempt {before : List K} (hburst : 1 ≤ burst)
    (h : Accounted burst rate before b) (hnow : b.lastRefill ≤ now)
    (hwithin : ∀ s ≤ now, (madeSince s (before ++ [now]) : K) ≤ burst + rate * (now - s)) :
    b.granted burst rate now = true ∧
      Accounted burst rate (before ++ [now]) (b.attempt burst rate now) := by
  obtain ⟨s, hs, htokens⟩ := h
  have hmade : ∀ x ≤ now, (madeSince x (before ++ [now]) : K) = madeSince x before + 1 := by
    intro x hx
    rw [madeSince_concat, if_pos hx, Nat.cast_add, Nat.cast_one]
  have hlimit := hwithin s (hs.trans hnow)
  rw [hmade s (hs.trans hnow)] at hlimit
  rcases le_total burst (b.tokens + (now - b.lastRefill) * rate) with hfull | hpart
  · -- the refill reaches the burst: the account starts anew
    have hrefilled : b.refilled burst rate now = burst := min_eq_left hfull
    have hgranted : b.granted burst rate now = true :=
      decide_eq_true (by rw [hrefilled]; exact hburst)
    have hnonneg : (0 : K) ≤ madeSince now before := Nat.cast_nonneg _
    refine ⟨hgranted, now, le_rfl, ?_⟩
    rw [tokens_attempt, hgranted, if_pos rfl, hrefilled, hmade now le_rfl, lastRefill_attempt]
    linarith
  · have hrefilled : b.refilled burst rate now = b.tokens + (now - b.lastRefill) * rate :=
      min_eq_right hpart
    have hgranted : b.granted burst rate now = true := by
      refine decide_eq_true ?_
      rw [hrefilled]
      linarith
    refine ⟨hgranted, s, hs.trans hnow, ?_⟩
    rw [tokens_attempt, hgranted, if_pos rfl, hrefilled, hmade s (hs.trans hnow),
      lastRefill_attempt]
    linarith

theorem Accounted.answers {before : List K} (hburst : 1 ≤ burst)
    (h : Accounted burst rate before b) (htimes : (b.lastRefill :: times).Pairwise (· ≤ ·))
    (hwithin : WithinRate burst rate (before ++ times)) :
    ∀ a ∈ b.answers burst rate times, a.2 = true := by
  induction times generalizing before b with
  | nil => exact nofun
  | cons now times ih =>
    obtain ⟨hfirst, hrest⟩ := List.pairwise_cons.mp htimes
    obtain ⟨hgranted, hnext⟩ :=
      h.attempt hburst (hfirst now List.mem_cons_self) (hwithin before now times rfl)
    intro a ha
    rcases List.mem_cons.mp ha with rfl | ha
    · exact hgranted
    · exact ih hnext hrest (by rwa [List.append_assoc]) a ha

/-- Within the rate nothing is refused. -/
theorem answers_of_withinRate (hburst : 1 ≤ burst) (hfull : b.tokens = burst)
    (htimes : (b.lastRefill :: times).Pairwise (· ≤ ·)) (hwithin : WithinRate burst rate times) :
    ∀ a ∈ b.answers burst rate times, a.2 = true := by
  have hstart : Accounted burst rate [] b := ⟨b.lastRefill, le_rfl, by simp [madeSince, hfull]⟩
  exact hstart.answers hburst htimes hwithin

end Attempts
end TokenBucket
end GmaEngine
