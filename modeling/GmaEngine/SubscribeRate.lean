import GmaEngine.TokenBuckets

/-!
# The rate of subscriptions

A session answers each subscribe message by the state of a token bucket. Times are seconds; they
and the token count are exact here.
-/

namespace GmaEngine

/-- `rateTokens_` and `rateLastRefill_` of a session. -/
structure RateLimit where
  rateTokens : ℚ
  rateLastRefill : ℚ

/-- The state as a token bucket. -/
def RateLimit.bucket (r : RateLimit) : TokenBucket ℚ := ⟨r.rateTokens, r.rateLastRefill⟩

namespace ClientSession
open TokenBucket

def rateLimitBurst : ℚ := 20

def rateLimitPerSec : ℚ := 5

/-- The state of a session made at that time. -/
def newRateLimit (now : ℚ) : RateLimit := ⟨rateLimitBurst, now⟩

def rateLimitCheck (r : RateLimit) (now : ℚ) : Bool × RateLimit :=
  let elapsed := now - r.rateLastRefill
  let rateTokens := min rateLimitBurst (r.rateTokens + elapsed * rateLimitPerSec)
  if rateTokens < 1 then (false, ⟨rateTokens, now⟩)
  else (true, ⟨rateTokens - 1, now⟩)

/-- The attempts at the given times with their answers. -/
def rateLimitChecks (r : RateLimit) : List ℚ → List (ℚ × Bool)
  | [] => []
  | now :: times =>
    (now, (rateLimitCheck r now).1) :: rateLimitChecks (rateLimitCheck r now).2 times

def afterChecks (r : RateLimit) (times : List ℚ) : RateLimit :=
  times.foldl (fun r now => (rateLimitCheck r now).2) r

variable {r : RateLimit} {start now : ℚ} {times : List ℚ}

theorem rateLimitCheck_eq : rateLimitCheck r now =
    (r.bucket.granted rateLimitBurst rateLimitPerSec now,
      ⟨(r.bucket.attempt rateLimitBurst rateLimitPerSec now).tokens, now⟩) := by
  by_cases h : r.bucket.refilled rateLimitBurst rateLimitPerSec now < 1
  · have hrefused : r.bucket.granted rateLimitBurst rateLimitPerSec now = false :=
      decide_eq_false (not_le.mpr h)
    rw [tokens_attempt, hrefused, if_neg Bool.false_ne_true, sub_zero]
    exact if_pos h
  · have hgranted : r.bucket.granted rateLimitBurst rateLimitPerSec now = true :=
      decide_eq_true (not_lt.mp h)
    rw [tokens_attempt, hgranted, if_pos rfl]
    exact if_neg h

theorem bucket_rateLimitCheck : (rateLimitCheck r now).2.bucket =
    r.bucket.attempt rateLimitBurst rateLimitPerSec now := by
  rw [rateLimitCheck_eq]
  rfl

theorem rateLimitChecks_eq : rateLimitChecks r times =
    r.bucket.answers rateLimitBurst rateLimitPerSec times := by
  induction times generalizing r with
  | nil => rfl
  | cons now times ih =>
    rw [rateLimitChecks, answers, ih, bucket_rateLimitCheck, rateLimitCheck_eq]

theorem bucket_afterChecks : (afterChecks r times).bucket =
    r.bucket.run rateLimitBurst rateLimitPerSec times := by
  induction times generalizing r with
  | nil => rfl
  | cons now times ih =>
    rw [afterChecks, List.foldl_cons, ← afterChecks, ih, bucket_rateLimitCheck]
    rfl

theorem valid_newRateLimit : (newRateLimit start).bucket.Valid rateLimitBurst :=
  ⟨by norm_num [newRateLimit, RateLimit.bucket, rateLimitBurst], le_rfl⟩

/-- In an interval no more attempts are granted than the burst and the sustained rate allow, the
tokens stay between zero and the burst, and a client that keeps to that bound is never refused. -/
theorem rate_limit (htimes : (start :: times).Pairwise (· ≤ ·)) :
    (∀ s t, s ≤ t →
      (grantedIn s t (rateLimitChecks (newRateLimit start) times) : ℚ) ≤ 20 + 5 * (t - s)) ∧
    (∀ n, 0 ≤ (afterChecks (newRateLimit start) (times.take n)).rateTokens ∧
      (afterChecks (newRateLimit start) (times.take n)).rateTokens ≤ 20) ∧
    (WithinRate 20 5 times →
      ∀ a ∈ rateLimitChecks (newRateLimit start) times, a.2 = true) := by
  have hrate : (0 : ℚ) ≤ rateLimitPerSec := by norm_num [rateLimitPerSec]
  refine ⟨?_, ?_, ?_⟩
  · intro s t hst
    rw [rateLimitChecks_eq]
    exact grantedIn_le hrate valid_newRateLimit hst htimes
  · intro n
    have hprefix : (start :: times.take n).Pairwise (· ≤ ·) :=
      htimes.sublist ((List.take_sublist n times).cons_cons start)
    have hvalid := valid_newRateLimit.run hrate hprefix
    rw [← bucket_afterChecks] at hvalid
    exact ⟨hvalid.nonneg, hvalid.bounded⟩
  · intro hwithin
    rw [rateLimitChecks_eq]
    have hburst : (1 : ℚ) ≤ rateLimitBurst := by norm_num [rateLimitBurst]
    exact answers_of_withinRate hburst rfl htimes hwithin

/-- Twenty-two attempts at once: twenty are granted. -/
theorem rate_limit_burst :
    (grantedIn 0 0 (rateLimitChecks (newRateLimit 0) (List.replicate 22 0)) : ℚ) ≤ 20 ∧
      grantedIn 0 0 (rateLimitChecks (newRateLimit 0) (List.replicate 22 0)) = 20 := by
  have htimes : ((0 : ℚ) :: List.replicate 22 0).Pairwise (· ≤ ·) := by
    rw [← List.replicate_succ, List.pairwise_replicate]
    exact .inr le_rfl
  have hbound := (rate_limit htimes).1 0 0 le_rfl
  rw [sub_zero, mul_zero, add_zero] at hbound
  exact ⟨hbound, by decide +kernel⟩

end ClientSession
end GmaEngine
