import Mathlib.Order.Basic

/-!
# Levels of calls

A recursive function is a body that is given what its calls return. With a bound on the calls
that are inside one another, the bound is never met where every chain of calls is short enough.
-/

namespace GmaEngine.CallLevels

variable {α β : Type*} {calls : α → α → Prop} {body : (α → β) → α → β} {f overflow : α → β}
  {n m : ℕ} {a : α}

/-- At most `n` calls are inside one another. A call inside `n` others is `overflow`. -/
def level (body : (α → β) → α → β) (overflow : α → β) : ℕ → α → β
  | 0 => overflow
  | n + 1 => body (level body overflow n)

/-- The body makes no other calls than these. -/
def Makes (calls : α → α → Prop) (body : (α → β) → α → β) : Prop :=
  ∀ f g a, (∀ b, calls a b → f b = g b) → body f a = body g a

/-- Every chain of calls has at most `n` of them, that for `a` counted. -/
inductive Shallow (calls : α → α → Prop) : ℕ → α → Prop
  | intro {n : ℕ} {a : α} (h : ∀ b, calls a b → Shallow calls n b) : Shallow calls (n + 1) a

theorem Shallow.mono (h : Shallow calls n a) (hle : n ≤ m) : Shallow calls m a := by
  induction h generalizing m with
  | intro _ ih =>
    obtain _ | m := m
    · cases hle
    · exact .intro (fun b hb => ih b hb (Nat.le_of_succ_le_succ hle))

/-- Where the chains are that short, no call overflows. -/
theorem Shallow.level_eq (h : Shallow calls n a) (hmakes : Makes calls body)
    (hf : ∀ a, f a = body f a) (overflow : α → β) : level body overflow n a = f a := by
  induction h with
  | @intro n a _ ih =>
    rw [hf]
    exact hmakes (level body overflow n) f a ih

end GmaEngine.CallLevels
