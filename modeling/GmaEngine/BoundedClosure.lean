import Mathlib.Data.Finset.Card
import Mathlib.Data.Finset.Union
import Mathlib.Logic.Relation

/-!
# Reachability inside a finite set

The elements reachable from a start set along a successor function, computed by growing the
set as often as the universe has elements.
-/

namespace GmaEngine.BoundedClosure

variable {α : Type*} [DecidableEq α] (next : α → List α) (U : Finset α)

/-- The set and the successors of its elements, as far as they lie in the universe. -/
def expand (S : Finset α) : Finset α :=
  S ∪ (S.biUnion (fun a => (next a).toFinset)).filter (· ∈ U)

def closure (S : Finset α) : Finset α := (expand next U)^[U.card] (S.filter (· ∈ U))

variable {next U} {S : Finset α} {a b : α}

theorem mem_expand : b ∈ expand next U S ↔ b ∈ S ∨ (∃ a ∈ S, b ∈ next a) ∧ b ∈ U := by
  simp [expand]

theorem subset_expand : S ⊆ expand next U S := fun _ h => mem_expand.mpr (.inl h)

theorem iterate_subset (hS : S ⊆ U) (n : ℕ) : (expand next U)^[n] S ⊆ U := by
  induction n with
  | zero => exact hS
  | succ n ih =>
    rw [Function.iterate_succ_apply']
    intro b hb
    rcases mem_expand.mp hb with h | h
    · exact ih h
    · exact h.2

theorem subset_iterate (n : ℕ) : S ⊆ (expand next U)^[n] S := by
  induction n with
  | zero => exact fun _ h => h
  | succ n ih =>
    rw [Function.iterate_succ_apply']
    exact ih.trans subset_expand

/-- Growing stops, or has added an element each time. -/
theorem stable_or_card_le (n : ℕ) :
    expand next U ((expand next U)^[n] S) = (expand next U)^[n] S ∨
      n < ((expand next U)^[n + 1] S).card := by
  induction n with
  | zero =>
    by_cases hfix : expand next U S = S
    · exact .inl hfix
    · have hlt := Finset.card_lt_card (subset_expand.ssubset_of_ne (Ne.symm hfix))
      simp only [Function.iterate_succ, Function.iterate_zero, Function.comp_apply, id_eq]
      omega
  | succ n ih =>
    rcases ih with hfix | hcard
    · left
      rw [Function.iterate_succ_apply', hfix, hfix]
    · by_cases hfix : expand next U ((expand next U)^[n + 1] S) = (expand next U)^[n + 1] S
      · exact .inl hfix
      · right
        have hlt := Finset.card_lt_card (subset_expand.ssubset_of_ne (Ne.symm hfix))
        rw [Function.iterate_succ_apply' _ (n + 1)]
        omega

theorem expand_closure (S : Finset α) : expand next U (closure next U S) = closure next U S := by
  have hcases : expand next U (closure next U S) = closure next U S ∨
      U.card < ((expand next U)^[U.card + 1] (S.filter (· ∈ U))).card := stable_or_card_le U.card
  have hinside : (expand next U)^[U.card + 1] (S.filter (· ∈ U)) ⊆ U :=
    iterate_subset (fun _ h => (Finset.mem_filter.mp h).2) (U.card + 1)
  rcases hcases with hfix | hcard
  · exact hfix
  · have hU := Finset.card_le_card hinside
    omega

/-- The closure is what can be reached inside the universe. -/
theorem mem_closure_iff : b ∈ closure next U S ↔
    ∃ a ∈ S, a ∈ U ∧ Relation.ReflTransGen (fun x y => y ∈ next x ∧ y ∈ U) a b := by
  constructor
  · suffices h : ∀ n, b ∈ (expand next U)^[n] (S.filter (· ∈ U)) →
        ∃ a ∈ S, a ∈ U ∧ Relation.ReflTransGen (fun x y => y ∈ next x ∧ y ∈ U) a b from h _
    intro n
    induction n generalizing b with
    | zero =>
      intro hb
      obtain ⟨hS, hU⟩ := Finset.mem_filter.mp hb
      exact ⟨b, hS, hU, .refl⟩
    | succ n ih =>
      rw [Function.iterate_succ_apply']
      intro hb
      rcases mem_expand.mp hb with hb | ⟨⟨c, hc, hnext⟩, hU⟩
      · exact ih hb
      · obtain ⟨a, ha, haU, hpath⟩ := ih hc
        exact ⟨a, ha, haU, hpath.tail ⟨hnext, hU⟩⟩
  · rintro ⟨a, ha, haU, hpath⟩
    induction hpath with
    | refl => exact subset_iterate _ (Finset.mem_filter.mpr ⟨ha, haU⟩)
    | tail _ hstep ih =>
      rw [← expand_closure]
      exact mem_expand.mpr (.inr ⟨⟨_, ih, hstep.1⟩, hstep.2⟩)

end GmaEngine.BoundedClosure
