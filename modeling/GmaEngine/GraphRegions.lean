import Mathlib.Logic.Relation
import Mathlib.Data.Set.Basic

/-!
# Regions of a graph

A region with one way in, its root, and one way out, its exit: what leads from outside to a point
of the region leads through the root, and what leads from a point of the region to the outside
leads through the exit.
-/

namespace GmaEngine.GraphRegions
open Relation

variable {α : Type*} {edge : α → α → Prop} {region : Set α} {root exit : α}

/-- Edges out of the region go to the exit only. -/
def LeavesBy (edge : α → α → Prop) (region : Set α) (exit : α) : Prop :=
  ∀ x ∈ region, ∀ y, edge x y → y ∈ region ∨ y = exit

/-- Edges into the region go to one of the entries. -/
def EnteredBy (edge : α → α → Prop) (region entries : Set α) : Prop :=
  ∀ x, x ∉ region → ∀ y ∈ region, edge x y → y ∈ entries

theorem through_exit (h : LeavesBy edge region exit) {x y : α} (hx : x ∈ region) (hy : y ∉ region)
    (hpath : ReflTransGen edge x y) :
    ReflTransGen edge x exit ∧ ReflTransGen edge exit y := by
  induction hpath using ReflTransGen.head_induction_on with
  | refl => exact absurd hx hy
  | @head a b hstep hrest ih =>
    rcases h a hx b hstep with hb | rfl
    · obtain ⟨hto, hfrom⟩ := ih hb
      exact ⟨hto.head hstep, hfrom⟩
    · exact ⟨.single hstep, hrest⟩

theorem through_root (h : EnteredBy edge region {root}) {starts : Set α}
    (hstarts : ∀ a ∈ starts, a ∈ region → a = root) {a y : α} (ha : a ∈ starts)
    (hpath : ReflTransGen edge a y) (hy : y ∈ region) : ReflTransGen edge root y := by
  induction hpath with
  | refl =>
    rw [hstarts a ha hy]
  | @tail b c hrest hstep ih =>
    by_cases hb : b ∈ region
    · exact (ih hb).tail hstep
    · rw [h b hb c hy hstep]

end GmaEngine.GraphRegions
