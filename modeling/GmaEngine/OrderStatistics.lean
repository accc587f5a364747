import Mathlib.Algebra.Field.Defs
import Mathlib.Data.List.Perm.Basic
import Mathlib.Data.List.Sort
import Mathlib.Data.Set.List
import Mathlib.Order.Bounds.Basic

/-!
# Order statistics

A selection puts one element of a list where sorting would put it, with the smaller elements in
front of it in any order. The median can be read off its result.
-/

namespace GmaEngine.OrderStatistics

section
variable {α β : Type} {r : α → α → Prop} [DecidableRel r] {n : ℕ} {xs ys : List α}

/-- What a selection of the `n`th element of `xs` may leave: the elements in some order, the `n`th
one that of the sorted list, and those in front of it not after the others. -/
structure NthElement (r : α → α → Prop) [DecidableRel r] (n : ℕ) (xs ys : List α) : Prop where
  perm : ys.Perm xs
  nth : ys[n]? = (xs.insertionSort r)[n]?
  parts : ∀ x ∈ ys.take n, ∀ y ∈ ys.drop n, r x y

theorem nthElement_insertionSort [Std.Total r] [IsTrans α r] (n : ℕ) (xs : List α) :
    NthElement r n xs (xs.insertionSort r) where
  perm := List.perm_insertionSort r xs
  nth := rfl
  parts := by
    have hsorted := List.pairwise_insertionSort r xs
    rw [← List.take_append_drop n (xs.insertionSort r), List.pairwise_append] at hsorted
    exact hsorted.2.2

section
variable {r' : β → β → Prop} [DecidableRel r'] {f : α → β} (hr : ∀ x y, r x y ↔ r' (f x) (f y))
include hr

theorem map_insertionSort_eq (xs : List α) :
    (xs.map f).insertionSort r' = (xs.insertionSort r).map f :=
  (List.map_insertionSort r r' f xs (fun x _ y _ => hr x y)).symm

theorem NthElement.map (h : NthElement r n xs ys) : NthElement r' n (xs.map f) (ys.map f) where
  perm := h.perm.map f
  nth := by
    rw [map_insertionSort_eq hr, List.getElem?_map, List.getElem?_map, h.nth]
  parts := by
    intro x' hx' y' hy'
    rw [← List.map_take] at hx'
    rw [← List.map_drop] at hy'
    obtain ⟨x, hx, rfl⟩ := List.mem_map.mp hx'
    obtain ⟨y, hy, rfl⟩ := List.mem_map.mp hy'
    exact (hr x y).mp (h.parts x hx y hy)

/-- A selection among the values of an order embedding is one among its arguments. -/
theorem NthElement.of_map (hf : f.Injective) {ys : List β} (h : NthElement r' n (xs.map f) ys) :
    ∃ zs, ys = zs.map f ∧ NthElement r n xs zs := by
  have hrange : ∀ y ∈ ys, ∃ x, f x = y := by
    intro y hy
    obtain ⟨x, -, hx⟩ := List.mem_map.mp (h.perm.mem_iff.mp hy)
    exact ⟨x, hx⟩
  obtain ⟨zs, rfl⟩ : ys ∈ Set.range (List.map f) := by
    rw [Set.range_list_map]
    exact hrange
  refine ⟨zs, rfl, (List.map_perm_map_iff hf).mp h.perm, ?_, ?_⟩
  · have hnth := h.nth
    rw [map_insertionSort_eq hr, List.getElem?_map, List.getElem?_map] at hnth
    exact Option.map_injective hf hnth
  · intro x hx y hy
    have hx' : f x ∈ (zs.map f).take n := by
      rw [← List.map_take]
      exact List.mem_map_of_mem hx
    have hy' : f y ∈ (zs.map f).drop n := by
      rw [← List.map_drop]
      exact List.mem_map_of_mem hy
    exact (hr x y).mpr (h.parts _ hx' _ hy')

end
end

section
variable {α : Type} [LinearOrder α] {n : ℕ} {xs ys : List α}

/-- Sorting both parts of a selection sorts the list. -/
theorem NthElement.sort_eq (h : NthElement (· ≤ ·) n xs ys) :
    xs.insertionSort (· ≤ ·) =
      (ys.take n).insertionSort (· ≤ ·) ++ (ys.drop n).insertionSort (· ≤ ·) := by
  have hperm : ((ys.take n).insertionSort (· ≤ ·) ++
      (ys.drop n).insertionSort (· ≤ ·)).Perm xs := by
    have happend := (List.perm_insertionSort (· ≤ ·) (ys.take n)).append
      (List.perm_insertionSort (· ≤ ·) (ys.drop n))
    rw [List.take_append_drop] at happend
    exact happend.trans h.perm
  have hsorted : ((ys.take n).insertionSort (· ≤ ·) ++
      (ys.drop n).insertionSort (· ≤ ·)).Pairwise (· ≤ ·) := by
    refine List.pairwise_append.mpr ⟨List.pairwise_insertionSort _ _,
      List.pairwise_insertionSort _ _, ?_⟩
    intro x hx y hy
    exact h.parts x (List.mem_insertionSort (· ≤ ·) |>.mp hx) y
      (List.mem_insertionSort (· ≤ ·) |>.mp hy)
  exact ((List.perm_insertionSort (· ≤ ·) xs).trans hperm.symm).eq_of_pairwise'
    (List.pairwise_insertionSort _ _) hsorted

/-- The sorted list has the selected element behind those that the selection leaves in front. -/
theorem NthElement.split {x : α} (h : NthElement (· ≤ ·) n xs ys) (hx : ys[n]? = some x) :
    ∃ below above, xs.insertionSort (· ≤ ·) = below ++ x :: above ∧ below.Perm (ys.take n) ∧
      below.length = n := by
  obtain ⟨hn, -⟩ := List.getElem?_eq_some_iff.mp hx
  have hlen : ((ys.take n).insertionSort (· ≤ ·)).length = n := by
    rw [List.length_insertionSort, List.length_take]
    omega
  have hnth := h.nth
  rw [h.sort_eq, hx, List.getElem?_append_right hlen.le, hlen, Nat.sub_self] at hnth
  cases habove : (ys.drop n).insertionSort (· ≤ ·) with
  | nil =>
    rw [habove] at hnth
    cases hnth
  | cons y above =>
    rw [habove] at hnth
    obtain rfl : x = y := Option.some.inj hnth
    refine ⟨(ys.take n).insertionSort (· ≤ ·), above, ?_, List.perm_insertionSort _ _, hlen⟩
    rw [h.sort_eq, habove]

/-- The last element of a sorted list is its greatest. -/
theorem isGreatest_concat {x : α} (h : (xs ++ [x]).Pairwise (· ≤ ·)) :
    IsGreatest {y | y ∈ xs ++ [x]} x := by
  refine ⟨List.mem_append_right xs (List.mem_singleton_self x), ?_⟩
  intro y hy
  rcases List.mem_append.mp hy with hy | hy
  · exact (List.pairwise_append.mp h).2.2 y hy x (List.mem_singleton_self x)
  · exact (List.mem_singleton.mp hy).le

theorem isGreatest_take {x : α} (h : xs.Pairwise (· ≤ ·)) (hx : xs[n]? = some x) :
    IsGreatest {y | y ∈ xs.take (n + 1)} x := by
  have hsplit : xs.take (n + 1) = xs.take n ++ [x] := by
    rw [List.take_add_one, hx, Option.toList_some]
  have hfront := h.sublist (List.take_sublist (n + 1) xs)
  rw [hsplit] at hfront ⊢
  exact isGreatest_concat hfront

end

section
variable {K : Type} [Field K] [LinearOrder K] {n : ℕ} {xs ys : List K} {m m' l u : K}

/-- The middle element of the sorted list, or the mean of the two middle elements. -/
def IsMedian (xs : List K) (m : K) : Prop :=
  ∃ below middle above, xs.insertionSort (· ≤ ·) = below ++ middle ++ above ∧
    below.length = above.length ∧ (middle = [m] ∨ ∃ l u, middle = [l, u] ∧ m = (l + u) / 2)

theorem IsMedian.unique (h : IsMedian xs m) (h' : IsMedian xs m') : m = m' := by
  obtain ⟨below, middle, above, hsort, hlen, hmiddle⟩ := h
  obtain ⟨below', middle', above', hsort', hlen', hmiddle'⟩ := h'
  have heq := hsort.symm.trans hsort'
  have hlength := congrArg List.length heq
  simp only [List.length_append] at hlength
  rcases hmiddle with rfl | ⟨l, u, rfl, rfl⟩ <;> rcases hmiddle' with rfl | ⟨l', u', rfl, rfl⟩ <;>
    simp only [List.length_cons, List.length_nil] at hlength
  · obtain ⟨hfront, -⟩ := List.append_inj heq (by simp; omega)
    have hmiddle := (List.append_inj hfront (by omega)).2
    exact List.singleton_inj.mp hmiddle
  · omega
  · omega
  · obtain ⟨hfront, -⟩ := List.append_inj heq (by simp; omega)
    have hmiddle := (List.append_inj hfront (by omega)).2
    obtain ⟨rfl, rfl⟩ : l = l' ∧ u = u' := by simpa using hmiddle
    rfl

/-- Of an odd number of elements the selected one is in the middle. -/
theorem NthElement.isMedian_odd (h : NthElement (· ≤ ·) n xs ys) (hlen : xs.length = 2 * n + 1)
    (hm : ys[n]? = some m) : IsMedian xs m := by
  obtain ⟨below, above, hsort, -, hbelow⟩ := h.split hm
  have hlength := congrArg List.length hsort
  rw [List.length_insertionSort, List.length_append, List.length_cons] at hlength
  refine ⟨below, [m], above, ?_, by omega, .inl rfl⟩
  rw [hsort, List.append_assoc, List.singleton_append]

/-- Of an even number of elements the selected one and the greatest in front of it are in the
middle. -/
theorem NthElement.isMedian_even (h : NthElement (· ≤ ·) n xs ys) (hlen : xs.length = 2 * n)
    (hl : IsGreatest {x | x ∈ ys.take n} l) (hu : ys[n]? = some u) : IsMedian xs ((l + u) / 2) := by
  obtain ⟨below, above, hsort, hperm, hbelow⟩ := h.split hu
  have hne : below ≠ [] := by
    rintro rfl
    exact List.not_mem_nil (hperm.mem_iff.mpr hl.1)
  obtain ⟨front, l', rfl⟩ := (List.eq_nil_or_concat' below).resolve_left hne
  -- the greatest element in front is the last one of the sorted front
  have hsorted := List.pairwise_insertionSort (· ≤ ·) xs
  rw [hsort] at hsorted
  have hgreatest := isGreatest_concat (List.pairwise_append.mp hsorted).1
  have hset : {x | x ∈ front ++ [l']} = {x | x ∈ ys.take n} := Set.ext (fun x => hperm.mem_iff)
  obtain rfl : l = l' := hl.unique (hset ▸ hgreatest)
  have hlength := congrArg List.length hsort
  rw [List.length_insertionSort, List.length_append, List.length_cons] at hlength
  rw [List.length_append, List.length_singleton] at hbelow hlength
  refine ⟨front, [l, u], above, ?_, by omega, .inr ⟨l, u, rfl, rfl⟩⟩
  rw [hsort]
  simp

end

end GmaEngine.OrderStatistics
