import Mathlib.Algebra.Ring.Nat
import Mathlib.Data.List.Nodup
import Mathlib.Data.List.Basic

/-!
# Keyed queues

Elements carry a key, which identifies them, and a slot, which says in which queue they
stand. A family of queues is a function from slots to lists; keys are removed from and
rewritten in all queues at once, and a new element is appended to the queue of its slot.
-/

namespace GmaEngine.KeyedQueues

variable {α κ σ : Type*} [DecidableEq κ] [DecidableEq σ] (key : α → κ) (slot : α → σ)

def removeKey (k : κ) (xs : List α) : List α := xs.filter (fun x => key x ≠ k)

def modifyKey (k : κ) (f : α → α) (xs : List α) : List α :=
  xs.map (fun x => if key x = k then f x else x)

def remove (k : κ) (Q : σ → List α) : σ → List α := fun s => removeKey key k (Q s)

def rewrite (k : κ) (a : α) (Q : σ → List α) : σ → List α :=
  fun s => modifyKey key k (fun _ => a) (Q s)

def append (a : α) (Q : σ → List α) : σ → List α :=
  fun s => Q s ++ if s = slot a then [a] else []

open Classical in
/-- The element standing under a key in some queue. -/
noncomputable def find (k : κ) (Q : σ → List α) : Option α :=
  if h : ∃ a s, a ∈ Q s ∧ key a = k then some h.choose else none

variable {key slot} {k : κ} {a : α} {xs : List α}

@[simp] theorem mem_removeKey : a ∈ removeKey key k xs ↔ a ∈ xs ∧ key a ≠ k := by simp [removeKey]

theorem removeKey_eq_self (h : ∀ x ∈ xs, key x ≠ k) : removeKey key k xs = xs := by
  simpa [removeKey, List.filter_eq_self] using h

theorem removeKey_eq_nil_iff : removeKey key k xs = [] ↔ ∀ x ∈ xs, key x = k := by
  simp [removeKey, List.filter_eq_nil_iff]

theorem modifyKey_eq_self {f : α → α} (h : ∀ x ∈ xs, key x ≠ k) : modifyKey key k f xs = xs := by
  unfold modifyKey
  conv_rhs => rw [← List.map_id xs]
  apply List.map_congr_left
  intro x hx
  simp [h x hx]

/-- A rewrite under a key is not seen by those who leave that key out. -/
theorem removeKey_modifyKey (ha : key a = k) :
    removeKey key k (modifyKey key k (fun _ => a) xs) = removeKey key k xs := by
  induction xs with
  | nil => rfl
  | cons x xs ih =>
    have hstep : modifyKey key k (fun _ => a) (x :: xs) =
        (if key x = k then a else x) :: modifyKey key k (fun _ => a) xs := rfl
    rw [hstep]
    split_ifs with hx
    · have hdrop : ∀ y, key y = k → ∀ ys, removeKey key k (y :: ys) = removeKey key k ys :=
        fun y hy ys => List.filter_cons_of_neg (by simp [hy])
      rw [hdrop a ha, hdrop x hx, ih]
    · have hkeep : ∀ ys, removeKey key k (x :: ys) = x :: removeKey key k ys :=
        fun ys => List.filter_cons_of_pos (by simp [hx])
      rw [hkeep, hkeep, ih]

/-- Under distinct keys a search by key finds exactly the element with that key. -/
theorem find?_eq_some_iff (h : (xs.map key).Nodup) :
    xs.find? (fun x => key x = k) = some a ↔ a ∈ xs ∧ key a = k := by
  constructor
  · intro hf
    exact ⟨List.mem_of_find?_eq_some hf, by simpa using List.find?_some hf⟩
  · rintro ⟨ha, rfl⟩
    have hsome : (xs.find? (fun x => key x = key a)).isSome := by
      rw [List.find?_isSome]
      exact ⟨a, ha, by simp⟩
    obtain ⟨b, hb⟩ := Option.isSome_iff_exists.mp hsome
    have hkey : key b = key a := by simpa using List.find?_some hb
    rw [hb, List.inj_on_of_nodup_map h (List.mem_of_find?_eq_some hb) ha hkey]

theorem filter_key_eq_singleton (h : (xs.map key).Nodup) (ha : a ∈ xs) :
    xs.filter (fun x => key x = key a) = [a] := by
  induction xs with
  | nil => cases ha
  | cons x xs ih =>
    rw [List.map_cons, List.nodup_cons] at h
    rcases List.mem_cons.mp ha with rfl | hin
    · rw [List.filter_cons_of_pos (by simp), List.filter_eq_nil_iff.mpr]
      intro y hy
      have hne : key y ≠ key a := fun he => h.1 (he ▸ List.mem_map_of_mem hy)
      simpa using hne
    · have hne : key x ≠ key a := fun he => h.1 (he ▸ List.mem_map_of_mem hin)
      rw [List.filter_cons_of_neg (by simpa using hne), ih h.2 hin]

/-- Weights add up: an element and the queue without its key. -/
theorem sum_removeKey {f : α → ℕ} (h : (xs.map key).Nodup) (ha : a ∈ xs) :
    f a + ((removeKey key (key a) xs).map f).sum = (xs.map f).sum := by
  induction xs with
  | nil => cases ha
  | cons x xs ih =>
    rw [List.map_cons, List.nodup_cons] at h
    rcases List.mem_cons.mp ha with rfl | hin
    · have hrest : removeKey key (key a) xs = xs := by
        apply removeKey_eq_self
        intro y hy he
        exact h.1 (he ▸ List.mem_map_of_mem hy)
      have hdrop : removeKey key (key a) (a :: xs) = removeKey key (key a) xs := by simp [removeKey]
      rw [hdrop, hrest, List.map_cons, List.sum_cons]
    · have hne : key x ≠ key a := fun he => h.1 (he ▸ List.mem_map_of_mem hin)
      have hkeep : removeKey key (key a) (x :: xs) = x :: removeKey key (key a) xs := by
        simp [removeKey, hne]
      have hsum := ih h.2 hin
      rw [hkeep, List.map_cons, List.sum_cons, List.map_cons, List.sum_cons]
      omega

/-- Weights add up: one element is replaced by another. -/
theorem sum_modifyKey {f : α → ℕ} {b : α} (h : (xs.map key).Nodup) (ha : a ∈ xs) :
    f a + ((modifyKey key (key a) (fun _ => b) xs).map f).sum = (xs.map f).sum + f b := by
  induction xs with
  | nil => cases ha
  | cons x xs ih =>
    rw [List.map_cons, List.nodup_cons] at h
    rcases List.mem_cons.mp ha with rfl | hin
    · have hrest : modifyKey key (key a) (fun _ => b) xs = xs := by
        apply modifyKey_eq_self
        intro y hy he
        exact h.1 (he ▸ List.mem_map_of_mem hy)
      have hhead : modifyKey key (key a) (fun _ => b) (a :: xs) =
          b :: modifyKey key (key a) (fun _ => b) xs := by simp [modifyKey]
      rw [hhead, hrest, List.map_cons, List.sum_cons, List.map_cons, List.sum_cons]
      omega
    · have hne : key x ≠ key a := fun he => h.1 (he ▸ List.mem_map_of_mem hin)
      have hhead : modifyKey key (key a) (fun _ => b) (x :: xs) =
          x :: modifyKey key (key a) (fun _ => b) xs := by simp [modifyKey, hne]
      have hsum := ih h.2 hin
      rw [hhead, List.map_cons, List.sum_cons, List.map_cons, List.sum_cons]
      omega

omit [DecidableEq κ] [DecidableEq σ] in
theorem find_eq_none {Q : σ → List α} (h : ∀ s, ∀ x ∈ Q s, key x ≠ k) : find key k Q = none := by
  unfold find
  rw [dif_neg]
  rintro ⟨x, s, hx, hk⟩
  exact h s x hx hk

omit [DecidableEq κ] [DecidableEq σ] in
/-- An element whose key stands nowhere else is the one found under its key. -/
theorem find_eq_some {Q : σ → List α} {s : σ} (ha : a ∈ Q s) (hk : key a = k)
    (huniq : ∀ s', ∀ x ∈ Q s', key x = k → x = a) : find key k Q = some a := by
  have hex : ∃ x s', x ∈ Q s' ∧ key x = k := ⟨a, s, ha, hk⟩
  obtain ⟨s', hmem, hkey⟩ := hex.choose_spec
  unfold find
  rw [dif_pos hex, huniq s' _ hmem hkey]

end GmaEngine.KeyedQueues
