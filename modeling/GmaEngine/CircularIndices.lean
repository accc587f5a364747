import Mathlib.Data.List.Nodup
import Mathlib.Data.List.Range
import Mathlib.Data.Nat.ModEq

/-!
# Circular indices

Indices that wrap at a capacity: the distance from one to another, and the slots that lie between
them.
-/

namespace GmaEngine.CircularIndices

/-- The number of steps from `first` to `last`. -/
def distance (cap first last : ℕ) : ℕ := (last + cap - first) % cap

/-- The next `n` slots from an index on. -/
def slots (cap first n : ℕ) : List ℕ := (List.range n).map (fun i => (first + i) % cap)

variable {cap first last n : ℕ}

theorem distance_lt (hcap : 0 < cap) : distance cap first last < cap := Nat.mod_lt _ hcap

@[simp] theorem distance_self (cap first : ℕ) : distance cap first first = 0 := by
  rw [distance, Nat.add_sub_cancel_left, Nat.mod_self]

theorem distance_eq (hfirst : first < cap) (hlast : last < cap) :
    distance cap first last = if first ≤ last then last - first else last + cap - first := by
  unfold distance
  split_ifs with hle
  · rw [Nat.sub_add_comm hle, Nat.add_mod_right, Nat.mod_eq_of_lt (by omega)]
  · exact Nat.mod_eq_of_lt (by omega)

theorem next_eq (hfirst : first < cap) :
    (first + 1) % cap = if first + 1 = cap then 0 else first + 1 := by
  split_ifs with hwrap
  · rw [hwrap, Nat.mod_self]
  · exact Nat.mod_eq_of_lt (by omega)

theorem distance_eq_zero_iff (hfirst : first < cap) (hlast : last < cap) :
    distance cap first last = 0 ↔ first = last := by
  rw [distance_eq hfirst hlast]
  split_ifs <;> omega

/-- The steps lead from one index to the other. -/
theorem add_distance (hfirst : first < cap) (hlast : last < cap) :
    (first + distance cap first last) % cap = last := by
  rw [distance_eq hfirst hlast]
  split_ifs with hle
  · rw [Nat.add_sub_of_le hle, Nat.mod_eq_of_lt hlast]
  · rw [Nat.add_sub_of_le (by omega), Nat.add_mod_right, Nat.mod_eq_of_lt hlast]

/-- The index before `first` is the only one as far away as possible. -/
theorem next_eq_iff (hfirst : first < cap) (hlast : last < cap) :
    (last + 1) % cap = first ↔ distance cap first last = cap - 1 := by
  rw [distance_eq hfirst hlast, next_eq hlast]
  split_ifs <;> omega

theorem distance_next_right (hfirst : first < cap) (hlast : last < cap)
    (hroom : distance cap first last < cap - 1) :
    distance cap first ((last + 1) % cap) = distance cap first last + 1 := by
  have hnext : (last + 1) % cap < cap := Nat.mod_lt _ (by omega)
  rw [distance_eq hfirst hlast] at hroom
  rw [distance_eq hfirst hnext, distance_eq hfirst hlast, next_eq hlast]
  split_ifs at hroom ⊢ <;> omega

theorem distance_next_left (hfirst : first < cap) (hlast : last < cap)
    (hpos : 0 < distance cap first last) :
    distance cap first last = distance cap ((first + 1) % cap) last + 1 := by
  have hnext : (first + 1) % cap < cap := Nat.mod_lt _ (by omega)
  rw [distance_eq hfirst hlast] at hpos
  rw [distance_eq hfirst hlast, distance_eq hnext hlast, next_eq hfirst]
  split_ifs at hpos ⊢ <;> omega

@[simp] theorem length_slots (cap first n : ℕ) : (slots cap first n).length = n := by simp [slots]

theorem slots_succ (cap first n : ℕ) :
    slots cap first (n + 1) = slots cap first n ++ [(first + n) % cap] := by
  simp [slots, List.range_succ]

theorem slots_cons (hfirst : first < cap) :
    slots cap first (n + 1) = first :: slots cap ((first + 1) % cap) n := by
  rw [slots, List.range_succ_eq_map, List.map_cons, List.map_map, Nat.add_zero,
    Nat.mod_eq_of_lt hfirst]
  congr 1
  apply List.map_congr_left
  intro i _
  rw [Function.comp_apply, Nat.mod_add_mod]
  congr 1
  omega

/-- No slot comes twice in one round. -/
theorem nodup_slots (hn : n ≤ cap) : (slots cap first n).Nodup := by
  refine (List.nodup_map_iff_inj_on List.nodup_range).mpr ?_
  intro i hi j hj heq
  rw [List.mem_range] at hi hj
  have hij : (i + first) % cap = (j + first) % cap := by rwa [add_comm i, add_comm j]
  have hmod : i ≡ j [MOD cap] := Nat.ModEq.add_right_cancel' first hij
  exact hmod.eq_of_lt_of_lt (by omega) (by omega)

end GmaEngine.CircularIndices
