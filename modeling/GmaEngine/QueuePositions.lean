import GmaEngine.KeyedQueues

/-!
# Positions in keyed queues

Who stands ahead of a key in a queue. Operations that take elements out anywhere and put new
ones at the end never put anybody ahead of an element that stays where it is.
-/

namespace GmaEngine.KeyedQueues

variable {α κ σ : Type*} [DecidableEq κ]

/-- The keys ahead of a key. -/
def ahead (k : κ) (keys : List κ) : List κ := keys.takeWhile (· ≠ k)

theorem ahead_append_of_notMem {k : κ} {before : List κ} (h : k ∉ before) (keys : List κ) :
    ahead k (before ++ keys) = before ++ ahead k keys := by
  refine List.takeWhile_append_of_pos (fun x hx => ?_)
  simpa using ne_of_mem_of_not_mem hx h

theorem ahead_cons_of_ne {k x : κ} (h : x ≠ k) (keys : List κ) :
    ahead k (x :: keys) = x :: ahead k keys := List.takeWhile_cons_of_pos (by simpa using h)

theorem ahead_append {k : κ} {before after : List κ} (h : k ∉ before) :
    ahead k (before ++ k :: after) = before := by
  rw [ahead_append_of_notMem h, ahead, List.takeWhile_cons_of_neg (by simp), List.append_nil]

theorem exists_ahead {k : κ} {keys : List κ} (h : k ∈ keys) :
    ∃ after, keys = ahead k keys ++ k :: after ∧ k ∉ ahead k keys := by
  obtain ⟨before, after, heq, hbefore⟩ := List.eq_append_cons_of_mem h
  refine ⟨after, ?_, ?_⟩
  · rw [heq, ahead_append hbefore]
  · rw [heq, ahead_append hbefore]
    exact hbefore

/-- What stays of a queue, with newcomers behind it: nobody new is ahead of a key that is not
itself new. -/
theorem ahead_sublist {k : κ} {keys keys' new : List κ} (hnodup : keys.Nodup)
    (hsub : keys'.Sublist (keys ++ new)) (hnew : k ∉ new) (hk : k ∈ keys') :
    k ∈ keys ∧ (ahead k keys').Sublist (ahead k keys) := by
  have hmem : k ∈ keys := (List.mem_append.mp (hsub.subset hk)).resolve_right hnew
  refine ⟨hmem, ?_⟩
  obtain ⟨after, heq, hbefore⟩ := exists_ahead hmem
  have hafter : k ∉ after := by
    intro hin
    rw [heq] at hnodup
    exact (List.nodup_cons.mp (List.nodup_append.mp hnodup).2.1).1 hin
  rw [heq, List.append_assoc, List.cons_append, List.sublist_append_iff] at hsub
  obtain ⟨front, back, rfl, hfront, hback⟩ := hsub
  have hkfront : k ∉ front := fun hin => hbefore (hfront.subset hin)
  have hkback : k ∈ back := (List.mem_append.mp hk).resolve_left hkfront
  obtain hskip | ⟨rest, rfl, -⟩ := List.sublist_cons_iff.mp hback
  · exact absurd (hskip.subset hkback) (by simp [hafter, hnew])
  · rw [ahead_append hkfront]
    exact hfront

variable [DecidableEq σ] {key : α → κ} {slot : α → σ} {k : κ} {a : α} {xs : List α}

omit [DecidableEq σ] in
theorem removeKey_sublist : (removeKey key k xs).Sublist xs := List.filter_sublist

omit [DecidableEq σ] in
theorem map_key_modifyKey (ha : key a = k) :
    (modifyKey key k (fun _ => a) xs).map key = xs.map key := by
  rw [modifyKey, List.map_map]
  refine List.map_congr_left (fun x _ => ?_)
  by_cases hx : key x = k <;> simp [hx, ha]

omit [DecidableEq κ] [DecidableEq σ] in
theorem find_spec {Q : σ → List α} (h : find key k Q = some a) :
    (∃ s, a ∈ Q s) ∧ key a = k := by
  unfold find at h
  split_ifs at h with hex
  obtain rfl := Option.some.inj h
  obtain ⟨s, hmem, hkey⟩ := hex.choose_spec
  exact ⟨⟨s, hmem⟩, hkey⟩

end GmaEngine.KeyedQueues
