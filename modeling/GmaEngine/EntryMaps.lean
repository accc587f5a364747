import GmaEngine.NodeValues

/-!
# Maps as lists of entries

How a lookup, the membership of entries and the size change with an assignment.
-/

namespace GmaEngine

variable {κ α : Type} [DecidableEq κ] {entries : List (κ × α)} {k k' : κ} {a : α}

@[simp] theorem lookupKey_nil : lookupKey ([] : List (κ × α)) k = none := rfl

theorem lookupKey_eq_none_iff : lookupKey entries k = none ↔ ∀ entry ∈ entries, entry.1 ≠ k := by
  simp [lookupKey]

theorem lookupKey_cons {entry : κ × α} :
    lookupKey (entry :: entries) k = if entry.1 = k then some entry.2 else lookupKey entries k := by
  simp only [lookupKey, List.find?_cons]
  split_ifs with h <;> simp [h]

theorem lookupKey_append {entries' : List (κ × α)} :
    lookupKey (entries ++ entries') k = (lookupKey entries k).or (lookupKey entries' k) := by
  simp only [lookupKey, List.find?_append, Option.map_or]

theorem lookupKey_modifyKey :
    lookupKey (KeyedQueues.modifyKey Prod.fst k (fun _ => (k, a)) entries) k' =
      if k' = k then (lookupKey entries k).map (fun _ => a) else lookupKey entries k' := by
  induction entries with
  | nil => simp [KeyedQueues.modifyKey]
  | cons entry entries ih =>
    have hstep : KeyedQueues.modifyKey Prod.fst k (fun _ => (k, a)) (entry :: entries) =
        (if entry.1 = k then (k, a) else entry) ::
          KeyedQueues.modifyKey Prod.fst k (fun _ => (k, a)) entries := rfl
    rw [hstep, lookupKey_cons, lookupKey_cons, lookupKey_cons, ih]
    grind

theorem lookupKey_assignKey :
    lookupKey (assignKey entries k a) k' = if k' = k then some a else lookupKey entries k' := by
  unfold assignKey
  split_ifs with hsome hk hk
  · obtain ⟨b, hb⟩ := Option.isSome_iff_exists.mp hsome
    rw [lookupKey_modifyKey, if_pos hk, hb]
    rfl
  · rw [lookupKey_modifyKey, if_neg hk]
  · rw [lookupKey_append, hk, Option.not_isSome_iff_eq_none.mp hsome, lookupKey_cons]
    simp
  · rw [lookupKey_append, lookupKey_cons, if_neg (Ne.symm hk)]
    simp

theorem assignKey_assignKey {b : α} : assignKey (assignKey entries k a) k b = assignKey entries k b := by
  have hsome : (lookupKey (assignKey entries k a) k).isSome := by
    rw [lookupKey_assignKey, if_pos rfl]
    rfl
  rw [assignKey, if_pos hsome]
  unfold assignKey KeyedQueues.modifyKey
  split_ifs with h
  · rw [List.map_map]
    apply List.map_congr_left
    intro entry _
    by_cases hk : entry.1 = k <;> simp [hk]
  · rw [Bool.not_eq_true, Option.isSome_eq_false_iff, Option.isNone_iff_eq_none] at h
    rw [List.map_append]
    congr 1
    · conv_rhs => rw [← List.map_id entries]
      apply List.map_congr_left
      intro entry hentry
      rw [if_neg (lookupKey_eq_none_iff.mp h entry hentry), id]
    · simp

theorem length_assignKey : (assignKey entries k a).length =
    entries.length + if (lookupKey entries k).isSome then 0 else 1 := by
  unfold assignKey
  split_ifs with h
  · simp [KeyedQueues.modifyKey]
  · simp

theorem lookupKey_eq_some_iff (hnodup : (entries.map Prod.fst).Nodup) :
    lookupKey entries k = some a ↔ (k, a) ∈ entries := by
  unfold lookupKey
  rw [Option.map_eq_some_iff]
  constructor
  · rintro ⟨entry, hentry, rfl⟩
    obtain ⟨hmem, rfl⟩ := (KeyedQueues.find?_eq_some_iff hnodup).mp hentry
    exact hmem
  · intro hmem
    exact ⟨(k, a), (KeyedQueues.find?_eq_some_iff hnodup).mpr ⟨hmem, rfl⟩, rfl⟩

theorem mem_assignKey {entry : κ × α} :
    entry ∈ assignKey entries k a ↔ entry = (k, a) ∨ entry ∈ entries ∧ entry.1 ≠ k := by
  unfold assignKey
  split_ifs with hsome
  · obtain ⟨b, hb⟩ := Option.isSome_iff_exists.mp hsome
    obtain ⟨found, hfound, -⟩ := Option.map_eq_some_iff.mp hb
    have hfkey : found.1 = k := by simpa using List.find?_some hfound
    have hfmem := List.mem_of_find?_eq_some hfound
    simp only [KeyedQueues.modifyKey, List.mem_map]
    constructor
    · rintro ⟨other, hother, rfl⟩
      split_ifs with hk
      · exact .inl rfl
      · exact .inr ⟨hother, hk⟩
    · rintro (rfl | ⟨hentry, hk⟩)
      · exact ⟨found, hfmem, by simp [hfkey]⟩
      · exact ⟨entry, hentry, by simp [hk]⟩
  · rw [Bool.not_eq_true, Option.isSome_eq_false_iff, Option.isNone_iff_eq_none,
      lookupKey_eq_none_iff] at hsome
    rw [List.mem_append, List.mem_singleton]
    constructor
    · rintro (hentry | rfl)
      · exact .inr ⟨hentry, hsome entry hentry⟩
      · exact .inl rfl
    · rintro (rfl | ⟨hentry, -⟩)
      · exact .inr rfl
      · exact .inl hentry

theorem mem_keys_iff : k ∈ entries.map Prod.fst ↔ (lookupKey entries k).isSome := by
  rw [Option.isSome_iff_ne_none, Ne, lookupKey_eq_none_iff]
  simp

/-- A new key comes last; a key that is there keeps its place. -/
theorem keys_assignKey : (assignKey entries k a).map Prod.fst =
    if k ∈ entries.map Prod.fst then entries.map Prod.fst else entries.map Prod.fst ++ [k] := by
  unfold assignKey
  simp only [mem_keys_iff]
  split_ifs with hsome
  · unfold KeyedQueues.modifyKey
    rw [List.map_map]
    apply List.map_congr_left
    intro entry _
    simp only [Function.comp_apply]
    split_ifs with hk
    · exact hk.symm
    · rfl
  · simp

theorem nodup_assignKey (hnodup : (entries.map Prod.fst).Nodup) :
    ((assignKey entries k a).map Prod.fst).Nodup := by
  rw [keys_assignKey]
  split_ifs with hmem
  · exact hnodup
  · rw [List.nodup_append]
    refine ⟨hnodup, by simp, ?_⟩
    intro x hx y hy
    obtain rfl := List.mem_singleton.mp hy
    rintro rfl
    exact hmem hx

/-- An assignment changes nothing where the value is already there. -/
theorem assignKey_eq_self_iff (hnodup : (entries.map Prod.fst).Nodup) :
    assignKey entries k a = entries ↔ lookupKey entries k = some a := by
  constructor
  · intro heq
    rw [← heq, lookupKey_assignKey, if_pos rfl]
  · intro hlook
    rw [assignKey, if_pos (by rw [hlook]; rfl), KeyedQueues.modifyKey]
    conv_rhs => rw [← List.map_id entries]
    apply List.map_congr_left
    intro entry hentry
    split_ifs with hk
    · have hsome : lookupKey entries k = some entry.2 :=
        (lookupKey_eq_some_iff hnodup).mpr (hk ▸ hentry)
      have ha := Option.some.inj (hlook.symm.trans hsome)
      rw [ha, ← hk]
      rfl
    · rfl

theorem keys_removeKey : (KeyedQueues.removeKey Prod.fst k entries).map Prod.fst =
    (entries.map Prod.fst).filter (fun k' => k' ≠ k) := by
  simp [KeyedQueues.removeKey, List.filter_map, Function.comp_def]

theorem lookupKey_removeKey :
    lookupKey (KeyedQueues.removeKey Prod.fst k entries) k' =
      if k' = k then none else lookupKey entries k' := by
  induction entries with
  | nil => simp [KeyedQueues.removeKey]
  | cons entry entries ih =>
    simp only [KeyedQueues.removeKey, List.filter_cons] at ih ⊢
    split_ifs with hne hk hk
    · rw [lookupKey_cons, ih, if_pos hk, if_neg]
      rintro rfl
      simp [hk] at hne
    · rw [lookupKey_cons, lookupKey_cons, ih, if_neg hk]
    · rw [ih, if_pos hk]
    · rw [lookupKey_cons, ih, if_neg hk, if_neg]
      rintro rfl
      exact hne (by simpa using hk)

theorem nodup_removeKey (hnodup : (entries.map Prod.fst).Nodup) :
    ((KeyedQueues.removeKey Prod.fst k entries).map Prod.fst).Nodup :=
  hnodup.sublist (List.filter_sublist.map Prod.fst)

theorem mem_keys_assignKey :
    k' ∈ (assignKey entries k a).map Prod.fst ↔ k' = k ∨ k' ∈ entries.map Prod.fst := by
  rw [keys_assignKey]
  split_ifs with hmem
  · constructor
    · exact .inr
    · rintro (rfl | hold)
      · exact hmem
      · exact hold
  · rw [List.mem_append, List.mem_singleton, or_comm]

theorem mem_keys_assignKey_concat {seen : List κ} (h : ∀ s ∈ entries.map Prod.fst, s ∈ seen) :
    ∀ s ∈ (assignKey entries k a).map Prod.fst, s ∈ seen ++ [k] := by
  intro s hs
  rcases mem_keys_assignKey.mp hs with rfl | hold
  · exact List.mem_append_right seen (List.mem_singleton_self s)
  · exact List.mem_append_left _ (h s hold)

/-- A key that is not there yet still fits. -/
theorem length_lt_of_lookupKey_none {keys : Finset κ}
    (hnodup : (entries.map Prod.fst).Nodup)
    (hmem : ∀ s ∈ entries.map Prod.fst, s ∈ keys) (hk : k ∈ keys)
    (hnone : lookupKey entries k = none) : entries.length < keys.card := by
  have hnotin : k ∉ (entries.map Prod.fst).toFinset := by
    intro hin
    obtain ⟨entry, hentry, rfl⟩ := List.mem_map.mp (List.mem_toFinset.mp hin)
    exact lookupKey_eq_none_iff.mp hnone entry hentry rfl
  have hsub : (entries.map Prod.fst).toFinset ⊂ keys := by
    refine Finset.ssubset_iff_subset_ne.mpr ⟨?_, ?_⟩
    · intro s hs
      exact hmem s (List.mem_toFinset.mp hs)
    · rintro rfl
      exact hnotin hk
  have hcard := Finset.card_lt_card hsub
  rwa [List.toFinset_card_of_nodup hnodup, List.length_map] at hcard

/-- Nothing is refused while the keys are among as many as there may be. -/
theorem refuses_eq_false {keys : Finset κ} (hcard : keys.card ≤ 10000)
    (hnodup : (entries.map Prod.fst).Nodup) (hmem : ∀ s ∈ entries.map Prod.fst, s ∈ keys)
    (hk : k ∈ keys) : refuses entries k = false := by
  unfold refuses
  cases hlook : lookupKey entries k with
  | some a => rfl
  | none =>
    have hlt := length_lt_of_lookupKey_none hnodup hmem hk hlook
    simp only [Option.isNone_none, Bool.true_and, decide_eq_false_iff_not]
    omega

theorem refuses_eq_false_of_seen {keys : Finset κ} {seen : List κ} (hcard : keys.card ≤ 10000)
    (hnodup : (entries.map Prod.fst).Nodup) (hmem : ∀ s ∈ entries.map Prod.fst, s ∈ seen)
    (hseen : ∀ s ∈ seen ++ [k], s ∈ keys) : refuses entries k = false := by
  apply refuses_eq_false hcard hnodup
  · intro s hs
    exact hseen s (List.mem_append_left _ (hmem s hs))
  · exact hseen k (List.mem_append_right seen (List.mem_singleton_self k))

end GmaEngine
