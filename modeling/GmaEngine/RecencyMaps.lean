import GmaEngine.EntryMaps

/-!
# Bounded recency maps

A map as the list of its entries, most recently written first, cut off at a capacity.
-/

namespace GmaEngine

structure RecencyMap (κ α : Type) where
  entries : List (κ × α)
  cap : ℕ

namespace RecencyMap
variable {κ α : Type} [DecidableEq κ]

def put (m : RecencyMap κ α) (k : κ) (a : α) : RecencyMap κ α :=
  { m with entries := ((k, a) :: KeyedQueues.removeKey Prod.fst k m.entries).take m.cap }

def setCap (m : RecencyMap κ α) (c : ℕ) : RecencyMap κ α :=
  { entries := m.entries.take (max c 1), cap := max c 1 }

def get (m : RecencyMap κ α) (k : κ) : Option α := lookupKey m.entries k

def putAll (m : RecencyMap κ α) (writes : List (κ × α)) : RecencyMap κ α :=
  writes.foldl (fun m w => m.put w.1 w.2) m

structure WF (m : RecencyMap κ α) : Prop where
  keys : (m.entries.map Prod.fst).Nodup
  bounded : m.entries.length ≤ m.cap

variable {m : RecencyMap κ α} {k : κ} {a : α}

omit [DecidableEq κ] in
theorem wf_empty (cap : ℕ) : (⟨[], cap⟩ : RecencyMap κ α).WF := ⟨List.nodup_nil, Nat.zero_le _⟩

theorem WF.put (h : m.WF) (k : κ) (a : α) : (m.put k a).WF := by
  have hcons : ((k, a) :: KeyedQueues.removeKey Prod.fst k m.entries).map Prod.fst |>.Nodup := by
    rw [List.map_cons, List.nodup_cons]
    refine ⟨?_, nodup_removeKey h.keys⟩
    rw [keys_removeKey]
    simp
  exact ⟨hcons.sublist ((List.take_sublist _ _).map Prod.fst), List.length_take_le _ _⟩

omit [DecidableEq κ] in
theorem WF.setCap (h : m.WF) (c : ℕ) : (m.setCap c).WF :=
  ⟨h.keys.sublist ((List.take_sublist _ _).map Prod.fst), List.length_take_le _ _⟩

/-- A key that is there leaves room for itself, so that nothing is cut off. -/
theorem WF.put_of_mem (h : m.WF) (hk : k ∈ m.entries.map Prod.fst) :
    (m.put k a).entries = (k, a) :: KeyedQueues.removeKey Prod.fst k m.entries := by
  have hlt : (KeyedQueues.removeKey Prod.fst k m.entries).length < m.entries.length := by
    obtain ⟨entry, hentry, hkey⟩ := List.mem_map.mp hk
    refine List.length_filter_lt_length_iff_exists.mpr ⟨entry, hentry, ?_⟩
    simp [hkey]
  have hbound := h.bounded
  rw [RecencyMap.put, List.take_of_length_le]
  rw [List.length_cons]
  omega

theorem put_of_notMem (hk : k ∉ m.entries.map Prod.fst) :
    (m.put k a).entries = ((k, a) :: m.entries).take m.cap := by
  rw [put, KeyedQueues.removeKey_eq_self]
  rintro entry hentry rfl
  exact hk (List.mem_map_of_mem hentry)

theorem WF.mem_keys_put (h : m.WF) (hk : k ∈ m.entries.map Prod.fst) {k' : κ} :
    k' ∈ (m.put k a).entries.map Prod.fst ↔ k' ∈ m.entries.map Prod.fst := by
  rw [h.put_of_mem hk, List.map_cons, List.mem_cons, keys_removeKey, List.mem_filter]
  by_cases heq : k' = k
  · simp [heq, hk]
  · simp [heq]

theorem WF.length_put (h : m.WF) (hk : k ∈ m.entries.map Prod.fst) :
    (m.put k a).entries.length = m.entries.length := by
  have hperm : ((m.put k a).entries.map Prod.fst).Perm (m.entries.map Prod.fst) :=
    (List.perm_ext_iff_of_nodup (h.put k a).keys h.keys).mpr (fun _ => h.mem_keys_put hk)
  simpa using hperm.length_eq

/-- The keys are among those written; either all of those are there, or the map is full. -/
structure Holds (m : RecencyMap κ α) (written : Finset κ) : Prop where
  wf : m.WF
  among : ∀ k ∈ m.entries.map Prod.fst, k ∈ written
  full : m.entries.length = m.cap ∨ ∀ k ∈ written, k ∈ m.entries.map Prod.fst

variable {written : Finset κ}

theorem Holds.length_eq (h : m.Holds written) : m.entries.length = min m.cap written.card := by
  have hcard : (m.entries.map Prod.fst).toFinset.card = m.entries.length := by
    rw [List.toFinset_card_of_nodup h.wf.keys, List.length_map]
  have hle := Finset.card_le_card (fun k hk => h.among k (List.mem_toFinset.mp hk))
  rw [hcard] at hle
  rcases h.full with hfull | hall
  · omega
  · have hge := Finset.card_le_card (fun k hk => List.mem_toFinset.mpr (hall k hk))
    rw [hcard] at hge
    have hbound := h.wf.bounded
    omega

theorem Holds.put (h : m.Holds written) (k : κ) (a : α) :
    (m.put k a).Holds (insert k written) := by
  refine ⟨h.wf.put k a, ?_, ?_⟩
  · intro k' hk'
    have hmem : k' ∈ ((k, a) :: KeyedQueues.removeKey Prod.fst k m.entries).map Prod.fst :=
      ((List.take_sublist _ _).map Prod.fst).subset hk'
    rw [List.map_cons, List.mem_cons, keys_removeKey, List.mem_filter] at hmem
    rcases hmem with rfl | ⟨hmem, -⟩
    · exact Finset.mem_insert_self _ _
    · exact Finset.mem_insert_of_mem (h.among k' hmem)
  · have hcap : (m.put k a).cap = m.cap := rfl
    by_cases hk : k ∈ m.entries.map Prod.fst
    · rw [h.wf.length_put hk, hcap]
      refine h.full.imp_right (fun hall k' hk' => ?_)
      rw [h.wf.mem_keys_put hk]
      rcases Finset.mem_insert.mp hk' with rfl | hk'
      · exact hk
      · exact hall k' hk'
    · rw [put_of_notMem hk, hcap, List.length_take, List.length_cons]
      rcases h.wf.bounded.eq_or_lt with hfull | hroom
      · left
        omega
      · right
        have hall := h.full.resolve_left hroom.ne
        rw [List.take_of_length_le (by rw [List.length_cons]; omega)]
        intro k' hk'
        rw [List.map_cons, List.mem_cons]
        exact (Finset.mem_insert.mp hk').imp_right (hall k')

theorem Holds.putAll (h : m.Holds written) (writes : List (κ × α)) :
    (m.putAll writes).Holds (written ∪ (writes.map Prod.fst).toFinset) := by
  induction writes generalizing m written with
  | nil => simpa [RecencyMap.putAll] using h
  | cons w writes ih =>
    have hrest := ih (h.put w.1 w.2)
    rw [List.map_cons, List.toFinset_cons, Finset.union_insert, ← Finset.insert_union]
    exact hrest

theorem cap_putAll (writes : List (κ × α)) : (m.putAll writes).cap = m.cap := by
  induction writes generalizing m with
  | nil => rfl
  | cons w writes ih => exact ih (m := m.put w.1 w.2)

/-- A map that only grew by writes holds as many entries as keys were written, up to its
capacity. -/
theorem length_putAll (cap : ℕ) (writes : List (κ × α)) :
    ((⟨[], cap⟩ : RecencyMap κ α).putAll writes).entries.length =
      min cap (writes.map Prod.fst).toFinset.card := by
  have hempty : (⟨[], cap⟩ : RecencyMap κ α).Holds ∅ :=
    ⟨wf_empty cap, nofun, .inr (fun k hk => (Finset.notMem_empty k hk).elim)⟩
  rw [(hempty.putAll writes).length_eq, cap_putAll, Finset.empty_union]

end RecencyMap
end GmaEngine
