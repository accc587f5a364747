import GmaEngine.EntryMaps

/-!
# The AtomicStore

The latest value of every field of every stream key. Both levels may be capped; a write that
would add an entry beyond a cap is dropped, existing entries stay writable.
-/

namespace GmaEngine

structure AtomicStore (D : Type) where
  data : List (String × List (String × ArgType D)) := []
  /-- Zero means unlimited, here and below. -/
  maxStreamKeys : ℕ := 0
  maxFieldsPerStreamKey : ℕ := 0

namespace AtomicStore
variable {D : Type}

def full (cap size : ℕ) : Bool := decide (0 < cap) && decide (cap ≤ size)

/-- One write into the fields of a stream key. -/
def setField (cap : ℕ) (fm : List (String × ArgType D)) (write : String × ArgType D) :
    List (String × ArgType D) :=
  if (lookupKey fm write.1).isNone && full cap fm.length then fm
  else assignKey fm write.1 write.2

def set (s : AtomicStore D) (streamKey field : String) (value : ArgType D) : AtomicStore D :=
  if (lookupKey s.data streamKey).isNone && full s.maxStreamKeys s.data.length then s
  else
    let fm := (lookupKey s.data streamKey).getD []
    { s with data := assignKey s.data streamKey (setField s.maxFieldsPerStreamKey fm (field, value)) }

def setBatch (s : AtomicStore D) (streamKey : String) (fields : List (String × ArgType D)) :
    AtomicStore D :=
  if (lookupKey s.data streamKey).isNone && full s.maxStreamKeys s.data.length then s
  else
    let fm := (lookupKey s.data streamKey).getD []
    { s with data := assignKey s.data streamKey (fields.foldl (setField s.maxFieldsPerStreamKey) fm) }

def get (s : AtomicStore D) (streamKey field : String) : Option (ArgType D) :=
  (lookupKey s.data streamKey).bind (lookupKey · field)

theorem set_eq_setBatch (s : AtomicStore D) (streamKey field : String) (value : ArgType D) :
    s.set streamKey field value = s.setBatch streamKey [(field, value)] := rfl

/-- No cap is reached. -/
def BelowCaps (s : AtomicStore D) : Prop :=
  full s.maxStreamKeys s.data.length = false ∧
    ∀ streamKey fm, lookupKey s.data streamKey = some fm →
      full s.maxFieldsPerStreamKey fm.length = false

theorem belowCaps_of_unlimited {s : AtomicStore D} (hkeys : s.maxStreamKeys = 0)
    (hfields : s.maxFieldsPerStreamKey = 0) : s.BelowCaps := by
  simp [BelowCaps, full, hkeys, hfields]

theorem full_mono {cap m n : ℕ} (hmn : m ≤ n) (h : full cap n = false) : full cap m = false := by
  simp only [full, Bool.and_eq_false_iff, decide_eq_false_iff_not] at h ⊢
  omega

theorem length_setField_le (cap : ℕ) (fm : List (String × ArgType D))
    (write : String × ArgType D) : fm.length ≤ (setField cap fm write).length := by
  unfold setField
  split_ifs
  · exact le_rfl
  · rw [length_assignKey]
    omega

theorem length_foldl_setField_le (cap : ℕ) (writes : List (String × ArgType D))
    (fm : List (String × ArgType D)) : fm.length ≤ (writes.foldl (setField cap) fm).length := by
  induction writes generalizing fm with
  | nil => exact le_rfl
  | cons write writes ih => exact (length_setField_le cap fm write).trans (ih _)

/-- Below the cap the last write of a field is the one that is kept. -/
theorem lookupKey_foldl_setField {cap : ℕ} {writes fm : List (String × ArgType D)}
    (h : full cap (writes.foldl (setField cap) fm).length = false) (field : String) :
    lookupKey (writes.foldl (setField cap) fm) field =
      (lookupKey writes.reverse field).or (lookupKey fm field) := by
  induction writes generalizing fm with
  | nil => simp
  | cons write writes ih =>
    have hfm : full cap fm.length = false :=
      full_mono (length_foldl_setField_le cap (write :: writes) fm) h
    have hstep : setField cap fm write = assignKey fm write.1 write.2 := by simp [setField, hfm]
    rw [List.foldl_cons] at h ⊢
    rw [ih h, hstep, lookupKey_assignKey, List.reverse_cons, lookupKey_append, Option.or_assoc,
      lookupKey_cons, lookupKey_nil]
    congr 1
    by_cases hfield : write.1 = field
    · rw [if_pos hfield.symm, if_pos hfield]
      rfl
    · rw [if_neg (Ne.symm hfield), if_neg hfield]
      rfl

/-- A write leaves the fields it does not name alone. -/
theorem lookupKey_foldl_setField_of_notMem {cap : ℕ} {writes fm : List (String × ArgType D)}
    {field : String} (h : field ∉ writes.map Prod.fst) :
    lookupKey (writes.foldl (setField cap) fm) field = lookupKey fm field := by
  induction writes generalizing fm with
  | nil => rfl
  | cons write writes ih =>
    rw [List.map_cons, List.mem_cons, not_or] at h
    rw [List.foldl_cons, ih h.2, setField]
    split_ifs
    · rfl
    · rw [lookupKey_assignKey, if_neg h.1]

section Batches
variable {s : AtomicStore D} {streamKey : String} {fields : List (String × ArgType D)}

/-- The fields of a stream key after a batch that is not refused. -/
def merged (s : AtomicStore D) (streamKey : String) (fields : List (String × ArgType D)) :
    List (String × ArgType D) :=
  fields.foldl (setField s.maxFieldsPerStreamKey) ((lookupKey s.data streamKey).getD [])

/-- A batch is either refused as a whole or merged into the fields of its stream key. -/
theorem setBatch_cases (s : AtomicStore D) (streamKey : String)
    (fields : List (String × ArgType D)) :
    (lookupKey s.data streamKey = none ∧ full s.maxStreamKeys s.data.length = true ∧
      s.setBatch streamKey fields = s) ∨
      s.setBatch streamKey fields =
        { s with data := assignKey s.data streamKey (s.merged streamKey fields) } := by
  unfold setBatch
  split_ifs with hrefused
  · simp only [Bool.and_eq_true, Option.isNone_iff_eq_none] at hrefused
    exact .inl ⟨hrefused.1, hrefused.2, rfl⟩
  · exact .inr rfl

theorem BelowCaps.of_setBatch (h : (s.setBatch streamKey fields).BelowCaps) : s.BelowCaps := by
  rcases setBatch_cases s streamKey fields with ⟨-, -, heq⟩ | heq
  · rwa [heq] at h
  · rw [heq] at h
    constructor
    · refine full_mono ?_ h.1
      simp only [length_assignKey]
      omega
    · intro key fm hfm
      by_cases hkey : key = streamKey
      · have hnew := h.2 key (s.merged streamKey fields)
          (by simp only [lookupKey_assignKey, if_pos hkey])
        refine full_mono ?_ hnew
        rw [merged, ← hkey, hfm]
        exact length_foldl_setField_le _ _ _
      · exact h.2 key fm (by simp only [lookupKey_assignKey, if_neg hkey, hfm])

theorem get_setBatch (h : (s.setBatch streamKey fields).BelowCaps) (field : String) :
    (s.setBatch streamKey fields).get streamKey field =
      (lookupKey fields.reverse field).or (s.get streamKey field) := by
  rcases setBatch_cases s streamKey fields with ⟨-, hfull, heq⟩ | heq
  · -- a refusal would show in the size of the store
    rw [heq] at h
    exact absurd hfull (by rw [h.1]; simp)
  · rw [heq] at h ⊢
    have hlook := h.2 streamKey (s.merged streamKey fields)
      (by simp only [lookupKey_assignKey, if_true])
    simp only [get, lookupKey_assignKey, if_true, Option.bind_some]
    rw [merged, lookupKey_foldl_setField hlook]
    congr 1
    cases lookupKey s.data streamKey <;> rfl

theorem get_setBatch_of_notMem {key field : String} (h : field ∉ fields.map Prod.fst) :
    (s.setBatch streamKey fields).get key field = s.get key field := by
  rcases setBatch_cases s streamKey fields with ⟨-, -, heq⟩ | heq
  · rw [heq]
  · rw [heq]
    simp only [get, lookupKey_assignKey]
    split_ifs with hkey
    · rw [Option.bind_some, merged, lookupKey_foldl_setField_of_notMem h, hkey]
      cases lookupKey s.data streamKey <;> rfl
    · rfl

/-- Two batches for one stream key are one. -/
theorem setBatch_setBatch {fields' : List (String × ArgType D)} :
    (s.setBatch streamKey fields).setBatch streamKey fields' =
      s.setBatch streamKey (fields ++ fields') := by
  rcases setBatch_cases s streamKey fields with ⟨hnone, hfull, heq⟩ | heq
  · have hrefused : ∀ fs, s.setBatch streamKey fs = s := by
      intro fs
      simp [setBatch, hnone, hfull]
    rw [heq, hrefused, hrefused]
  · rcases setBatch_cases s streamKey (fields ++ fields') with ⟨hnone, hfull, -⟩ | heq'
    · have hrefused : s.setBatch streamKey fields = s := by simp [setBatch, hnone, hfull]
      rw [hrefused] at heq ⊢
      simp [setBatch, hnone, hfull]
    · rw [heq, heq', setBatch]
      simp [merged, lookupKey_assignKey, assignKey_assignKey, List.foldl_append]

theorem foldl_set_setBatch {writes : List (String × ArgType D)} :
    (writes.foldl (fun s w => s.set streamKey w.1 w.2) s).setBatch streamKey fields =
      s.setBatch streamKey (writes ++ fields) := by
  induction writes generalizing s with
  | nil => rfl
  | cons write writes ih => rw [List.foldl_cons, ih, set_eq_setBatch, setBatch_setBatch, List.singleton_append,
      List.cons_append]

theorem foldl_set (hne : fields ≠ []) :
    fields.foldl (fun s w => s.set streamKey w.1 w.2) s = s.setBatch streamKey fields := by
  obtain ⟨writes, write, rfl⟩ := List.eq_nil_or_concat fields |>.resolve_left hne
  rw [List.concat_eq_append, List.foldl_append, List.foldl_cons, List.foldl_nil, set_eq_setBatch,
    foldl_set_setBatch]

end Batches
end AtomicStore
end GmaEngine
