import GmaEngine.AtomicStore

/-!
# The caps of the AtomicStore

A write never takes an entry away, and an entry that is there always takes the value written. The
sizes of both levels stay under their caps.
-/

namespace GmaEngine

section Written
variable {α : Type} {written written' old new newer : Option α}

/-- An entry after some writes: none, or the value last written. An entry is not taken away. -/
def Kept (written old new : Option α) : Prop :=
  (old = none ∧ new = none) ∨ new = written.or old

theorem Kept.trans (h : Kept written old new) (h' : Kept written' new newer) :
    Kept (written'.or written) old newer := by
  rcases h with ⟨hold, hnew⟩ | hnew
  · rcases h' with ⟨-, hnewer⟩ | hnewer
    · exact .inl ⟨hold, hnewer⟩
    · rw [hnew] at hnewer
      cases written' with
      | none => exact .inl ⟨hold, hnewer⟩
      | some a => exact .inr (by rw [hnewer, Option.or_assoc, Option.some_or, Option.some_or])
  · rcases h' with ⟨hnone, hnewer⟩ | hnewer
    · rw [hnew, Option.or_eq_none_iff] at hnone
      exact .inl ⟨hnone.2, hnewer⟩
    · exact .inr (by rw [hnewer, hnew, Option.or_assoc])

theorem Kept.of_some {a : α} (h : Kept written (some a) new) : new = some (written.getD a) := by
  rcases h with ⟨hold, -⟩ | hnew
  · cases hold
  · rw [hnew]
    cases written <;> rfl

theorem Kept.written_eq {a : α} (h : Kept written none (some a)) : written = some a := by
  rcases h with ⟨-, hnew⟩ | hnew
  · cases hnew
  · rw [hnew, Option.or_none]

end Written

/-- The calls that write. -/
inductive StoreCall (D : Type) where
  | set (streamKey field : String) (value : ArgType D)
  | setBatch (streamKey : String) (fields : List (String × ArgType D))

/-- What a call writes, in order. -/
def StoreCall.entries {D : Type} : StoreCall D → List ((String × String) × ArgType D)
  | .set streamKey field value => [((streamKey, field), value)]
  | .setBatch streamKey fields => fields.map (fun w => ((streamKey, w.1), w.2))

namespace AtomicStore
variable {D : Type}

def setCaps (s : AtomicStore D) (maxStreamKeys maxFieldsPerStreamKey : ℕ) : AtomicStore D :=
  { s with maxStreamKeys := maxStreamKeys, maxFieldsPerStreamKey := maxFieldsPerStreamKey }

def call (s : AtomicStore D) : StoreCall D → AtomicStore D
  | .set streamKey field value => s.set streamKey field value
  | .setBatch streamKey fields => s.setBatch streamKey fields

/-- A run from an empty store whose caps are set first. -/
def run (maxStreamKeys maxFieldsPerStreamKey : ℕ) (calls : List (StoreCall D)) : AtomicStore D :=
  calls.foldl call (setCaps {} maxStreamKeys maxFieldsPerStreamKey)

/-- The value last written to a field, if the store had no caps. -/
def lastWritten (calls : List (StoreCall D)) (streamKey field : String) : Option (ArgType D) :=
  lookupKey (calls.flatMap StoreCall.entries).reverse (streamKey, field)

/-- The keys are unique on both levels. -/
structure Keyed (s : AtomicStore D) : Prop where
  streamKeys : (s.data.map Prod.fst).Nodup
  fields : ∀ entry ∈ s.data, (entry.2.map Prod.fst).Nodup

/-- The sizes are under the caps. -/
structure Capped (s : AtomicStore D) : Prop where
  streamKeys : 0 < s.maxStreamKeys → s.data.length ≤ s.maxStreamKeys
  fields : 0 < s.maxFieldsPerStreamKey →
    ∀ entry ∈ s.data, entry.2.length ≤ s.maxFieldsPerStreamKey

/-- An entry is there, or there is room for it under both caps. -/
def Takes (s : AtomicStore D) (streamKey field : String) : Prop :=
  (s.get streamKey field).isSome ∨
    (lookupKey s.data streamKey = none → 0 < s.maxStreamKeys →
      s.data.length < s.maxStreamKeys) ∧
    (0 < s.maxFieldsPerStreamKey →
      ((lookupKey s.data streamKey).getD []).length < s.maxFieldsPerStreamKey)

theorem setField_cases (cap : ℕ) (fm : List (String × ArgType D)) (write : String × ArgType D) :
    (lookupKey fm write.1 = none ∧ full cap fm.length = true ∧ setField cap fm write = fm) ∨
      (lookupKey fm write.1 = none → full cap fm.length = false) ∧
        setField cap fm write = assignKey fm write.1 write.2 := by
  rw [setField]
  split_ifs with hrefused
  · rw [Bool.and_eq_true, Option.isNone_iff_eq_none] at hrefused
    exact .inl ⟨hrefused.1, hrefused.2, rfl⟩
  · refine .inr ⟨fun hnone => ?_, rfl⟩
    rw [hnone] at hrefused
    simpa using hrefused

theorem full_eq_false_iff {cap size : ℕ} : full cap size = false ↔ (0 < cap → size < cap) := by
  simp only [full, Bool.and_eq_false_iff, decide_eq_false_iff_not]
  omega

section
variable {cap : ℕ} {fm : List (String × ArgType D)}

theorem kept_setField (cap : ℕ) (fm : List (String × ArgType D)) (write : String × ArgType D)
    (field : String) :
    Kept (if field = write.1 then some write.2 else none) (lookupKey fm field)
      (lookupKey (setField cap fm write) field) := by
  rcases setField_cases cap fm write with ⟨hnone, -, heq⟩ | ⟨-, heq⟩
  · rw [heq]
    split_ifs with hfield
    · rw [hfield, hnone]
      exact .inl ⟨rfl, rfl⟩
    · exact .inr rfl
  · rw [heq, lookupKey_assignKey]
    split_ifs with hfield
    · exact .inr rfl
    · exact .inr rfl

theorem kept_foldl_setField (cap : ℕ) (fm : List (String × ArgType D))
    (writes : List (String × ArgType D)) (field : String) :
    Kept (lookupKey writes.reverse field) (lookupKey fm field)
      (lookupKey (writes.foldl (setField cap) fm) field) := by
  induction writes generalizing fm with
  | nil => exact .inr rfl
  | cons write writes ih =>
    have hall := (kept_setField cap fm write field).trans (ih _)
    have hlast : lookupKey (write :: writes).reverse field =
        (lookupKey writes.reverse field).or (if field = write.1 then some write.2 else none) := by
      rw [List.reverse_cons, lookupKey_append, lookupKey_cons, lookupKey_nil]
      simp only [eq_comm]
    rw [hlast]
    exact hall

theorem length_setField_le_cap (hcap : 0 < cap) (hfm : fm.length ≤ cap)
    (write : String × ArgType D) : (setField cap fm write).length ≤ cap := by
  rcases setField_cases cap fm write with ⟨-, -, heq⟩ | ⟨hroom, heq⟩
  · rwa [heq]
  · rw [heq, length_assignKey]
    cases hlook : lookupKey fm write.1 with
    | some value => simpa using hfm
    | none =>
      have hlt := full_eq_false_iff.mp (hroom hlook) hcap
      simpa using hlt

theorem length_foldl_setField_le_cap (hcap : 0 < cap) (hfm : fm.length ≤ cap)
    (writes : List (String × ArgType D)) : (writes.foldl (setField cap) fm).length ≤ cap := by
  induction writes generalizing fm with
  | nil => exact hfm
  | cons write writes ih => exact ih (length_setField_le_cap hcap hfm write)

variable (hfm : (fm.map Prod.fst).Nodup)
include hfm

theorem nodup_setField (write : String × ArgType D) :
    ((setField cap fm write).map Prod.fst).Nodup := by
  rcases setField_cases cap fm write with ⟨-, -, heq⟩ | ⟨-, heq⟩
  · rwa [heq]
  · rw [heq]
    exact nodup_assignKey hfm

theorem nodup_foldl_setField (writes : List (String × ArgType D)) :
    ((writes.foldl (setField cap) fm).map Prod.fst).Nodup := by
  induction writes generalizing fm with
  | nil => exact hfm
  | cons write writes ih => exact ih (nodup_setField hfm write)

end

section
variable {s : AtomicStore D} {streamKey : String}

theorem call_eq_setBatch (s : AtomicStore D) (c : StoreCall D) : ∃ streamKey fields,
    s.call c = s.setBatch streamKey fields ∧
      c.entries = fields.map (fun w => ((streamKey, w.1), w.2)) := by
  cases c with
  | set streamKey field value => exact ⟨streamKey, [(field, value)], rfl, rfl⟩
  | setBatch streamKey fields => exact ⟨streamKey, fields, rfl, rfl⟩

theorem Keyed.nodup_fields (hs : s.Keyed) {fm : List (String × ArgType D)}
    (h : lookupKey s.data streamKey = some fm) : (fm.map Prod.fst).Nodup :=
  hs.fields _ ((lookupKey_eq_some_iff hs.streamKeys).mp h)

theorem Keyed.setBatch (hs : s.Keyed) (streamKey : String) (fields : List (String × ArgType D)) :
    (s.setBatch streamKey fields).Keyed := by
  rcases setBatch_cases s streamKey fields with ⟨-, -, heq⟩ | heq
  · rwa [heq]
  · rw [heq]
    refine ⟨nodup_assignKey hs.streamKeys, fun entry hentry => ?_⟩
    rcases mem_assignKey.mp hentry with rfl | ⟨hold, -⟩
    · apply nodup_foldl_setField
      cases hlook : lookupKey s.data streamKey with
      | none => exact List.nodup_nil
      | some fm => exact hs.nodup_fields hlook
    · exact hs.fields entry hold

theorem Capped.setBatch (hs : s.Capped) (streamKey : String)
    (fields : List (String × ArgType D)) : (s.setBatch streamKey fields).Capped := by
  by_cases hrefused : lookupKey s.data streamKey = none ∧ full s.maxStreamKeys s.data.length = true
  · rwa [AtomicStore.setBatch, hrefused.1, hrefused.2]
  · have heq := (setBatch_cases s streamKey fields).resolve_left
      (fun h => hrefused ⟨h.1, h.2.1⟩)
    rw [heq]
    constructor
    · intro hcap
      have hle := hs.streamKeys hcap
      rw [length_assignKey]
      cases hlook : lookupKey s.data streamKey with
      | some fm => simpa using hle
      | none =>
        have hroom : full s.maxStreamKeys s.data.length = false := by
          rw [← Bool.not_eq_true]
          exact fun hfull => hrefused ⟨hlook, hfull⟩
        have hlt := full_eq_false_iff.mp hroom hcap
        simpa using hlt
    · intro hcap entry hentry
      rcases mem_assignKey.mp hentry with rfl | ⟨hold, -⟩
      · refine length_foldl_setField_le_cap hcap ?_ fields
        cases hlook : lookupKey s.data streamKey with
        | none => exact Nat.zero_le _
        | some fm =>
          obtain ⟨found, hfound, rfl⟩ := Option.map_eq_some_iff.mp hlook
          exact hs.fields hcap found (List.mem_of_find?_eq_some hfound)
      · exact hs.fields hcap entry hold

theorem get_eq_lookupKey (s : AtomicStore D) (streamKey field : String) :
    s.get streamKey field = lookupKey ((lookupKey s.data streamKey).getD []) field := by
  rw [get]
  cases lookupKey s.data streamKey <;> rfl

/-- A write that the store takes is what it holds from then on, and any other write is dropped. -/
theorem set_cases (s : AtomicStore D) (streamKey field : String) (value : ArgType D) :
    (s.Takes streamKey field ∧ ∀ key name, (s.set streamKey field value).get key name =
      if key = streamKey ∧ name = field then some value else s.get key name) ∨
    (¬s.Takes streamKey field ∧ ∀ key name, (s.set streamKey field value).get key name =
      s.get key name) := by
  by_cases hrefused : lookupKey s.data streamKey = none ∧ full s.maxStreamKeys s.data.length = true
  · refine .inr ⟨?_, ?_⟩
    · rintro (hsome | ⟨hroom, -⟩)
      · rw [get, hrefused.1] at hsome
        cases hsome
      · rw [full_eq_false_iff.mpr (hroom hrefused.1)] at hrefused
        cases hrefused.2
    · intro key name
      rw [set, hrefused.1, hrefused.2]
      rfl
  · have heq := (setBatch_cases s streamKey [(field, value)]).resolve_left
      (fun h => hrefused ⟨h.1, h.2.1⟩)
    have hget : ∀ key name, (s.set streamKey field value).get key name =
        if key = streamKey then lookupKey (setField s.maxFieldsPerStreamKey
          ((lookupKey s.data streamKey).getD []) (field, value)) name
        else s.get key name := by
      intro key name
      rw [set_eq_setBatch, heq]
      simp only [get, lookupKey_assignKey]
      split_ifs <;> rfl
    rcases setField_cases s.maxFieldsPerStreamKey ((lookupKey s.data streamKey).getD [])
      (field, value) with ⟨hnone, hfull, hsame⟩ | ⟨hroom, hassign⟩
    · refine .inr ⟨?_, ?_⟩
      · rintro (hsome | ⟨-, hfields⟩)
        · rw [get_eq_lookupKey, hnone] at hsome
          cases hsome
        · rw [full_eq_false_iff.mpr hfields] at hfull
          cases hfull
      · intro key name
        rw [hget, hsame, ← get_eq_lookupKey]
        split_ifs with hkey
        · rw [hkey]
        · rfl
    · refine .inl ⟨?_, ?_⟩
      · rw [Takes, get_eq_lookupKey]
        cases hold : lookupKey ((lookupKey s.data streamKey).getD []) field with
        | some old => exact .inl rfl
        | none =>
          refine .inr ⟨fun hnew => ?_, full_eq_false_iff.mp (hroom hold)⟩
          rw [← full_eq_false_iff, ← Bool.not_eq_true]
          exact fun hfull => hrefused ⟨hnew, hfull⟩
      · intro key name
        rw [hget, hassign, lookupKey_assignKey, ← get_eq_lookupKey]
        by_cases hkey : key = streamKey
        · rw [hkey]
          simp
        · simp [hkey]

theorem kept_setBatch (fields : List (String × ArgType D)) (key field : String) :
    Kept (if key = streamKey then lookupKey fields.reverse field else none) (s.get key field)
      ((s.setBatch streamKey fields).get key field) := by
  rcases setBatch_cases s streamKey fields with ⟨hnone, -, heq⟩ | heq
  · rw [heq]
    split_ifs with hkey
    · rw [hkey]
      have hget : s.get streamKey field = none := by rw [get, hnone, Option.bind_none]
      exact .inl ⟨hget, hget⟩
    · exact .inr rfl
  · rw [heq]
    simp only [get, lookupKey_assignKey]
    split_ifs with hkey
    · rw [hkey, Option.bind_some]
      have hkept := kept_foldl_setField s.maxFieldsPerStreamKey
        ((lookupKey s.data streamKey).getD []) fields field
      cases hlook : lookupKey s.data streamKey with
      | none => simpa [merged, hlook] using hkept
      | some fm => simpa [merged, hlook] using hkept
    · exact .inr rfl

theorem lookupKey_fields (fields : List (String × ArgType D)) (key field : String) :
    lookupKey (fields.map (fun w => ((streamKey, w.1), w.2))) (key, field) =
      if key = streamKey then lookupKey fields field else none := by
  induction fields with
  | nil => simp
  | cons write fields ih =>
    rw [List.map_cons, lookupKey_cons, lookupKey_cons, ih]
    by_cases hkey : key = streamKey
    · rw [hkey]
      simp
    · simp [hkey, Ne.symm hkey]

theorem kept_call (c : StoreCall D) (key field : String) :
    Kept (lookupKey c.entries.reverse (key, field)) (s.get key field)
      ((s.call c).get key field) := by
  obtain ⟨streamKey, fields, hcall, hentries⟩ := call_eq_setBatch s c
  rw [hcall, hentries, ← List.map_reverse, lookupKey_fields]
  exact kept_setBatch fields key field

theorem kept_calls (calls : List (StoreCall D)) (key field : String) :
    Kept (lastWritten calls key field) (s.get key field)
      ((calls.foldl call s).get key field) := by
  induction calls generalizing s with
  | nil => exact .inr rfl
  | cons c calls ih =>
    have hall := (kept_call (s := s) c key field).trans ih
    rw [lastWritten, ← lookupKey_append, ← List.reverse_append] at hall
    exact hall

/-- The caps and the sizes of both levels along a run. -/
theorem calls_capped (hcapped : s.Capped) (hkeyed : s.Keyed) (calls : List (StoreCall D)) :
    (calls.foldl call s).Capped ∧ (calls.foldl call s).Keyed := by
  induction calls generalizing s with
  | nil => exact ⟨hcapped, hkeyed⟩
  | cons c calls ih =>
    obtain ⟨streamKey, fields, hcall, -⟩ := call_eq_setBatch s c
    rw [List.foldl_cons, hcall]
    exact ih (hcapped.setBatch streamKey fields) (hkeyed.setBatch streamKey fields)

theorem maxCaps_call (c : StoreCall D) : (s.call c).maxStreamKeys = s.maxStreamKeys ∧
    (s.call c).maxFieldsPerStreamKey = s.maxFieldsPerStreamKey := by
  obtain ⟨streamKey, fields, hcall, -⟩ := call_eq_setBatch s c
  rw [hcall, AtomicStore.setBatch]
  split_ifs <;> exact ⟨rfl, rfl⟩

theorem maxCaps_calls (calls : List (StoreCall D)) :
    (calls.foldl call s).maxStreamKeys = s.maxStreamKeys ∧
      (calls.foldl call s).maxFieldsPerStreamKey = s.maxFieldsPerStreamKey := by
  induction calls generalizing s with
  | nil => exact ⟨rfl, rfl⟩
  | cons c calls ih =>
    obtain ⟨hkeys, hfields⟩ := maxCaps_call (s := s) c
    rw [List.foldl_cons, ih.1, ih.2]
    exact ⟨hkeys, hfields⟩

theorem run_append {m n : ℕ} (calls more : List (StoreCall D)) :
    run m n (calls ++ more) = more.foldl call (run m n calls) := List.foldl_append

/-- A batch is its writes one by one. -/
theorem foldl_call_set {fields : List (String × ArgType D)} (hne : fields ≠ []) :
    (fields.map (fun w => StoreCall.set streamKey w.1 w.2)).foldl call s =
      s.setBatch streamKey fields := by
  rw [List.foldl_map]
  exact foldl_set hne

end

/-- The sizes stay under the caps, an entry that is stored stays and always holds the value last
written to it, a write to an entry that is there or has room is what the store holds of it, and a
batch has the effect of its writes one by one, then and ever after. -/
theorem store_caps (maxStreamKeys maxFieldsPerStreamKey : ℕ) (calls : List (StoreCall D)) :
    ((run maxStreamKeys maxFieldsPerStreamKey calls).Keyed ∧
      (0 < maxStreamKeys →
        (run maxStreamKeys maxFieldsPerStreamKey calls).data.length ≤ maxStreamKeys) ∧
      (0 < maxFieldsPerStreamKey →
        ∀ entry ∈ (run maxStreamKeys maxFieldsPerStreamKey calls).data,
          entry.2.length ≤ maxFieldsPerStreamKey)) ∧
    (∀ streamKey field value,
      (run maxStreamKeys maxFieldsPerStreamKey calls).get streamKey field = some value →
        lastWritten calls streamKey field = some value ∧
        ∀ more, (run maxStreamKeys maxFieldsPerStreamKey (calls ++ more)).get streamKey field =
          some ((lastWritten more streamKey field).getD value)) ∧
    (∀ k f v,
      ((run maxStreamKeys maxFieldsPerStreamKey calls).Takes k f →
        (run maxStreamKeys maxFieldsPerStreamKey (calls ++ [StoreCall.set k f v])).get k f =
          some v) ∧
      (¬(run maxStreamKeys maxFieldsPerStreamKey calls).Takes k f →
        (run maxStreamKeys maxFieldsPerStreamKey (calls ++ [StoreCall.set k f v])).get k f = none) ∧
      ∀ streamKey field, (streamKey, field) ≠ (k, f) →
        (run maxStreamKeys maxFieldsPerStreamKey (calls ++ [StoreCall.set k f v])).get
            streamKey field =
          (run maxStreamKeys maxFieldsPerStreamKey calls).get streamKey field) ∧
    (∀ k fs, fs ≠ [] → ∀ more streamKey field,
      (run maxStreamKeys maxFieldsPerStreamKey
        (calls ++ .setBatch k fs :: more)).get streamKey field =
      (run maxStreamKeys maxFieldsPerStreamKey
        (calls ++ fs.map (fun w => .set k w.1 w.2) ++ more)).get streamKey field) := by
  have hempty : (setCaps {} maxStreamKeys maxFieldsPerStreamKey : AtomicStore D).Capped ∧
      (setCaps {} maxStreamKeys maxFieldsPerStreamKey : AtomicStore D).Keyed :=
    ⟨⟨fun _ => Nat.zero_le _, fun _ => nofun⟩, ⟨List.nodup_nil, nofun⟩⟩
  refine ⟨?_, ?_, ?_, ?_⟩
  · obtain ⟨hcapped, hkeyed⟩ := calls_capped hempty.1 hempty.2 calls
    obtain ⟨hkeys, hfields⟩ :=
      maxCaps_calls (s := setCaps {} maxStreamKeys maxFieldsPerStreamKey) calls
    refine ⟨hkeyed, ?_, ?_⟩
    · intro hcap
      exact (hcapped.streamKeys (by rwa [hkeys])).trans_eq hkeys
    · intro hcap entry hentry
      exact (hcapped.fields (by rwa [hfields]) entry hentry).trans_eq hfields
  · intro streamKey field value hget
    constructor
    · have hkept := kept_calls (s := setCaps {} maxStreamKeys maxFieldsPerStreamKey) calls
        streamKey field
      rw [← run, hget] at hkept
      exact hkept.written_eq
    · intro more
      have hkept := kept_calls (s := run maxStreamKeys maxFieldsPerStreamKey calls) more
        streamKey field
      rw [hget] at hkept
      rw [run_append]
      exact hkept.of_some
  · intro k f v
    rw [run_append]
    rcases set_cases (run maxStreamKeys maxFieldsPerStreamKey calls) k f v with
      ⟨htakes, hget⟩ | ⟨hnot, hget⟩
    · refine ⟨fun _ => ?_, fun hnot => absurd htakes hnot, fun streamKey field hother => ?_⟩
      · exact (hget k f).trans (if_pos ⟨rfl, rfl⟩)
      · exact (hget streamKey field).trans (if_neg (by simpa using hother))
    · refine ⟨fun htakes => absurd htakes hnot, fun _ => ?_, fun streamKey field _ => hget _ _⟩
      rw [Takes, not_or, Option.not_isSome_iff_eq_none] at hnot
      exact (hget k f).trans hnot.1
  · intro k fs hne more streamKey field
    rw [run_append, List.append_assoc, run_append, List.foldl_cons, List.foldl_append,
      foldl_call_set hne]
    rfl

/-- There is room for one stream key of two fields: the third field and the second key are
dropped, and a field that is there takes another value. -/
def overfull : List (StoreCall ℕ) :=
  [.setBatch "AAPL" [("bid", .int 1), ("ask", .int 2), ("mid", .int 3)],
    .set "MSFT" "bid" (.int 4)]

theorem store_caps_overfull :
    (run 1 2 overfull).data.length ≤ 1 ∧
    (run 1 2 (overfull ++ [StoreCall.set "AAPL" "ask" (.int 5)])).get "AAPL" "ask" = some (.int 5) ∧
    (run 1 2 (overfull ++ [StoreCall.set "MSFT" "ask" (.int 6)])).get "MSFT" "ask" = none ∧
    (run 1 2 (overfull ++ [StoreCall.set "AAPL" "ask" (.int 5), .set "AAPL" "mid" (.int 7)])).get
      "AAPL" "bid" = some (.int 1) ∧
    (run (D := ℕ) 1 2
      ([StoreCall.set "AAPL" "bid" (.int 1)] ++ [StoreCall.set "AAPL" "ask" (.int 2)])).get
      "AAPL" "ask" = some (.int 2) := by
  obtain ⟨⟨-, hkeys, -⟩, hkept, hset, -⟩ := store_caps 1 2 overfull
  refine ⟨hkeys (by decide), ?_, ?_, ?_, ?_⟩
  · exact (hset "AAPL" "ask" (.int 5)).1 (.inl rfl)
  · refine (hset "MSFT" "ask" (.int 6)).2.1 ?_
    rintro (hsome | ⟨hroom, -⟩)
    · cases hsome
    · exact absurd (hroom rfl (by decide)) (by decide)
  · exact (hkept "AAPL" "bid" (.int 1) rfl).2 _
  · obtain ⟨-, -, hfirst, -⟩ := store_caps (D := ℕ) 1 2 [.set "AAPL" "bid" (.int 1)]
    refine (hfirst "AAPL" "ask" (.int 2)).1 (.inr ⟨?_, ?_⟩)
    · exact fun hnew => nomatch hnew
    · exact fun _ => by decide

end AtomicStore
end GmaEngine
