import GmaEngine.EntryMaps
import GmaEngine.FailedBuilds
import GmaEngine.GuardedRuns
import GmaEngine.NodeMachines

/-!
# Batches of an Aggregate

An Aggregate collects the values of a symbol and forwards them in batches. A batch is taken from
the buffer under the lock and forwarded after it is released, one value after the other, so several
calls can be forwarding at the same time.
-/

namespace GmaEngine

open StreamMachines
variable {D : Type}

namespace Stage

/-- The values of a symbol that have been taken out of the buffer: all complete batches. -/
def forwarded (arity n : ℕ) : ℕ := arity * (n / arity)

theorem forwarded_le (arity n : ℕ) : forwarded arity n ≤ n := Nat.mul_div_le n arity

theorem forwarded_add_mod (arity n : ℕ) : forwarded arity n + n % arity = n :=
  Nat.div_add_mod n arity

/-- A value completes a batch or stays behind the last one. -/
theorem forwarded_succ {arity : ℕ} (harity : 0 < arity) (n : ℕ) :
    forwarded arity (n + 1) =
      if n % arity + 1 < arity then forwarded arity n else forwarded arity n + arity := by
  unfold forwarded
  have hdiv := Nat.div_add_mod n arity
  have hmod := Nat.mod_lt n harity
  split_ifs with hshort
  · congr 1
    rw [Nat.div_eq_iff harity]
    have hcomm : n / arity * arity = arity * (n / arity) := Nat.mul_comm _ _
    omega
  · have hnext : n + 1 = arity * (n / arity + 1) := by
      rw [Nat.mul_add, Nat.mul_one]
      omega
    rw [hnext, Nat.mul_div_cancel_left _ harity, Nat.mul_add, Nat.mul_one]

/-- For each symbol the buffer holds what came after the last complete batch. -/
structure Buffers (arity : ℕ) (past : List (StreamValue D)) (buf : SymbolMap D) : Prop where
  nodup : (buf.map Prod.fst).Nodup
  symbols : ∀ s ∈ buf.map Prod.fst, s ∈ past.map StreamValue.symbol
  pending : ∀ s, (lookupKey buf s).getD [] =
    (valuesOf s past).drop (forwarded arity (valuesOf s past).length)

namespace Buffers
variable {arity : ℕ} {past : List (StreamValue D)} {buf : SymbolMap D}

theorem empty (arity : ℕ) : Buffers arity ([] : List (StreamValue D)) [] where
  nodup := List.nodup_nil
  symbols := by simp
  pending := by simp

theorem refuses_eq_false (h : Buffers arity past buf) {symbols : Finset String}
    (hcard : symbols.card ≤ 10000) {sv : StreamValue D}
    (hsymbols : ∀ other ∈ past ++ [sv], other.symbol ∈ symbols) :
    refuses buf sv.symbol = false := by
  apply refuses_eq_false_of_seen hcard h.nodup h.symbols
  intro s hs
  rw [← List.map_singleton, ← List.map_append] at hs
  obtain ⟨other, hother, rfl⟩ := List.mem_map.mp hs
  exact hsymbols other hother

/-- The new buffer of the symbol of the value. -/
theorem assign (h : Buffers arity past buf) (sv : StreamValue D) {vals : List (ArgType D)}
    (hvals : vals = (valuesOf sv.symbol (past ++ [sv])).drop
      (forwarded arity (valuesOf sv.symbol (past ++ [sv])).length)) :
    Buffers arity (past ++ [sv]) (assignKey buf sv.symbol vals) := by
  refine ⟨nodup_assignKey h.nodup, ?_, ?_⟩
  · rw [List.map_append]
    exact mem_keys_assignKey_concat h.symbols
  · intro s
    rw [lookupKey_assignKey]
    split_ifs with hs
    · rw [Option.getD_some, hvals, hs]
    · rw [h.pending, valuesOf_append, valuesOf_singleton_ne (Ne.symm hs), List.append_nil]

theorem length_pending (h : Buffers arity past buf) (s : String) :
    ((lookupKey buf s).getD []).length = (valuesOf s past).length % arity := by
  rw [h.pending, List.length_drop]
  have hsplit := forwarded_add_mod arity (valuesOf s past).length
  omega

/-- One value: it is buffered, and if it completes a batch the batch is taken out. -/
theorem step (h : Buffers arity past buf) (harity : 0 < arity) {sv : StreamValue D}
    (hadmits : refuses buf sv.symbol = false) :
    Buffers arity (past ++ [sv]) (aggregateStep arity buf sv).1 ∧
    (aggregateStep arity buf sv).2 =
      (((valuesOf sv.symbol past ++ [sv.value]).drop
          (forwarded arity (valuesOf sv.symbol past).length)).take
        (forwarded arity ((valuesOf sv.symbol past).length + 1) -
          forwarded arity (valuesOf sv.symbol past).length)).map (⟨sv.symbol, ·⟩) := by
  have hlen := h.length_pending sv.symbol
  have hsplit := forwarded_add_mod arity (valuesOf sv.symbol past).length
  have hmod := Nat.mod_lt (valuesOf sv.symbol past).length harity
  have hvalues : valuesOf sv.symbol (past ++ [sv]) = valuesOf sv.symbol past ++ [sv.value] := by
    rw [valuesOf_append, valuesOf_singleton_same]
  have hvals : (lookupKey buf sv.symbol).getD [] ++ [sv.value] =
      (valuesOf sv.symbol past ++ [sv.value]).drop
        (forwarded arity (valuesOf sv.symbol past).length) := by
    rw [List.drop_append_of_le_length (forwarded_le _ _), h.pending]
  have hall : ((lookupKey buf sv.symbol).getD [] ++ [sv.value]).length =
      (valuesOf sv.symbol past).length % arity + 1 := by
    rw [List.length_append, hlen, List.length_singleton]
  simp only [aggregateStep, hadmits, Bool.false_eq_true, if_false, hall]
  split_ifs with hshort
  · refine ⟨h.assign sv ?_, ?_⟩
    · rw [hvals, hvalues, List.length_append, List.length_singleton, forwarded_succ harity,
        if_pos hshort]
    · rw [forwarded_succ harity, if_pos hshort, Nat.sub_self, List.take_zero, List.map_nil]
  · refine ⟨h.assign sv ?_, ?_⟩
    · rw [hvalues, List.length_append, List.length_singleton, forwarded_succ harity,
        if_neg hshort, List.drop_eq_nil_of_le]
      rw [List.length_append, List.length_singleton]
      omega
    · rw [← hvals, forwarded_succ harity, if_neg hshort, List.take_of_length_le]
      rw [hall]
      omega

end Buffers
end Stage

/-- An Aggregate whose `onValue` is called from several threads. Every buffered value carries its
place among the values of its symbol, at which the node never looks. -/
structure FanIn (D : Type) where
  rt : Runtime D
  /-- For each call what it still has to forward. -/
  callers : List (List (StreamValue D × ℕ)) := []
  /-- What the parent was given. -/
  received : List (StreamValue D × ℕ) := []
  arrived : List (StreamValue D) := []

namespace FanIn

inductive Action (D : Type) where
  /-- A call buffers its value and takes the batch that it completes. -/
  | onValue (sv : StreamValue D)
  /-- The call of that number forwards its next value. -/
  | forward (caller : ℕ)

def step [Double D] (env : BuildEnv D) (store : String → String → Option (ArgType D))
    (live : NodeId → Bool) (id : NodeId) (s : FanIn D) : Action D → FanIn D
  | .onValue sv =>
    let out := s.rt.onValue env store live id sv
    let batch := out.2.calls.map Call.value
    let place := (valuesOf sv.symbol s.arrived).length + 1 - batch.length
    { s with
      rt := out.1
      callers := s.callers ++ [batch.zipIdx place]
      arrived := s.arrived ++ [sv] }
  | .forward caller =>
    match s.callers[caller]? with
    | some (entry :: rest) =>
      { s with
        callers := s.callers.set caller rest
        received := s.received ++ [entry] }
    | _ => s

/-- The call has forwarded some of its batch of the symbol, and not all of it. -/
def inMiddle (arity : ℕ) (symbol : String) : List (StreamValue D × ℕ) → Bool
  | [] => false
  | entry :: rest => entry.1.symbol = symbol && decide (rest.length + 1 < arity)

/-- Nothing of a symbol is forwarded while another call is in the middle of a batch of it. -/
def allowed (arity : ℕ) (s : FanIn D) : Action D → Bool
  | .onValue _ => true
  | .forward caller =>
    match s.callers[caller]? with
    | some (entry :: _) =>
      (s.callers.eraseIdx caller).all (fun other => !inMiddle arity entry.1.symbol other)
    | _ => true

/-- The places of the entries of a symbol. -/
def positions (symbol : String) (entries : List (StreamValue D × ℕ)) : List ℕ :=
  (entries.filter (fun entry => entry.1.symbol = symbol)).map Prod.snd

/-- Every value of a complete batch was forwarded once or is still to be forwarded by one call, and
the others are in the buffer. -/
structure Conserved (arity : ℕ) (parent id : NodeId) (s : FanIn D) : Prop where
  buffer : ∃ buf, s.rt.nodes[id]? = some (.aggregate arity (some parent) false buf) ∧
    Stage.Buffers arity s.arrived buf
  accounted : ∀ symbol, (positions symbol (s.received ++ s.callers.flatten)).Perm
    (List.range (Stage.forwarded arity (valuesOf symbol s.arrived).length))
  values : ∀ entry ∈ s.received ++ s.callers.flatten,
    (valuesOf entry.1.symbol s.arrived)[entry.2]? = some entry.1.value

/-- What the parent was given of a symbol: complete batches and the beginning of one, of which
nothing is left when no call is forwarding. -/
def Contiguous (arity : ℕ) (s : FanIn D) : Prop :=
  ∀ symbol, ∃ (batches : List ℕ) (k j : ℕ), j < arity ∧
    positions symbol s.received =
      batches.flatMap (fun b => List.range' (b * arity) arity) ++ List.range' (k * arity) j ∧
    ((∀ caller ∈ s.callers, caller = []) → j = 0)

section Conservation

@[simp] theorem positions_append (symbol : String) (xs ys : List (StreamValue D × ℕ)) :
    positions symbol (xs ++ ys) = positions symbol xs ++ positions symbol ys := by
  simp [positions]

theorem positions_perm (symbol : String) {xs ys : List (StreamValue D × ℕ)} (h : xs.Perm ys) :
    (positions symbol xs).Perm (positions symbol ys) :=
  (h.filter _).map _

theorem positions_batch (symbol symbol' : String) (vals : List (ArgType D)) (place : ℕ) :
    positions symbol' ((vals.map (fun v => (⟨symbol, v⟩ : StreamValue D))).zipIdx place) =
      if symbol = symbol' then List.range' place vals.length else [] := by
  induction vals generalizing place with
  | nil => simp [positions]
  | cons v vals ih =>
    rw [List.map_cons, List.zipIdx_cons, ← List.singleton_append, positions_append, ih]
    by_cases h : symbol = symbol'
    · simp [positions, h, List.range'_succ]
    · simp [positions, h]

/-- A call that has something to forward, among the others. -/
theorem split_callers {callers : List (List (StreamValue D × ℕ))} {i : ℕ}
    {caller : List (StreamValue D × ℕ)} (h : callers[i]? = some caller) :
    ∃ front back, callers = front ++ caller :: back ∧
      (∀ rest, callers.set i rest = front ++ rest :: back) ∧
      callers.eraseIdx i = front ++ back := by
  obtain ⟨hlt, rfl⟩ := List.getElem?_eq_some_iff.mp h
  refine ⟨callers.take i, callers.drop (i + 1), ?_, ?_, ?_⟩
  · rw [List.getElem_cons_drop, List.take_append_drop]
  · intro rest
    rw [List.set_eq_take_append_cons_drop, if_pos hlt]
  · rw [List.eraseIdx_eq_take_drop_succ]

theorem positions_split (received : List (StreamValue D × ℕ))
    (front back : List (List (StreamValue D × ℕ))) (entry : StreamValue D × ℕ)
    (rest : List (StreamValue D × ℕ)) :
    (received ++ [entry] ++ (front ++ rest :: back).flatten).Perm
      (received ++ (front ++ (entry :: rest) :: back).flatten) := by
  simp only [List.flatten_append, List.flatten_cons, List.append_assoc, List.cons_append,
    List.nil_append]
  exact (List.perm_middle.symm).append_left received

/-! The places of one batch. -/

theorem length_batch {arity : ℕ} (vals : List (ArgType D)) (v : ArgType D) :
    (((vals ++ [v]).drop (Stage.forwarded arity vals.length)).take
      (Stage.forwarded arity (vals.length + 1) - Stage.forwarded arity vals.length)).length =
      Stage.forwarded arity (vals.length + 1) - Stage.forwarded arity vals.length := by
  have hle := Stage.forwarded_le arity (vals.length + 1)
  rw [List.length_take, List.length_drop, List.length_append, List.length_singleton]
  omega

theorem zipIdx_batch {arity : ℕ} (harity : 0 < arity) (sv : StreamValue D)
    (vals : List (ArgType D)) :
    let first := Stage.forwarded arity vals.length
    let batch := (((vals ++ [sv.value]).drop first).take
      (Stage.forwarded arity (vals.length + 1) - first)).map
        (fun v => (⟨sv.symbol, v⟩ : StreamValue D))
    batch.zipIdx (vals.length + 1 - batch.length) = batch.zipIdx first := by
  intro first batch
  have hlen : batch.length = Stage.forwarded arity (vals.length + 1) - first := by
    rw [List.length_map]
    exact length_batch vals sv.value
  have hsplit := Stage.forwarded_add_mod arity vals.length
  have hmod := Nat.mod_lt vals.length harity
  have hsucc := Stage.forwarded_succ harity vals.length
  split_ifs at hsucc with hshort
  · have hnil : batch = [] := List.eq_nil_of_length_eq_zero (by omega)
    rw [hnil, List.zipIdx_nil, List.zipIdx_nil]
  · have hplace : vals.length + 1 - batch.length = first := by omega
    rw [hplace]

theorem forwarded_le_succ {arity : ℕ} (harity : 0 < arity) (n : ℕ) :
    Stage.forwarded arity n ≤ Stage.forwarded arity (n + 1) := by
  rw [Stage.forwarded_succ harity]
  split_ifs <;> omega

theorem range_forwarded_succ {arity : ℕ} (harity : 0 < arity) (n : ℕ) :
    List.range (Stage.forwarded arity n) ++ List.range' (Stage.forwarded arity n)
      (Stage.forwarded arity (n + 1) - Stage.forwarded arity n) =
      List.range (Stage.forwarded arity (n + 1)) := by
  have hle := forwarded_le_succ harity n
  have hjoin := List.range'_append_1 (s := 0) (m := Stage.forwarded arity n)
    (n := Stage.forwarded arity (n + 1) - Stage.forwarded arity n)
  rw [Nat.zero_add, Nat.add_sub_cancel' hle] at hjoin
  rw [List.range_eq_range', List.range_eq_range', hjoin]

/-- A value of a batch stands at its place among the values of the symbol. -/
theorem value_of_mem_batch {symbol : String} {vals : List (ArgType D)} {first len : ℕ}
    {entry : StreamValue D × ℕ} (h : entry ∈ (((vals.drop first).take len).map
      (fun v => (⟨symbol, v⟩ : StreamValue D))).zipIdx first) :
    entry.1.symbol = symbol ∧ vals[entry.2]? = some entry.1.value := by
  obtain ⟨hle, hget⟩ := List.mk_mem_zipIdx_iff_le_and_getElem?_sub.mp h
  rw [List.getElem?_map, Option.map_eq_some_iff] at hget
  obtain ⟨v, hv, heq⟩ := hget
  rw [List.getElem?_take, List.getElem?_drop, Nat.add_sub_cancel' hle] at hv
  rw [← heq]
  refine ⟨rfl, ?_⟩
  split_ifs at hv
  exact hv

section Steps
variable [Double D] (env : BuildEnv D) (store : String → String → Option (ArgType D))
  (live : NodeId → Bool) {id parent : NodeId} {arity : ℕ} {s : FanIn D}

/-- What a call of `onValue` does: the places of its batch begin where the last batch ended. -/
theorem step_onValue (h : Conserved arity parent id s) (harity : 0 < arity)
    {symbols : Finset String} (hcard : symbols.card ≤ 10000) {sv : StreamValue D}
    (hsymbols : ∀ other ∈ s.arrived ++ [sv], other.symbol ∈ symbols) :
    let vals := valuesOf sv.symbol s.arrived
    let first := Stage.forwarded arity vals.length
    let last := Stage.forwarded arity (vals.length + 1)
    let s' := step env store live id s (.onValue sv)
    (∃ buf, s'.rt.nodes[id]? = some (.aggregate arity (some parent) false buf) ∧
      Stage.Buffers arity s'.arrived buf) ∧
    s'.callers = s.callers ++ [((((vals ++ [sv.value]).drop first).take (last - first)).map
      (fun v => (⟨sv.symbol, v⟩ : StreamValue D))).zipIdx first] := by
  intro vals first last s'
  obtain ⟨buf, hnode, hbuffers⟩ := h.buffer
  have hadmits := hbuffers.refuses_eq_false hcard hsymbols
  obtain ⟨hbuffers', houts⟩ := hbuffers.step harity hadmits
  have hcall : s.rt.onValue env store live id sv =
      (s.rt.setNode id (.aggregate arity (some parent) false (Stage.aggregateStep arity buf sv).1),
        { calls := Runtime.handOn (some parent) (Stage.aggregateStep arity buf sv).2 }) :=
    Runtime.onValue_stage env store live (.aggregate arity) hnode sv
  have hbatch : (s.rt.onValue env store live id sv).2.calls.map Call.value =
      (Stage.aggregateStep arity buf sv).2 := by
    rw [hcall, Runtime.handOn_some, List.map_map]
    exact List.map_id _
  have hlt := (List.getElem?_eq_some_iff.mp hnode).1
  refine ⟨⟨_, ?_, hbuffers'⟩, ?_⟩
  · change (s.rt.onValue env store live id sv).1.nodes[id]? = _
    rw [hcall]
    simp [Runtime.setNode, hlt]
  · change s.callers ++ [((s.rt.onValue env store live id sv).2.calls.map Call.value).zipIdx
      (vals.length + 1 - ((s.rt.onValue env store live id sv).2.calls.map Call.value).length)] = _
    rw [hbatch, houts]
    exact congrArg (fun entries => s.callers ++ [entries]) (zipIdx_batch harity sv vals)

/-- A call forwards its next value, if it has one. -/
theorem step_forward (id : NodeId) (arity : ℕ) (s : FanIn D) (caller : ℕ) :
    (allowed arity s (.forward caller) = true ∧ step env store live id s (.forward caller) = s) ∨
    ∃ front entry rest back, s.callers = front ++ (entry :: rest) :: back ∧
      allowed arity s (.forward caller) =
        (front ++ back).all (fun other => !inMiddle arity entry.1.symbol other) ∧
      step env store live id s (.forward caller) =
        { s with
          callers := front ++ rest :: back
          received := s.received ++ [entry] } := by
  cases hcaller : s.callers[caller]? with
  | none => exact .inl ⟨by simp only [allowed, hcaller], by simp only [step, hcaller]⟩
  | some entries =>
    cases entries with
    | nil => exact .inl ⟨by simp only [allowed, hcaller], by simp only [step, hcaller]⟩
    | cons entry rest =>
      obtain ⟨front, back, hsplit, hset, herase⟩ := split_callers hcaller
      refine .inr ⟨front, entry, rest, back, hsplit, ?_, ?_⟩
      · simp only [allowed, hcaller, herase]
      · simp only [step, hcaller, hset]

/-- What one step keeps, whoever makes it. -/
theorem Conserved.step (h : Conserved arity parent id s) (harity : 0 < arity)
    {symbols : Finset String} (hcard : symbols.card ≤ 10000) (action : Action D)
    (hsymbols : ∀ sv, action = .onValue sv →
      ∀ other ∈ s.arrived ++ [sv], other.symbol ∈ symbols) :
    Conserved arity parent id (step env store live id s action) := by
  cases action with
  | onValue sv =>
    obtain ⟨hbuffer, hcallers⟩ := step_onValue env store live h harity hcard (hsymbols sv rfl)
    have harrived :
        (FanIn.step env store live id s (.onValue sv)).arrived = s.arrived ++ [sv] := rfl
    have hreceived : (FanIn.step env store live id s (.onValue sv)).received = s.received := rfl
    refine ⟨hbuffer, ?_, ?_⟩
    · intro symbol
      rw [hreceived, hcallers, harrived, List.flatten_append, List.flatten_singleton,
        ← List.append_assoc, positions_append, positions_batch, valuesOf_append]
      split_ifs with hs
      · subst hs
        rw [valuesOf_singleton_same, length_batch, List.length_append, List.length_singleton]
        rw [← range_forwarded_succ harity]
        exact (h.accounted sv.symbol).append_right _
      · rw [valuesOf_singleton_ne hs, List.append_nil, List.append_nil]
        exact h.accounted symbol
    · intro entry hentry
      rw [hreceived, hcallers, List.flatten_append, List.flatten_singleton, ← List.append_assoc,
        List.mem_append] at hentry
      rw [harrived, valuesOf_append]
      rcases hentry with hold | hnew
      · have hget := h.values entry hold
        rw [List.getElem?_append_left (List.getElem?_eq_some_iff.mp hget).1, hget]
      · obtain ⟨hsymbol, hget⟩ := value_of_mem_batch hnew
        rw [hsymbol, valuesOf_singleton_same, hget]
  | forward caller =>
    obtain ⟨-, hidle⟩ | ⟨front, entry, rest, back, hsplit, -, hstep⟩ :=
      step_forward env store live id arity s caller
    · rw [hidle]
      exact h
    · have hperm := positions_split s.received front back entry rest
      rw [hstep]
      refine ⟨h.buffer, ?_, ?_⟩
      · intro symbol
        have haccounted := h.accounted symbol
        rw [hsplit] at haccounted
        exact (positions_perm symbol hperm).trans haccounted
      · intro other hother
        apply h.values other
        rw [hsplit]
        exact hperm.mem_iff.mp hother

end Steps
end Conservation

/-- What a call has left of its batch. -/
def RestOf (arity : ℕ) (caller : List (StreamValue D × ℕ)) : Prop :=
  ∃ symbol b t, t ≤ arity ∧ caller.map (fun entry => (entry.1.symbol, entry.2)) =
    (List.range' (b * arity + t) (arity - t)).map (fun place => (symbol, place))

section Contiguity
variable {arity : ℕ} {symbol : String} {entry : StreamValue D × ℕ}
  {rest : List (StreamValue D × ℕ)}

theorem RestOf.cons (h : RestOf arity (entry :: rest)) :
    ∃ b t, rest.length + 1 + t = arity ∧ entry.2 = b * arity + t ∧
      (∀ next rest', rest = next :: rest' →
        next.1.symbol = entry.1.symbol ∧ next.2 = b * arity + (t + 1)) ∧ RestOf arity rest := by
  obtain ⟨symbol, b, t, ht, heq⟩ := h
  have hlen := congrArg List.length heq
  simp only [List.length_map, List.length_cons, List.length_range'] at hlen
  have hsucc : arity - t = (arity - (t + 1)) + 1 := by omega
  rw [hsucc, List.range'_succ, List.map_cons, List.map_cons] at heq
  obtain ⟨hhead, htail⟩ := List.cons.inj heq
  obtain ⟨hsymbol, hplace⟩ := Prod.mk.inj hhead
  refine ⟨b, t, by omega, hplace, ?_, symbol, b, t + 1, by omega, htail⟩
  rintro next rest' rfl
  have hmore : arity - (t + 1) = (arity - (t + 2)) + 1 := by
    rw [List.length_cons] at hlen
    omega
  rw [hmore, List.range'_succ, List.map_cons, List.map_cons] at htail
  obtain ⟨hsymbol', hplace'⟩ := Prod.mk.inj (List.cons.inj htail).1
  exact ⟨hsymbol'.trans hsymbol.symm, hplace'⟩

theorem map_place_batch (symbol : String) (vals : List (ArgType D)) (first : ℕ) :
    ((vals.map (fun v => (⟨symbol, v⟩ : StreamValue D))).zipIdx first).map
        (fun entry => (entry.1.symbol, entry.2)) =
      (List.range' first vals.length).map (fun place => (symbol, place)) := by
  induction vals generalizing first with
  | nil => rfl
  | cons v vals ih =>
    rw [List.map_cons, List.zipIdx_cons, List.map_cons, ih, List.length_cons, List.range'_succ,
      List.map_cons]

theorem forwarded_sub (harity : 0 < arity) (n : ℕ) :
    Stage.forwarded arity (n + 1) - Stage.forwarded arity n = 0 ∨
      Stage.forwarded arity (n + 1) - Stage.forwarded arity n = arity := by
  rw [Stage.forwarded_succ harity]
  split_ifs
  · exact .inl (Nat.sub_self _)
  · exact .inr (Nat.add_sub_cancel_left _ _)

/-- A batch that was just taken out, or none: nothing of it has been forwarded. -/
theorem restOf_batch (symbol : String) (harity : 0 < arity) (sv : StreamValue D)
    (vals : List (ArgType D)) :
    let batch := (((((vals ++ [sv.value]).drop (Stage.forwarded arity vals.length)).take
      (Stage.forwarded arity (vals.length + 1) - Stage.forwarded arity vals.length)).map
        (fun v => (⟨sv.symbol, v⟩ : StreamValue D))).zipIdx (Stage.forwarded arity vals.length))
    RestOf arity batch ∧ inMiddle arity symbol batch = false := by
  intro batch
  have hlength : batch.length =
      Stage.forwarded arity (vals.length + 1) - Stage.forwarded arity vals.length := by
    rw [List.length_zipIdx, List.length_map, length_batch]
  have hplaces := map_place_batch sv.symbol (((vals ++ [sv.value]).drop
    (Stage.forwarded arity vals.length)).take (Stage.forwarded arity (vals.length + 1) -
      Stage.forwarded arity vals.length)) (Stage.forwarded arity vals.length)
  rw [length_batch] at hplaces
  rcases forwarded_sub harity vals.length with hnone | hall
  · have hnil : batch = [] := List.eq_nil_of_length_eq_zero (hlength.trans hnone)
    rw [hnil]
    exact ⟨⟨sv.symbol, 0, arity, le_rfl, by simp⟩, rfl⟩
  · constructor
    · refine ⟨sv.symbol, vals.length / arity, 0, Nat.zero_le _, hplaces.trans ?_⟩
      rw [hall, Nat.add_zero, Nat.sub_zero, Nat.mul_comm, Stage.forwarded]
    · cases hbatch : batch with
      | nil => rfl
      | cons entry rest =>
        have hfull : rest.length + 1 = arity := by
          rw [← List.length_cons (a := entry), ← hbatch, hlength, hall]
        simp [inMiddle, hfull]

/-- The calls have the rest of their batches left; of each symbol the parent was given complete
batches and the beginning of one, which a call is in the middle of. -/
structure Progress (arity : ℕ) (s : FanIn D) : Prop where
  callers : ∀ caller ∈ s.callers, RestOf arity caller
  batches : ∀ symbol, ∃ (batches : List ℕ) (k j : ℕ), j < arity ∧
    positions symbol s.received =
      batches.flatMap (fun b => List.range' (b * arity) arity) ++ List.range' (k * arity) j ∧
    (∀ caller ∈ s.callers, inMiddle arity symbol caller = true →
      ∃ entry rest, caller = entry :: rest ∧ rest.length + 1 + j = arity ∧
        entry.2 = k * arity + j) ∧
    (0 < j → ∃ caller ∈ s.callers, inMiddle arity symbol caller = true)

theorem Progress.contiguous {s : FanIn D} (h : Progress arity s) : Contiguous arity s := by
  intro symbol
  obtain ⟨batches, k, j, hj, hpositions, -, hcaller⟩ := h.batches symbol
  refine ⟨batches, k, j, hj, hpositions, ?_⟩
  intro hidle
  by_contra hne
  obtain ⟨caller, hmem, hmiddle⟩ := hcaller (Nat.pos_of_ne_zero hne)
  rw [hidle caller hmem] at hmiddle
  cases hmiddle

/-- The next value of a batch: the batch is complete with it, or a call is in the middle of it. -/
theorem extend_batches (harity : 0 < arity) (batches : List ℕ) {b t : ℕ}
    (hlen : rest.length + 1 + t = arity)
    (hnext : ∀ next rest', rest = next :: rest' →
      next.1.symbol = entry.1.symbol ∧ next.2 = b * arity + (t + 1)) :
    ∃ (batches' : List ℕ) (k j : ℕ), j < arity ∧
      batches.flatMap (fun b => List.range' (b * arity) arity) ++ List.range' (b * arity) t ++
          [b * arity + t] =
        batches'.flatMap (fun b => List.range' (b * arity) arity) ++ List.range' (k * arity) j ∧
      (inMiddle arity entry.1.symbol rest = true →
        ∃ next rest', rest = next :: rest' ∧ rest'.length + 1 + j = arity ∧
          next.2 = k * arity + j) ∧
      (0 < j → inMiddle arity entry.1.symbol rest = true) := by
  have hrange : List.range' (b * arity) t ++ [b * arity + t] = List.range' (b * arity) (t + 1) := by
    rw [List.range'_concat, Nat.one_mul]
  rw [List.append_assoc, hrange]
  cases rest with
  | nil =>
    have ht : t + 1 = arity := by
      rw [List.length_nil] at hlen
      omega
    refine ⟨batches ++ [b], 0, 0, harity, ?_, nofun, nofun⟩
    rw [List.flatMap_append, List.flatMap_singleton, ht, List.range'_zero, List.append_nil]
  | cons next rest' =>
    rw [List.length_cons] at hlen
    obtain ⟨hsymbol, hplace⟩ := hnext next rest' rfl
    refine ⟨batches, b, t + 1, by omega, rfl, ?_, ?_⟩
    · intro _
      exact ⟨next, rest', rfl, by omega, hplace⟩
    · intro _
      simp only [inMiddle, hsymbol, decide_true, Bool.true_and, decide_eq_true_eq]
      omega

theorem mem_middle_iff {α : Type*} {x y : α} {front back : List α} :
    x ∈ front ++ y :: back ↔ x = y ∨ x ∈ front ++ back := by
  simp only [List.mem_append, List.mem_cons]
  tauto

/-- If no other call is in the middle of a batch, the places that came last are those of the batch
that the forwarding call is at. -/
theorem range_of_alone {callers : List (List (StreamValue D × ℕ))} {k j b t : ℕ} (hj : j < arity)
    (hself : entry :: rest ∈ callers) (hlen : rest.length + 1 + t = arity)
    (hplace : entry.2 = b * arity + t)
    (halone : ∀ caller ∈ callers, inMiddle arity entry.1.symbol caller = true →
      caller = entry :: rest)
    (hmiddle : ∀ caller ∈ callers, inMiddle arity entry.1.symbol caller = true →
      ∃ head tail, caller = head :: tail ∧ tail.length + 1 + j = arity ∧ head.2 = k * arity + j)
    (hopen : 0 < j → ∃ caller ∈ callers, inMiddle arity entry.1.symbol caller = true) :
    List.range' (k * arity) j = List.range' (b * arity) t := by
  rcases Nat.eq_zero_or_pos j with rfl | hpos
  · have hstart : ¬ inMiddle arity entry.1.symbol (entry :: rest) = true := by
      intro hin
      obtain ⟨_, _, heq, hfull, -⟩ := hmiddle _ hself hin
      obtain ⟨rfl, rfl⟩ := List.cons.inj heq
      simp only [inMiddle, decide_true, Bool.true_and, decide_eq_true_eq] at hin
      omega
    simp only [inMiddle, decide_true, Bool.true_and, decide_eq_true_eq] at hstart
    have ht : t = 0 := by omega
    rw [ht, List.range'_zero, List.range'_zero]
  · obtain ⟨caller, hcaller, hin⟩ := hopen hpos
    obtain rfl := halone caller hcaller hin
    obtain ⟨_, _, heq, hleft, hhead⟩ := hmiddle _ hcaller hin
    obtain ⟨rfl, rfl⟩ := List.cons.inj heq
    have hj : j = t := by omega
    have hk : k * arity = b * arity := by omega
    rw [hj, hk]

/-- The call in the middle of the batch goes on, or one starts while there is none: in both cases
the parent is given the next value of the last batch. -/
theorem Progress.forward {s : FanIn D} (h : Progress arity s) (harity : 0 < arity)
    {front back : List (List (StreamValue D × ℕ))}
    (hsplit : s.callers = front ++ (entry :: rest) :: back)
    (hothers : ∀ other ∈ front ++ back, inMiddle arity entry.1.symbol other = false) :
    Progress arity
      { s with callers := front ++ rest :: back, received := s.received ++ [entry] } := by
  have hold : ∀ {caller}, caller ∈ s.callers ↔ caller = entry :: rest ∨ caller ∈ front ++ back := by
    intro caller
    rw [hsplit]
    exact mem_middle_iff
  have hself : entry :: rest ∈ s.callers := hold.mpr (.inl rfl)
  obtain ⟨b, t, hlen, hplace, hnext, hrest⟩ := (h.callers _ hself).cons
  refine ⟨?_, ?_⟩
  · intro caller hcaller
    rcases mem_middle_iff.mp hcaller with rfl | hother
    · exact hrest
    · exact h.callers caller (hold.mpr (.inr hother))
  · intro symbol
    obtain ⟨batches, k, j, hj, hpositions, hmiddle, hopen⟩ := h.batches symbol
    by_cases hsymbol : entry.1.symbol = symbol
    · subst hsymbol
      have halone : ∀ caller ∈ s.callers, inMiddle arity entry.1.symbol caller = true →
          caller = entry :: rest := by
        intro caller hcaller hin
        rcases hold.mp hcaller with hsame | hother
        · exact hsame
        · exact absurd ((hothers caller hother).symm.trans hin) Bool.false_ne_true
      -- the place that is forwarded is the next one of the batch `b`
      have hsame := range_of_alone hj hself hlen hplace halone hmiddle hopen
      obtain ⟨batches', k', j', hj', hextended, hhead, hmid⟩ :=
        extend_batches harity batches hlen hnext
      refine ⟨batches', k', j', hj', ?_, ?_, ?_⟩
      · rw [← hextended, ← hsame, ← hpositions, positions_append, ← hplace]
        simp [positions]
      · intro caller hcaller hin
        rcases mem_middle_iff.mp hcaller with rfl | hother
        · exact hhead hin
        · exact absurd ((hothers caller hother).symm.trans hin) Bool.false_ne_true
      · intro hpos
        exact ⟨rest, by simp, hmid hpos⟩
    · refine ⟨batches, k, j, hj, ?_, ?_, ?_⟩
      · rw [← hpositions, positions_append]
        simp [positions, hsymbol]
      · intro caller hcaller hin
        rcases mem_middle_iff.mp hcaller with rfl | hother
        · cases caller with
          | nil => cases hin
          | cons next rest' =>
            simp only [inMiddle, Bool.and_eq_true, decide_eq_true_eq] at hin
            exact absurd ((hnext next rest' rfl).1.symm.trans hin.1) hsymbol
        · exact hmiddle caller (hold.mpr (.inr hother)) hin
      · intro hpos
        obtain ⟨caller, hcaller, hin⟩ := hopen hpos
        rcases hold.mp hcaller with rfl | hother
        · simp only [inMiddle, Bool.and_eq_true, decide_eq_true_eq] at hin
          exact absurd hin.1 hsymbol
        · exact ⟨caller, mem_middle_iff.mpr (.inr hother), hin⟩

/-- Within a batch each place is the one after the place before it. -/
theorem place_succ {batches : List ℕ} {k j i x y : ℕ} (hi : (i + 1) % arity ≠ 0)
    (hy : (batches.flatMap (fun b => List.range' (b * arity) arity) ++
      List.range' (k * arity) j)[i]? = some y)
    (hx : (batches.flatMap (fun b => List.range' (b * arity) arity) ++
      List.range' (k * arity) j)[i + 1]? = some x) : x = y + 1 := by
  have hrange : ∀ start len i x y, (List.range' start len)[i]? = some y →
      (List.range' start len)[i + 1]? = some x → x = y + 1 := by
    intro start len i x y hy hx
    obtain ⟨_, rfl⟩ := List.getElem?_eq_some_iff.mp hy
    obtain ⟨_, rfl⟩ := List.getElem?_eq_some_iff.mp hx
    simp only [List.getElem_range', Nat.one_mul, Nat.add_assoc]
  induction batches generalizing i with
  | nil => exact hrange _ _ _ _ _ hy hx
  | cons b batches ih =>
    rw [List.flatMap_cons, List.append_assoc] at hx hy
    rcases Nat.lt_trichotomy (i + 1) arity with hlt | heq | hgt
    · rw [List.getElem?_append_left (by rw [List.length_range']; omega)] at hx hy
      exact hrange _ _ _ _ _ hy hx
    · rw [heq, Nat.mod_self] at hi
      exact absurd rfl hi
    · rw [List.getElem?_append_right (by rw [List.length_range']; omega),
        List.length_range'] at hx hy
      have hshift : i + 1 - arity = (i - arity) + 1 := by omega
      rw [hshift] at hx
      apply ih _ hy hx
      rw [← hshift, ← Nat.mod_eq_sub_mod (by omega)]
      exact hi

theorem length_batches (batches : List ℕ) (arity k j : ℕ) :
    (batches.flatMap (fun b => List.range' (b * arity) arity) ++ List.range' (k * arity) j).length =
      batches.length * arity + j := by
  rw [List.length_append, List.length_flatMap, List.length_range']
  simp

/-- What follows the places of complete batches and of the beginning of one is the next place of
this one, if batches are to follow. -/
theorem next_place {batches batches' : List ℕ} {k j k' j' x : ℕ} (hpos : 0 < j) (hj : j < arity)
    (h : batches.flatMap (fun b => List.range' (b * arity) arity) ++ List.range' (k * arity) j ++
      [x] = batches'.flatMap (fun b => List.range' (b * arity) arity) ++
        List.range' (k' * arity) j') : x = k * arity + j := by
  have hlen := length_batches batches arity k j
  have hcomplete := length_batches batches arity k 0
  rw [List.range'_zero, List.append_nil] at hcomplete
  have hsucc : batches.length * arity + (j - 1) + 1 = batches.length * arity + j := by omega
  have hmod : (batches.length * arity + (j - 1) + 1) % arity ≠ 0 := by
    rw [hsucc, Nat.mul_add_mod_self_right, Nat.mod_eq_of_lt hj]
    omega
  have hlast : (batches.flatMap (fun b => List.range' (b * arity) arity) ++
      List.range' (k * arity) j ++ [x])[batches.length * arity + (j - 1)]? =
      some (k * arity + (j - 1)) := by
    rw [List.getElem?_append_left (by omega), List.getElem?_append_right (by omega), hcomplete,
      Nat.add_zero, Nat.add_sub_cancel_left, List.getElem?_range' (by omega), Nat.one_mul]
  have hnew : (batches.flatMap (fun b => List.range' (b * arity) arity) ++
      List.range' (k * arity) j ++ [x])[batches.length * arity + (j - 1) + 1]? = some x := by
    rw [hsucc, ← hlen, List.getElem?_concat_length]
  rw [h] at hlast hnew
  have hnexts := place_succ hmod hlast hnew
  omega

/-- Two calls stand at different places of a symbol. -/
theorem Conserved.place_ne {s : FanIn D} {id parent : NodeId}
    (h : Conserved arity parent id s) {front back : List (List (StreamValue D × ℕ))}
    (hsplit : s.callers = front ++ (entry :: rest) :: back) {head : StreamValue D × ℕ}
    {tail : List (StreamValue D × ℕ)} (hother : head :: tail ∈ front ++ back)
    (hsymbol : head.1.symbol = entry.1.symbol) : entry.2 ≠ head.2 := by
  intro hplace
  have hperm : (s.received ++ s.callers.flatten).Perm
      (entry :: (s.received ++ (rest ++ (front ++ back).flatten))) := by
    rw [hsplit, List.flatten_append, List.flatten_cons, List.flatten_append, ← List.append_assoc,
      List.cons_append]
    refine List.perm_middle.trans (List.Perm.cons entry ?_)
    rw [List.append_assoc]
    exact (List.perm_append_comm_assoc _ _ _).append_left s.received
  have hnodup := (((positions_perm entry.1.symbol hperm).symm.trans
    (h.accounted entry.1.symbol)).nodup_iff).mpr List.nodup_range
  have hcons : positions entry.1.symbol
      (entry :: (s.received ++ (rest ++ (front ++ back).flatten))) =
      entry.2 :: positions entry.1.symbol (s.received ++ (rest ++ (front ++ back).flatten)) := by
    simp [positions]
  rw [hcons, List.nodup_cons, hplace] at hnodup
  apply hnodup.1
  apply List.mem_map_of_mem
  have hflat : head ∈ (front ++ back).flatten :=
    List.mem_flatten_of_mem hother List.mem_cons_self
  rw [List.mem_filter]
  refine ⟨?_, by simp [hsymbol]⟩
  exact List.mem_append_right _ (List.mem_append_right _ hflat)

section Steps
variable [Double D] (env : BuildEnv D) (store : String → String → Option (ArgType D))
  (live : NodeId → Bool) {id parent : NodeId} {s : FanIn D}

theorem Progress.step (h : Progress arity s) (hconserved : Conserved arity parent id s)
    (harity : 0 < arity) {symbols : Finset String} (hcard : symbols.card ≤ 10000)
    (action : Action D) (hsymbols : ∀ sv, action = .onValue sv →
      ∀ other ∈ s.arrived ++ [sv], other.symbol ∈ symbols)
    (hallowed : allowed arity s action = true) :
    Progress arity (FanIn.step env store live id s action) := by
  cases action with
  | onValue sv =>
    obtain ⟨-, hcallers⟩ := step_onValue env store live hconserved harity hcard (hsymbols sv rfl)
    have hreceived : (FanIn.step env store live id s (.onValue sv)).received = s.received := rfl
    have hbatch : ∀ symbol, _ := fun symbol =>
      restOf_batch symbol harity sv (valuesOf sv.symbol s.arrived)
    refine ⟨?_, ?_⟩
    · intro caller hcaller
      rw [hcallers, List.mem_append, List.mem_singleton] at hcaller
      rcases hcaller with hold | rfl
      · exact h.callers caller hold
      · exact (hbatch "").1
    · intro symbol
      obtain ⟨batches, k, j, hj, hpositions, hmiddle, hopen⟩ := h.batches symbol
      refine ⟨batches, k, j, hj, by rw [hreceived, hpositions], ?_, ?_⟩
      · intro caller hcaller hin
        rw [hcallers, List.mem_append, List.mem_singleton] at hcaller
        rcases hcaller with hold | rfl
        · exact hmiddle caller hold hin
        · exact absurd ((hbatch symbol).2.symm.trans hin) Bool.false_ne_true
      · intro hpos
        obtain ⟨caller, hcaller, hin⟩ := hopen hpos
        exact ⟨caller, by rw [hcallers]; exact List.mem_append_left _ hcaller, hin⟩
  | forward caller =>
    obtain ⟨-, hidle⟩ | ⟨front, entry, rest, back, hsplit, hguard, hstep⟩ :=
      step_forward env store live id arity s caller
    · rw [hidle]
      exact h
    · rw [hstep]
      apply h.forward harity hsplit
      rw [hguard, List.all_eq_true] at hallowed
      intro other hother
      simpa using hallowed other hother

/-- If a call forwards while another one is in the middle of a batch of the symbol, the batch is
torn. -/
theorem Progress.allowed_of_contiguous (h : Progress arity s)
    (hconserved : Conserved arity parent id s) (action : Action D)
    (hnext : Contiguous arity (FanIn.step env store live id s action)) :
    allowed arity s action = true := by
  cases action with
  | onValue sv => rfl
  | forward caller =>
    obtain ⟨hallowed, -⟩ | ⟨front, entry, rest, back, hsplit, hguard, hstep⟩ :=
      step_forward env store live id arity s caller
    · exact hallowed
    rw [hguard, List.all_eq_true]
    intro other hother
    rw [Bool.not_eq_true']
    by_contra hin
    rw [Bool.not_eq_false] at hin
    obtain ⟨batches, k, j, hj, hpositions, hmiddle, -⟩ := h.batches entry.1.symbol
    have hmem : other ∈ s.callers := by
      rw [hsplit]
      exact mem_middle_iff.mpr (.inr hother)
    obtain ⟨head, tail, rfl, hleft, hhead⟩ := hmiddle other hmem hin
    simp only [inMiddle, Bool.and_eq_true, decide_eq_true_eq] at hin
    obtain ⟨hsymbol, hshort⟩ := hin
    -- the place forwarded now would have to be the one at which the other call stands
    obtain ⟨batches', k', j', hj', hpositions', -⟩ := hnext entry.1.symbol
    have hentry : positions entry.1.symbol [entry] = [entry.2] := by simp [positions]
    rw [hstep, positions_append, hpositions, hentry] at hpositions'
    have hplace := next_place (by omega) hj hpositions'
    exact hconserved.place_ne hsplit hother hsymbol (hplace.trans hhead.symm)

end Steps
end Contiguity

/-- The values with which `onValue` is called. -/
def arrivals (actions : List (Action D)) : List (StreamValue D) :=
  actions.filterMap (fun action => match action with
    | .onValue sv => some sv
    | .forward _ => none)

section Runs
variable [Double D] (env : BuildEnv D) (store : String → String → Option (ArgType D))
  (live : NodeId → Bool) {rt : Runtime D} {id parent : NodeId} {arity : ℕ}

theorem arrived_step (s : FanIn D) (action : Action D) :
    (step env store live id s action).arrived = s.arrived ++ arrivals [action] := by
  cases action with
  | onValue sv => rfl
  | forward caller =>
    obtain ⟨-, hidle⟩ | ⟨front, entry, rest, back, -, -, hstep⟩ :=
      step_forward env store live id 0 s caller
    · rw [hidle]
      simp [arrivals]
    · rw [hstep]
      simp [arrivals]

theorem run_conserved (hnode : rt.nodes[id]? = some (.aggregate arity (some parent) false []))
    (harity : 0 < arity) {symbols : Finset String} (hcard : symbols.card ≤ 10000)
    {actions : List (Action D)} (hsymbols : ∀ sv ∈ arrivals actions, sv.symbol ∈ symbols) :
    (actions.foldl (step env store live id) { rt := rt }).arrived = arrivals actions ∧
      Conserved arity parent id (actions.foldl (step env store live id) { rt := rt }) := by
  induction actions using List.reverseRecOn with
  | nil =>
    refine ⟨rfl, ⟨⟨[], hnode, Stage.Buffers.empty arity⟩, ?_, by simp⟩⟩
    intro symbol
    simp [positions, Stage.forwarded]
  | append_singleton past action ih =>
    have hsplit : arrivals (past ++ [action]) = arrivals past ++ arrivals [action] :=
      List.filterMap_append
    rw [hsplit] at hsymbols
    obtain ⟨harrived, hconserved⟩ := ih (fun sv hsv => hsymbols sv (List.mem_append_left _ hsv))
    rw [List.foldl_append, List.foldl_cons, List.foldl_nil, hsplit]
    refine ⟨?_, hconserved.step env store live harity hcard action ?_⟩
    · rw [arrived_step, harrived]
    · rintro sv rfl
      rw [harrived]
      exact hsymbols

theorem run_progress (hnode : rt.nodes[id]? = some (.aggregate arity (some parent) false []))
    (harity : 0 < arity) {symbols : Finset String} (hcard : symbols.card ≤ 10000)
    {actions : List (Action D)} (hsymbols : ∀ sv ∈ arrivals actions, sv.symbol ∈ symbols)
    (hguarded : GuardedRuns.along (step env store live id) (allowed arity) { rt := rt } actions =
      true) : Progress arity (actions.foldl (step env store live id) { rt := rt }) := by
  induction actions using List.reverseRecOn with
  | nil =>
    refine ⟨by simp, ?_⟩
    intro symbol
    exact ⟨[], 0, 0, harity, rfl, by simp, by simp⟩
  | append_singleton past action ih =>
    have hsplit : arrivals (past ++ [action]) = arrivals past ++ arrivals [action] :=
      List.filterMap_append
    rw [hsplit] at hsymbols
    have hpast : ∀ sv ∈ arrivals past, sv.symbol ∈ symbols :=
      fun sv hsv => hsymbols sv (List.mem_append_left _ hsv)
    obtain ⟨harrived, hconserved⟩ := run_conserved env store live hnode harity hcard hpast
    have hprogress := ih hpast (GuardedRuns.along_of_append hguarded)
    have hlast := GuardedRuns.along_iff.mp hguarded past action [] rfl
    rw [List.foldl_append, List.foldl_cons, List.foldl_nil]
    refine hprogress.step env store live hconserved harity hcard action ?_ hlast
    rintro sv rfl
    rw [harrived]
    exact hsymbols

/-- In every run each value is forwarded once or still pending. The batches of every symbol reach
the parent in one piece, at every moment of the run, exactly if no call forwards while another one
is in the middle of a batch of the symbol. -/
theorem batches_contiguous_iff
    (hnode : rt.nodes[id]? = some (.aggregate arity (some parent) false [])) (harity : 0 < arity)
    {actions : List (Action D)}
    (hsymbols : ((arrivals actions).map StreamValue.symbol).toFinset.card ≤ 10000) :
    (actions.foldl (step env store live id) { rt := rt }).arrived = arrivals actions ∧
    Conserved arity parent id (actions.foldl (step env store live id) { rt := rt }) ∧
    ((∀ before later, actions = before ++ later →
        Contiguous arity (before.foldl (step env store live id) { rt := rt })) ↔
      GuardedRuns.along (step env store live id) (allowed arity) { rt := rt } actions = true) := by
  have hmem : ∀ sv ∈ arrivals actions,
      sv.symbol ∈ ((arrivals actions).map StreamValue.symbol).toFinset := by
    intro sv hsv
    exact List.mem_toFinset.mpr (List.mem_map_of_mem hsv)
  have hbefores : ∀ before later, actions = before ++ later → ∀ sv ∈ arrivals before,
      sv.symbol ∈ ((arrivals actions).map StreamValue.symbol).toFinset := by
    intro before later heq sv hsv
    apply hmem
    rw [heq, arrivals, List.filterMap_append]
    exact List.mem_append_left _ hsv
  obtain ⟨harrived, hconserved⟩ := run_conserved env store live hnode harity hsymbols hmem
  refine ⟨harrived, hconserved, ?_, ?_⟩
  · intro hcontiguous
    have hall : ∀ before later, actions = before ++ later →
        GuardedRuns.along (step env store live id) (allowed arity) { rt := rt } before = true := by
      intro before
      induction before using List.reverseRecOn with
      | nil =>
        intro later heq
        rfl
      | append_singleton past action ih =>
        intro later heq
        have hpast : actions = past ++ (action :: later) := by rw [heq, List.append_assoc]; rfl
        have hguarded := ih _ hpast
        have hbefore := hbefores past _ hpast
        have hnext := hcontiguous _ later heq
        rw [List.foldl_append, List.foldl_cons, List.foldl_nil] at hnext
        have hallowed := (run_progress env store live hnode harity hsymbols hbefore
          hguarded).allowed_of_contiguous env store live
          (run_conserved env store live hnode harity hsymbols hbefore).2 action hnext
        rw [GuardedRuns.along_append, hguarded, Bool.true_and, GuardedRuns.along, hallowed]
        rfl
    exact hall actions [] (List.append_nil _).symm
  · intro hguarded before later heq
    rw [heq] at hguarded
    exact (run_progress env store live hnode harity hsymbols (hbefores before later heq)
      (GuardedRuns.along_of_append hguarded)).contiguous

end Runs

def pairs : Runtime ExactDouble := { nodes := [.aggregate 2 (some 1) false []] }

/-- Numbered values of one symbol. -/
def numbered (n : ℤ) : Action ExactDouble := .onValue ⟨"AAPL", .int n⟩

/-- A batch of MSFT is forwarded between the values of a batch of AAPL, whose next batch waits. -/
def twoSymbols : List (Action ExactDouble) :=
  [numbered 0, .onValue ⟨"MSFT", .int 8⟩, numbered 1, .onValue ⟨"MSFT", .int 9⟩, numbered 2,
    numbered 3, .forward 2, .forward 3, .forward 2, .forward 3, .forward 5, numbered 4,
    .forward 5]

theorem batches_contiguous_twoSymbols :
    Contiguous 2 (twoSymbols.foldl
      (step TreeBuilder.fullEnv (fun _ _ => none) (fun _ => true) 0) { rt := pairs }) := by
  have hnode : pairs.nodes[0]? = some (.aggregate 2 (some 1) false []) := rfl
  have hcard : ((arrivals twoSymbols).map StreamValue.symbol).toFinset.card ≤ 10000 :=
    (List.toFinset_card_le _).trans (by simp [arrivals, twoSymbols, numbered])
  have hiff := (batches_contiguous_iff TreeBuilder.fullEnv (fun _ _ => none) (fun _ => true) hnode
    Nat.two_pos hcard).2.2
  exact hiff.mpr (by rfl) _ [] (List.append_nil _).symm

/-- Two calls complete a batch each, and forward in turns. -/
def turns : List (Action ExactDouble) :=
  [numbered 0, numbered 1, numbered 2, numbered 3, .forward 1, .forward 3, .forward 1, .forward 3]

theorem batches_torn :
    ¬ ∀ (rt : Runtime ExactDouble) (arity : ℕ) (actions : List (Action ExactDouble)),
      rt.nodes[0]? = some (.aggregate arity (some 1) false []) → 0 < arity →
      ((arrivals actions).map StreamValue.symbol).toFinset.card ≤ 10000 →
      Contiguous arity (actions.foldl
        (step TreeBuilder.fullEnv (fun _ _ => none) (fun _ => true) 0) { rt := rt }) := by
  intro hall
  have hcard : ((arrivals turns).map StreamValue.symbol).toFinset.card ≤ 10000 :=
    (List.toFinset_card_le _).trans (by simp [arrivals, turns, numbered])
  obtain ⟨batches, k, j, hj, hpositions, -⟩ := hall pairs 2 turns rfl Nat.two_pos hcard "AAPL"
  have hreceived : positions "AAPL" (turns.foldl
      (step TreeBuilder.fullEnv (fun _ _ => none) (fun _ => true) 0) { rt := pairs }).received =
      [0, 2, 1, 3] := by
    rfl
  rw [hreceived] at hpositions
  cases batches with
  | nil =>
    have hlen := congrArg List.length hpositions
    simp at hlen
    omega
  | cons b batches =>
    simp only [List.flatMap_cons, List.range'_succ, List.range'_zero, List.cons_append,
      List.nil_append, List.cons.injEq] at hpositions
    omega

end FanIn

/-- The calls come one at a time: each batch is forwarded before the next value comes. -/
theorem Stage.outputs_aggregateStep {arity : ℕ} (harity : 0 < arity) {symbols : Finset String}
    (hcard : symbols.card ≤ 10000) {svs : List (StreamValue D)}
    (hsymbols : ∀ sv ∈ svs, sv.symbol ∈ symbols) :
    Buffers arity svs (after (aggregateStep arity) [] svs) ∧
      ∀ s, valuesOf s (outputs (aggregateStep arity) [] svs) =
        (valuesOf s svs).take (forwarded arity (valuesOf s svs).length) := by
  induction svs using List.reverseRecOn with
  | nil => exact ⟨Buffers.empty arity, fun s => by simp⟩
  | append_singleton past sv ih =>
    obtain ⟨hbuffers, hvalues⟩ :=
      ih (fun other hother => hsymbols other (List.mem_append_left _ hother))
    have hadmits := hbuffers.refuses_eq_false hcard hsymbols
    obtain ⟨hbuffers', houts⟩ := hbuffers.step harity hadmits
    rw [after_append, after_cons, after_nil, outputs_append, outputs_cons, outputs_nil,
      List.append_nil, houts]
    refine ⟨hbuffers', ?_⟩
    intro s
    rw [valuesOf_append, hvalues, valuesOf_append, valuesOf_map]
    split_ifs with hs
    · subst hs
      have hle := FanIn.forwarded_le_succ harity (valuesOf sv.symbol past).length
      rw [valuesOf_singleton_same, List.length_append, List.length_singleton,
        ← List.take_append_of_le_length (forwarded_le arity _), ← List.take_add,
        Nat.add_sub_cancel' hle]
    · rw [valuesOf_singleton_ne hs, List.append_nil, List.append_nil]

end GmaEngine
