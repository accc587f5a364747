import GmaEngine.EntryMaps
import GmaEngine.FailedBuilds
import GmaEngine.NodeMachines

/-!
# Flushes of a TumblingWindow

The timer thread takes the buffers of all symbols out under the mutex and hands the vectors on
after it has released it, while values go on arriving.
-/

namespace GmaEngine.Tumbling

variable {D : Type} [Double D]

inductive Action (D : Type) where
  | onValue (sv : StreamValue D)
  /-- The timer thread takes the buffers out. -/
  | flush
  /-- The timer thread hands the next vector on. -/
  | post

structure State (D : Type) where
  rt : Runtime D
  /-- What was taken out and is not yet handed on. -/
  emits : List (Call D) := []
  posted : List (Call D) := []

/-- All vectors that were taken out, in the order of the flushes. -/
def State.emitted (s : State D) : List (Call D) := s.posted ++ s.emits

def step (env : BuildEnv D) (store : String → String → Option (ArgType D))
    (live : NodeId → Bool) (id : NodeId) (s : State D) : Action D → State D
  | .onValue sv => { s with rt := (s.rt.onValue env store live id sv).1 }
  | .flush =>
    { s with rt := (s.rt.timerLoop id).1, emits := s.emits ++ (s.rt.timerLoop id).2 }
  | .post => { s with emits := s.emits.tail, posted := s.posted ++ s.emits.take 1 }

/-- The values that have arrived. -/
def arrivals (actions : List (Action D)) : List (StreamValue D) :=
  actions.filterMap (fun action => match action with
    | .onValue sv => some sv
    | _ => none)

/-- The buffers of a TumblingWindow. -/
def buffers (rt : Runtime D) (id : NodeId) : List (String × List D) :=
  match rt.nodes[id]? with
  | some (.tumblingWindow _ _ _ acc) => acc
  | _ => []

/-- The vectors of a symbol. -/
def vectorsOf (symbol : String) (calls : List (Call D)) : List (List D) :=
  calls.filterMap (fun call => match call.value.value with
    | .doubles vec => if call.value.symbol = symbol then some vec else none
    | _ => none)

/-- The actions without the values of other symbols. -/
def onlyOf (symbol : String) (actions : List (Action D)) : List (Action D) :=
  actions.filter (fun action => match action with
    | .onValue sv => sv.symbol = symbol
    | _ => true)

/-- The vectors that a symbol alone would emit, and its buffer. -/
structure Bucket (D : Type) where
  vectors : List (List D) := []
  buffer : List D := []

def Bucket.step (symbol : String) (b : Bucket D) : Action D → Bucket D
  | .onValue sv =>
    if sv.symbol = symbol then
      { b with buffer := b.buffer ++ [TreeBuilder.toDouble sv.value] }
    else b
  | .flush => if b.buffer.isEmpty then b else ⟨b.vectors ++ [b.buffer], []⟩
  | .post => b

def bucketOf (symbol : String) (actions : List (Action D)) : Bucket D :=
  actions.foldl (Bucket.step symbol) {}

section Buckets
variable {symbol : String} {actions : List (Action D)}

theorem bucketOf_concat (action : Action D) :
    bucketOf symbol (actions ++ [action]) = (bucketOf symbol actions).step symbol action :=
  List.foldl_concat _ _ _ _

omit [Double D] in
theorem arrivals_concat (action : Action D) :
    arrivals (actions ++ [action]) = arrivals actions ++ arrivals [action] :=
  List.filterMap_append

omit [Double D] in
theorem onlyOf_concat (action : Action D) :
    onlyOf symbol (actions ++ [action]) = onlyOf symbol actions ++ onlyOf symbol [action] :=
  List.filter_append _ _

/-- What was emitted and what is in the buffer are the values that arrived. -/
theorem bucketOf_conserves (symbol : String) (actions : List (Action D)) :
    (bucketOf symbol actions).vectors.flatten ++ (bucketOf symbol actions).buffer =
      (valuesOf symbol (arrivals actions)).map TreeBuilder.toDouble := by
  induction actions using List.reverseRecOn with
  | nil => rfl
  | append_singleton actions action ih =>
    rw [bucketOf_concat, arrivals_concat, valuesOf_append, List.map_append, ← ih]
    cases action with
    | onValue sv =>
      obtain ⟨s, v⟩ := sv
      have harrived : arrivals [Action.onValue (⟨s, v⟩ : StreamValue D)] = [⟨s, v⟩] := rfl
      rw [harrived, Bucket.step]
      split_ifs with hs
      · obtain rfl : s = symbol := hs
        rw [valuesOf_singleton_same, List.map_singleton, List.append_assoc]
      · rw [valuesOf_singleton_ne hs, List.map_nil, List.append_nil]
    | flush =>
      have harrived : arrivals [(Action.flush : Action D)] = [] := rfl
      rw [harrived, Bucket.step, valuesOf_nil, List.map_nil, List.append_nil]
      split_ifs
      · rfl
      · rw [List.flatten_append, List.flatten_singleton, List.append_nil]
    | post => exact (List.append_nil _).symm

/-- Other symbols have no part in it. -/
theorem bucketOf_onlyOf (symbol : String) (actions : List (Action D)) :
    bucketOf symbol (onlyOf symbol actions) = bucketOf symbol actions := by
  induction actions using List.reverseRecOn with
  | nil => rfl
  | append_singleton actions action ih =>
    rw [onlyOf_concat, bucketOf_concat]
    cases action with
    | onValue sv =>
      rcases eq_or_ne sv.symbol symbol with hs | hs
      · have honly : onlyOf symbol [Action.onValue sv] = [Action.onValue sv] := by
          simp [onlyOf, hs]
        rw [honly, bucketOf_concat, ih]
      · have honly : onlyOf symbol [Action.onValue sv] = [] := by
          simp [onlyOf, hs]
        rw [honly, List.append_nil, ih, Bucket.step, if_neg hs]
    | flush =>
      have honly : onlyOf symbol [(Action.flush : Action D)] = [Action.flush] := rfl
      rw [honly, bucketOf_concat, ih]
    | post =>
      have honly : onlyOf symbol [(Action.post : Action D)] = [Action.post] := rfl
      rw [honly, bucketOf_concat, ih]

/-- A symbol that has not come has emitted nothing. -/
theorem bucketOf_of_none (h : valuesOf symbol (arrivals actions) = []) :
    bucketOf symbol actions = {} := by
  induction actions using List.reverseRecOn with
  | nil => rfl
  | append_singleton actions action ih =>
    rw [arrivals_concat, valuesOf_append, List.append_eq_nil_iff] at h
    rw [bucketOf_concat, ih h.1]
    cases action with
    | onValue sv =>
      rcases eq_or_ne sv.symbol symbol with rfl | hs
      · have hvalues := h.2
        simp [arrivals, valuesOf] at hvalues
      · rw [Bucket.step, if_neg hs]
    | flush => rfl
    | post => rfl

end Buckets

section Flushes
variable {symbol : String} {acc : List (String × List D)} {d : NodeId}

/-- What a flush takes out, behind the lock. -/
def taken (d : NodeId) (acc : List (String × List D)) : List (Call D) :=
  (acc.filter (fun e => !e.2.isEmpty)).map (fun e => ⟨d, ⟨e.1, .doubles e.2⟩⟩)

omit [Double D] in
theorem vectorsOf_append (calls calls' : List (Call D)) :
    vectorsOf symbol (calls ++ calls') = vectorsOf symbol calls ++ vectorsOf symbol calls' :=
  List.filterMap_append

omit [Double D] in
theorem vectorsOf_taken_of_none (h : lookupKey acc symbol = none) :
    vectorsOf symbol (taken d acc) = [] := by
  rw [vectorsOf, List.filterMap_eq_nil_iff]
  intro call hcall
  obtain ⟨entry, hentry, rfl⟩ := List.mem_map.mp hcall
  exact if_neg (lookupKey_eq_none_iff.mp h entry (List.mem_filter.mp hentry).1)

omit [Double D] in
theorem vectorsOf_taken {buffer : List D} (hnodup : (acc.map Prod.fst).Nodup)
    (h : lookupKey acc symbol = some buffer) :
    vectorsOf symbol (taken d acc) = if buffer.isEmpty then [] else [buffer] := by
  induction acc with
  | nil => cases h
  | cons entry acc ih =>
    obtain ⟨hfresh, hnodup'⟩ := List.nodup_cons.mp hnodup
    have hsplit : taken d (entry :: acc) = taken d [entry] ++ taken d acc := by
      rw [taken, taken, taken, ← List.map_append, ← List.filter_append, List.singleton_append]
    rw [lookupKey_cons] at h
    rw [hsplit, vectorsOf_append]
    split_ifs at h with hkey
    · obtain rfl := Option.some.inj h
      have hnone : lookupKey acc symbol = none := by
        rw [lookupKey_eq_none_iff]
        rintro other hother rfl
        exact hfresh (hkey ▸ List.mem_map_of_mem hother)
      rw [vectorsOf_taken_of_none hnone, List.append_nil]
      cases hempty : entry.2.isEmpty with
      | true => simp [taken, vectorsOf, hempty]
      | false => simp [taken, vectorsOf, hempty, hkey]
    · have hother : vectorsOf symbol (taken d [entry]) = [] := by
        apply vectorsOf_taken_of_none
        rw [lookupKey_cons, if_neg hkey, lookupKey_nil]
      rw [hother, List.nil_append, ih hnodup' h]

omit [Double D] in
theorem lookupKey_emptied : lookupKey (acc.map (fun e => (e.1, ([] : List D)))) symbol =
    (lookupKey acc symbol).map (fun _ => []) := by
  induction acc with
  | nil => rfl
  | cons entry acc ih =>
    rw [List.map_cons, lookupKey_cons, lookupKey_cons, ih]
    split_ifs <;> rfl

omit [Double D] in
/-- One vector for a symbol at most. -/
theorem nodup_symbols_taken (hnodup : (acc.map Prod.fst).Nodup) :
    ((taken d acc).map (fun call => call.value.symbol)).Nodup := by
  rw [taken, List.map_map]
  exact hnodup.sublist (List.filter_sublist.map Prod.fst)

end Flushes

/-- Each admitted symbol has emitted what it would emit alone; the others are refused for want of
room. -/
structure Windowed (period : ℤ) (id d : NodeId) (past : List (Action D)) (s : State D)
    (acc : List (String × List D)) : Prop where
  node : s.rt.nodes[id]? = some (.tumblingWindow period (some d) false acc)
  nodup : (acc.map Prod.fst).Nodup
  symbols : ∀ symbol ∈ acc.map Prod.fst, symbol ∈ (arrivals past).map StreamValue.symbol
  admitted : ∀ symbol buffer, lookupKey acc symbol = some buffer →
    bucketOf symbol past = ⟨vectorsOf symbol s.emitted, buffer⟩
  refused : ∀ symbol, lookupKey acc symbol = none → vectorsOf symbol s.emitted = [] ∧
    (valuesOf symbol (arrivals past) = [] ∨ 10000 ≤ acc.length)
  vectors : ∀ call ∈ s.emitted, ∃ symbol vec, call = ⟨d, ⟨symbol, .doubles vec⟩⟩ ∧ vec ≠ []

section Runs
variable {env : BuildEnv D} {store : String → String → Option (ArgType D)}
  {live : NodeId → Bool} {period : ℤ} {id d : NodeId} {past : List (Action D)} {s : State D}
  {acc : List (String × List D)}

omit [Double D] in
theorem valuesOf_arrivals_other {symbol : String} {sv : StreamValue D} (h : sv.symbol ≠ symbol) :
    valuesOf symbol (arrivals (past ++ [.onValue sv])) = valuesOf symbol (arrivals past) := by
  have harrived : arrivals [Action.onValue sv] = [sv] := rfl
  rw [arrivals_concat, valuesOf_append, harrived, valuesOf_singleton_ne h, List.append_nil]

omit [Double D] in
theorem mem_symbols_concat {symbol : String} {action : Action D}
    (h : symbol ∈ (arrivals past).map StreamValue.symbol) :
    symbol ∈ (arrivals (past ++ [action])).map StreamValue.symbol := by
  rw [arrivals_concat, List.map_append]
  exact List.mem_append_left _ h

/-- A value that is refused changes nothing. -/
theorem Windowed.value_of_refuses (h : Windowed period id d past s acc) {sv : StreamValue D}
    (hrefuses : refuses acc sv.symbol = true) :
    Windowed period id d (past ++ [.onValue sv]) s acc := by
  obtain ⟨hnone, hfull⟩ := Bool.and_eq_true_iff.mp hrefuses
  have hlookup : lookupKey acc sv.symbol = none := Option.isNone_iff_eq_none.mp hnone
  refine ⟨h.node, h.nodup, fun symbol hin => mem_symbols_concat (h.symbols symbol hin),
    ?_, ?_, h.vectors⟩
  · intro symbol buffer hbuffer
    have hne : sv.symbol ≠ symbol := by
      rintro rfl
      rw [hlookup] at hbuffer
      cases hbuffer
    rw [bucketOf_concat, Bucket.step, if_neg hne]
    exact h.admitted symbol buffer hbuffer
  · intro symbol hsymbol
    exact ⟨(h.refused symbol hsymbol).1, .inr (of_decide_eq_true hfull)⟩

/-- A symbol that is not refused has its bucket, or comes for the first time. -/
theorem Windowed.bucketOf_admitted (h : Windowed period id d past s acc) {symbol : String}
    (hrefuses : refuses acc symbol = false) :
    bucketOf symbol past =
      ⟨vectorsOf symbol s.emitted, (lookupKey acc symbol).getD []⟩ := by
  cases hlookup : lookupKey acc symbol with
  | some old => exact h.admitted _ _ hlookup
  | none =>
    obtain ⟨hvectors, hempty⟩ := h.refused _ hlookup
    have hnew : valuesOf symbol (arrivals past) = [] := by
      rcases hempty with hempty | hfull
      · exact hempty
      · rw [refuses, hlookup, Option.isNone_none, Bool.true_and,
          decide_eq_false_iff_not] at hrefuses
        exact absurd hfull hrefuses
    rw [bucketOf_of_none hnew, hvectors]
    rfl

theorem Windowed.value (h : Windowed period id d past s acc) (sv : StreamValue D) :
    ∃ acc', Windowed period id d (past ++ [.onValue sv])
      (step env store live id s (.onValue sv)) acc' := by
  have hlt := (List.getElem?_eq_some_iff.mp h.node).1
  simp only [step, Runtime.onValue, h.node, Runtime.tumblingWindowOnValue, Bool.false_or]
  cases hrefuses : refuses acc sv.symbol with
  | true => exact ⟨acc, h.value_of_refuses hrefuses⟩
  | false =>
    refine ⟨_, List.getElem?_set_self hlt, nodup_assignKey h.nodup, ?_, ?_, ?_, h.vectors⟩
    · intro symbol hin
      rcases mem_keys_assignKey.mp hin with rfl | hold
      · rw [arrivals_concat, List.map_append]
        exact List.mem_append_right _ List.mem_cons_self
      · exact mem_symbols_concat (h.symbols symbol hold)
    · intro symbol buffer hbuffer
      rw [lookupKey_assignKey] at hbuffer
      rw [bucketOf_concat, Bucket.step]
      split_ifs at hbuffer with hsymbol
      · subst hsymbol
        obtain rfl := Option.some.inj hbuffer
        rw [if_pos rfl, h.bucketOf_admitted hrefuses]
        rfl
      · rw [if_neg (Ne.symm hsymbol)]
        exact h.admitted symbol buffer hbuffer
    · intro symbol hnone
      rw [lookupKey_assignKey] at hnone
      split_ifs at hnone with hsymbol
      obtain ⟨hvectors, hempty⟩ := h.refused symbol hnone
      refine ⟨hvectors, ?_⟩
      rw [valuesOf_arrivals_other (Ne.symm hsymbol), length_assignKey]
      rcases hempty with hempty | hfull
      · exact .inl hempty
      · right
        omega

/-- A round of the timer takes all buffers out. -/
theorem Windowed.timerLoop (h : Windowed period id d past s acc) :
    s.rt.timerLoop id =
      (s.rt.setNode id (.tumblingWindow period (some d) false (acc.map (fun e => (e.1, [])))),
        taken d acc) := by
  have hcalls : taken d acc = (acc.filter (fun e => !e.2.isEmpty)).flatMap
      (fun e => Runtime.callTo (some d) ⟨e.1, .doubles e.2⟩) := List.map_eq_flatMap
  rw [Runtime.timerLoop, h.node, hcalls]
  rfl

theorem Windowed.flush (h : Windowed period id d past s acc) :
    Windowed period id d (past ++ [.flush]) (step env store live id s .flush)
      (acc.map (fun e => (e.1, []))) := by
  have hlt := (List.getElem?_eq_some_iff.mp h.node).1
  have hround := h.timerLoop
  have hemitted : (step env store live id s .flush).emitted = s.emitted ++ taken d acc := by
    rw [step, hround]
    exact (List.append_assoc _ _ _).symm
  have harrived : arrivals (past ++ [Action.flush]) = arrivals past := by
    rw [arrivals_concat]
    exact List.append_nil _
  refine ⟨?_, ?_, ?_, ?_, ?_, ?_⟩
  · rw [step, hround]
    exact List.getElem?_set_self hlt
  · rw [List.map_map]
    exact h.nodup
  · intro symbol hin
    rw [List.map_map] at hin
    exact mem_symbols_concat (h.symbols symbol hin)
  · intro symbol buffer hbuffer
    rw [lookupKey_emptied] at hbuffer
    obtain ⟨old, hold, rfl⟩ := Option.map_eq_some_iff.mp hbuffer
    rw [bucketOf_concat, h.admitted symbol old hold, hemitted, vectorsOf_append,
      vectorsOf_taken h.nodup hold, Bucket.step]
    cases old with
    | nil => simp
    | cons x xs => simp
  · intro symbol hnone
    rw [lookupKey_emptied, Option.map_eq_none_iff] at hnone
    obtain ⟨hvectors, hempty⟩ := h.refused symbol hnone
    rw [hemitted, vectorsOf_append, hvectors, vectorsOf_taken_of_none hnone, harrived,
      List.length_map]
    exact ⟨rfl, hempty⟩
  · intro call hcall
    rw [hemitted, List.mem_append] at hcall
    rcases hcall with hold | hnew
    · exact h.vectors call hold
    · obtain ⟨entry, hentry, rfl⟩ := List.mem_map.mp hnew
      have hfilled := (List.mem_filter.mp hentry).2
      refine ⟨entry.1, entry.2, rfl, ?_⟩
      intro hnil
      rw [hnil] at hfilled
      cases hfilled

theorem Windowed.post (h : Windowed period id d past s acc) :
    Windowed period id d (past ++ [.post]) (step env store live id s .post) acc := by
  have hemitted : (step env store live id s .post).emitted = s.emitted := by
    rw [step, State.emitted, State.emitted, List.append_assoc]
    cases s.emits <;> rfl
  have harrived : arrivals (past ++ [Action.post]) = arrivals past := by
    rw [arrivals_concat]
    exact List.append_nil _
  refine ⟨h.node, h.nodup, fun symbol hin => mem_symbols_concat (h.symbols symbol hin),
    ?_, ?_, ?_⟩
  · intro symbol buffer hbuffer
    rw [bucketOf_concat, hemitted]
    exact h.admitted symbol buffer hbuffer
  · intro symbol hnone
    rw [hemitted, harrived]
    exact h.refused symbol hnone
  · rw [hemitted]
    exact h.vectors

theorem windowed (env : BuildEnv D) (store : String → String → Option (ArgType D))
    (live : NodeId → Bool) {rt : Runtime D}
    (hnode : rt.nodes[id]? = some (.tumblingWindow period (some d) false []))
    (actions : List (Action D)) :
    ∃ acc, Windowed period id d actions (actions.foldl (step env store live id) { rt := rt })
      acc := by
  induction actions using List.reverseRecOn with
  | nil => exact ⟨[], hnode, List.nodup_nil, nofun, nofun, fun _ _ => ⟨rfl, .inl rfl⟩, nofun⟩
  | append_singleton actions action ih =>
    obtain ⟨acc, h⟩ := ih
    rw [List.foldl_concat]
    cases action with
    | onValue sv => exact h.value sv
    | flush => exact ⟨_, h.flush⟩
    | post => exact ⟨acc, h.post⟩

omit [Double D] in
/-- The run of one symbol alone has its values and no others. -/
theorem arrivals_onlyOf (symbol : String) (actions : List (Action D)) :
    arrivals (onlyOf symbol actions) =
      (arrivals actions).filter (fun sv => sv.symbol = symbol) := by
  induction actions with
  | nil => rfl
  | cons action actions ih =>
    cases action with
    | onValue sv =>
      have harrived : ∀ later, arrivals (Action.onValue sv :: later) = sv :: arrivals later :=
        fun _ => rfl
      rcases eq_or_ne sv.symbol symbol with hs | hs
      · have honly : onlyOf symbol (.onValue sv :: actions) =
            .onValue sv :: onlyOf symbol actions := by simp [onlyOf, hs]
        rw [honly, harrived, harrived, ih, List.filter_cons_of_pos (by simpa using hs)]
      · have honly : onlyOf symbol (.onValue sv :: actions) = onlyOf symbol actions := by
          simp [onlyOf, hs]
        rw [honly, harrived, ih, List.filter_cons_of_neg (by simpa using hs)]
    | flush => exact ih
    | post => exact ih

/-- A symbol that is admitted among others is admitted alone. -/
theorem Windowed.alone {s' : State D} {acc' : List (String × List D)} {symbol : String}
    (h : Windowed period id d past s acc) (h' : Windowed period id d (onlyOf symbol past) s' acc')
    (hsymbol : symbol ∈ acc.map Prod.fst) : ∃ buffer, lookupKey acc' symbol = some buffer := by
  cases hlookup : lookupKey acc' symbol with
  | some buffer => exact ⟨buffer, rfl⟩
  | none =>
    obtain ⟨sv, hsv, hname⟩ := List.mem_map.mp (h.symbols symbol hsymbol)
    have hmem : sv ∈ arrivals (onlyOf symbol past) := by
      rw [arrivals_onlyOf]
      exact List.mem_filter.mpr ⟨hsv, decide_eq_true hname⟩
    rcases (h'.refused symbol hlookup).2 with hempty | hfull
    · have hin : sv.value ∈ valuesOf symbol (arrivals (onlyOf symbol past)) :=
        List.mem_map_of_mem (List.mem_filter.mpr ⟨hmem, decide_eq_true hname⟩)
      rw [hempty] at hin
      cases hin
    · have honly : ∀ other ∈ acc'.map Prod.fst, other ∈ ({symbol} : Finset String) := by
        intro other hother
        obtain ⟨sv', hsv', rfl⟩ := List.mem_map.mp (h'.symbols other hother)
        rw [arrivals_onlyOf] at hsv'
        exact Finset.mem_singleton.mpr (of_decide_eq_true (List.mem_filter.mp hsv').2)
      have hsize := length_lt_of_lookupKey_none h'.nodup honly (Finset.mem_singleton_self symbol)
        hlookup
      rw [Finset.card_singleton] at hsize
      omega

omit [Double D] in
theorem lookupKey_of_mem_keys {symbol : String} (h : symbol ∈ acc.map Prod.fst) :
    ∃ buffer, lookupKey acc symbol = some buffer :=
  Option.isSome_iff_exists.mp (mem_keys_iff.mp h)

omit [Double D] in
theorem buffers_of_node {rt : Runtime D}
    (h : rt.nodes[id]? = some (.tumblingWindow period (some d) false acc)) :
    buffers rt id = acc := by
  rw [buffers, h]

/-- In every run of arrivals, flushes and deliveries each admitted symbol's vectors, followed by
its buffer, are the values that arrived for it; a symbol is refused only when there are
`MAX_SYMBOLS` others; no vector is empty, and the next flush has one vector for each symbol at
most. The symbols do not influence each other. -/
theorem windows_conserve (env : BuildEnv D) (store : String → String → Option (ArgType D))
    (live : NodeId → Bool) {rt : Runtime D}
    (hnode : rt.nodes[id]? = some (.tumblingWindow period (some d) false []))
    (actions : List (Action D)) :
    let run := fun actions : List (Action D) =>
      actions.foldl (step env store live id) { rt := rt }
    let s := run actions
    (∀ symbol ∈ (buffers s.rt id).map Prod.fst,
      (vectorsOf symbol s.emitted).flatten ++ (lookupKey (buffers s.rt id) symbol).getD [] =
        (valuesOf symbol (arrivals actions)).map TreeBuilder.toDouble ∧
      vectorsOf symbol s.emitted = vectorsOf symbol (run (onlyOf symbol actions)).emitted ∧
      lookupKey (buffers s.rt id) symbol =
        lookupKey (buffers (run (onlyOf symbol actions)).rt id) symbol) ∧
    (∀ symbol ∉ (buffers s.rt id).map Prod.fst, vectorsOf symbol s.emitted = [] ∧
      (valuesOf symbol (arrivals actions) = [] ∨ 10000 ≤ (buffers s.rt id).length)) ∧
    (∀ call ∈ s.emitted, ∃ symbol vec, call = ⟨d, ⟨symbol, .doubles vec⟩⟩ ∧ vec ≠ []) ∧
    (((s.rt.timerLoop id).2).map (fun call => call.value.symbol)).Nodup := by
  intro run s
  obtain ⟨acc, h⟩ := windowed env store live hnode actions
  rw [buffers_of_node h.node]
  refine ⟨?_, ?_, h.vectors, ?_⟩
  · intro symbol hsymbol
    obtain ⟨buffer, hbuffer⟩ := lookupKey_of_mem_keys hsymbol
    obtain ⟨acc', h'⟩ := windowed env store live hnode (onlyOf symbol actions)
    obtain ⟨buffer', hbuffer'⟩ := h.alone h' hsymbol
    have hbucket := h.admitted symbol buffer hbuffer
    have hconserves := bucketOf_conserves symbol actions
    have halone := h'.admitted symbol buffer' hbuffer'
    rw [bucketOf_onlyOf, hbucket] at halone
    rw [hbucket] at hconserves
    injection halone with hvectors hbuffers
    rw [buffers_of_node h'.node, hbuffer, hbuffer', hbuffers]
    exact ⟨hbuffers ▸ hconserves, hvectors, rfl⟩
  · intro symbol hsymbol
    rw [mem_keys_iff, Option.not_isSome_iff_eq_none] at hsymbol
    exact h.refused symbol hsymbol
  · rw [h.timerLoop]
    exact nodup_symbols_taken h.nodup

end Runs

/-- A window in front of a terminal. -/
def oneWindow : Runtime ExactDouble :=
  { nodes := [.tumblingWindow 1000 (some 1) false [], .responder (.int 1) false] }

/-- Two values with a flush in between, whose vector is not yet handed on. -/
def flushBetween : List (Action ExactDouble) :=
  [.onValue ⟨"AAPL", .int 5⟩, .flush, .onValue ⟨"AAPL", .int 6⟩]

def flushedBetween : State ExactDouble :=
  flushBetween.foldl (step TreeBuilder.fullEnv (fun _ _ => none) (fun _ => true) 0)
    { rt := oneWindow }

theorem mem_flushedBetween : "AAPL" ∈ (buffers flushedBetween.rt 0).map Prod.fst := by
  decide +kernel

theorem windows_conserve_flushBetween :
    vectorsOf "AAPL" flushedBetween.emitted = [[.fin 5]] ∧
    lookupKey (buffers flushedBetween.rt 0) "AAPL" = some [.fin 6] ∧
    (vectorsOf "AAPL" flushedBetween.emitted).flatten ++
      (lookupKey (buffers flushedBetween.rt 0) "AAPL").getD [] = [.fin 5, .fin 6] := by
  refine ⟨by decide +kernel, by decide +kernel, ?_⟩
  have hnode : oneWindow.nodes[0]? = some (.tumblingWindow 1000 (some 1) false []) := rfl
  have hall := windows_conserve TreeBuilder.fullEnv (fun _ _ => none) (fun _ => true) hnode
    flushBetween
  exact (hall.1 "AAPL" mem_flushedBetween).1

end GmaEngine.Tumbling
