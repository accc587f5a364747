import GmaEngine.EntryMaps
import GmaEngine.FailedBuilds
import GmaEngine.NodeMachines
import GmaEngine.SlidingHistory

/-!
# Windows of a Worker

A Worker keeps the latest values of each symbol and applies its function to them whenever one
arrives. If the function throws, the new value is taken back.
-/

namespace GmaEngine

open StreamMachines
variable {D : Type}

namespace Stage

section Steps
variable {fn : List (ArgType D) → Option (ArgType D)} {acc : SymbolMap D} {sv : StreamValue D}

theorem workerStep_of_some (hadmits : refuses acc sv.symbol = false) {out : ArgType D}
    (hout : fn (window acc sv) = some out) : workerStep fn acc sv =
      (assignKey acc sv.symbol (window acc sv), [⟨sv.symbol, out⟩]) := by
  simp only [workerStep, hadmits, Bool.false_eq_true, if_false, hout]

theorem workerStep_of_none (hadmits : refuses acc sv.symbol = false)
    (hnone : fn (window acc sv) = none) : workerStep fn acc sv =
      (assignKey acc sv.symbol (window acc sv).dropLast, []) := by
  simp only [workerStep, hadmits, Bool.false_eq_true, if_false, hnone]

theorem window_ne_nil (acc : SymbolMap D) (sv : StreamValue D) : window acc sv ≠ [] := by
  intro hnil
  have hlen : (window acc sv).length = 0 := by rw [hnil, List.length_nil]
  rw [window, SlidingHistory.length_rtake, List.length_append, List.length_singleton] at hlen
  omega

end Steps

/-- The map holds the latest values of every symbol that has come. -/
structure Windows (past : List (StreamValue D)) (acc : SymbolMap D) : Prop where
  nodup : (acc.map Prod.fst).Nodup
  symbols : ∀ s ∈ acc.map Prod.fst, s ∈ past.map StreamValue.symbol
  latest : ∀ s, (lookupKey acc s).getD [] = (valuesOf s past).rtake 1000

namespace Windows
variable {past : List (StreamValue D)} {acc : SymbolMap D}

theorem empty : Windows ([] : List (StreamValue D)) [] where
  nodup := List.nodup_nil
  symbols := by simp
  latest := by simp [List.rtake]

theorem window_eq (h : Windows past acc) (sv : StreamValue D) :
    window acc sv = (valuesOf sv.symbol past ++ [sv.value]).rtake 1000 := by
  rw [window, h.latest, SlidingHistory.rtake_rtake_append]

theorem refuses_eq_false (h : Windows past acc) {symbols : Finset String}
    (hcard : symbols.card ≤ 10000) {sv : StreamValue D}
    (hsymbols : ∀ other ∈ past ++ [sv], other.symbol ∈ symbols) :
    refuses acc sv.symbol = false := by
  apply refuses_eq_false_of_seen hcard h.nodup h.symbols
  intro s hs
  rw [← List.map_singleton, ← List.map_append] at hs
  obtain ⟨other, hother, rfl⟩ := List.mem_map.mp hs
  exact hsymbols other hother

/-- A value that the function takes is kept. -/
theorem assign (h : Windows past acc) (sv : StreamValue D) :
    Windows (past ++ [sv]) (assignKey acc sv.symbol (window acc sv)) := by
  refine ⟨nodup_assignKey h.nodup, ?_, ?_⟩
  · rw [List.map_append]
    exact mem_keys_assignKey_concat h.symbols
  · intro s
    rw [lookupKey_assignKey]
    split_ifs with hs
    · subst hs
      rw [Option.getD_some, h.window_eq, valuesOf_append, valuesOf_singleton_same]
    · rw [h.latest, valuesOf_append, valuesOf_singleton_ne (Ne.symm hs), List.append_nil]

end Windows

/-- What a symbol's values are turned into: the function on the latest 1000 up to each one. -/
def windowOutputs (fn : List (ArgType D) → Option (ArgType D)) (vals : List (ArgType D)) :
    List (Option (ArgType D)) :=
  (List.range vals.length).map (fun k => fn ((vals.take (k + 1)).rtake 1000))

theorem windowOutputs_concat (fn : List (ArgType D) → Option (ArgType D))
    (vals : List (ArgType D)) (v : ArgType D) : windowOutputs fn (vals ++ [v]) =
      windowOutputs fn vals ++ [fn ((vals ++ [v]).rtake 1000)] := by
  have hold : (List.range vals.length).map (fun k => fn (((vals ++ [v]).take (k + 1)).rtake 1000)) =
      windowOutputs fn vals := by
    apply List.map_congr_left
    intro k hk
    have hlt := List.mem_range.mp hk
    rw [List.take_append_of_le_length (by omega)]
  have hnew : (vals ++ [v]).take (vals.length + 1) = vals ++ [v] :=
    List.take_of_length_le (by simp)
  rw [windowOutputs, List.length_append, List.length_singleton, List.range_succ, List.map_append,
    List.map_singleton, hold, hnew]

/-- The outputs for the values so far: one for each, under the same symbol, and for every symbol
those of its windows. -/
structure Answers (fn : List (ArgType D) → Option (ArgType D))
    (past outs : List (StreamValue D)) : Prop where
  symbols : outs.map StreamValue.symbol = past.map StreamValue.symbol
  values : ∀ s, (valuesOf s outs).map some = windowOutputs fn (valuesOf s past)

section Runs
variable {fn : List (ArgType D) → Option (ArgType D)}

theorem Answers.concat {past outs : List (StreamValue D)} (h : Answers fn past outs)
    {sv : StreamValue D} {out : ArgType D}
    (hout : fn ((valuesOf sv.symbol past ++ [sv.value]).rtake 1000) = some out) :
    Answers fn (past ++ [sv]) (outs ++ [⟨sv.symbol, out⟩]) := by
  constructor
  · rw [List.map_append, List.map_append, h.symbols]
    rfl
  · intro s
    by_cases hs : sv.symbol = s
    · subst hs
      rw [valuesOf_append, valuesOf_append, valuesOf_singleton_same, valuesOf_singleton_same,
        windowOutputs_concat, List.map_append, h.values, hout]
      rfl
    · rw [valuesOf_append, valuesOf_append, valuesOf_singleton_ne hs, valuesOf_singleton_ne hs,
        List.append_nil, List.append_nil, h.values]

theorem trace_workerStep (hfn : ∀ vals, vals ≠ [] → (fn vals).isSome = true)
    {symbols : Finset String} (hcard : symbols.card ≤ 10000) {svs : List (StreamValue D)}
    (hsymbols : ∀ sv ∈ svs, sv.symbol ∈ symbols) :
    Windows svs (after (workerStep fn) [] svs) ∧
      ∃ outs, trace (workerStep fn) [] svs = outs.map (fun out => [out]) ∧ Answers fn svs outs := by
  induction svs using List.reverseRecOn with
  | nil => exact ⟨Windows.empty, [], rfl, ⟨rfl, fun _ => rfl⟩⟩
  | append_singleton past sv ih =>
    obtain ⟨hwindows, outs, htrace, hanswers⟩ :=
      ih (fun other hother => hsymbols other (List.mem_append_left _ hother))
    have hadmits := hwindows.refuses_eq_false hcard hsymbols
    obtain ⟨out, hout⟩ := Option.isSome_iff_exists.mp
      (hfn _ (window_ne_nil (after (workerStep fn) [] past) sv))
    have hstep := workerStep_of_some hadmits hout
    rw [after_append, after_cons, after_nil, trace_append, hstep, trace_cons, hstep]
    refine ⟨hwindows.assign sv, outs ++ [⟨sv.symbol, out⟩], ?_, ?_⟩
    · rw [htrace, List.map_append]
      rfl
    · apply hanswers.concat
      rw [← hwindows.window_eq, hout]

end Runs

/-- The function is called for the value, and throws. -/
def throws (fn : List (ArgType D) → Option (ArgType D)) (acc : SymbolMap D)
    (sv : StreamValue D) : Bool :=
  !refuses acc sv.symbol && (fn (window acc sv)).isNone

section Throws
variable {fn : List (ArgType D) → Option (ArgType D)} {acc : SymbolMap D} {sv : StreamValue D}

theorem workerStep_of_throws (h : throws fn acc sv = true) : workerStep fn acc sv =
    (assignKey acc sv.symbol (window acc sv).dropLast, []) := by
  obtain ⟨hadmits, hnone⟩ := Bool.and_eq_true_iff.mp h
  exact workerStep_of_none (by simpa using hadmits) (by simpa using hnone)

theorem nodup_workerStep (hnodup : (acc.map Prod.fst).Nodup) :
    (((workerStep fn acc sv).1).map Prod.fst).Nodup := by
  unfold workerStep
  split_ifs
  · exact hnodup
  · split
    · exact nodup_assignKey hnodup
    · exact nodup_assignKey hnodup

theorem nodup_after_workerStep (svs : List (StreamValue D)) :
    ((after (workerStep fn) [] svs).map Prod.fst).Nodup := by
  apply after_induction (P := fun _ (acc : SymbolMap D) => (acc.map Prod.fst).Nodup)
  · exact List.nodup_nil
  · intro _ acc sv hnodup
    exact nodup_workerStep hnodup

/-- What stays of a window when the new value is taken back: all of it, if the window had room. -/
theorem dropLast_window_eq_iff {vec : List (ArgType D)}
    (hvec : lookupKey acc sv.symbol = some vec) :
    (window acc sv).dropLast = vec ↔ vec.length < 1000 := by
  rw [window, hvec, Option.getD_some]
  constructor
  · intro heq
    have hlen := congrArg List.length heq
    rw [List.length_dropLast, SlidingHistory.length_rtake, List.length_append,
      List.length_singleton] at hlen
    omega
  · intro hlt
    have hroom : (vec ++ [sv.value]).length - 1000 = 0 := by
      rw [List.length_append, List.length_singleton]
      omega
    rw [List.rtake, hroom, List.drop_zero, List.dropLast_concat]

/-- The map is as before the value exactly if the symbol had an entry with room in it. -/
theorem lookupKey_workerStep_iff (h : throws fn acc sv = true) :
    (∀ s, lookupKey (workerStep fn acc sv).1 s = lookupKey acc s) ↔
      ∃ vec, lookupKey acc sv.symbol = some vec ∧ vec.length < 1000 := by
  rw [workerStep_of_throws h]
  constructor
  · intro hsame
    have hentry := hsame sv.symbol
    rw [lookupKey_assignKey, if_pos rfl] at hentry
    exact ⟨_, hentry.symm, (dropLast_window_eq_iff hentry.symm).mp rfl⟩
  · rintro ⟨vec, hvec, hlt⟩ s
    rw [lookupKey_assignKey]
    split_ifs with hs
    · rw [hs, hvec, (dropLast_window_eq_iff hvec).mpr hlt]
    · rfl

/-- In that case the value leaves no trace at all. -/
theorem workerStep_eq_self (hnodup : (acc.map Prod.fst).Nodup) (h : throws fn acc sv = true)
    {vec : List (ArgType D)} (hvec : lookupKey acc sv.symbol = some vec) (hlt : vec.length < 1000) :
    workerStep fn acc sv = (acc, []) := by
  rw [workerStep_of_throws h, (dropLast_window_eq_iff hvec).mpr hlt,
    (assignKey_eq_self_iff hnodup).mpr hvec]

end Throws
end Stage

namespace Runtime
open TreeBuilder (fullEnv)
variable [Double D] (env : BuildEnv D) (store : String → String → Option (ArgType D))
  (live : NodeId → Bool) {rt : Runtime D} {id d : NodeId}
  {fn : List (ArgType D) → Option (ArgType D)}

/-- What the downstream is given, one call for each value. -/
theorem outputs_worker (hnode : rt.nodes[id]? = some (.worker fn (some d) false []))
    (hfn : ∀ vals, vals ≠ [] → (fn vals).isSome = true) {svs : List (StreamValue D)}
    (hsymbols : (svs.map StreamValue.symbol).toFinset.card ≤ 10000) :
    ∃ outs, outputs (callOn env store live id) rt svs =
      outs.map (fun out => { calls := [⟨d, out⟩] }) ∧ Stage.Answers fn svs outs := by
  have hmem : ∀ sv ∈ svs, sv.symbol ∈ (svs.map StreamValue.symbol).toFinset := by
    intro sv hsv
    exact List.mem_toFinset.mpr (List.mem_map_of_mem hsv)
  obtain ⟨-, outs, htrace, hanswers⟩ := Stage.trace_workerStep hfn hsymbols hmem
  have hcalls := (callOn_stage env store live (.worker fn) hnode svs).2
  refine ⟨outs, ?_, hanswers⟩
  change _ = (trace (Stage.workerStep fn) [] svs).map _ at hcalls
  rw [hcalls, htrace, List.map_map]
  rfl

theorem outputs_worker_of_symbol (hnode : rt.nodes[id]? = some (.worker fn (some d) false []))
    (hfn : ∀ vals, vals ≠ [] → (fn vals).isSome = true) {svs outs : List (StreamValue D)}
    (hsymbols : (svs.map StreamValue.symbol).toFinset.card ≤ 10000)
    (hanswers : Stage.Answers fn svs outs) (s : String) :
    outputs (callOn env store live id) rt (svs.filter (fun sv => sv.symbol = s)) =
      (outs.filter (fun out => out.symbol = s)).map (fun out => { calls := [⟨d, out⟩] }) := by
  have hsub : ((svs.filter (fun sv => sv.symbol = s)).map StreamValue.symbol).toFinset ⊆
      (svs.map StreamValue.symbol).toFinset := by
    intro x hx
    obtain ⟨sv, hsv, rfl⟩ := List.mem_map.mp (List.mem_toFinset.mp hx)
    exact List.mem_toFinset.mpr (List.mem_map_of_mem (List.mem_of_mem_filter hsv))
  obtain ⟨alone, hcalls, hanswers'⟩ := outputs_worker env store live hnode hfn
    ((Finset.card_le_card hsub).trans hsymbols)
  have hvalues : valuesOf s alone = valuesOf s outs := by
    apply List.map_injective_iff.mpr (Option.some_injective _)
    rw [hanswers'.values, hanswers.values, valuesOf, List.filter_filter]
    simp [valuesOf]
  have halone : ∀ sv ∈ alone, sv.symbol = s := by
    intro sv hsv
    have hin : sv.symbol ∈ (svs.filter (fun sv => sv.symbol = s)).map StreamValue.symbol := by
      rw [← hanswers'.symbols]
      exact List.mem_map_of_mem hsv
    obtain ⟨other, hother, heq⟩ := List.mem_map.mp hin
    rw [← heq]
    simpa using (List.mem_filter.mp hother).2
  have hfiltered : ∀ sv ∈ outs.filter (fun out => out.symbol = s), sv.symbol = s := by
    intro sv hsv
    simpa using (List.mem_filter.mp hsv).2
  have hsame : valuesOf s (outs.filter (fun out => out.symbol = s)) = valuesOf s outs := by
    simp [valuesOf, List.filter_filter]
  rw [hcalls, eq_map_valuesOf halone, eq_map_valuesOf hfiltered, hsame, hvalues]

/-- Every value is answered at once by one output, in the order of the values; the outputs of a
symbol are those of its windows, whatever comes for other symbols. -/
theorem worker_windows (hnode : rt.nodes[id]? = some (.worker fn (some d) false []))
    (hfn : ∀ vals, vals ≠ [] → (fn vals).isSome = true) {svs : List (StreamValue D)}
    (hsymbols : (svs.map StreamValue.symbol).toFinset.card ≤ 10000) :
    ∃ outs, outputs (callOn env store live id) rt svs =
        outs.map (fun out => { calls := [⟨d, out⟩] }) ∧
      outs.map StreamValue.symbol = svs.map StreamValue.symbol ∧
      ∀ s, (valuesOf s outs).map some = (List.range (valuesOf s svs).length).map
          (fun k => fn (((valuesOf s svs).take (k + 1)).rtake 1000)) ∧
        outputs (callOn env store live id) rt (svs.filter (fun sv => sv.symbol = s)) =
          (outs.filter (fun out => out.symbol = s)).map (fun out => { calls := [⟨d, out⟩] }) := by
  obtain ⟨outs, hcalls, hanswers⟩ := outputs_worker env store live hnode hfn hsymbols
  refine ⟨outs, hcalls, hanswers.symbols, ?_⟩
  intro s
  exact ⟨hanswers.values s, outputs_worker_of_symbol env store live hnode hfn hsymbols hanswers s⟩

/-- A Worker that counts its window. -/
def counting (fn : List (ArgType ExactDouble) → Option (ArgType ExactDouble)) :
    Runtime ExactDouble :=
  { nodes := [.worker fn (some 1) false []] }

theorem worker_windows_counting :
    ∃ outs : List (StreamValue ExactDouble),
      outputs (callOn fullEnv (fun _ _ => none) (fun _ => true) 0)
        (counting (fun vals => some (.int vals.length))) [⟨"AAPL", .int 7⟩, ⟨"MSFT", .int 8⟩] =
        outs.map (fun out => { calls := [⟨1, out⟩] }) ∧
      outs.map StreamValue.symbol = ["AAPL", "MSFT"] := by
  have hcard : ([(⟨"AAPL", .int 7⟩ : StreamValue ExactDouble), ⟨"MSFT", .int 8⟩].map
      StreamValue.symbol).toFinset.card ≤ 10000 :=
    (List.toFinset_card_le _).trans (by simp)
  have hnode : (counting (fun vals => some (.int vals.length))).nodes[0]? =
      some (.worker (fun vals => some (.int vals.length)) (some 1) false []) := rfl
  obtain ⟨outs, hcalls, hsymbols, -⟩ := worker_windows fullEnv (fun _ _ => none) (fun _ => true)
    hnode (fun _ _ => rfl) hcard
  exact ⟨outs, hcalls, hsymbols⟩

omit [Double D] in
/-- The map of a Worker. -/
def accumulator (rt : Runtime D) (id : NodeId) : SymbolMap D :=
  match rt.nodes[id]? with
  | some (.worker _ _ _ acc) => acc
  | _ => []

/-- The value has no effect: nothing is emitted, the map is as before, and what comes later is
answered as if the value had not come. -/
structure TakenBack (env : BuildEnv D) (store : String → String → Option (ArgType D))
    (live : NodeId → Bool) (id : NodeId) (rt : Runtime D) (sv : StreamValue D)
    (later : List (StreamValue D)) : Prop where
  effects : (onValue env store live rt id sv).2 = {}
  entries : ∀ s, lookupKey ((onValue env store live rt id sv).1.accumulator id) s =
    lookupKey (rt.accumulator id) s
  outputs : outputs (callOn env store live id) (onValue env store live rt id sv).1 later =
    outputs (callOn env store live id) rt later

theorem takenBack_iff {downstream : Option NodeId} {acc : SymbolMap D}
    (hnode : rt.nodes[id]? = some (.worker fn downstream false acc))
    (hnodup : (acc.map Prod.fst).Nodup) {sv : StreamValue D} (h : Stage.throws fn acc sv = true)
    (later : List (StreamValue D)) :
    TakenBack env store live id rt sv later ↔
      ∃ vec, lookupKey acc sv.symbol = some vec ∧ vec.length < 1000 := by
  have hlt := (List.getElem?_eq_some_iff.mp hnode).1
  have hcall : onValue env store live rt id sv =
      (rt.setNode id (.worker fn downstream false (Stage.workerStep fn acc sv).1),
        { calls := handOn downstream (Stage.workerStep fn acc sv).2 }) :=
    onValue_stage env store live (.worker fn) hnode sv
  have hacc : rt.accumulator id = acc := by simp only [accumulator, hnode]
  have hacc' :
      (onValue env store live rt id sv).1.accumulator id = (Stage.workerStep fn acc sv).1 := by
    simp [hcall, accumulator, setNode, hlt]
  constructor
  · intro htaken
    apply (Stage.lookupKey_workerStep_iff h).mp
    intro s
    rw [← hacc', htaken.entries, hacc]
  · rintro ⟨vec, hvec, hroom⟩
    have hsame : onValue env store live rt id sv = (rt, {}) := by
      rw [hcall, Stage.workerStep_eq_self hnodup h hvec hroom, setNode_of_same hnode]
      rfl
    constructor
    · rw [hsame]
    · intro s
      rw [hsame]
    · rw [hsame]

/-- In every run, the values that a Worker's function throws on have no effect exactly if each of
them finds an entry of its symbol with room in it. -/
theorem worker_takes_back_iff {downstream : Option NodeId}
    (hnode : rt.nodes[id]? = some (.worker fn downstream false [])) (svs : List (StreamValue D)) :
    (∀ before sv later, svs = before ++ sv :: later →
      Stage.throws fn ((after (callOn env store live id) rt before).accumulator id) sv = true →
      TakenBack env store live id (after (callOn env store live id) rt before) sv later) ↔
    ∀ before sv later, svs = before ++ sv :: later →
      Stage.throws fn ((after (callOn env store live id) rt before).accumulator id) sv = true →
      ∃ vec, lookupKey ((after (callOn env store live id) rt before).accumulator id) sv.symbol =
        some vec ∧ vec.length < 1000 := by
  have hstep : ∀ before sv later,
      Stage.throws fn ((after (callOn env store live id) rt before).accumulator id) sv = true →
      (TakenBack env store live id (after (callOn env store live id) rt before) sv later ↔
        ∃ vec, lookupKey ((after (callOn env store live id) rt before).accumulator id) sv.symbol =
          some vec ∧ vec.length < 1000) := by
    intro before sv later hthrows
    have hbefore : (after (callOn env store live id) rt before).nodes[id]? =
        some (.worker fn downstream false (after (Stage.workerStep fn) [] before)) :=
      (callOn_stage env store live (.worker fn) hnode before).1
    have hacc : (after (callOn env store live id) rt before).accumulator id =
        after (Stage.workerStep fn) [] before := by
      rw [accumulator, hbefore]
    rw [hacc] at hthrows ⊢
    exact takenBack_iff env store live hbefore (Stage.nodup_after_workerStep before) hthrows later
  constructor
  · intro hall before sv later heq hthrows
    exact (hstep before sv later hthrows).mp (hall before sv later heq hthrows)
  · intro hall before sv later heq hthrows
    exact (hstep before sv later hthrows).mpr (hall before sv later heq hthrows)

/-- A function that throws on windows of one length. -/
def failsOn (n : ℕ) (vals : List (ArgType ExactDouble)) : Option (ArgType ExactDouble) :=
  if vals.length = n then none else some (.int vals.length)

theorem worker_takes_back_second :
    TakenBack fullEnv (fun _ _ => none) (fun _ => true) 0
      (after (callOn fullEnv (fun _ _ => none) (fun _ => true) 0) (counting (failsOn 2))
        [⟨"AAPL", .int 7⟩]) ⟨"AAPL", .int 8⟩ [] := by
  have hfirst : (after (callOn fullEnv (fun _ _ => none) (fun _ => true) 0) (counting (failsOn 2))
      [⟨"AAPL", .int 7⟩]).accumulator 0 = [("AAPL", [.int 7])] := by
    simp [callOn, accumulator, counting, onValue, workerOnValue, refuses, failsOn, setNode, assignKey]
  have hnode : (counting (failsOn 2)).nodes[0]? =
      some (.worker (failsOn 2) (some 1) false []) := rfl
  refine (worker_takes_back_iff fullEnv (fun _ _ => none) (fun _ => true) hnode
    [⟨"AAPL", .int 7⟩, ⟨"AAPL", .int 8⟩]).mpr ?_ _ _ _ rfl ?_
  · intro before sv later heq hthrows
    rcases before with _ | ⟨first, before⟩
    · obtain ⟨rfl, -⟩ := List.cons.inj heq
      simp [accumulator, counting, Stage.throws, Stage.window, List.rtake, failsOn] at hthrows
    · obtain ⟨rfl, hrest⟩ := List.cons.inj heq
      rcases before with _ | ⟨second, before⟩
      · obtain ⟨rfl, -⟩ := List.cons.inj hrest
        rw [hfirst]
        exact ⟨_, rfl, by simp⟩
      · have hlen := congrArg List.length (List.cons.inj hrest).2
        simp at hlen
  · rw [hfirst]
    simp [Stage.throws, Stage.window, refuses, List.rtake, failsOn, lookupKey]

/-- The first value of a symbol leaves an empty entry when the function throws on it. -/
theorem worker_keeps_empty_entry :
    ¬ ∀ (fn : List (ArgType ExactDouble) → Option (ArgType ExactDouble)) (rt : Runtime ExactDouble),
      rt.nodes[0]? = some (.worker fn (some 1) false []) →
      ∀ svs before sv later, svs = before ++ sv :: later →
        Stage.throws fn ((after (callOn fullEnv (fun _ _ => none) (fun _ => true) 0)
          rt before).accumulator 0) sv = true →
        TakenBack fullEnv (fun _ _ => none) (fun _ => true) 0
          (after (callOn fullEnv (fun _ _ => none) (fun _ => true) 0) rt before) sv later := by
  intro hall
  have hthrows : Stage.throws (failsOn 1) [] ⟨"AAPL", .int 7⟩ = true := by
    simp [Stage.throws, Stage.window, refuses, List.rtake, failsOn]
  have htaken := hall (failsOn 1) (counting (failsOn 1)) rfl [⟨"AAPL", .int 7⟩] [] ⟨"AAPL", .int 7⟩ []
    rfl hthrows
  have hentry := htaken.entries "AAPL"
  simp [accumulator, counting, onValue, workerOnValue, refuses, failsOn, setNode, assignKey,
    lookupKey] at hentry

end Runtime
end GmaEngine
