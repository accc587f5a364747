import GmaEngine.ChainCalls
import GmaEngine.StreamMachines

/-!
# Nodes as machines

A Worker, a VectorReducer, an AtomicAccessor and an Aggregate hand on what they put out before
`onValue` returns. Each is a machine on the values of the stream; its state is what it keeps for
each symbol.
-/

namespace GmaEngine

open StreamMachines

/-- The nodes that hand on synchronously, without their downstream and their state. -/
inductive Stage (D : Type) where
  | worker (fn : List (ArgType D) → Option (ArgType D))
  | vectorReducer (fn : Func D)
  | atomicAccessor (symbol field : String)
  | aggregate (arity : ℕ)

/-- What a node keeps for each symbol. -/
abbrev SymbolMap (D : Type) := List (String × List (ArgType D))

namespace Stage
variable {D : Type}

def node (stage : Stage D) (downstream : Option NodeId) (acc : SymbolMap D) : INode D :=
  match stage with
  | worker fn => .worker fn downstream false acc
  | vectorReducer fn => .vectorReducer fn downstream false
  | atomicAccessor symbol field => .atomicAccessor symbol field downstream false
  | aggregate arity => .aggregate arity downstream false acc

/-- The values of a symbol that a Worker applies its function to, the new one last. -/
def window (acc : SymbolMap D) (sv : StreamValue D) : List (ArgType D) :=
  ((lookupKey acc sv.symbol).getD [] ++ [sv.value]).rtake 1000

def workerStep (fn : List (ArgType D) → Option (ArgType D)) (acc : SymbolMap D)
    (sv : StreamValue D) : SymbolMap D × List (StreamValue D) :=
  if refuses acc sv.symbol then (acc, [])
  else
    match fn (window acc sv) with
    | some out => (assignKey acc sv.symbol (window acc sv), [⟨sv.symbol, out⟩])
    | none => (assignKey acc sv.symbol (window acc sv).dropLast, [])

def vectorReducerStep (fn : Func D) (sv : StreamValue D) : List (StreamValue D) :=
  match sv.value with
  | .doubles vec => ((fn vec).map (fun out => ⟨sv.symbol, .double out⟩)).toList
  | _ => []

def aggregateStep (arity : ℕ) (buf : SymbolMap D) (sv : StreamValue D) :
    SymbolMap D × List (StreamValue D) :=
  if refuses buf sv.symbol then (buf, [])
  else
    let vals := (lookupKey buf sv.symbol).getD [] ++ [sv.value]
    if vals.length < arity then (assignKey buf sv.symbol vals, [])
    else (assignKey buf sv.symbol [], vals.map (⟨sv.symbol, ·⟩))

/-- One value: the state after it, and what is handed on. -/
def step (store : String → String → Option (ArgType D)) (stage : Stage D) (acc : SymbolMap D)
    (sv : StreamValue D) : SymbolMap D × List (StreamValue D) :=
  match stage with
  | worker fn => workerStep fn acc sv
  | vectorReducer fn => (acc, vectorReducerStep fn sv)
  | atomicAccessor symbol field =>
    (acc, ((store symbol field).map (fun value => ⟨symbol, value⟩)).toList)
  | aggregate arity => aggregateStep arity acc sv

end Stage

namespace Runtime
variable {D : Type} [Double D] (env : BuildEnv D)
  (store : String → String → Option (ArgType D)) (live : NodeId → Bool) {rt : Runtime D}
  {id : NodeId} (stage : Stage D) {downstream : Option NodeId} {acc : SymbolMap D}

/-- The calls that hand values on. -/
def handOn (downstream : Option NodeId) (outs : List (StreamValue D)) : List (Call D) :=
  outs.flatMap (callTo downstream)

omit [Double D] in
@[simp] theorem handOn_some (target : NodeId) (outs : List (StreamValue D)) :
    handOn (some target) outs = outs.map (fun out => ⟨target, out⟩) :=
  List.map_eq_flatMap.symm

omit [Double D] in
theorem setNode_of_same {node : INode D} (hnode : rt.nodes[id]? = some node) :
    rt.setNode id node = rt := by
  obtain ⟨hlt, rfl⟩ := List.getElem?_eq_some_iff.mp hnode
  rw [setNode, List.set_getElem_self]

/-- A call of `onValue` on such a node is one step of its machine. -/
theorem onValue_stage (hnode : rt.nodes[id]? = some (stage.node downstream acc))
    (sv : StreamValue D) :
    onValue env store live rt id sv =
      (rt.setNode id (stage.node downstream (stage.step store acc sv).1),
        { calls := handOn downstream (stage.step store acc sv).2 }) := by
  have hsame := setNode_of_same hnode
  unfold onValue
  rw [hnode]
  cases stage with
  | worker fn =>
    simp only [Stage.node] at hsame
    have hcall : workerOnValue rt id fn downstream false acc sv =
        if false || refuses acc sv.symbol then (rt, {})
        else match fn (Stage.window acc sv) with
          | some out => (rt.setNode id (.worker fn downstream false
              (assignKey acc sv.symbol (Stage.window acc sv))),
            { calls := callTo downstream ⟨sv.symbol, out⟩ })
          | none => (rt.setNode id (.worker fn downstream false
              (assignKey acc sv.symbol (Stage.window acc sv).dropLast)), {}) := rfl
    simp only [Stage.node, Stage.step, Stage.workerStep, hcall, Bool.false_or]
    split_ifs with hrefuses
    · rw [hsame]
      rfl
    · cases fn (Stage.window acc sv) with
      | some out => simp [handOn]
      | none => rfl
  | vectorReducer fn =>
    simp only [Stage.node] at hsame
    simp only [Stage.node, Stage.step, vectorReducerOnValue, Stage.vectorReducerStep, hsame]
    cases sv.value with
    | doubles vec => cases hfn : fn vec <;> simp [hfn, handOn]
    | _ => rfl
  | atomicAccessor symbol field =>
    simp only [Stage.node] at hsame
    simp only [Stage.node, Stage.step, atomicAccessorOnValue, hsame]
    cases store symbol field <;> simp [handOn]
  | aggregate arity =>
    simp only [Stage.node] at hsame
    simp only [Stage.node, Stage.step, aggregateOnValue, Stage.aggregateStep, Bool.false_or]
    split_ifs with hrefuses hshort
    · rw [hsame]
      rfl
    · rfl
    · simp [handOn, List.flatMap_map]

/-- One call on the node, as a machine that puts out what the call does. -/
def callOn (env : BuildEnv D) (store : String → String → Option (ArgType D))
    (live : NodeId → Bool) (id : NodeId) (rt : Runtime D) (sv : StreamValue D) :
    Runtime D × List (Effects D) :=
  ((onValue env store live rt id sv).1, [(onValue env store live rt id sv).2])

theorem callOn_stage (hnode : rt.nodes[id]? = some (stage.node downstream acc))
    (svs : List (StreamValue D)) :
    (after (callOn env store live id) rt svs).nodes[id]? =
      some (stage.node downstream (after (stage.step store) acc svs)) ∧
    outputs (callOn env store live id) rt svs =
      (trace (stage.step store) acc svs).map (fun outs => { calls := handOn downstream outs }) := by
  induction svs generalizing rt acc with
  | nil => exact ⟨hnode, rfl⟩
  | cons sv svs ih =>
    have hcall : callOn env store live id rt sv =
        (rt.setNode id (stage.node downstream (stage.step store acc sv).1),
          [{ calls := handOn downstream (stage.step store acc sv).2 }]) := by
      rw [callOn, onValue_stage env store live stage hnode]
    have hlt := (List.getElem?_eq_some_iff.mp hnode).1
    have hnode' : (rt.setNode id (stage.node downstream (stage.step store acc sv).1)).nodes[id]? =
        some (stage.node downstream (stage.step store acc sv).1) := by
      simp [setNode, hlt]
    obtain ⟨hafter, houts⟩ := ih hnode'
    rw [after_cons, outputs_cons, trace_cons, hcall]
    refine ⟨hafter, ?_⟩
    rw [houts]
    rfl

end Runtime

section Values
variable {D : Type} {symbol symbol' : String} {svs svs' : List (StreamValue D)} {v : ArgType D}

def valuesOf (symbol : String) (svs : List (StreamValue D)) : List (ArgType D) :=
  (svs.filter (fun sv => sv.symbol = symbol)).map StreamValue.value

@[simp] theorem valuesOf_nil : valuesOf symbol ([] : List (StreamValue D)) = [] := rfl

@[simp] theorem valuesOf_append :
    valuesOf symbol (svs ++ svs') = valuesOf symbol svs ++ valuesOf symbol svs' := by
  simp [valuesOf]

@[simp] theorem valuesOf_singleton_same : valuesOf symbol [⟨symbol, v⟩] = [v] := by
  simp [valuesOf]

theorem valuesOf_singleton_ne (h : symbol' ≠ symbol) : valuesOf symbol [⟨symbol', v⟩] = [] := by
  simp [valuesOf, h]

theorem valuesOf_map (vals : List (ArgType D)) :
    valuesOf symbol' (vals.map (fun v => (⟨symbol, v⟩ : StreamValue D))) =
      if symbol = symbol' then vals else [] := by
  induction vals with
  | nil => simp
  | cons v vals ih =>
    rw [List.map_cons, ← List.singleton_append, valuesOf_append, ih]
    split_ifs with h
    · rw [h, valuesOf_singleton_same, List.singleton_append]
    · rw [valuesOf_singleton_ne h, List.append_nil]

/-- The values that bear one symbol are known by their values. -/
theorem eq_map_valuesOf (h : ∀ sv ∈ svs, sv.symbol = symbol) :
    svs = (valuesOf symbol svs).map (fun v => ⟨symbol, v⟩) := by
  induction svs with
  | nil => rfl
  | cons sv svs ih =>
    have hsv := h sv List.mem_cons_self
    have hrest := ih (fun other hother => h other (List.mem_cons_of_mem _ hother))
    have hcons : valuesOf symbol (sv :: svs) = sv.value :: valuesOf symbol svs := by
      simp [valuesOf, hsv]
    rw [hcons, List.map_cons, ← hrest, ← hsv]

end Values
end GmaEngine
