import GmaEngine.BoundedClosure
import GmaEngine.KeyedQueues
import GmaEngine.TreeBuilder

/-!
# Values flowing through the nodes

`onValue` is one call on one node: it changes the node's own state and says which calls follow,
on the same thread or as a task of the pool. The pool is never null, since the builders check
for it. A call that throws is abandoned together with the calls that led to it.
-/

namespace GmaEngine

/-- A call `node->onValue(value)`. -/
structure Call (D : Type) where
  node : NodeId
  value : StreamValue D

/-- What a call does besides changing the runtime. -/
structure Effects (D : Type) where
  /-- The calls it makes before it returns. -/
  calls : List (Call D) := []
  /-- The calls it posts to the thread pool. -/
  posted : List (Call D) := []
  /-- The values it hands to the callback of a Responder. -/
  sent : List (RequestKey × StreamValue D) := []
  thrown : Bool := false

namespace INode
variable {D : Type}

/-- The nodes that a node points to. -/
def targets : INode D → List NodeId
  | listener _ _ downstream _ => downstream.toList
  | clock _ _ child _ => child.toList
  | tumblingWindow _ downstream _ _ => downstream.toList
  | vectorReducer _ downstream _ => downstream.toList
  | atomicAccessor _ _ downstream _ => downstream.toList
  | worker _ downstream _ _ => downstream.toList
  | aggregate _ parent _ _ => parent.toList
  | compositeRoot roots => roots
  | groupSplit _ _ downstream children => downstream.toList ++ children.map Prod.snd
  | responder _ _ => []

/-- The nodes that a node keeps alive. -/
def owns : INode D → List NodeId
  | listener _ _ _ _ => []
  | node => node.targets

end INode

section Entries
variable {κ α : Type} [DecidableEq κ]

def lookupKey (entries : List (κ × α)) (k : κ) : Option α :=
  (entries.find? (fun entry => entry.1 = k)).map Prod.snd

def assignKey (entries : List (κ × α)) (k : κ) (a : α) : List (κ × α) :=
  if (lookupKey entries k).isSome then KeyedQueues.modifyKey Prod.fst k (fun _ => (k, a)) entries
  else entries ++ [(k, a)]

/-- No new symbol is admitted once there are `MAX_SYMBOLS` of them. -/
def refuses (acc : List (κ × α)) (symbol : κ) : Bool :=
  (lookupKey acc symbol).isNone && decide (10000 ≤ acc.length)

end Entries

namespace Runtime
variable {D : Type}

def setNode (rt : Runtime D) (id : NodeId) (node : INode D) : Runtime D :=
  { rt with nodes := rt.nodes.set id node }

/-- The nodes kept alive by the roots. -/
def alive (rt : Runtime D) (roots : List NodeId) (id : NodeId) : Bool :=
  id ∈ BoundedClosure.closure (fun i => (rt.nodes[i]?).elim [] INode.owns)
    (Finset.range rt.nodes.length) roots.toFinset

/-- A node is alive if shared pointers lead to it from a root. -/
theorem alive_iff (rt : Runtime D) (roots : List NodeId) (id : NodeId) :
    rt.alive roots id = true ↔ ∃ root ∈ roots, root < rt.nodes.length ∧
      Relation.ReflTransGen (fun i j => (∃ node, rt.nodes[i]? = some node ∧ j ∈ node.owns) ∧
        j < rt.nodes.length) root id := by
  have howns : ∀ i j : NodeId, j ∈ (rt.nodes[i]?).elim [] INode.owns ↔
      ∃ node, rt.nodes[i]? = some node ∧ j ∈ node.owns := by
    intro i j
    cases rt.nodes[i]? with
    | none => simp
    | some node => simp
  rw [alive, decide_eq_true_eq, BoundedClosure.mem_closure_iff]
  simp only [List.mem_toFinset, Finset.mem_range, howns]

def callTo (target : Option NodeId) (value : StreamValue D) : List (Call D) :=
  target.toList.map (⟨·, value⟩)

variable [Double D]

-- Each function is the `onValue` of one class, given the fields of the node `id`.

omit [Double D] in
/-- `live` says which weak pointers can still be locked. -/
def listenerOnValue (live : NodeId → Bool) (rt : Runtime D) (downstream : Option NodeId)
    (stopping : Bool) (sv : StreamValue D) : Runtime D × Effects D :=
  if stopping then (rt, {}) else (rt, { posted := callTo (downstream.filter live) sv })

def tumblingWindowOnValue (rt : Runtime D) (id : NodeId) (period : ℤ)
    (downstream : Option NodeId) (stopping : Bool) (acc : List (String × List D))
    (sv : StreamValue D) : Runtime D × Effects D :=
  if stopping || refuses acc sv.symbol then (rt, {})
  else
    let vals := (lookupKey acc sv.symbol).getD [] ++ [TreeBuilder.toDouble sv.value]
    (rt.setNode id (.tumblingWindow period downstream stopping (assignKey acc sv.symbol vals)), {})

omit [Double D] in
/-- Only vectors are reduced; any other value is dropped. -/
def vectorReducerOnValue (rt : Runtime D) (fn : Func D) (downstream : Option NodeId)
    (stopping : Bool) (sv : StreamValue D) : Runtime D × Effects D :=
  if stopping then (rt, {})
  else
    match sv.value with
    | .doubles vec =>
      match fn vec with
      | some out => (rt, { calls := callTo downstream ⟨sv.symbol, .double out⟩ })
      | none => (rt, {})
    | _ => (rt, {})

omit [Double D] in
/-- `store` is what the AtomicStore, or else a namespace provider, answers at this moment. -/
def atomicAccessorOnValue (store : String → String → Option (ArgType D)) (rt : Runtime D)
    (symbol field : String) (downstream : Option NodeId) (stopping : Bool) :
    Runtime D × Effects D :=
  if stopping then (rt, {})
  else
    match store symbol field with
    | some value => (rt, { calls := callTo downstream ⟨symbol, value⟩ })
    | none => (rt, {})

omit [Double D] in
def workerOnValue (rt : Runtime D) (id : NodeId) (fn : List (ArgType D) → Option (ArgType D))
    (downstream : Option NodeId) (stopping : Bool) (acc : List (String × List (ArgType D)))
    (sv : StreamValue D) : Runtime D × Effects D :=
  if stopping || refuses acc sv.symbol then (rt, {})
  else
    let all := (lookupKey acc sv.symbol).getD [] ++ [sv.value]
    -- the oldest values are dropped beyond `MAX_ACC`
    let vec := all.drop (all.length - 1000)
    match fn vec with
    | some out =>
      (rt.setNode id (.worker fn downstream stopping (assignKey acc sv.symbol vec)),
        { calls := callTo downstream ⟨sv.symbol, out⟩ })
    | none =>
      (rt.setNode id (.worker fn downstream stopping (assignKey acc sv.symbol vec.dropLast)), {})

omit [Double D] in
def aggregateOnValue (rt : Runtime D) (id : NodeId) (arity : ℕ) (parent : Option NodeId)
    (stopping : Bool) (buf : List (String × List (ArgType D))) (sv : StreamValue D) :
    Runtime D × Effects D :=
  if stopping || refuses buf sv.symbol then (rt, {})
  else
    let vals := (lookupKey buf sv.symbol).getD [] ++ [sv.value]
    if vals.length < arity then
      (rt.setNode id (.aggregate arity parent stopping (assignKey buf sv.symbol vals)), {})
    else
      (rt.setNode id (.aggregate arity parent stopping (assignKey buf sv.symbol [])),
        { calls := vals.flatMap (fun v => callTo parent ⟨sv.symbol, v⟩) })

/-- The child of a new symbol is built when its first value arrives, up to `MAX_CHILDREN`. -/
def groupSplitOnValue (env : BuildEnv D) (rt : Runtime D) (id : NodeId) (childDoc : Json D)
    (defaultStreamKey : String) (downstream : Option NodeId) (children : List (String × NodeId))
    (sv : StreamValue D) : Runtime D × Effects D :=
  match lookupKey children sv.symbol with
  | some child => (rt, { calls := [⟨child, sv⟩] })
  | none =>
    if 10000 < children.length + 1 then (rt, {})
    else
      let key := if sv.symbol = "" then defaultStreamKey else sv.symbol
      match (TreeBuilder.buildOne env childDoc key downstream).run.run rt with
      | (.ok child, rt') =>
        (rt'.setNode id (.groupSplit childDoc defaultStreamKey downstream
          (children ++ [(sv.symbol, child)])), { calls := [⟨child, sv⟩] })
      | (.error _, rt') => (rt', { thrown := true })

def onValue (env : BuildEnv D) (store : String → String → Option (ArgType D))
    (live : NodeId → Bool) (rt : Runtime D) (id : NodeId) (sv : StreamValue D) :
    Runtime D × Effects D :=
  match rt.nodes[id]? with
  | none => (rt, {})
  | some (.listener _ _ downstream stopping) => listenerOnValue live rt downstream stopping sv
  | some (.clock _ _ _ _) => (rt, {})
  | some (.tumblingWindow period downstream stopping acc) =>
    tumblingWindowOnValue rt id period downstream stopping acc sv
  | some (.vectorReducer fn downstream stopping) => vectorReducerOnValue rt fn downstream stopping sv
  | some (.atomicAccessor symbol field downstream stopping) =>
    atomicAccessorOnValue store rt symbol field downstream stopping
  | some (.worker fn downstream stopping acc) => workerOnValue rt id fn downstream stopping acc sv
  | some (.aggregate arity parent stopping buf) => aggregateOnValue rt id arity parent stopping buf sv
  | some (.compositeRoot _) => (rt, {})
  | some (.groupSplit childDoc defaultStreamKey downstream children) =>
    groupSplitOnValue env rt id childDoc defaultStreamKey downstream children sv
  | some (.responder key stopped) => if stopped then (rt, {}) else (rt, { sent := [(key, sv)] })

/-- One round of a timer thread: the tasks it posts. -/
def timerLoop (rt : Runtime D) (id : NodeId) : Runtime D × List (Call D) :=
  match rt.nodes[id]? with
  | some (.clock _ _ child stopping) =>
    if stopping then (rt, []) else (rt, callTo child ⟨"", .double (Double.ofRat 0)⟩)
  | some (.tumblingWindow period downstream stopping acc) =>
    if stopping || downstream.isNone then (rt, [])
    else
      (rt.setNode id (.tumblingWindow period downstream stopping (acc.map (fun e => (e.1, [])))),
        (acc.filter (fun e => !e.2.isEmpty)).flatMap (fun e => callTo downstream ⟨e.1, .doubles e.2⟩))
  | _ => (rt, [])

omit [Double D] in
/-- `shutdown` of a Listener. -/
def shutdownListener (rt : Runtime D) (id : NodeId) : Runtime D :=
  match rt.nodes[id]? with
  | some (.listener symbol field _ false) =>
    (rt.setNode id (.listener symbol field none true)).unregisterListener symbol field id
  | _ => rt

end Runtime
end GmaEngine
