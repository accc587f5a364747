import GmaEngine.JsonDocument
import GmaEngine.Double

/-!
# The node graph

The nodes of the built pipelines live in one heap and refer to each other by their index in
it. A Listener is entered in the Dispatcher's table under its symbol and field; a clock or a
window owns a thread that runs from its start until it is told to stop.
-/

namespace GmaEngine

/-- `ArgValue` only breaks the recursion of the C++ variant. -/
inductive ArgType (D : Type) where
  | bool (b : Bool)
  | int (n : ℤ)
  | double (d : D)
  | string (s : String)
  | ints (ns : List ℤ)
  | doubles (ds : List D)
  | values (vs : List (ArgType D))

structure StreamValue (D : Type) where
  symbol : String
  value : ArgType D

inductive RequestKey where
  | int (n : ℤ)
  | str (s : String)
  deriving DecidableEq, Repr

/-- A function that throws returns `none`. -/
abbrev Func (D : Type) := List D → Option D

abbrev ParamFunc (D : Type) := List D → (String → Option D) → Option D

/-- The registered reducers, by name. -/
structure FunctionMap (D : Type) where
  getFunction : String → Option (Func D)
  getParamFunction : String → Option (ParamFunc D)

abbrev NodeId := ℕ

/-- An Interval counts its period from its start, a BucketTime from the epoch. -/
inductive Clock where
  | interval
  | bucketTime
  deriving DecidableEq, Repr

/-- The nodes with their fields. A downstream pointer is `none` when it is null or has been
reset, and it owns the node it points to, except that a Listener's is weak. The nodes with a
`start` are started right after they are made, so `started_` is not kept. -/
inductive INode (D : Type) where
  | listener (symbol field : String) (downstream : Option NodeId) (stopping : Bool)
  | clock (kind : Clock) (period : ℤ) (child : Option NodeId) (stopping : Bool)
  | tumblingWindow (period : ℤ) (downstream : Option NodeId) (stopping : Bool)
      (acc : List (String × List D))
  | vectorReducer (fn : Func D) (downstream : Option NodeId) (stopping : Bool)
  | atomicAccessor (symbol field : String) (downstream : Option NodeId) (stopping : Bool)
  | worker (fn : List (ArgType D) → Option (ArgType D)) (downstream : Option NodeId)
      (stopping : Bool) (acc : List (String × List (ArgType D)))
  | aggregate (arity : ℕ) (parent : Option NodeId) (stopping : Bool)
      (buf : List (String × List (ArgType D)))
  | compositeRoot (roots : List NodeId)
  /-- The factory of the children is the specification and what its closure captures. -/
  | groupSplit (childDoc : Json D) (defaultStreamKey : String) (downstream : Option NodeId)
      (children : List (String × NodeId))
  | responder (key : RequestKey) (stopped : Bool)

/-- Whether the node's timer thread loops: until it is told to stop or has no receiver. -/
def INode.ticking {D : Type} : INode D → Bool
  | clock _ _ child stopping => child.isSome && !stopping
  | tumblingWindow _ downstream stopping _ => downstream.isSome && !stopping
  | _ => false

/-- The heap of nodes and the Dispatcher's listener table. A pair of symbol and field that
the table does not hold has the empty list. -/
structure Runtime (D : Type) where
  nodes : List (INode D) := []
  listeners : String → String → List NodeId := fun _ _ => []

namespace Runtime
variable {D : Type}

def setListeners (rt : Runtime D) (symbol field : String) (ids : List NodeId) : Runtime D :=
  let fields := Function.update (rt.listeners symbol) field ids
  { rt with listeners := Function.update rt.listeners symbol fields }

def registerListener (rt : Runtime D) (symbol field : String) (id : NodeId) : Runtime D :=
  rt.setListeners symbol field (rt.listeners symbol field ++ [id])

def unregisterListener (rt : Runtime D) (symbol field : String) (id : NodeId) : Runtime D :=
  rt.setListeners symbol field ((rt.listeners symbol field).filter (· ≠ id))

/-- The node's timer thread runs. -/
def Ticking (rt : Runtime D) (id : NodeId) : Prop := ∃ node, rt.nodes[id]? = some node ∧ node.ticking

theorem Ticking.lt {rt : Runtime D} {id : ℕ} (h : rt.Ticking id) : id < rt.nodes.length := by
  obtain ⟨node, hnode, -⟩ := h
  exact (List.getElem?_eq_some_iff.mp hnode).1

theorem listeners_registerListener (rt : Runtime D) (symbol field : String) (id : NodeId)
    (s f : String) : (rt.registerListener symbol field id).listeners s f =
      rt.listeners s f ++ if s = symbol ∧ f = field then [id] else [] := by
  simp only [registerListener, setListeners, Function.update_apply]
  by_cases hs : s = symbol
  · by_cases hf : f = field
    · simp [hs, hf]
    · simp [hs, hf]
  · simp [hs]

end Runtime
end GmaEngine
