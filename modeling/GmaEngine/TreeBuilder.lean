import GmaEngine.StreamNodes

/-!
# Building pipelines from requests

`buildOne` dispatches on the type of a node specification, `buildForRequest` builds the whole
chain of a request behind a head Listener. Nodes are made, registered and started while the
specification is read, and an exception keeps what was done before it.
-/

namespace GmaEngine

/-- Which of the runtime dependencies are present. -/
structure Deps where
  store : Bool
  pool : Bool
  dispatcher : Bool

/-- What the builders read besides the specification: the dependencies, whether there is a
global thread pool, and the registered functions. -/
structure BuildEnv (D : Type) where
  deps : Deps
  gThreadPool : Bool
  functionMap : FunctionMap D

/-- A building step: the value it returns or the message it throws, and the runtime after. -/
abbrev Build (D α : Type) := ExceptT String (StateM (Runtime D)) α

structure BuiltChain where
  head : NodeId
  keepAlive : List NodeId
  deriving DecidableEq, Repr

/-- The builtin node types. -/
inductive NodeType where
  | listener
  | interval
  | bucketTime
  | tumblingWindow
  | vectorReducer
  | atomicAccessor
  | worker
  | aggregate
  | groupSplit
  | chain
  deriving DecidableEq, Repr

/-- `SymbolSplit` is a legacy alias. -/
def NodeTypeRegistry.find : String → Option NodeType
  | "Listener" => some .listener
  | "Interval" => some .interval
  | "BucketTime" => some .bucketTime
  | "TumblingWindow" => some .tumblingWindow
  | "VectorReducer" => some .vectorReducer
  | "AtomicAccessor" => some .atomicAccessor
  | "Worker" => some .worker
  | "Aggregate" => some .aggregate
  | "GroupSplit" => some .groupSplit
  | "SymbolSplit" => some .groupSplit
  | "Chain" => some .chain
  | _ => none

namespace TreeBuilder
variable {D : Type}

def expectObj (v : Json D) (what : String) : Except String Unit :=
  if v.isObject then .ok () else .error ("TreeBuilder: expected object for " ++ what)

def expectType (v : Json D) : Except String String :=
  match (v.member "type").bind Json.getString with
  | some type => .ok type
  | none => .error "TreeBuilder: node missing 'type'"

def strOr (v : Json D) (k default : String) : String :=
  ((v.member k).bind Json.getString).getD default

def intOr (v : Json D) (k : String) (default : ℤ) : ℤ :=
  ((v.member k).bind Json.getInt).getD default

def sizeOr (v : Json D) (k : String) (default : ℕ) : ℕ :=
  ((v.member k).bind Json.getUint).getD default

def «require» (condition : Bool) (message : String) : Except String Unit :=
  if condition then .ok () else .error message

section
variable [Double D]

def toDouble : ArgType D → D
  | .bool b => Double.ofRat (if b then 1 else 0)
  | .int n => Double.ofRat n
  | .double d => d
  | _ => Double.ofRat 0

def numberOf : Json D → Option D
  | .int n => some (Double.ofRat n.val)
  | .double d => some d
  | _ => none

/-- Every numeric member except the structural ones; a later member of the same name wins. -/
def paramsOf : List (String × Json D) → String → Option D
  | [], _ => none
  | (name, value) :: members, k =>
    match paramsOf members k with
    | some d => some d
    | none =>
      if cString name = k ∧ cString name ∉
          ["fn", "type", "child", "node", "inputs", "stages", "pipeline"] then numberOf value
      else none

def membersOf : Json D → List (String × Json D)
  | .object members => members
  | _ => []

def fnFromName (fmap : FunctionMap D) (spec : Json D) :
    Except String (List (ArgType D) → Option (ArgType D)) :=
  match (spec.member "fn").bind Json.getString with
  | none => .error "Worker: missing 'fn'"
  | some fn =>
    match fmap.getParamFunction fn with
    | some pfn =>
      .ok (fun xs => (pfn (xs.map toDouble) (paramsOf (membersOf spec))).map .double)
    | none =>
      match fmap.getFunction fn with
      | some mapFn => .ok (fun xs => (mapFn (xs.map toDouble)).map .double)
      | none => .error ("Worker: unknown fn '" ++ fn ++ "'")

end

def reducerFromName (fmap : FunctionMap D) (spec : Json D) : Except String (Func D) :=
  match (spec.member "fn").bind Json.getString with
  | none => .error "VectorReducer: missing 'fn'"
  | some fn =>
    match fmap.getFunction fn with
    | some reducer => .ok reducer
    | none => .error ("VectorReducer: unknown fn '" ++ fn ++ "'")

def make (node : INode D) : Build D NodeId := fun rt =>
  (.ok rt.nodes.length, { rt with nodes := rt.nodes ++ [node] })

/-- `make_shared<Listener>` and `start`. -/
def makeListener (symbol field : String) (downstream : Option NodeId) : Build D NodeId := do
  let id ← make (.listener symbol field downstream false)
  modify (·.registerListener symbol field id)
  return id

/-- The symbol and the field of a Listener. -/
def listenerKeys (env : BuildEnv D) (v : Json D) (defaultStreamKey : String) :
    Except String (String × String) := do
  «require» (env.deps.dispatcher && env.deps.pool) "Listener: missing dispatcher/pool"
  let streamKey := strOr v "streamKey" defaultStreamKey
  let field := strOr v "field" ""
  «require» (streamKey ≠ "") "Listener: missing 'streamKey'"
  «require» (field ≠ "") "Listener: missing 'field'"
  return (streamKey, field)

/-- The period of a node with a timer. The bound is the same for all of them. -/
def timerPeriod (env : BuildEnv D) (node field : String) (v : Json D) : Except String ℤ := do
  «require» (env.deps.pool || env.gThreadPool) (node ++ ": no thread pool available")
  let ms := intOr v "ms" (intOr v "periodMs" 0)
  «require» (0 < ms) (node ++ ": positive '" ++ field ++ "' required")
  «require» (ms ≤ 3600000) (node ++ ": '" ++ field ++ "' exceeds maximum (3600000)")
  return ms

def intervalPeriod (env : BuildEnv D) : Json D → Except String ℤ := timerPeriod env "Interval" "ms"

def bucketTimePeriod (env : BuildEnv D) : Json D → Except String ℤ :=
  timerPeriod env "BucketTime" "ms"

def tumblingWindowPeriod (env : BuildEnv D) : Json D → Except String ℤ :=
  timerPeriod env "TumblingWindow" "periodMs"

def accessorKeys (env : BuildEnv D) (v : Json D) (defaultStreamKey : String) :
    Except String (String × String) := do
  «require» env.deps.store "AtomicAccessor: missing store"
  let streamKey := strOr v "streamKey" defaultStreamKey
  let field := strOr v "field" ""
  «require» (field ≠ "") "AtomicAccessor: missing 'field'"
  return (streamKey, field)

def aggregateArity (v : Json D) : Except String ℕ := do
  let arity := sizeOr v "arity" 0
  «require» (0 < arity) "Aggregate: positive 'arity' required"
  return arity

def groupSplitChild (v : Json D) : Except String (Json D) :=
  match v.member "child" with
  | some child => .ok child
  | none => .error "GroupSplit: missing 'child'"

/-- The type of a node specification. -/
def nodeType (spec : Json D) : Except String NodeType := do
  expectObj spec "node"
  let type ← expectType spec
  match NodeTypeRegistry.find type with
  | some t => return t
  | none => throw ("TreeBuilder: unknown node type '" ++ type ++ "'")

variable [Double D]

mutual

def buildOne (env : BuildEnv D) (spec : Json D) (defaultStreamKey : String)
    (downstream : Option NodeId) : Build D NodeId := do
  match ← nodeType spec with
  | .listener =>
    let (symbol, field) ← listenerKeys env spec defaultStreamKey
    makeListener symbol field downstream
  | .interval =>
    let ms ← intervalPeriod env spec
    let child ← buildChild env spec defaultStreamKey downstream
    make (.clock .interval ms child false)
  | .bucketTime =>
    let ms ← bucketTimePeriod env spec
    let child ← buildChild env spec defaultStreamKey downstream
    make (.clock .bucketTime ms child false)
  | .tumblingWindow =>
    let ms ← tumblingWindowPeriod env spec
    make (.tumblingWindow ms downstream false [])
  | .vectorReducer =>
    let reducer ← reducerFromName env.functionMap spec
    make (.vectorReducer reducer downstream false)
  | .atomicAccessor =>
    let (symbol, field) ← accessorKeys env spec defaultStreamKey
    make (.atomicAccessor symbol field downstream false)
  | .worker =>
    let fn ← fnFromName env.functionMap spec
    make (.worker fn downstream false [])
  | .aggregate =>
    let arity ← aggregateArity spec
    let agg ← make (.aggregate arity downstream false [])
    match _h : spec.member "inputs" with
    | some (.array inputs) =>
      let roots ← buildInputs env inputs defaultStreamKey agg
      «require» (!roots.isEmpty) "Aggregate: empty 'inputs' array"
      make (.compositeRoot (roots ++ [agg]))
    | _ => throw "Aggregate: 'inputs' must be an array"
  | .groupSplit =>
    let child ← groupSplitChild spec
    make (.groupSplit child defaultStreamKey downstream [])
  | .chain =>
    match _h : spec.member "stages" with
    | some (.array []) => throw "Chain: 'stages' must not be empty"
    | some (.array (stage :: stages)) =>
      let below ← buildStages env stages defaultStreamKey downstream
      buildOne env stage defaultStreamKey (below.head?.or downstream)
    | _ => throw "Chain: 'stages' must be an array"
termination_by 2 * sizeOf spec + 1
decreasing_by
  · omega
  · omega
  · have hlt := Json.sizeOf_member_array _h
    omega
  all_goals
    have hlt := Json.sizeOf_member_cons _h
    omega

/-- The `child` of a clock, in front of the clock's own downstream. -/
def buildChild (env : BuildEnv D) (spec : Json D) (defaultStreamKey : String)
    (downstream : Option NodeId) : Build D (Option NodeId) :=
  match _h : spec.member "child" with
  | some child => some <$> buildOne env child defaultStreamKey downstream
  | none => return downstream
termination_by 2 * sizeOf spec
decreasing_by
  have hlt := Json.sizeOf_member _h
  omega

/-- The inputs of an Aggregate, first to last. -/
def buildInputs (env : BuildEnv D) (inputs : List (Json D)) (defaultStreamKey : String)
    (agg : NodeId) : Build D (List NodeId) :=
  match inputs with
  | [] => return []
  | input :: inputs => do
    let root ← buildOne env input defaultStreamKey agg
    let roots ← buildInputs env inputs defaultStreamKey agg
    return root :: roots
termination_by 2 * sizeOf inputs
decreasing_by
  all_goals
    simp only [List.cons.sizeOf_spec]
    omega

/-- The stages of a pipeline, last to first: each one is the downstream of the one before. The
nodes are returned in the order of the stages. -/
def buildStages (env : BuildEnv D) (stages : List (Json D)) (defaultStreamKey : String)
    (downstream : Option NodeId) : Build D (List NodeId) :=
  match stages with
  | [] => return []
  | stage :: stages => do
    let below ← buildStages env stages defaultStreamKey downstream
    let node ← buildOne env stage defaultStreamKey (below.head?.or downstream)
    return node :: below
termination_by 2 * sizeOf stages
decreasing_by
  all_goals
    simp only [List.cons.sizeOf_spec]
    omega

end

/-- `ob.*` keys are written without notifying the Dispatcher's listeners. -/
def isPipelineOnlyKey (field : String) : Bool :=
  ['o', 'b', '.'].isPrefixOf field.toList

def rejectPipelineOnly (field : String) : Except String Unit :=
  «require» (!isPipelineOnlyKey field) ("listener: field '" ++ field ++
    "' is pipeline-only — see docs/atomic-keys.md; bind via " ++
    "AtomicAccessor downstream of a bare-key Listener clock")

/-- `Listener::Create`, which starts the listener it makes. -/
def createListener (symbol field : String) (downstream : Option NodeId) : Build D NodeId := do
  rejectPipelineOnly field
  makeListener symbol field downstream

/-- The stream key and the field of a request. -/
def requestKeys (rq : Json D) : Except String (String × String) := do
  expectObj rq "request"
  match (rq.member "streamKey").bind Json.getString, (rq.member "field").bind Json.getString with
  | none, _ => throw "buildForRequest: missing 'streamKey'"
  | _, none => throw "buildForRequest: missing 'field'"
  | some streamKey, some field =>
    «require» (streamKey ≠ "") "buildForRequest: 'streamKey' must not be empty"
    «require» (field ≠ "") "buildForRequest: 'field' must not be empty"
    return (streamKey, field)

/-- The specification under `node`. -/
def nodeOf (rq : Json D) : Option (Json D) := (rq.member "node").filter Json.isObject

/-- The elements of the first of `pipeline` and `stages` that is an array. -/
def pipelineOf (rq : Json D) : Option (List (Json D)) :=
  match rq.member "pipeline", rq.member "stages" with
  | some (.array stages), _ => some stages
  | _, some (.array stages) => some stages
  | _, _ => none

def buildForRequest (env : BuildEnv D) (requestJson : Json D) (terminal : Option NodeId) :
    Build D BuiltChain := do
  let (streamKey, field) ← requestKeys requestJson
  let some terminal := terminal | throw "buildForRequest: terminal node cannot be null"
  let node ← (nodeOf requestJson).mapM (buildOne env · streamKey (some terminal))
  -- the last stage of the pipeline forwards to the terminal, not to the one under `node`
  let stages ← (pipelineOf requestJson).mapM (buildStages env · streamKey (some terminal))
  let midHead := match stages with
    | some stages => stages.head?.getD terminal
    | none => node.getD terminal
  «require» (env.deps.dispatcher && env.deps.pool) "buildForRequest: missing dispatcher/pool"
  let head ← createListener streamKey field (some midHead)
  return ⟨head, terminal :: node.toList ++ (stages.getD []).reverse⟩

end TreeBuilder
end GmaEngine
