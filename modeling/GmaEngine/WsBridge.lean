import GmaEngine.ClientSession

/-!
# The WebSocket bridge

The bridge serves any number of connections. Its calls come one after the other; a batch of
requests or of cancellations is handled one by one, so that the Dispatcher, the timer threads and
the workers of the pool get in between. What the terminal of a subscription is given goes to the
send function of the connection at once. Log lines and the JSON text of the frames are left out.
-/

namespace GmaEngine

namespace INode
variable {D : Type}

/-- The nodes that `shutdown` of a node goes on to. -/
def shuts : INode D → List NodeId
  | compositeRoot roots => roots
  | groupSplit _ _ _ children => children.map Prod.snd
  | _ => []

/-- What `shutdown` does to the node's own fields. A clock keeps its child. -/
def stop : INode D → INode D
  | listener symbol field _ _ => .listener symbol field none true
  | clock kind period child _ => .clock kind period child true
  | tumblingWindow period _ _ _ => .tumblingWindow period none true []
  | vectorReducer fn _ _ => .vectorReducer fn none true
  | atomicAccessor symbol field _ _ => .atomicAccessor symbol field none true
  | worker fn _ _ _ => .worker fn none true []
  | aggregate arity _ _ _ => .aggregate arity none true []
  | compositeRoot _ => .compositeRoot []
  | groupSplit childDoc key downstream _ => .groupSplit childDoc key downstream []
  | responder key _ => .responder key true

end INode

namespace Runtime
variable {D : Type}

/-- `shutdown` of a node alone. A Listener does nothing the second time. -/
def shutdownOne (rt : Runtime D) (id : NodeId) : Runtime D :=
  match rt.nodes[id]? with
  | some (.listener ..) => rt.shutdownListener id
  | some node => rt.setNode id node.stop
  | none => rt

/-- The node and those that its `shutdown` reaches. -/
def shutdownSet (rt : Runtime D) (id : NodeId) : List NodeId :=
  (List.range rt.nodes.length).filter (fun j =>
    j ∈ BoundedClosure.closure (fun i => (rt.nodes[i]?).elim [] INode.shuts)
      (Finset.range rt.nodes.length) {id})

/-- `shutdown` of a node; each node it reaches only changes itself, and the table of the
Dispatcher by its own entry. -/
def shutdown (rt : Runtime D) (id : NodeId) : Runtime D :=
  (rt.shutdownSet id).foldl shutdownOne rt

end Runtime

/-- An outgoing frame; an update is marked with the chain it comes from. -/
inductive BridgeFrame (D : Type) where
  | error (connId message : String)
  | subscribed (connId id : String)
  | canceled (connId id : String)
  | update (chain : NodeId) (key : RequestKey) (value : StreamValue D)

/-- What the bridge still has to do. -/
inductive BridgeCall (D : Type) where
  /-- `callable` says whether a send function was given. -/
  | onOpen (connId : String) (callable : Bool)
  /-- A message; `none` if it does not parse. -/
  | onMessage (connId : String) (doc : Option (Json D))
  | requests (connId : String) (rest : List (Json D))
  | cancels (connId : String) (rest : List String)
  | onClose (connId : String)

structure Bridge (D : Type) where
  rt : Runtime D := {}
  /-- For each node the terminal of the chain it was built for. -/
  origins : List NodeId := []
  connections : List (String × Bool) := []
  active : List (String × List (String × NodeId)) := []
  chains : List (String × List (String × List NodeId)) := []
  pending : List (BridgeCall D) := []
  pool : List (List (Call D)) := []
  /-- Every frame that was ever given to a send function. -/
  sent : List (BridgeFrame D) := []

namespace Bridge
variable {D : Type}

def maxSubsPerConn : ℕ := 100

def sendTo (b : Bridge D) (connId : String) (frame : BridgeFrame D) : Bridge D :=
  if lookupKey b.connections connId = some true then { b with sent := b.sent ++ [frame] } else b

def withRuntime (b : Bridge D) (rt : Runtime D) (chain : NodeId) : Bridge D :=
  { b with
    rt := rt
    origins := b.origins ++ List.replicate (rt.nodes.length - b.rt.nodes.length) chain }

/-- The map of a connection, empty if it has none. -/
def ofConn {α : Type} (table : List (String × List (String × α))) (connId : String) :
    List (String × α) := (lookupKey table connId).getD []

/-- A string, or an integer in decimal. -/
def idOf (v : Json D) : Option String := v.getString.or (v.getInt.map toString)

def handleSubscribe (connId : String) (doc : Json D) (b : Bridge D) : Bridge D :=
  match doc.member "requests" with
  | some (.array requests) => { b with pending := .requests connId requests :: b.pending }
  | _ => b.sendTo connId (.error connId "missing 'requests' array")

def handleCancel (connId : String) (doc : Json D) (b : Bridge D) : Bridge D :=
  match doc.member "ids" with
  | some (.array ids) => { b with pending := .cancels connId (ids.filterMap idOf) :: b.pending }
  | _ => b.sendTo connId (.error connId "missing 'ids' array")

def onMessage (connId : String) (b : Bridge D) : Option (Json D) → Bridge D
  | some (.object members) =>
    match ((Json.object members).member "type").bind Json.getString with
    | some "subscribe" => handleSubscribe connId (.object members) b
    | some "cancel" => handleCancel connId (.object members) b
    | some _ => b.sendTo connId (.error connId "unknown type")
    | none => b.sendTo connId (.error connId "missing 'type'")
  | _ => b.sendTo connId (.error connId "invalid JSON")

/-- A new id on a connection that has all the subscriptions it may have. -/
def overLimit (b : Bridge D) (connId reqId : String) : Bool :=
  (lookupKey (ofConn b.active connId) reqId).isNone &&
    decide (maxSubsPerConn ≤ (ofConn b.active connId).length)

/-- The head and the chain under an id are shut down. -/
def shutdownSub (b : Bridge D) (connId reqId : String) : Runtime D :=
  ((lookupKey (ofConn b.chains connId) reqId).getD []).foldl Runtime.shutdown
    ((lookupKey (ofConn b.active connId) reqId).elim b.rt b.rt.shutdown)

/-- A built chain takes the place of the one under its id. -/
def install (b : Bridge D) (connId reqId : String) (built : BuiltChain) : Bridge D :=
  { b with
    rt := b.shutdownSub connId reqId
    active := assignKey b.active connId (assignKey (ofConn b.active connId) reqId built.head)
    chains := assignKey b.chains connId (assignKey (ofConn b.chains connId) reqId built.keepAlive) }

/-- An id is removed from the map of its connection, if there is one. -/
def eraseId {α : Type} (table : List (String × List (String × α))) (connId reqId : String) :
    List (String × List (String × α)) :=
  if (lookupKey (ofConn table connId) reqId).isSome then
    assignKey table connId (KeyedQueues.removeKey Prod.fst reqId (ofConn table connId))
  else table

def cancelId (b : Bridge D) (connId reqId : String) : Bridge D :=
  let chains := eraseId b.chains connId reqId
  sendTo { b with
    rt := b.shutdownSub connId reqId
    active := eraseId b.active connId reqId
    -- only here the map of the connection goes when it is empty
    chains := if (ofConn chains connId).isEmpty then KeyedQueues.removeKey Prod.fst connId chains
      else chains } connId (.canceled connId reqId)

def onClose (b : Bridge D) (connId : String) : Bridge D :=
  { b with
    rt := ((ofConn b.chains connId).flatMap Prod.snd).foldl Runtime.shutdown
      (((ofConn b.active connId).map Prod.snd).foldl Runtime.shutdown b.rt)
    connections := KeyedQueues.removeKey Prod.fst connId b.connections
    active := KeyedQueues.removeKey Prod.fst connId b.active
    chains := KeyedQueues.removeKey Prod.fst connId b.chains }

variable [Double D]

/-- The request of a new terminal is built. -/
def subscribe (env : BuildEnv D) (b : Bridge D) (connId reqId : String) (rq : Json D) : Bridge D :=
  let terminal := b.rt.nodes.length
  let rt := { b.rt with nodes := b.rt.nodes ++ [.responder (.str reqId) false] }
  match (TreeBuilder.buildForRequest env rq (some terminal)).run.run rt with
  | (.error message, rt') =>
    (b.withRuntime (rt'.shutdown terminal) terminal).sendTo connId (.error connId message)
  | (.ok built, rt') =>
    ((b.withRuntime rt' terminal).install connId reqId built).sendTo connId
      (.subscribed connId reqId)

def handleRequest (env : BuildEnv D) (b : Bridge D) (connId : String) (r : Json D) : Bridge D :=
  if !r.isObject then b
  else
    match (r.member "id").bind idOf, (r.member "streamKey").bind Json.getString,
        (r.member "field").bind Json.getString with
    | none, _, _ => b.sendTo connId (.error connId "request missing 'id'")
    | some reqId, some streamKey, some field =>
      if streamKey = "" || ClientSession.maxStreamKeyLen < streamKey.utf8ByteSize then
        b.sendTo connId (.error connId "invalid 'streamKey' (empty or too long)")
      else if field = "" || ClientSession.maxFieldLen < field.utf8ByteSize then
        b.sendTo connId (.error connId "invalid 'field' (empty or too long)")
      else if b.overLimit connId reqId then
        b.sendTo connId (.error connId "max subscriptions reached")
      else if lookupKey b.connections connId ≠ some true then b
      else
        match ClientSession.validateSpecs r with
        | .error message => b.sendTo connId (.error connId message)
        | .ok () => b.subscribe env connId reqId (ClientSession.requestFor r streamKey field)
    | _, _, _ => b.sendTo connId (.error connId "request missing 'streamKey' or 'field'")

/-- The bridge goes on with its first call. -/
def serve (env : BuildEnv D) (b : Bridge D) : Bridge D :=
  match b.pending with
  | [] => b
  | call :: rest =>
    let b := { b with pending := rest }
    match call with
    | .onOpen connId callable =>
      { b with connections := assignKey b.connections connId callable }
    | .onMessage connId doc => b.onMessage connId doc
    | .requests _ [] => b
    | .requests connId (r :: rs) =>
      handleRequest env { b with pending := .requests connId rs :: rest } connId r
    | .cancels _ [] => b
    | .cancels connId (reqId :: ids) =>
      cancelId { b with pending := .cancels connId ids :: rest } connId reqId
    | .onClose connId => b.onClose connId

omit [Double D] in
def roots (b : Bridge D) : List NodeId :=
  b.active.flatMap (fun conn => conn.2.map Prod.snd) ++
  b.chains.flatMap (fun conn => conn.2.flatMap Prod.snd) ++
  (List.range b.rt.nodes.length).filter (System.held b.rt) ++ b.pool.flatten.map Call.node

/-- A worker makes the next call of a task. -/
def work (env : BuildEnv D) (store : String → String → Option (ArgType D)) (b : Bridge D)
    (task : ℕ) : Bridge D :=
  match b.pool[task]? with
  | some (call :: rest) =>
    let chain := (b.origins[call.node]?).getD call.node
    let (rt, effects) := b.rt.onValue env store (b.rt.alive b.roots) call.node call.value
    { b.withRuntime rt chain with
      pool := b.pool.set task (if effects.thrown then [] else effects.calls ++ rest) ++
        effects.posted.map ([·])
      sent := b.sent ++ effects.sent.map (fun (key, value) => .update chain key value) }
  | _ => b

omit [Double D] in
def notifyListeners (b : Bridge D) (symbol field : String) (value : D) : Bridge D :=
  { b with
    pool := b.pool ++ (b.rt.listeners symbol field).map
      (fun id => [⟨id, ⟨symbol, .double value⟩⟩]) }

def fireTimer (b : Bridge D) (id : NodeId) : Bridge D :=
  let (rt, posted) := b.rt.timerLoop id
  { b with rt := rt, pool := b.pool ++ posted.map ([·]) }

end Bridge

/-- One step of some thread, with what it reads from outside. -/
inductive BridgeAction (D : Type) where
  | call (call : BridgeCall D)
  | serve
  | notify (symbol field : String) (value : D)
  | timer (id : NodeId)
  | work (task : ℕ) (store : String → String → Option (ArgType D))

namespace Bridge
variable {D : Type} [Double D]

def step (env : BuildEnv D) (b : Bridge D) : BridgeAction D → Bridge D
  | .call call => { b with pending := b.pending ++ [call] }
  | .serve => b.serve env
  | .notify symbol field value => b.notifyListeners symbol field value
  | .timer id => b.fireTimer id
  | .work task store => b.work env store task

def run (env : BuildEnv D) (b : Bridge D) (actions : List (BridgeAction D)) : Bridge D :=
  actions.foldl (step env) b

end Bridge
end GmaEngine
