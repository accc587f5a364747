import GmaEngine.JsonValidator
import GmaEngine.NodeValues

/-!
# A client session

A session handles its messages on one strand, while the Dispatcher, the timer threads and the
workers of the pool run beside it. The system is the node graph, the session's tables, the
handlers queued on the strand and the tasks of the pool; its actions interleave in any order.
The JSON text of the frames, metrics and log lines are left out, and so is the mutex of the
tables, which only the strand takes.
-/

namespace GmaEngine

/-- An outgoing frame; an update is marked with the chain it comes from. -/
inductive Frame (D : Type) where
  | error (location message : String)
  | subscribed (key : RequestKey)
  | canceled (key : RequestKey)
  | update (chain : NodeId) (key : RequestKey) (value : StreamValue D)

/-- What is queued on the strand. A batch of requests or of cancellations is handled one by
one, so that the other threads get in between. -/
inductive Handler (D : Type) where
  /-- A message that was read; `none` if it does not parse. -/
  | message (doc : Option (Json D))
  | requests (rest : List (Json D))
  | cancels (rest : List RequestKey)
  | send (frame : Frame D)
  | written (ok : Bool)
  | close

structure Session (D : Type) where
  isOpen : Bool := true
  outbox : List (Frame D) := []
  writing : Bool := false
  /-- An `async_write` has not completed yet. -/
  inFlight : Bool := false
  active : List (RequestKey × NodeId) := []
  chains : List (RequestKey × List NodeId) := []
  /-- Every frame that was ever put in the outbox. -/
  enqueued : List (Frame D) := []
  /-- The terminals of the accepted requests; a terminal names its chain. -/
  accepted : List NodeId := []

/-- `origins` gives for each node of the heap the chain it was built for. -/
structure System (D : Type) where
  rt : Runtime D := {}
  origins : List NodeId := []
  session : Session D := {}
  strand : List (Handler D) := []
  /-- The tasks, each as the calls it still has to make. -/
  pool : List (List (Call D)) := []

/-- Whether the session has an execution context, and what the builders read. -/
structure SessionEnv (D : Type) where
  exec : Bool
  build : BuildEnv D

namespace ClientSession
variable {D : Type}

def maxOutboxSize : ℕ := 4096

def maxSubscriptions : ℕ := 256

def maxStreamKeyLen : ℕ := 64

def maxFieldLen : ℕ := 128

def requestObjHasBothKeyAndId (r : Json D) : Bool :=
  (r.member "key").isSome && (r.member "id").isSome

def parseRequestKeyFromObj (r : Json D) : Option RequestKey :=
  match r.member "key", r.member "id" with
  | some _, some _ => none
  | some key, none => key.getInt.map .int
  | none, some id => (id.getInt.map .int).or (id.getString.map .str)
  | none, none => none

def elemsOf : Option (Json D) → List (Json D)
  | some (.array elems) => elems
  | _ => []

def validateAll : List (Json D) → Except String Unit
  | [] => .ok ()
  | elem :: elems => do
    if elem.isObject then JsonValidator.validateTree elem 0
    validateAll elems

/-- The specifications of a request: elements that are no objects are left to the builder. -/
def validateSpecs (r : Json D) : Except String Unit := do
  validateAll (elemsOf (r.member "pipeline"))
  validateAll (elemsOf (r.member "stages"))
  validateAll (TreeBuilder.nodeOf r).toList

/-- The request that is passed to the builder. -/
def requestFor (r : Json D) (streamKey field : String) : Json D :=
  .object ([("streamKey", .string streamKey), ("field", .string field)] ++
    ((r.member "pipeline").filter Json.isArray).toList.map (("pipeline", ·)) ++
    ((r.member "stages").filter Json.isArray).toList.map (("stages", ·)) ++
    (TreeBuilder.nodeOf r).toList.map (("node", ·)))

/-- The checks of a request before it is built: its key and the request for the builder, or
where the error is and its message. -/
def parseRequest (r : Json D) : Except (String × String) (RequestKey × Json D) := do
  if !r.isObject then throw ("subscribe", "request must be object")
  if requestObjHasBothKeyAndId r then
    throw ("subscribe", "request must have key (int) OR id (int|string), not both")
  match parseRequestKeyFromObj r, (r.member "streamKey").bind Json.getString,
      (r.member "field").bind Json.getString with
  | none, _, _ => throw ("subscribe", "request missing valid 'key' (int) or 'id' (int|string)")
  | _, none, _ => throw ("subscribe", "request missing 'streamKey' string")
  | _, _, none => throw ("subscribe", "request missing 'field' string")
  | some key, some streamKey, some field =>
    if streamKey = "" || maxStreamKeyLen < streamKey.utf8ByteSize then
      throw ("subscribe", "invalid 'streamKey' (empty or too long, max 64)")
    if field = "" || maxFieldLen < field.utf8ByteSize then
      throw ("subscribe", "invalid 'field' (empty or too long, max 128)")
    match validateSpecs r with
    | .error message => throw ("validate", message)
    | .ok () => return (key, requestFor r streamKey field)

def handleSubscribe (env : SessionEnv D) (allowed : Bool) (doc : Json D) : List (Handler D) :=
  if !env.exec || !env.build.deps.dispatcher then
    [.send (.error "subscribe" "server missing exec/dispatcher")]
  else if !allowed then [.send (.error "subscribe" "rate limit exceeded")]
  else
    match doc.member "requests" with
    | some (.array requests) => [.requests requests]
    | _ => [.send (.error "subscribe" "missing 'requests' array")]

/-- The keys to cancel, after the errors of those that are not valid. -/
def cancelsOf (keyOf : Json D → Option RequestKey) (message : String) (elems : List (Json D)) :
    List (Handler D) :=
  (elems.filter (fun v => (keyOf v).isNone)).map (fun _ => .send (.error "cancel" message)) ++
    [.cancels (elems.filterMap keyOf)]

def handleCancel (doc : Json D) : List (Handler D) :=
  match doc.member "keys", doc.member "ids" with
  | some (.array _), some (.array _) =>
    [.send (.error "cancel" "specify keys (int) or ids (string), not both")]
  | some (.array keys), _ => cancelsOf (fun v => v.getInt.map .int) "keys must be integers" keys
  | _, some (.array ids) => cancelsOf (fun v => v.getString.map .str) "ids must be strings" ids
  | _, _ => [.send (.error "cancel" "missing 'keys' (int array) or 'ids' (string array)")]

/-- What follows on the strand after a message was read. `allowed` is the answer of
`rateLimitCheck`, which depends on the clock. -/
def handleMessage (env : SessionEnv D) (allowed : Bool) : Option (Json D) → List (Handler D)
  | some (.object members) =>
    match ((Json.object members).member "type").bind Json.getString with
    | some "subscribe" => handleSubscribe env allowed (.object members)
    | some "cancel" => handleCancel (.object members)
    | some type => [.send (.error "type" ("unknown type: " ++ type))]
    | none => [.send (.error "type" "missing 'type'")]
  | _ => [.send (.error "parse" "invalid JSON")]

end ClientSession

namespace System
open ClientSession
variable {D : Type}

/-- The handlers run next, before those that are queued. -/
def next (s : System D) (handlers : List (Handler D)) : System D :=
  { s with strand := handlers ++ s.strand }

/-- A new runtime, whose new nodes belong to a chain. -/
def withRuntime (s : System D) (rt : Runtime D) (chain : NodeId) : System D :=
  { s with
    rt := rt
    origins := s.origins ++ List.replicate (rt.nodes.length - s.rt.nodes.length) chain }

/-- Only the heads are shut down. -/
def close (s : System D) : System D :=
  if s.session.isOpen then
    { s with
      rt := (s.session.active.map Prod.snd).foldl Runtime.shutdownListener s.rt
      session := { s.session with isOpen := false, active := [], chains := [] } }
  else s

def startWrite (ses : Session D) : Session D :=
  if !ses.isOpen then { ses with writing := false, outbox := [] }
  else if ses.outbox.isEmpty then { ses with writing := false }
  else { ses with inFlight := true }

def enqueue (ses : Session D) (frame : Frame D) : Session D :=
  let ses := { ses with outbox := ses.outbox ++ [frame], enqueued := ses.enqueued ++ [frame] }
  if ses.writing then ses else startWrite { ses with writing := true }

def sendText (s : System D) (frame : Frame D) : System D :=
  if !s.session.isOpen then s
  else if maxOutboxSize ≤ s.session.outbox.length then s.close
  else { s with session := enqueue s.session frame }

def onWrite (s : System D) (ok : Bool) : System D :=
  if !ok then s.close
  else { s with session := startWrite { s.session with outbox := s.session.outbox.tail } }

/-- A built chain takes the place of the one under its key. -/
def install (s : System D) (key : RequestKey) (terminal : NodeId) (built : BuiltChain) : System D :=
  { s with
    rt := (lookupKey s.session.active key).elim s.rt s.rt.shutdownListener
    session := { s.session with
      active := assignKey s.session.active key built.head
      chains := assignKey s.session.chains key built.keepAlive
      accepted := s.session.accepted ++ [terminal] } }

def handleCancelKey (s : System D) (key : RequestKey) : System D :=
  { s with
    rt := (lookupKey s.session.active key).elim s.rt s.rt.shutdownListener
    session := { s.session with
      active := KeyedQueues.removeKey Prod.fst key s.session.active
      chains := KeyedQueues.removeKey Prod.fst key s.session.chains } }

variable [Double D]

def handleRequest (env : SessionEnv D) (s : System D) (r : Json D) : System D :=
  match parseRequest r with
  | .error (location, message) => s.next [.send (.error location message)]
  | .ok (key, rq) =>
    if (lookupKey s.session.active key).isNone && decide (maxSubscriptions ≤ s.session.active.length)
    then s.next [.send (.error "subscribe" "max subscriptions reached")]
    else
      let terminal := s.rt.nodes.length
      let rt := { s.rt with nodes := s.rt.nodes ++ [.responder key false] }
      match (TreeBuilder.buildForRequest env.build rq (some terminal)).run.run rt with
      | (.error message, rt') =>
        (s.withRuntime rt' terminal).next [.send (.error "build" message)]
      | (.ok built, rt') =>
        ((s.withRuntime rt' terminal).install key terminal built).next [.send (.subscribed key)]

/-- The strand runs its first handler. -/
def runStrand (env : SessionEnv D) (allowed : Bool) (s : System D) : System D :=
  match s.strand with
  | [] => s
  | handler :: rest =>
    let s := { s with strand := rest }
    match handler with
    | .message doc => s.next (handleMessage env allowed doc)
    | .requests [] => s
    | .requests (r :: rs) => (s.next [.requests rs]).handleRequest env r
    | .cancels [] => s
    | .cancels (key :: keys) =>
      (s.next [.send (.canceled key), .cancels keys]).handleCancelKey key
    | .send frame => s.sendText frame
    | .written ok => s.onWrite ok
    | .close => s.close

omit [Double D] in
/-- The node is in the Dispatcher's table, or its timer thread runs. -/
def held (rt : Runtime D) (id : NodeId) : Bool :=
  match rt.nodes[id]? with
  | some (.listener symbol field _ _) => id ∈ rt.listeners symbol field
  | some node => node.ticking
  | none => false

omit [Double D] in
/-- What is owned from outside the heap: by the tables of the session and of the Dispatcher, by
the running timer threads and by the tasks of the pool. -/
def roots (s : System D) : List NodeId :=
  s.session.active.map Prod.snd ++ s.session.chains.flatMap Prod.snd ++
  (List.range s.rt.nodes.length).filter (held s.rt) ++ s.pool.flatten.map Call.node

/-- A worker makes the next call of a task. What it sends goes to the strand. -/
def work (env : SessionEnv D) (store : String → String → Option (ArgType D)) (s : System D)
    (task : ℕ) : System D :=
  match s.pool[task]? with
  | some (call :: rest) =>
    let chain := (s.origins[call.node]?).getD call.node
    let (rt, effects) := s.rt.onValue env.build store (s.rt.alive s.roots) call.node call.value
    let updates := effects.sent.map (fun (key, value) => Handler.send (.update chain key value))
    { s.withRuntime rt chain with
      pool := s.pool.set task (if effects.thrown then [] else effects.calls ++ rest) ++
        effects.posted.map ([·])
      strand := s.strand ++ if s.session.isOpen then updates else [] }
  | _ => s

omit [Double D] in
/-- The Dispatcher posts a value to the listeners of a symbol and a field. -/
def notifyListeners (s : System D) (symbol field : String) (value : D) : System D :=
  { s with
    pool := s.pool ++ (s.rt.listeners symbol field).map
      (fun id => [⟨id, ⟨symbol, .double value⟩⟩]) }

def fireTimer (s : System D) (id : NodeId) : System D :=
  let (rt, posted) := s.rt.timerLoop id
  { s with rt := rt, pool := s.pool ++ posted.map ([·]) }

end System

/-- One step of some thread, with what it reads from outside. -/
inductive Action (D : Type) where
  | receive (doc : Option (Json D))
  | requestClose
  | writeDone (ok : Bool)
  | strand (allowed : Bool)
  | notify (symbol field : String) (value : D)
  | timer (id : NodeId)
  | work (task : ℕ) (store : String → String → Option (ArgType D))

namespace System
variable {D : Type} [Double D]

def step (env : SessionEnv D) (s : System D) : Action D → System D
  | .receive doc => { s with strand := s.strand ++ [.message doc] }
  | .requestClose => { s with strand := s.strand ++ [.close] }
  | .writeDone ok =>
    if s.session.inFlight then
      { s with session := { s.session with inFlight := false }, strand := s.strand ++ [.written ok] }
    else s
  | .strand allowed => s.runStrand env allowed
  | .notify symbol field value => s.notifyListeners symbol field value
  | .timer id => s.fireTimer id
  | .work task store => s.work env store task

def run (env : SessionEnv D) (s : System D) (actions : List (Action D)) : System D :=
  actions.foldl (step env) s

end System
end GmaEngine
