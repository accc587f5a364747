import GmaEngine.ListenerValues
import GmaEngine.PipelineStreams
import GmaEngine.TickOrder

/-!
# From ticks to a subscriber

The head Listener of a request is registered for its field, its values go through the pool, and
the pipeline works on them synchronously. On one worker the terminal receives what the pipeline,
as a function of streams, makes of the numbers that the ticks carry.
-/

namespace GmaEngine

namespace ListenerSystem
open Dispatcher
variable {D : Type} [DoubleMath D] {s : ListenerSystem D}

/-- The calls that the Dispatcher takes: the feeding thread makes them one at a time. -/
def dispatched (s : ListenerSystem D) : List (ListenerAction D) → List (DispatcherOp D)
  | [] => []
  | .dispatch op :: actions =>
    (if s.outbox.isEmpty then [op] else []) ++ (s.step (.dispatch op)).dispatched actions
  | action :: actions => (s.step action).dispatched actions

/-- Nothing waits to be posted when the feeding thread makes a call. -/
def free (s : ListenerSystem D) : List (ListenerAction D) → Bool
  | [] => true
  | .dispatch op :: actions => s.outbox.isEmpty && (s.step (.dispatch op)).free actions
  | action :: actions => (s.step action).free actions

end ListenerSystem

namespace ListenerAction
variable {D : Type}

def call : ListenerAction D → Option (DispatcherOp D)
  | dispatch op => some op
  | _ => none

/-- The action keeps no value from getting through. -/
def harmless : ListenerAction D → Bool
  | shutdownListener => false
  | stopPool => false
  | run _ live => live
  | _ => true

end ListenerAction

namespace ListenerSystem
open Dispatcher
variable {D : Type}

theorem dispatched_of_free [DoubleMath D] {s : ListenerSystem D}
    {actions : List (ListenerAction D)} (h : s.free actions = true) :
    s.dispatched actions = actions.filterMap ListenerAction.call := by
  induction actions generalizing s with
  | nil => rfl
  | cons action actions ih =>
    cases action with
    | dispatch op =>
      rw [free, Bool.and_eq_true] at h
      rw [dispatched, if_pos h.1, ih h.2]
      rfl
    | _ => exact ih h

theorem stopping_post {α : Type*} (pool : WorkerPool α) (tasks : List α) :
    (pool.post tasks).stopping = pool.stopping := by
  unfold WorkerPool.post
  split_ifs <;> rfl

theorem stopping_take {α : Type*} (pool : WorkerPool α) (w : ℕ) :
    (pool.take w).stopping = pool.stopping := by
  unfold WorkerPool.take
  split <;> rfl

/-- What only calls on the Dispatcher change, as long as nothing is shut down. -/
structure SameListener (s s' : ListenerSystem D) : Prop where
  dispatcher : s'.dispatcher = s.dispatcher
  symbol : s'.symbol = s.symbol
  field : s'.field = s.field
  node : s'.node = s.node
  downstream : s'.downstream = s.downstream
  stopping : s'.stopping = s.stopping
  poolStopping : s'.pool.stopping = s.pool.stopping
  sent : s'.sent = s.sent

theorem sameListener_runTask (s : ListenerSystem D) (live : Bool) (task : PoolTask D) :
    SameListener s (s.runTask live task) := by
  cases task with
  | listener value number => exact ⟨rfl, rfl, rfl, rfl, rfl, rfl, stopping_post _ _, rfl⟩
  | downstream value number => exact ⟨rfl, rfl, rfl, rfl, rfl, rfl, rfl, rfl⟩
  | other => exact ⟨rfl, rfl, rfl, rfl, rfl, rfl, rfl, rfl⟩

variable [DoubleMath D] {s : ListenerSystem D}

/-- The actions of the pool leave the Listener alone. -/
theorem sameListener_step {action : ListenerAction D} (hharmless : action.harmless = true)
    (hop : ∀ op, action ≠ .dispatch op) : SameListener s (s.step action) := by
  cases action with
  | dispatch op => exact absurd rfl (hop op)
  | emit => exact ⟨rfl, rfl, rfl, rfl, rfl, rfl, stopping_post _ _, rfl⟩
  | post => exact ⟨rfl, rfl, rfl, rfl, rfl, rfl, stopping_post _ _, rfl⟩
  | shutdownListener => cases hharmless
  | stopPool => cases hharmless
  | take w => exact ⟨rfl, rfl, rfl, rfl, rfl, rfl, stopping_take _ _, rfl⟩
  | run w live =>
    rw [step]
    cases s.pool.current w with
    | none => exact ⟨rfl, rfl, rfl, rfl, rfl, rfl, rfl, rfl⟩
    | some task =>
      obtain ⟨h₁, h₂, h₃, h₄, h₅, h₆, h₇, h₈⟩ :=
        sameListener_runTask { s with pool := s.pool.finish w } live task
      exact ⟨h₁, h₂, h₃, h₄, h₅, h₆, h₇, h₈⟩

theorem Open.step (h : s.Open) {action : ListenerAction D} (hharmless : action.harmless = true) :
    (s.step action).Open := by
  cases action with
  | dispatch op =>
    rw [ListenerSystem.step]
    split_ifs <;> exact ⟨h.pool, h.listener, h.downstream⟩
  | _ =>
    have hsame := sameListener_step (s := s) hharmless (by simp)
    exact ⟨hsame.poolStopping.trans h.pool, hsame.stopping.trans h.listener,
      hsame.downstream ▸ h.downstream⟩

theorem Open.run (h : s.Open) {actions : List (ListenerAction D)}
    (hharmless : ∀ action ∈ actions, action.harmless = true) : (s.run actions).Open := by
  induction actions generalizing s with
  | nil => exact h
  | cons action actions ih =>
    obtain ⟨hfirst, hrest⟩ := List.forall_mem_cons.mp hharmless
    exact ih (h.step hfirst) hrest

/-- A Listener system whose Listener hears its field, within the caps. -/
structure Tuned (s : ListenerSystem D) (symbols fields : Finset String) : Prop where
  hears : s.dispatcher.Hears s.node s.symbol s.field
  confined : s.dispatcher.Confined symbols s.symbol fields

theorem SameListener.tuned {s' : ListenerSystem D} {symbols fields : Finset String}
    (hsame : SameListener s s') (h : s.Tuned symbols fields) : s'.Tuned symbols fields := by
  refine ⟨?_, ?_⟩
  · rw [hsame.dispatcher, hsame.node, hsame.symbol, hsame.field]
    exact h.hears
  · rw [hsame.dispatcher, hsame.symbol]
    exact h.confined

/-- The values sent are the numbers that the Dispatcher's calls carry for the field. -/
theorem sent_run {symbols fields : Finset String} (h : s.Tuned symbols fields)
    {actions : List (ListenerAction D)} (hharmless : ∀ action ∈ actions, action.harmless = true)
    (hops : ∀ op ∈ s.dispatched actions, op.spares s.node ∧ Confines symbols s.symbol fields op) :
    (s.run actions).sent =
      s.sent ++ (carriedBy s.symbol s.field (s.dispatched actions)).map (carriedValue s.symbol) := by
  induction actions generalizing s with
  | nil => simp [run, dispatched, carriedBy]
  | cons action actions ih =>
    obtain ⟨hfirst, hrest⟩ := List.forall_mem_cons.mp hharmless
    change ((s.step action).run actions).sent = _
    cases action with
    | dispatch op =>
      cases houtbox : s.outbox.isEmpty with
      | false =>
        have hstep : s.step (.dispatch op) = s := by
          rw [step, houtbox, if_neg Bool.false_ne_true]
        have hsplit : s.dispatched (.dispatch op :: actions) = s.dispatched actions := by
          rw [dispatched, houtbox, if_neg Bool.false_ne_true, hstep, List.nil_append]
        rw [hsplit] at hops ⊢
        rw [hstep]
        exact ih h hrest hops
      | true =>
        have hsplit : s.dispatched (.dispatch op :: actions) =
            op :: (s.step (.dispatch op)).dispatched actions := by
          rw [dispatched, houtbox, if_pos rfl, List.singleton_append]
        rw [hsplit] at hops ⊢
        obtain ⟨⟨hspares, hconfines⟩, hlater⟩ := List.forall_mem_cons.mp hops
        have hstep : s.step (.dispatch op) = { s with
            dispatcher := (s.dispatcher.exec op).1
            outbox := PoolTask.ofDeliveries s.node s.sent.length (s.dispatcher.exec op).2
            sent := s.sent ++ valuesFor s.node (s.dispatcher.exec op).2 } := by
          rw [step, houtbox, if_pos rfl]
          rfl
        rw [hstep] at hlater ⊢
        rw [ih ⟨h.hears.exec hspares, h.confined.exec hconfines⟩ hrest hlater]
        change s.sent ++ valuesFor s.node (s.dispatcher.exec op).2 ++ _ = _
        rw [valuesFor_exec h.hears h.confined hconfines, List.append_assoc, ← List.map_append]
        congr 2
        rw [carriedBy, carriedBy, List.filterMap_cons]
        cases op.carried s.symbol s.field <;> rfl
    | _ =>
      have hsame := sameListener_step (s := s) hfirst (by simp)
      have hsent := ih (hsame.tuned h) hrest (by
        rw [hsame.node, hsame.symbol]
        exact hops)
      rw [hsame.sent, hsame.symbol, hsame.field] at hsent
      exact hsent

end ListenerSystem

/-- The node behind a Listener. -/
def Runtime.behindListener {D : Type} (rt : Runtime D) (id : NodeId) : Option NodeId :=
  match rt.nodes[id]? with
  | some (.listener _ _ downstream _) => downstream
  | _ => none

namespace TreeBuilder
open EffectPlans
variable {D : Type}

/-- A Worker, a VectorReducer, or a Chain of such stages: what it puts out depends on the values
it is given alone. -/
inductive ValueStage : Json D → Prop
  | plain {spec t} (htype : nodeType spec = .ok t) (hplain : t = .worker ∨ t = .vectorReducer) :
      ValueStage spec
  | chain {spec stages} (htype : nodeType spec = .ok .chain)
      (hstages : spec.member "stages" = some (.array stages))
      (hall : ∀ stage ∈ stages, ValueStage stage) : ValueStage spec

theorem ValueStage.streamStage {spec : Json D} (h : ValueStage spec) : StreamStage spec := by
  induction h with
  | plain htype hplain => exact .plain htype (hplain.imp_right .inl)
  | chain htype hstages _ ih => exact .chain htype hstages ih

variable [Double D] (env : BuildEnv D)

omit [Double D] in
/-- The nodes of a pipeline, where they were placed, form a row in front of the terminal. -/
theorem pipe_layoutStages {rt : Runtime D} {terminal base : ℕ} {bps : List (Blueprint D)}
    (hsync : ∀ bp ∈ bps, bp.synchronous = true) (hterminal : terminal < base)
    (hplaced : ∀ i < (Blueprint.layoutStages (some terminal) base bps).1.length,
      rt.nodes[base + i]? = (Blueprint.layoutStages (some terminal) base bps).1[i]?) :
    ∃ nodes, (terminal :: nodes).Nodup ∧ nodes.headD terminal =
        (Blueprint.layoutStages (some terminal) base bps).2.head?.getD terminal ∧
      Runtime.Pipe terminal rt nodes (fresh (bps.flatMap Blueprint.stages)) := by
  cases bps with
  | nil => exact ⟨[], List.nodup_singleton _, rfl, trivial⟩
  | cons first bps =>
    have hlayout := Blueprint.layout_chain (some terminal) base first bps
    have hchain : (Blueprint.chain first bps).synchronous = true := by
      rw [synchronous_chain, List.all_eq_true]
      exact hsync
    obtain ⟨nodes, -, hroot, hnodup, hbounds, hpipe⟩ := Runtime.pipe_layout
      (Blueprint.chain first bps) terminal base hchain (by rw [hlayout]; exact hplaced)
    rw [stages_chain] at hpipe
    refine ⟨nodes, ?_, ?_, hpipe⟩
    · refine List.nodup_cons.mpr ⟨?_, hnodup⟩
      intro hin
      exact absurd hterminal (Nat.not_lt.mpr (hbounds terminal hin).1)
    · rw [hroot, hlayout]
      rfl

/-- The pipeline of a request that was built forms a row behind its head Listener. -/
theorem pipe_buildForRequest {rq : Json D} {rt rt' : Runtime D} {terminal : NodeId}
    {built : BuiltChain} {symbol field : String} {stages : List (Json D)}
    (hkeys : requestKeys rq = .ok (symbol, field)) (hpipeline : pipelineOf rq = some stages)
    (hstages : ∀ spec ∈ stages, StreamStage spec)
    (hbuild : outcome (buildForRequest env rq (some terminal)) rt = (.ok built, rt'))
    (hterminal : terminal < rt.nodes.length) :
    ∃ row nodes, Reads env symbol stages row ∧ (terminal :: nodes).Nodup ∧
      rt'.behindListener built.head = some (nodes.headD terminal) ∧
      Runtime.Pipe terminal rt' nodes (fresh row) := by
  obtain ⟨rb, hread, rfl, rfl⟩ := buildForRequest_ok_iff.mp hbuild
  obtain ⟨node, bps, rfl, hall⟩ : ∃ node bps, rb = ⟨symbol, field, node, some bps⟩ ∧
      stageBlueprints env stages symbol = .ok bps := by
    unfold requestBlueprint at hread
    obtain ⟨keys, hk, hread⟩ := bind_eq_ok hread
    rw [hkeys] at hk
    cases hk
    obtain ⟨node, -, hread⟩ := bind_eq_ok hread
    obtain ⟨bps?, hbps, hread⟩ := bind_eq_ok hread
    obtain ⟨_, -, hread⟩ := bind_eq_ok hread
    obtain ⟨_, -, hread⟩ := bind_eq_ok hread
    cases hread
    rw [hpipeline, Option.mapM_some] at hbps
    obtain ⟨bps, hall, hbps⟩ := bind_eq_ok hbps
    cases hbps
    exact ⟨node, bps, rfl, hall⟩
  have hread := stageBlueprints_ok_iff.mp hall
  have hsync : ∀ bp ∈ bps, bp.synchronous = true := by
    intro bp hbp
    obtain ⟨stage, hmem, hstage⟩ := exists_of_forall₂ hread hbp
    exact synchronous_of_blueprint (hstages stage hmem) bp hstage
  let rb : RequestBlueprint D := ⟨symbol, field, node, some bps⟩
  let front := (rb.nodeLayout terminal rt.nodes.length).1
  let row := Blueprint.layoutStages (some terminal) (rt.nodes.length + front.length) bps
  have hnodes : (rt.install (rb.layout terminal rt.nodes.length).1).nodes = rt.nodes ++
      (front ++ row.1 ++ [.listener symbol field (some (row.2.head?.getD terminal)) false]) :=
    Runtime.nodes_install _ _
  have hplaced : ∀ i < row.1.length, (rt.install (rb.layout terminal rt.nodes.length).1).nodes[
      rt.nodes.length + front.length + i]? = row.1[i]? := by
    intro i hi
    rw [hnodes, Nat.add_assoc, List.getElem?_append_right (by omega), Nat.add_sub_cancel_left,
      List.append_assoc, List.getElem?_append_right (by omega), Nat.add_sub_cancel_left,
      List.getElem?_append_left hi]
  obtain ⟨nodes, hnodup, hhead, hpipe⟩ :=
    pipe_layoutStages hsync (Nat.lt_add_right front.length hterminal) hplaced
  refine ⟨_, nodes, ⟨bps, hread, rfl⟩, hnodup, ?_, hpipe⟩
  have hlistener : (rt.install (rb.layout terminal rt.nodes.length).1).nodes[
      rt.nodes.length + (front ++ row.1).length]? =
      some (.listener symbol field (some (row.2.head?.getD terminal)) false) := by
    rw [hnodes, List.getElem?_append_right (by omega), Nat.add_sub_cancel_left,
      List.getElem?_append_right le_rfl, Nat.sub_self]
    rfl
  change (rt.install (rb.layout terminal rt.nodes.length).1).behindListener
    (rt.nodes.length + (front ++ row.1).length) = _
  rw [Runtime.behindListener, hlistener, hhead]

end TreeBuilder

namespace ListenerSystem
open Dispatcher TreeBuilder EffectPlans
variable {D : Type} [DoubleMath D] {nThreads : ℕ} {d : Dispatcher D} {symbol field : String}
  {node : NodeId} {downstream : Option NodeId} {symbols fields : Finset String}

/-- In a run on one worker in which nothing is shut down, once nothing is on its way any more, the
node behind the Listener has received exactly the numbers carried for the field. -/
theorem map_fst_received (hone : nThreads ≤ 1) (hdownstream : downstream.isSome)
    (hfresh : ∀ s f, node ∉ (d.listeners s).on f) (hunnamed : field ∉ d.functions.names)
    (hunannounced : Unannounced d.tickComputers field)
    (hconfined : (d.registerListener symbol field node).Confined symbols symbol fields)
    {actions : List (ListenerAction D)} (hharmless : ∀ action ∈ actions, action.harmless = true)
    (hops : ∀ op ∈ (start nThreads d symbol field node downstream).dispatched actions,
      op.spares node ∧ Confines symbols symbol fields op)
    (hquiet : ((start nThreads d symbol field node downstream).run actions).inFlight = []) :
    ((start nThreads d symbol field node downstream).run actions).received.map Prod.fst =
      (carriedBy symbol field ((start nThreads d symbol field node downstream).dispatched
        actions)).map (carriedValue symbol) := by
  let s := start nThreads d symbol field node downstream
  have hsize : poolSize nThreads = 1 := by
    unfold poolSize
    split_ifs <;> omega
  have hsingle : s.pool.Single := by
    simp only [s, start, hsize]
    exact WorkerPool.single_idle
  have hstart : s.flow = [] := by
    simp [s, start, flow, inFlight, WorkerPool.pending_idle]
  have hopen : ∀ pre, pre <+: actions → (s.run pre).Open := by
    intro pre hpre
    have hs : s.Open := ⟨rfl, rfl, hdownstream⟩
    exact hs.run (fun action haction => hharmless action (hpre.subset haction))
  have hlive : ∀ w, .run w false ∉ actions := by
    intro w hmem
    cases hharmless _ hmem
  have hreceived := received_eq_of_quiet actions hsingle rfl hopen hlive hstart hquiet
  have htuned : s.Tuned symbols fields :=
    ⟨⟨RegisteredOnce.of_fresh hfresh, hunnamed, hunannounced⟩, hconfined⟩
  have hsent := sent_run htuned hharmless hops
  change (s.run actions).received.map Prod.fst = _
  rw [hreceived, List.zipIdx_map_fst, hsent]
  rfl

/-- A pipeline that was built makes of any values what it makes of them as a function of streams. -/
theorem deliver_built (env : BuildEnv D) (store : String → String → Option (ArgType D))
    (live : NodeId → Bool) {rq : Json D} {rt rt' : Runtime D} {terminal mid : NodeId}
    {built : BuiltChain} {stages : List (Json D)}
    (hkeys : requestKeys rq = .ok (symbol, field)) (hpipeline : pipelineOf rq = some stages)
    (hstages : ∀ spec ∈ stages, ValueStage spec)
    (hbuild : outcome (buildForRequest env rq (some terminal)) rt = (.ok built, rt'))
    (hterminal : terminal < rt.nodes.length)
    (hhead : rt'.behindListener built.head = some mid) (values : List (StreamValue D)) :
    ∃ fuel rt'', Runtime.deliver env store live terminal fuel rt'
      (values.map (fun v => ⟨mid, v⟩)) =
        some (rt'', pipelineStream env store symbol stages values) := by
  obtain ⟨row, nodes, hreads, hnodup, hlistener, hpipe⟩ := pipe_buildForRequest env hkeys hpipeline
    (fun spec hspec => (hstages spec hspec).streamStage) hbuild hterminal
  obtain rfl : nodes.headD terminal = mid := Option.some.inj (hlistener.symm.trans hhead)
  obtain ⟨fuel, rt'', hdeliver, -, -⟩ :=
    Runtime.deliver_pipe env store live terminal hpipe hnodup values
  rw [cascade_fresh, ← pipelineStream_of_reads hreads] at hdeliver
  exact ⟨fuel, rt'', hdeliver⟩

/-- What a request's terminal receives on one worker: the pipeline, as a function of streams, of
the numbers that the ticks carry for the requested field, whatever else the Dispatcher does. -/
theorem terminal_receives (hone : nThreads ≤ 1) (env : BuildEnv D)
    (store : String → String → Option (ArgType D)) (live : NodeId → Bool) {rq : Json D}
    {rt rt' : Runtime D} {terminal mid : NodeId} {built : BuiltChain} {stages : List (Json D)}
    (hkeys : requestKeys rq = .ok (symbol, field)) (hpipeline : pipelineOf rq = some stages)
    (hstages : ∀ spec ∈ stages, ValueStage spec)
    (hbuild : outcome (buildForRequest env rq (some terminal)) rt = (.ok built, rt'))
    (hterminal : terminal < rt.nodes.length)
    (hhead : rt'.behindListener built.head = some mid)
    (hfresh : ∀ s f, built.head ∉ (d.listeners s).on f) (hunnamed : field ∉ d.functions.names)
    (hunannounced : Unannounced d.tickComputers field)
    (hconfined : (d.registerListener symbol field built.head).Confined symbols symbol fields)
    {actions : List (ListenerAction D)} (hharmless : ∀ action ∈ actions, action.harmless = true)
    (hops : ∀ op ∈ (start nThreads d symbol field built.head (some mid)).dispatched actions,
      op.spares built.head ∧ Confines symbols symbol fields op)
    (hquiet : ((start nThreads d symbol field built.head (some mid)).run actions).inFlight = []) :
    let s := start nThreads d symbol field built.head (some mid)
    ∃ fuel rt'', Runtime.deliver env store live terminal fuel rt'
      ((s.run actions).received.map (fun v => ⟨mid, v.1⟩)) =
        some (rt'', pipelineStream env store symbol stages
          ((carriedBy symbol field (s.dispatched actions)).map (carriedValue symbol))) := by
  intro s
  have hreceived := map_fst_received hone rfl hfresh hunnamed hunannounced hconfined hharmless hops
    hquiet
  have hdeliver := deliver_built env store live hkeys hpipeline hstages hbuild hterminal hhead
    ((s.run actions).received.map Prod.fst)
  rw [List.map_map] at hdeliver
  rw [← hreceived]
  exact hdeliver

def countStage : Json ExactDouble := .object [("type", .string "Worker"), ("fn", .string "count")]

/-- A Chain of two Workers that count, and another one behind it. -/
def countStages : List (Json ExactDouble) :=
  [.object [("type", .string "Chain"), ("stages", .array [countStage, countStage])], countStage]

def countRequest : Json ExactDouble :=
  .object [("streamKey", .string "AAPL"), ("field", .string "price"),
    ("pipeline", .array countStages)]

def countBuilt : Except String BuiltChain × Runtime ExactDouble :=
  outcome (buildForRequest countEnv countRequest (some 0)) terminalOnly

theorem countBuilt_eq : countBuilt = (.ok ⟨4, [0, 1, 3]⟩, countBuilt.2) :=
  Prod.ext (by decide +kernel) rfl

theorem behind_countBuilt : countBuilt.2.behindListener 4 = some 3 := by decide +kernel

theorem valueStage_countStages : ∀ spec ∈ countStages, ValueStage spec := by
  have hcount : ValueStage countStage := .plain rfl (.inl rfl)
  intro spec hspec
  simp only [countStages, List.mem_cons, List.not_mem_nil, or_false] at hspec
  rcases hspec with rfl | rfl
  · refine .chain rfl rfl ?_
    intro stage hstage
    simp only [List.mem_cons, List.not_mem_nil, or_false, or_self] at hstage
    rw [hstage]
    exact hcount
  · exact hcount

/-- A dispatcher with the builtin functions and the tick computer. -/
def engine : Dispatcher ExactDouble where
  cfg := { taBBands_stdK := .fin 2 }
  functions := builtinFunctions ExactDouble
  tickComputers := [.create { taBBands_stdK := .fin 2 } {} (builtinFunctions ExactDouble)]

/-- Two workers' steps for every price: the Listener's task and the task behind it. -/
def rounds (n : ℕ) : List (ListenerAction ExactDouble) :=
  (List.replicate n [ListenerAction.take 0, .run 0 true]).flatten

/-- The second price comes before the first is handed on, and another listener before the third. -/
def threePrices : List (ListenerAction ExactDouble) :=
  [.dispatch (.onTick (priceTick 42 range_fortyTwo)), .emit, .take 0,
    .dispatch (.onTick (priceTick 43 range_fortyThree)), .emit, .run 0 true] ++ rounds 2 ++
  [.dispatch (.registerListener "MSFT" "price" 9),
    .dispatch (.onTick { priceTick 43 range_fortyThree with symbol := "MSFT" }), .emit,
    .dispatch (.onTick (priceTick 42 range_fortyTwo)), .emit] ++ rounds 4

theorem not_isResultKey_price : ¬MarketTA.IsResultKey "price" := by
  rintro (h | ⟨name, -, period, h⟩)
  · revert h
    decide
  · have hmem := MarketTA.underscore_mem_periodKey name period
    rw [← h] at hmem
    revert hmem
    decide

/-- Of the histories there is none yet, and the caps leave room for two symbols and one field. -/
theorem confined_engine :
    (engine.registerListener "AAPL" "price" 4).Confined {"AAPL", "MSFT"} "AAPL" {"price"} := by
  refine ⟨⟨List.nodup_nil, List.nodup_nil, ?_, ?_⟩, by decide +kernel, by decide +kernel,
    by decide +kernel⟩
  · intro s hs
    cases hs
  · intro f hf
    cases hf

theorem dispatched_threePrices :
    (start 1 engine "AAPL" "price" 4 (some 3)).dispatched threePrices =
      [.onTick (priceTick 42 range_fortyTwo), .onTick (priceTick 43 range_fortyThree),
        .registerListener "MSFT" "price" 9,
        .onTick { priceTick 43 range_fortyThree with symbol := "MSFT" },
        .onTick (priceTick 42 range_fortyTwo)] :=
  dispatched_of_free (by decide +kernel)

theorem confines_tick {symbols fields : Finset String} {tick : Event ExactDouble} (node : NodeId)
    (h : tick.symbol ∈ symbols) : (DispatcherOp.onTick tick).spares node ∧
      Confines symbols "AAPL" fields (.onTick tick) := by
  refine ⟨trivial, ?_, ?_⟩
  · intro s hs
    obtain ⟨-, rfl⟩ : tick.symbol ≠ "" ∧ tick.symbol = s := by
      simpa [DispatcherOp.tickedSymbol] using hs
    exact h
  · rintro f ⟨⟩

theorem confines_otherListener {symbols fields : Finset String} :
    (DispatcherOp.registerListener (D := ExactDouble) "MSFT" "price" 9).spares 4 ∧
      Confines (D := ExactDouble) symbols "AAPL" fields (.registerListener "MSFT" "price" 9) := by
  have hother : (9 : ℕ) ≠ 4 := by decide
  refine ⟨hother, ?_, ?_⟩
  · rintro s ⟨⟩
  · intro f hf
    simp [DispatcherOp.listenedField] at hf

theorem terminal_receives_count : ∃ fuel rt'',
    Runtime.deliver countEnv (fun _ _ => none) (fun _ => true) 0 fuel countBuilt.2
      (((start 1 engine "AAPL" "price" 4 (some 3)).run threePrices).received.map
        (fun v => ⟨3, v.1⟩)) =
      some (rt'', pipelineStream countEnv (fun _ _ => none) "AAPL" countStages
        [carriedValue "AAPL" (.fin 42), carriedValue "AAPL" (.fin 43),
          carriedValue "AAPL" (.fin 42)]) := by
  have hfresh : ∀ s f, 4 ∉ (engine.listeners s).on f := by
    intro s f
    exact List.not_mem_nil
  have hops : ∀ op ∈ (start 1 engine "AAPL" "price" 4 (some 3)).dispatched threePrices,
      op.spares 4 ∧ Confines {"AAPL", "MSFT"} "AAPL" {"price"} op := by
    rw [dispatched_threePrices]
    intro op hop
    simp only [List.mem_cons, List.not_mem_nil, or_false] at hop
    rcases hop with rfl | rfl | rfl | rfl | rfl
    · exact confines_tick 4 (by decide)
    · exact confines_tick 4 (by decide)
    · exact confines_otherListener
    · exact confines_tick 4 (by decide)
    · exact confines_tick 4 (by decide)
  have hcarried : carriedBy "AAPL" "price"
      ((start 1 engine "AAPL" "price" 4 (some 3)).dispatched threePrices) =
        [.fin 42, .fin 43, .fin 42] := by
    rw [dispatched_threePrices]
    rfl
  have hreceives := terminal_receives le_rfl countEnv (fun _ _ => none) (fun _ => true) rfl rfl
    valueStage_countStages countBuilt_eq Nat.one_pos behind_countBuilt hfresh (by decide +kernel)
    (unannounced_of_not_isResultKey not_isResultKey_price _) confined_engine (by decide) hops
    (by decide +kernel)
  obtain ⟨fuel, rt'', hdeliver⟩ := hreceives
  rw [hcarried] at hdeliver
  exact ⟨fuel, rt'', hdeliver⟩

end ListenerSystem
end GmaEngine
