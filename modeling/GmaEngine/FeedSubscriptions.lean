import GmaEngine.FeedDeliveries
import GmaEngine.SubscribedStreams

/-!
# From the bytes of a feed to a subscriber

The ticks that the feed server takes from its connections go to the Dispatcher, whose posts go
through the pool to the pipeline of a request. For a symbol that one connection ticks, the terminal
receives a function of the byte stream of that connection.
-/

namespace GmaEngine

def DispatcherOp.isTick {D : Type} : DispatcherOp D → Bool
  | onTick _ => true
  | _ => false

namespace Dispatcher
variable {D : Type} [DoubleMath D] {symbol field : String}

/-- Only ticks carry numbers. -/
theorem carriedBy_filter_isTick (ops : List (DispatcherOp D)) :
    carriedBy symbol field (ops.filter DispatcherOp.isTick) = carriedBy symbol field ops := by
  rw [carriedBy, carriedBy, List.filterMap_filter]
  refine List.filterMap_congr (fun op _ => ?_)
  cases op <;> rfl

end Dispatcher

namespace FeedServerState
open FeedEngine Dispatcher
variable {D : Type} [DoubleMath D] (parse : List UInt8 → Option (Json D)) {symbol field : String}

/-- The numbers that all connections bring for a field are those of the connection that ticks the
symbol. -/
theorem carriedBy_out (m : OrderBookManager D) (reads : List (ℕ × List UInt8)) (c : ℕ)
    (hothers : ∀ c', c' ≠ c → ∀ op ∈ ticksOf (D := D) parse
      (FeedSession.run {} (readsOf c' reads)).handled, op.symbol ≠ symbol) :
    carriedBy symbol field ((run parse m reads).out.filterMap FeedOutput.dispatcherOp) =
      carriedBy symbol field (ticksOf parse (FeedSession.run {} (readsOf c reads)).handled) := by
  obtain ⟨hsessions, trace, htrace, hworks⟩ := run_trace parse m reads
  have hout : (run parse m reads).out.filterMap FeedOutput.dispatcherOp =
      (trace.map Prod.snd).filterMap FeedWork.dispatcherOp := by
    have hsnd : (run parse m reads).out =
        (LocalRuns.run FeedWork.perform m (trace.map Prod.snd)).2 := congrArg Prod.snd htrace
    rw [hsnd, ticks_of_works]
  have hown : ticksOf parse (FeedSession.run {} (readsOf c reads)).handled =
      ((trace.filter (·.1 = c)).map Prod.snd).filterMap FeedWork.dispatcherOp := by
    rw [ticksOf, ← hsessions c, hworks c]
  rw [hout, hown, carriedBy, carriedBy]
  simp only [List.filterMap_map, List.filterMap_filterMap, List.filterMap_filter]
  refine List.filterMap_congr (fun x hx => ?_)
  by_cases hc : x.1 = c
  · rw [if_pos (decide_eq_true hc)]
  · rw [if_neg (by simpa using hc)]
    refine Option.bind_eq_none_iff.mpr (fun op hop => ?_)
    -- the work of another connection, which ticks other symbols only
    have hmem : op ∈ ticksOf (D := D) parse (FeedSession.run {} (readsOf x.1 reads)).handled := by
      rw [ticksOf, ← hsessions x.1, ← hworks x.1]
      refine List.mem_filterMap.mpr ⟨x.2, List.mem_map_of_mem ?_, hop⟩
      exact List.mem_filter.mpr ⟨hx, by simp⟩
    have hsymbol := hothers x.1 hc op hmem
    cases op with
    | onTick tick => exact if_neg (fun hboth => hsymbol hboth.1)
    | _ => rfl

end FeedServerState

namespace ListenerSystem
open Dispatcher TreeBuilder EffectPlans FeedEngine
variable {D : Type} [DoubleMath D] {nThreads : ℕ} {d : Dispatcher D} {symbol field : String}
  {symbols fields : Finset String}

/-- The ticks that the Dispatcher takes are those of a feed server, in their order; listeners come
and go between them. -/
def FedBy (server : FeedServerState D) (s : ListenerSystem D) (actions : List (ListenerAction D)) :
    Prop :=
  (s.dispatched actions).filter DispatcherOp.isTick =
    server.out.filterMap FeedOutput.dispatcherOp

/-- What a request's terminal receives on one worker: the pipeline, as a function of streams, of
the numbers in the lines of the one connection that ticks the symbol, however the streams of all
connections are cut into reads and mixed. -/
theorem terminal_receives_stream (hone : nThreads ≤ 1) (env : BuildEnv D)
    (store : String → String → Option (ArgType D)) (live : NodeId → Bool) {rq : Json D}
    {rt rt' : Runtime D} {terminal mid : NodeId} {built : BuiltChain} {stages : List (Json D)}
    (hkeys : requestKeys rq = .ok (symbol, field)) (hpipeline : pipelineOf rq = some stages)
    (hstages : ∀ spec ∈ stages, ValueStage spec)
    (hbuild : outcome (buildForRequest env rq (some terminal)) rt = (.ok built, rt'))
    (hterminal : terminal < rt.nodes.length)
    (hhead : rt'.behindListener built.head = some mid)
    (hfresh : ∀ s f, built.head ∉ (d.listeners s).on f) (hunnamed : field ∉ d.functions.names)
    (hunannounced : Unannounced d.tickComputers field)
    (hconfined : (d.registerListener symbol field built.head).Confined symbols symbol fields)
    {actions : List (ListenerAction D)} (hharmless : ∀ action ∈ actions, action.harmless = true)
    (hops : ∀ op ∈ (start nThreads d symbol field built.head (some mid)).dispatched actions,
      op.spares built.head ∧ Confines symbols symbol fields op)
    (hquiet : ((start nThreads d symbol field built.head (some mid)).run actions).inFlight = [])
    (parse : List UInt8 → Option (Json D)) (m : OrderBookManager D)
    (reads : List (ℕ × List UInt8)) (c : ℕ)
    (hfed : FedBy (FeedServerState.run parse m reads)
      (start nThreads d symbol field built.head (some mid)) actions)
    (hreads : ∀ r ∈ reads, r.2.length ≤ FeedSession.bufSize)
    (hlines : ∀ line ∈ (readsOf c reads).flatten.splitOn FeedSession.newline,
      line.length ≤ 64 * 1024)
    (hothers : ∀ c', c' ≠ c → ∀ op ∈ ticksOf (D := D) parse
      (FeedSession.run {} (readsOf c' reads)).handled, op.symbol ≠ symbol) :
    let lines := ((readsOf c reads).flatten.splitOn FeedSession.newline).dropLast.map
      FeedSession.stripCR
    ∃ fuel rt'', Runtime.deliver env store live terminal fuel rt'
      (((start nThreads d symbol field built.head (some mid)).run actions).received.map
        (fun v => ⟨mid, v.1⟩)) =
        some (rt'', pipelineStream env store symbol stages
          ((carriedBy symbol field (ticksOf parse lines)).map (carriedValue symbol))) := by
  intro lines
  have hsizes : ∀ bytes ∈ readsOf c reads, bytes.length ≤ FeedSession.bufSize := by
    intro bytes hbytes
    obtain ⟨r, hr, rfl⟩ := List.mem_map.mp hbytes
    exact hreads r (List.mem_filter.mp hr).1
  have hsession : FeedSession.run {} (readsOf c reads) =
      FeedSession.after (readsOf c reads).flatten :=
    @FeedSession.run_after _ [] hsizes hlines
  have hnumbers : carriedBy symbol field
      ((start nThreads d symbol field built.head (some mid)).dispatched actions) =
        carriedBy symbol field (ticksOf parse lines) := by
    rw [← carriedBy_filter_isTick, hfed, FeedServerState.carriedBy_out parse m reads c hothers,
      hsession]
    rfl
  have hreceived := map_fst_received hone rfl hfresh hunnamed hunannounced hconfined hharmless hops
    hquiet
  have hdeliver := deliver_built env store live hkeys hpipeline hstages hbuild hterminal hhead
    (((start nThreads d symbol field built.head (some mid)).run actions).received.map Prod.fst)
  rw [List.map_map] at hdeliver
  rw [← hnumbers, ← hreceived]
  exact hdeliver

def msftTick : Event ExactDouble where
  symbol := "MSFT"
  payload := .object [("symbol", .string "MSFT"), ("price", .double (.fin (15 / 2)))]

def aaplTick : Event ExactDouble where
  symbol := "AAPL"
  payload := .object [("symbol", .string "AAPL"), ("price", .double (.fin (85 / 2)))]

/-- Two ticks for AAPL, the first in two pieces between which other connections tick MSFT. -/
def twoConnections : List (ℕ × List UInt8) :=
  [(1, FeedServerState.msftTick ++ [10]), (0, FeedServerState.aaplTick.take 9),
    (1, FeedServerState.msftTick ++ [13, 10]),
    (0, FeedServerState.aaplTick.drop 9 ++ [10] ++ FeedServerState.aaplTick.take 20),
    (0, FeedServerState.aaplTick.drop 20 ++ [10])]

/-- Their ticks, a listener for MSFT that comes between them, and the way of the prices to the
terminal. -/
def fourTicks : List (ListenerAction ExactDouble) :=
  [.dispatch (.onTick msftTick), .dispatch (.registerListener "MSFT" "price" 9),
    .dispatch (.onTick msftTick), .emit, .dispatch (.onTick aaplTick), .emit, .take 0, .run 0 true,
    .take 0, .dispatch (.onTick aaplTick), .emit, .run 0 true] ++ rounds 3

theorem dispatched_fourTicks :
    (start 1 engine "AAPL" "price" 4 (some 3)).dispatched fourTicks =
      [.onTick msftTick, .registerListener "MSFT" "price" 9, .onTick msftTick, .onTick aaplTick,
        .onTick aaplTick] :=
  dispatched_of_free (by decide +kernel)

theorem terminal_receives_stream_count : ∃ fuel rt'',
    Runtime.deliver countEnv (fun _ _ => none) (fun _ => true) 0 fuel countBuilt.2
      (((start 1 engine "AAPL" "price" 4 (some 3)).run fourTicks).received.map
        (fun v => ⟨3, v.1⟩)) =
      some (rt'', pipelineStream countEnv (fun _ _ => none) "AAPL" countStages
        [carriedValue "AAPL" (.fin (85 / 2)), carriedValue "AAPL" (.fin (85 / 2))]) := by
  have hfresh : ∀ s f, 4 ∉ (engine.listeners s).on f := by
    intro s f
    exact List.not_mem_nil
  have hops : ∀ op ∈ (start 1 engine "AAPL" "price" 4 (some 3)).dispatched fourTicks,
      op.spares 4 ∧ Confines {"AAPL", "MSFT"} "AAPL" {"price"} op := by
    rw [dispatched_fourTicks]
    intro op hop
    simp only [List.mem_cons, List.not_mem_nil, or_false] at hop
    rcases hop with rfl | rfl | rfl | rfl | rfl
    · exact confines_tick 4 (by decide)
    · exact confines_otherListener
    · exact confines_tick 4 (by decide)
    · exact confines_tick 4 (by decide)
    · exact confines_tick 4 (by decide)
  have hfed : FedBy (FeedServerState.run FeedServerState.parseLine {} twoConnections)
      (start 1 engine "AAPL" "price" 4 (some 3)) fourTicks := by
    rw [FedBy, dispatched_fourTicks]
    rfl
  have hothers : ∀ c, c ≠ 0 → ∀ op ∈ ticksOf (D := ExactDouble) FeedServerState.parseLine
      (FeedSession.run {} (readsOf c twoConnections)).handled, op.symbol ≠ "AAPL" := by
    intro c hc op hop
    by_cases hone : c = 1
    · subst hone
      have hall : ∀ op ∈ ticksOf FeedServerState.parseLine
          (FeedSession.run {} (readsOf 1 twoConnections)).handled, op.symbol ≠ "AAPL" := by
        decide +kernel
      exact hall op hop
    · have hnone : readsOf c twoConnections = [] := by
        simp [readsOf, twoConnections, Ne.symm hc, Ne.symm hone]
      rw [hnone] at hop
      cases hop
  have hlines : ((readsOf 0 twoConnections).flatten.splitOn FeedSession.newline).dropLast.map
      FeedSession.stripCR = [FeedServerState.aaplTick, FeedServerState.aaplTick] := by
    decide +kernel
  have hcarried : carriedBy (D := ExactDouble) "AAPL" "price" (ticksOf FeedServerState.parseLine
      [FeedServerState.aaplTick, FeedServerState.aaplTick]) =
        [.fin (85 / 2), .fin (85 / 2)] := by decide +kernel
  obtain ⟨fuel, rt'', hdeliver⟩ := terminal_receives_stream le_rfl countEnv (fun _ _ => none)
    (fun _ => true) rfl rfl valueStage_countStages countBuilt_eq Nat.one_pos behind_countBuilt
    hfresh (by decide +kernel) (unannounced_of_not_isResultKey not_isResultKey_price _)
    confined_engine (by decide) hops (by decide +kernel) FeedServerState.parseLine {}
    twoConnections 0 hfed (by decide +kernel) (by decide +kernel) hothers
  rw [hlines, hcarried] at hdeliver
  exact ⟨fuel, rt'', hdeliver⟩

end ListenerSystem
end GmaEngine
