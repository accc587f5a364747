import GmaEngine.FeedInterleaving
import GmaEngine.TickIsolation

/-!
# From the feed connections to the listeners

The ticks of the feed server go to the Dispatcher as the lines of its connections are handled,
while listeners come and go. A symbol that one connection ticks is delivered from the reads of that
connection, whatever the other connections send and whoever listens to other symbols.
-/

namespace GmaEngine
open LocalRuns

inductive EngineInput where
  | read (c : ℕ) (bytes : List UInt8)
  | registerListener (symbol field : String) (node : NodeId)
  | unregisterListener (symbol field : String) (node : NodeId)

/-- A read of the connection, or a change of a listener of the symbol. -/
def EngineInput.concerns (c : ℕ) (symbol : String) : EngineInput → Bool
  | read c' _ => c' = c
  | registerListener s _ _ => s = symbol
  | unregisterListener s _ _ => s = symbol

/-- The bytes of a read of the connection. -/
def EngineInput.bytesOf (c : ℕ) : EngineInput → Option (List UInt8)
  | read c' bytes => if c' = c then some bytes else none
  | _ => none

def FeedOutput.dispatcherOp {D : Type} : FeedOutput D → Option (DispatcherOp D)
  | delta _ => none
  | tick t => some (.onTick t)

def FeedWork.dispatcherOp {D : Type} : FeedWork D → Option (DispatcherOp D)
  | book _ => none
  | tick t => some (.onTick t)

/-- A feed server with the Dispatcher that gets its ticks. -/
structure FeedEngine (D : Type) where
  server : FeedServerState D
  dispatcher : Dispatcher D
  /-- The operations of the Dispatcher and what it has delivered. -/
  dispatched : List (DispatcherOp D) := []
  deliveries : List (Delivery D) := []

namespace FeedEngine
variable {D : Type} [DoubleMath D] (parse : List UInt8 → Option (Json D))

def dispatch (e : FeedEngine D) (ops : List (DispatcherOp D)) : FeedEngine D :=
  let done := LocalRuns.run Dispatcher.exec e.dispatcher ops
  { e with
    dispatcher := done.1
    dispatched := e.dispatched ++ ops
    deliveries := e.deliveries ++ done.2 }

def step (e : FeedEngine D) : EngineInput → FeedEngine D
  | .read c bytes =>
    let server := e.server.onRead parse (c, bytes)
    dispatch { e with server := server }
      ((server.out.drop e.server.out.length).filterMap FeedOutput.dispatcherOp)
  | .registerListener symbol field node => e.dispatch [.registerListener symbol field node]
  | .unregisterListener symbol field node => e.dispatch [.unregisterListener symbol field node]

def run (m : OrderBookManager D) (d : Dispatcher D) (inputs : List EngineInput) : FeedEngine D :=
  inputs.foldl (step parse) { server := { mgr := m }, dispatcher := d }

theorem run_concat (m : OrderBookManager D) (d : Dispatcher D) (inputs : List EngineInput)
    (input : EngineInput) :
    run parse m d (inputs ++ [input]) = (run parse m d inputs).step parse input := by
  rw [run, List.foldl_append]
  rfl

/-- The Dispatcher has executed its operations one after the other. -/
theorem run_dispatched (m : OrderBookManager D) (d : Dispatcher D) (inputs : List EngineInput) :
    let e := run parse m d inputs
    (e.dispatcher, e.deliveries) = LocalRuns.run Dispatcher.exec d e.dispatched := by
  have hdispatch : ∀ (e : FeedEngine D) (ops : List (DispatcherOp D)),
      (e.dispatcher, e.deliveries) = LocalRuns.run Dispatcher.exec d e.dispatched →
      ((e.dispatch ops).dispatcher, (e.dispatch ops).deliveries) =
        LocalRuns.run Dispatcher.exec d (e.dispatch ops).dispatched := by
    intro e ops he
    have happend := LocalRuns.run_append Dispatcher.exec d e.dispatched ops
    rw [← he] at happend
    exact happend.symm
  induction inputs using List.reverseRecOn with
  | nil => rfl
  | append_singleton inputs input ih =>
    rw [run_concat]
    cases input with
    | read c bytes => exact hdispatch { run parse m d inputs with server := _ } _ ih
    | registerListener symbol field node => exact hdispatch _ _ ih
    | unregisterListener symbol field node => exact hdispatch _ _ ih

/-- The ticks of some lines, for the Dispatcher. -/
def ticksOf (lines : List (List UInt8)) : List (DispatcherOp D) :=
  (FeedServer.works parse lines).filterMap FeedWork.dispatcherOp

/-- The lines that a read completes. -/
def newLines (session : FeedSession) (bytes : List UInt8) : List (List UInt8) :=
  (session.onRead bytes).handled.drop session.handled.length

/-- The books have no part in the ticks. -/
theorem ticks_of_works (m : OrderBookManager D) (works : List (FeedWork D)) :
    (LocalRuns.run FeedWork.perform m works).2.filterMap FeedOutput.dispatcherOp =
      works.filterMap FeedWork.dispatcherOp := by
  induction works using List.reverseRecOn with
  | nil => rfl
  | append_singleton works w ih =>
    rw [LocalRuns.run_concat, List.filterMap_append, List.filterMap_append, ih]
    congr 1
    cases w with
    | book op =>
      change ((OrderBookManager.exec _ op).2.map FeedOutput.delta).filterMap _ = []
      rw [List.filterMap_map]
      exact List.filterMap_eq_nil_iff.mpr (fun _ _ => rfl)
    | tick t => rfl

theorem dispatched_read (e : FeedEngine D) (c : ℕ) (bytes : List UInt8) :
    (e.step parse (.read c bytes)).dispatched =
      e.dispatched ++ ticksOf parse (newLines (e.server.sessions c) bytes) := by
  have hout : (e.server.onRead parse (c, bytes)).out.drop e.server.out.length =
      (LocalRuns.run FeedWork.perform e.server.mgr
        (FeedServer.works parse (newLines (e.server.sessions c) bytes))).2 := by
    rw [FeedServerState.onRead, newLines]
    exact List.drop_left
  change e.dispatched ++ _ = _
  rw [hout, ticks_of_works, ticksOf]

theorem sessions_read (e : FeedEngine D) (c : ℕ) (bytes : List UInt8) :
    (e.step parse (.read c bytes)).server.sessions =
      Function.update e.server.sessions c ((e.server.sessions c).onRead bytes) := rfl

/-- Every connection has its own session. -/
theorem sessions_run (m : OrderBookManager D) (d : Dispatcher D) (inputs : List EngineInput)
    (c : ℕ) : (run parse m d inputs).server.sessions c =
      FeedSession.run {} (inputs.filterMap (EngineInput.bytesOf c)) := by
  induction inputs using List.reverseRecOn with
  | nil => rfl
  | append_singleton inputs input ih =>
    rw [run_concat, List.filterMap_append]
    cases input with
    | read c' bytes =>
      rw [sessions_read]
      by_cases hc : c' = c
      · subst hc
        rw [Function.update_self, ih]
        simp [EngineInput.bytesOf, FeedSession.run_concat]
      · rw [Function.update_of_ne (Ne.symm hc), ih]
        simp [EngineInput.bytesOf, hc]
    | registerListener symbol field node =>
      rw [show [_].filterMap (EngineInput.bytesOf c) = [] from rfl, List.append_nil]
      exact ih
    | unregisterListener symbol field node =>
      rw [show [_].filterMap (EngineInput.bytesOf c) = [] from rfl, List.append_nil]
      exact ih

theorem handled_onRead (session : FeedSession) (bytes : List UInt8) :
    (session.onRead bytes).handled = session.handled ++ newLines session bytes :=
  FeedSession.handled_onRead session bytes

/-- The lines of the first reads stay handled. -/
theorem ticksOf_subset (session : FeedSession) (reads : List (List UInt8)) (bytes : List UInt8) :
    ticksOf parse (session.run reads).handled ⊆
      ticksOf parse (session.run (reads ++ [bytes])).handled := by
  rw [FeedSession.run_concat, handled_onRead, ticksOf, ticksOf, FeedServer.works_append,
    List.filterMap_append]
  exact List.subset_append_left _ _

/-- The connection's session, and the Dispatcher's operations on the symbol, are the same. -/
structure Follows (c : ℕ) (symbol : String) (e alone : FeedEngine D) : Prop where
  session : alone.server.sessions c = e.server.sessions c
  ops : alone.dispatched.filter (·.symbol = symbol) = e.dispatched.filter (·.symbol = symbol)
  sublist : alone.dispatched.Sublist e.dispatched

section
variable {parse} {c : ℕ} {symbol : String} {e alone : FeedEngine D}

theorem Follows.dispatch (h : Follows c symbol e alone) (op : DispatcherOp D) :
    Follows c symbol (e.dispatch [op]) (alone.dispatch [op]) where
  session := h.session
  ops := by
    change (alone.dispatched ++ [op]).filter _ = (e.dispatched ++ [op]).filter _
    rw [List.filter_append, List.filter_append, h.ops]
  sublist := h.sublist.append (List.Sublist.refl _)

theorem Follows.dispatch_other (h : Follows c symbol e alone) {op : DispatcherOp D}
    (hop : op.symbol ≠ symbol) : Follows c symbol (e.dispatch [op]) alone where
  session := h.session
  ops := by
    change _ = (e.dispatched ++ [op]).filter _
    rw [List.filter_append, h.ops]
    simp [hop]
  sublist := h.sublist.trans (List.sublist_append_left _ _)

/-- A read of the connection itself. -/
theorem Follows.read (h : Follows c symbol e alone) (bytes : List UInt8) :
    Follows c symbol (e.step parse (.read c bytes)) (alone.step parse (.read c bytes)) where
  session := by
    rw [sessions_read, sessions_read, Function.update_self, Function.update_self, h.session]
  ops := by
    rw [dispatched_read, dispatched_read, List.filter_append, List.filter_append, h.ops, h.session]
  sublist := by
    rw [dispatched_read, dispatched_read, h.session]
    exact h.sublist.append (List.Sublist.refl _)

/-- A read of another connection that does not tick the symbol. -/
theorem Follows.read_other (h : Follows c symbol e alone) {c' : ℕ} (hc : c' ≠ c)
    {bytes : List UInt8}
    (hquiet : ∀ op ∈ ticksOf parse (newLines (e.server.sessions c') bytes), op.symbol ≠ symbol) :
    Follows c symbol (e.step parse (.read c' bytes)) alone where
  session := by
    rw [sessions_read, Function.update_of_ne (Ne.symm hc), h.session]
  ops := by
    have hnone : (ticksOf parse (newLines (e.server.sessions c') bytes)).filter
        (·.symbol = symbol) = [] :=
      List.filter_eq_nil_iff.mpr (by simpa using hquiet)
    rw [dispatched_read, List.filter_append, hnone, List.append_nil, h.ops]
  sublist := by
    rw [dispatched_read]
    exact h.sublist.trans (List.sublist_append_left _ _)

end

theorem follows_run (m : OrderBookManager D) (d : Dispatcher D) {inputs : List EngineInput}
    {c : ℕ} {symbol : String}
    (hothers : ∀ c', c' ≠ c → ∀ op ∈ ticksOf (D := D) parse
      (FeedSession.run {} (inputs.filterMap (EngineInput.bytesOf c'))).handled,
      op.symbol ≠ symbol) :
    Follows c symbol (run parse m d inputs)
      (run parse m d (inputs.filter (EngineInput.concerns c symbol))) := by
  induction inputs using List.reverseRecOn with
  | nil => exact ⟨rfl, rfl, List.Sublist.refl _⟩
  | append_singleton inputs input ih =>
    have hfollows : Follows c symbol (run parse m d inputs)
        (run parse m d (inputs.filter (EngineInput.concerns c symbol))) := by
      refine ih (fun c' hc op hop => hothers c' hc op ?_)
      rw [List.filterMap_append]
      cases hbytes : EngineInput.bytesOf c' input with
      | none => simpa [hbytes] using hop
      | some bytes => simpa [hbytes] using ticksOf_subset parse {} _ bytes hop
    rw [run_concat, List.filter_append]
    cases hinput : input.concerns c symbol with
    | true =>
      rw [List.filter_cons_of_pos hinput, List.filter_nil, run_concat]
      cases input with
      | read c' bytes =>
        obtain rfl : c' = c := of_decide_eq_true hinput
        exact hfollows.read bytes
      | registerListener s field node => exact hfollows.dispatch _
      | unregisterListener s field node => exact hfollows.dispatch _
    | false =>
      rw [List.filter_cons_of_neg (by simp [hinput]), List.filter_nil, List.append_nil]
      cases input with
      | read c' bytes =>
        have hc : c' ≠ c := of_decide_eq_false hinput
        refine hfollows.read_other hc (fun op hop => hothers c' hc op ?_)
        rw [List.filterMap_append]
        simp only [EngineInput.bytesOf, List.filterMap_cons, if_true, List.filterMap_nil]
        rw [FeedSession.run_concat, handled_onRead, ticksOf, FeedServer.works_append,
          List.filterMap_append, ← sessions_run parse m d]
        exact List.mem_append_right _ hop
      | registerListener s field node =>
        exact hfollows.dispatch_other (of_decide_eq_false hinput)
      | unregisterListener s field node =>
        exact hfollows.dispatch_other (of_decide_eq_false hinput)

/-- However reads and changes of listeners are mixed: while the caps leave room, the deliveries for
a symbol that one connection ticks, and what the Dispatcher keeps for it, are those of the engine
that gets the reads of that connection and the listeners of the symbol only. -/
theorem deliveries_of_connection (m : OrderBookManager D) {d : Dispatcher D}
    {symbols : Finset String} (hroomy : d.Roomy symbols) (inputs : List EngineInput) (c : ℕ)
    (symbol : String)
    (hothers : ∀ c', c' ≠ c → ∀ op ∈ ticksOf (D := D) parse
      (FeedSession.run {} (inputs.filterMap (EngineInput.bytesOf c'))).handled,
      op.symbol ≠ symbol)
    (hticks : Dispatcher.tickedSymbols (run parse m d inputs).dispatched ⊆ symbols) :
    let e := run parse m d inputs
    let alone := run parse m d (inputs.filter (EngineInput.concerns c symbol))
    e.deliveries.filter (·.value.symbol = symbol) =
      alone.deliveries.filter (·.value.symbol = symbol) ∧
    e.dispatcher.part symbol = alone.dispatcher.part symbol := by
  intro e alone
  have hfollows := follows_run parse m d hothers
  have hticks' : Dispatcher.tickedSymbols alone.dispatched ⊆ symbols := by
    intro s hs
    obtain ⟨op, hop, hsymbol⟩ := List.mem_filterMap.mp (List.mem_toFinset.mp hs)
    exact hticks (List.mem_toFinset.mpr
      (List.mem_filterMap.mpr ⟨op, hfollows.sublist.subset hop, hsymbol⟩))
  have hrun := run_dispatched parse m d inputs
  have hrun' := run_dispatched parse m d (inputs.filter (EngineInput.concerns c symbol))
  obtain ⟨hpart, hout⟩ := run_congr_within hroomy (Dispatcher.local_ops hticks)
    (Dispatcher.local_ops hticks') symbol hfollows.ops.symm
  rw [← hrun, ← hrun'] at hpart hout
  exact ⟨hout, hpart⟩

open FeedServerState in
/-- A tick for AAPL comes in two pieces, between which another connection sends ticks for MSFT and
listeners of both symbols come and go; it comes once more without the second listener. -/
def mixedInputs : List EngineInput :=
  [.registerListener "AAPL" "price" 5, .read 1 (msftTick ++ [10]), .read 0 (aaplTick.take 9),
    .registerListener "MSFT" "price" 6, .read 1 (msftTick ++ [10]),
    .read 0 (aaplTick.drop 9 ++ [10]),
    .unregisterListener "AAPL" "price" 5, .read 0 (aaplTick ++ [13, 10])]

theorem deliveries_of_mixedInputs :
    let e := run FeedServerState.parseLine {} Dispatcher.onePrice mixedInputs
    let alone := run FeedServerState.parseLine {} Dispatcher.onePrice
      (mixedInputs.filter (EngineInput.concerns 0 "AAPL"))
    e.deliveries.filter (·.value.symbol = "AAPL") =
      alone.deliveries.filter (·.value.symbol = "AAPL") ∧
    e.dispatcher.part "AAPL" = alone.dispatcher.part "AAPL" ∧
    (e.deliveries.filter (·.value.symbol = "AAPL")).length = 3 := by
  have hroomy : Dispatcher.onePrice.Roomy {"AAPL", "MSFT"} := by
    refine Dispatcher.roomy_of_new rfl (by decide +kernel) ?_ rfl ?_
    · intro c hc
      cases hc
    · intro hcap
      cases hcap
  have hothers : ∀ c, c ≠ 0 → ∀ op ∈ ticksOf (D := ExactDouble) FeedServerState.parseLine
      (FeedSession.run {} (mixedInputs.filterMap (EngineInput.bytesOf c))).handled,
        op.symbol ≠ "AAPL" := by
    intro c hc op hop
    by_cases hone : c = 1
    · subst hone
      have hall : ∀ op ∈ ticksOf FeedServerState.parseLine (FeedSession.run {}
          (mixedInputs.filterMap (EngineInput.bytesOf 1))).handled, op.symbol ≠ "AAPL" := by
        decide +kernel
      exact hall op hop
    · have hnone : mixedInputs.filterMap (EngineInput.bytesOf c) = [] := by
        simp [mixedInputs, EngineInput.bytesOf, Ne.symm hc, Ne.symm hone]
      rw [hnone] at hop
      cases hop
  obtain ⟨hdeliveries, hpart⟩ := deliveries_of_connection FeedServerState.parseLine {} hroomy
    mixedInputs 0 "AAPL" hothers (by decide +kernel)
  exact ⟨hdeliveries, hpart, by decide +kernel⟩

end FeedEngine
end GmaEngine
