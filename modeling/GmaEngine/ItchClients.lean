import GmaEngine.FeedInterleaving
import GmaEngine.ItchCoupling

/-!
# Feed clients that share a manager

Every feed client has an adapter of its own, and all of them write into the one order book manager
and send their ticks to the one Dispatcher. A symbol that the messages of one client only are about
gets its book, its deltas and its ticks from that client, whatever the others receive in between.
-/

namespace GmaEngine
open LocalRuns

namespace FeedEvent
variable {D : Type}

def symbol : FeedEvent D → String
  | .tick symbol _ => symbol
  | .obAdd symbol .. => symbol
  | .obUpdate symbol .. => symbol
  | .obDelete symbol _ => symbol
  | .obTrade symbol .. => symbol
  | .obTickSize symbol _ => symbol
  | .obReset symbol _ => symbol

/-- A tick goes to the Dispatcher, everything else to the manager. -/
def work : FeedEvent D → FeedWork D
  | .tick symbol payload => .tick { symbol := symbol, payload := payload }
  | .obAdd symbol orderId side price size priority =>
    .book (.add symbol orderId side price size priority {} false)
  | .obUpdate symbol orderId newPrice newSize =>
    .book (.update symbol orderId {} newPrice newSize false)
  | .obDelete symbol orderId => .book (.delete symbol orderId {} false)
  | .obTrade symbol price size aggressor => .book (.trade symbol price size aggressor)
  | .obTickSize symbol tickSize => .book (.setTickSize symbol tickSize)
  | .obReset symbol epoch => .book (.reset symbol epoch)

theorem symbol_work (event : FeedEvent D) : event.work.symbol = some event.symbol := by
  cases event <;> rfl

theorem fst_perform_work [Double D] (m : OrderBookManager D) (event : FeedEvent D) :
    (FeedWork.perform m event.work).1 = WsFeedClient.dispatchEvent m event := by
  cases event <;> rfl

theorem fst_run_work [Double D] (m : OrderBookManager D) (events : List (FeedEvent D)) :
    (LocalRuns.run FeedWork.perform m (events.map work)).1 =
      events.foldl WsFeedClient.dispatchEvent m := by
  induction events using List.reverseRecOn with
  | nil => rfl
  | append_singleton events event ih =>
    rw [List.map_append, List.map_singleton, LocalRuns.run_concat, List.foldl_append,
      List.foldl_cons, List.foldl_nil, fst_perform_work, ih]

end FeedEvent

namespace ItchAdapter
variable {D : Type} [Double D]

/-- An adapter's state and its events after a sequence of messages. -/
def translateAll (docs : List (Option (Json D))) : Option (ItchAdapter D × List (FeedEvent D)) :=
  docs.foldlM (fun x doc => do
    let (adapter, events) ← x.1.translate doc
    return (adapter, x.2 ++ events)) ({}, [])

theorem translateAll_concat (docs : List (Option (Json D))) (doc : Option (Json D)) :
    translateAll (docs ++ [doc]) = (translateAll docs).bind (fun x =>
      (x.1.translate doc).map (fun y => (y.1, x.2 ++ y.2))) := by
  rw [translateAll, List.foldlM_append]
  change (translateAll docs).bind _ = _
  refine congrArg (Option.bind (translateAll docs)) (funext fun x => ?_)
  cases h : x.1.translate doc <;> simp [h]

end ItchAdapter

/-- The feed clients of a process; the manager and what leaves it are shared. -/
structure FeedClients (D : Type) where
  adapters : ℕ → ItchAdapter D := fun _ => {}
  mgr : OrderBookManager D := {}
  out : List (FeedOutput D) := []

/-- The messages of one client. -/
def messagesOf {D : Type} (c : ℕ) (msgs : List (ℕ × Option (Json D))) : List (Option (Json D)) :=
  (msgs.filter (·.1 = c)).map Prod.snd

namespace FeedClients
variable {D : Type} [Double D]

/-- A client handles a message: its events are dispatched one after the other. -/
def handleMessage (s : FeedClients D) (msg : ℕ × Option (Json D)) : Option (FeedClients D) := do
  let (adapter, events) ← (s.adapters msg.1).translate msg.2
  let done := LocalRuns.run FeedWork.perform s.mgr (events.map FeedEvent.work)
  return {
    adapters := Function.update s.adapters msg.1 adapter
    mgr := done.1
    out := s.out ++ done.2 }

/-- The clients after messages in the order in which they arrive; `none` is a failed assertion of a
typed getter. -/
def run (m : OrderBookManager D) (msgs : List (ℕ × Option (Json D))) : Option (FeedClients D) :=
  msgs.foldlM handleMessage { mgr := m }

theorem run_concat (m : OrderBookManager D) (msgs : List (ℕ × Option (Json D)))
    (msg : ℕ × Option (Json D)) :
    run m (msgs ++ [msg]) = (run m msgs).bind (fun s => s.handleMessage msg) := by
  rw [run, List.foldlM_append]
  change (run m msgs).bind _ = _
  exact congrArg (Option.bind (run m msgs)) (funext fun s => by simp)

omit [Double D] in
theorem messagesOf_concat (c : ℕ) (msgs : List (ℕ × Option (Json D)))
    (msg : ℕ × Option (Json D)) :
    messagesOf c (msgs ++ [msg]) = messagesOf c msgs ++ if msg.1 = c then [msg.2] else [] := by
  by_cases hc : msg.1 = c <;> simp [messagesOf, hc]

/-- Every adapter sees the messages of its client only, and the events of all of them are
dispatched in some order that keeps the order of each. -/
theorem run_trace {m : OrderBookManager D} {msgs : List (ℕ × Option (Json D))} {s : FeedClients D}
    (hrun : run m msgs = some s) :
    ∃ trace : List (ℕ × FeedWork D),
      (s.mgr, s.out) = LocalRuns.run FeedWork.perform m (trace.map Prod.snd) ∧
      ∀ c, ∃ events, ItchAdapter.translateAll (messagesOf c msgs) = some (s.adapters c, events) ∧
        (trace.filter (·.1 = c)).map Prod.snd = events.map FeedEvent.work := by
  induction msgs using List.reverseRecOn generalizing s with
  | nil =>
    cases hrun
    exact ⟨[], rfl, fun c => ⟨[], rfl, rfl⟩⟩
  | append_singleton msgs msg ih =>
    rw [run_concat] at hrun
    obtain ⟨s₀, hs₀, hmsg⟩ := Option.bind_eq_some_iff.mp hrun
    obtain ⟨trace, htrace, hclients⟩ := ih hs₀
    obtain ⟨⟨adapter, events⟩, htranslate, hs⟩ := Option.bind_eq_some_iff.mp hmsg
    cases hs
    refine ⟨trace ++ (events.map FeedEvent.work).map (msg.1, ·), ?_, fun c => ?_⟩
    · have hmap : ((events.map FeedEvent.work).map (msg.1, ·)).map Prod.snd =
          events.map FeedEvent.work := by
        rw [List.map_map]
        exact List.map_id _
      rw [List.map_append, hmap, run_append, ← htrace]
    · obtain ⟨before, hbefore, hworks⟩ := hclients c
      rw [messagesOf_concat, List.filter_append, List.map_append, hworks]
      by_cases hc : msg.1 = c
      · subst hc
        refine ⟨before ++ events, ?_, ?_⟩
        · rw [if_pos rfl, ItchAdapter.translateAll_concat, hbefore]
          simp [htranslate]
        · rw [List.map_append]
          congr 1
          simp [List.filter_map, Function.comp_def]
      · refine ⟨before, ?_, ?_⟩
        · rw [if_neg hc, List.append_nil, hbefore]
          simp [Function.update_of_ne (Ne.symm hc)]
        · simp [List.filter_map, Function.comp_def, hc]

/-- The messages of the other clients are never about the symbol. -/
def OthersAvoid (msgs : List (ℕ × Option (Json D))) (c : ℕ) (symbol : String) : Prop :=
  ∀ c', c' ≠ c → ∀ x, ItchAdapter.translateAll (messagesOf c' msgs) = some x →
    ∀ event ∈ x.2, event.symbol ≠ symbol

/-- However the messages of the clients are mixed: a symbol that the messages of one client only
are about gets its book, its deltas and its ticks from the events of that client's adapter, which
are those of its own messages. -/
theorem symbol_of_client {m : OrderBookManager D} {msgs : List (ℕ × Option (Json D))}
    {s : FeedClients D} (hrun : run m msgs = some s) {c : ℕ} {symbol : String}
    (hothers : OthersAvoid msgs c symbol) :
    ∃ events, ItchAdapter.translateAll (messagesOf c msgs) = some (s.adapters c, events) ∧
      let alone := LocalRuns.run FeedWork.perform m (events.map FeedEvent.work)
      s.mgr.part symbol = alone.1.part symbol ∧
      s.out.filter (·.symbol = symbol) = alone.2.filter (·.symbol = symbol) := by
  obtain ⟨trace, htrace, hclients⟩ := run_trace hrun
  obtain ⟨hmgr, hout⟩ := Prod.mk.inj htrace
  obtain ⟨events, hevents, hworks⟩ := hclients c
  have hparty : ∀ x ∈ trace, x.1 ≠ c → concerns FeedWork.symbol symbol x.2 = false := by
    intro x hx hc
    obtain ⟨events', hevents', hworks'⟩ := hclients x.1
    have hmem : x.2 ∈ events'.map FeedEvent.work := by
      rw [← hworks']
      exact List.mem_map_of_mem (List.mem_filter.mpr ⟨hx, by simp⟩)
    obtain ⟨event, hevent, hwork⟩ := List.mem_map.mp hmem
    rw [← hwork, concerns, FeedEvent.symbol_work, Option.all_some, decide_eq_false_iff_not]
    exact hothers x.1 hc _ hevents' event hevent
  have hsymbol := FeedServerState.localSystem.run_party symbol m c hparty
  rw [hworks] at hsymbol
  refine ⟨events, hevents, ?_⟩
  rw [hmgr, hout]
  exact hsymbol

open WsFeedClient

/-- A client alone is what its messages make of an empty manager. -/
theorem receive_eq (docs : List (Option (Json D))) :
    receive docs = (ItchAdapter.translateAll docs).map
      (fun x => ⟨x.1, x.2.foldl dispatchEvent {}⟩) := by
  induction docs using List.reverseRecOn with
  | nil => rfl
  | append_singleton docs doc ih =>
    rw [receive_concat, ih, ItchAdapter.translateAll_concat]
    cases ItchAdapter.translateAll docs with
    | none => rfl
    | some x =>
      rw [Option.map_some, Option.bind_some, Option.bind_some, WsFeedClient.handleMessage]
      cases x.1.translate doc <;> simp [List.foldl_append]

/-- While other clients feed other symbols, the orders of a symbol that rest in the shared books are
those that the adapter of its client tracks, each resting once. -/
theorem shared_books_agree {msgs : List (ℕ × Option (Json D))} {s : FeedClients D}
    (hrun : run {} msgs = some s) {c : ℕ} (hadmissible : AdmissibleRun (messagesOf c msgs))
    {symbol : String} (hothers : OthersAvoid msgs c symbol) (side : Side) (price : Price) :
    ((s.mgr.book symbol).queue side price).Nodup ∧
    ∀ o, o ∈ (s.mgr.book symbol).queue side price ↔
      ∃ ref os, (s.adapters c).orders ref = some os ∧ os.symbol = symbol ∧ os.side = side ∧
        s.mgr.toTicks symbol os.price = price ∧ o = restingOrder ref os price := by
  obtain ⟨events, hevents, hpart, -⟩ := symbol_of_client hrun hothers
  have hreceive := receive_eq (messagesOf c msgs)
  rw [hevents, Option.map_some] at hreceive
  obtain ⟨hcoupled, -⟩ := coupled_receive hreceive hadmissible
  rw [FeedEvent.fst_run_work] at hpart
  rw [OrderBookManager.book_congr hpart, OrderBookManager.toTicks_congr hpart]
  refine ⟨List.Nodup.of_map _ ((hcoupled.wf symbol).queue_nodup side price), ?_⟩
  exact hcoupled.same symbol side price

/-- A trade of another stock comes between the listing of a stock and its first order. -/
def mixedMessages : List (ℕ × Option (Json ExactDouble)) :=
  [(0, some listAapl), (1, some (.object [("type", .string "trade"), ("stock", .string "MSFT"),
    ("price", .uint 7), ("shares", .uint 3)])), (0, some (addBid 1 10))]

theorem othersAvoid_mixedMessages : OthersAvoid mixedMessages 0 "AAPL" := by
  intro c hc x hx event hevent
  by_cases hone : c = 1
  · subst hone
    have hsymbols : (ItchAdapter.translateAll (messagesOf 1 mixedMessages)).map
        (fun x => x.2.map FeedEvent.symbol) = some ["MSFT", "MSFT"] := by decide +kernel
    rw [hx, Option.map_some, Option.some_inj] at hsymbols
    have hmem : event.symbol ∈ ["MSFT", "MSFT"] := by
      rw [← hsymbols]
      exact List.mem_map_of_mem hevent
    intro heq
    rw [heq] at hmem
    exact absurd hmem (by decide)
  · have hnone : messagesOf c mixedMessages = [] := by
      simp [messagesOf, mixedMessages, Ne.symm hc, Ne.symm hone]
    rw [hnone] at hx
    cases hx
    cases hevent

theorem symbol_of_mixedMessages : ∃ s, run {} mixedMessages = some s ∧
    ((s.mgr.book "AAPL").queue .bid ⟨10000⟩).length = 1 ∧
    ∃ events, ItchAdapter.translateAll (messagesOf 0 mixedMessages) = some (s.adapters 0, events) ∧
      let alone := LocalRuns.run FeedWork.perform ({} : OrderBookManager ExactDouble)
        (events.map FeedEvent.work)
      s.mgr.part "AAPL" = alone.1.part "AAPL" ∧
      s.out.filter (·.symbol = "AAPL") = alone.2.filter (·.symbol = "AAPL") := by
  have hresting : (run {} mixedMessages).map
      (fun s => ((s.mgr.book "AAPL").queue .bid ⟨10000⟩).length) = some 1 := by decide +kernel
  obtain ⟨s, hs, hlength⟩ := Option.map_eq_some_iff.mp hresting
  exact ⟨s, hs, hlength, symbol_of_client hs othersAvoid_mixedMessages⟩

theorem shared_books_agree_mixedMessages : ∃ s, run {} mixedMessages = some s ∧
    ((s.mgr.book "AAPL").queue .bid ⟨10000⟩).Nodup ∧
    ∀ o, o ∈ (s.mgr.book "AAPL").queue .bid ⟨10000⟩ ↔
      ∃ ref os, (s.adapters 0).orders ref = some os ∧ os.symbol = "AAPL" ∧ os.side = .bid ∧
        s.mgr.toTicks "AAPL" os.price = ⟨10000⟩ ∧ o = restingOrder ref os ⟨10000⟩ := by
  have hsome : (run {} mixedMessages).isSome := by decide +kernel
  obtain ⟨s, hs⟩ := Option.isSome_iff_exists.mp hsome
  have hadmissible : AdmissibleRun (messagesOf 0 mixedMessages) := admissibleRun_listedBid
  exact ⟨s, hs, shared_books_agree hs hadmissible othersAvoid_mixedMessages .bid ⟨10000⟩⟩

end FeedClients
end GmaEngine
