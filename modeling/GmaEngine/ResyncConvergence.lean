import GmaEngine.FeedSequencing
import GmaEngine.ItchExecution
import GmaEngine.SymbolIsolation

/-!
# Resynchronised books converge

A per-order snapshot erases what the ladders of a symbol owe to the past. Two managers with the
same settings that get the same snapshot and the same operations behind it have the same queues,
whatever they went through before, as long as orders come with their ids and are named by keys.
-/

namespace GmaEngine

/-- The operation adds no order under a synthetic id. -/
def BookOp.explicit : BookOp → Bool
  | addScoped o _ idMissing => !idMissing && decide (o.id ≠ 0)
  | addGetKey o _ idMissing => !idMissing && decide (o.id ≠ 0)
  | _ => true

/-- The operation comes with its ids, and does not look a key up that was put in before. -/
def ManagerOp.explicit {D : Type} : ManagerOp D → Bool
  | addGetKey _ id _ _ _ _ _ idMissing => !idMissing && decide (id ≠ 0)
  | add _ id _ _ _ _ _ idMissing => !idMissing && decide (id ≠ 0)
  | addWithVenueKey _ _ id _ _ _ _ _ idMissing => !idMissing && decide (id ≠ 0)
  | updateByVenueKey .. => false
  | deleteByVenueKey .. => false
  | _ => true

namespace AbstractBook
variable {a a' : AbstractBook}

theorem queues_add (h : a.queues = a'.queues) (o : Order) : (a.add o).queues = (a'.add o).queues := by
  rw [add, add, h]

theorem queues_delete (h : a.queues = a'.queues) (k : OrderKey) :
    (a.delete k).queues = (a'.delete k).queues := by
  rw [delete, delete, h]

theorem queues_foldl_add (h : a.queues = a'.queues) (orders : List Order) :
    (orders.foldl add a).queues = (orders.foldl add a').queues := by
  induction orders generalizing a a' with
  | nil => exact h
  | cons o orders ih => exact ih (queues_add h o)

/-- A snapshot leaves nothing of the queues before it. -/
theorem queues_snapshot (a a' : AbstractBook) (orders : List Order) :
    (a.snapshot orders).queues = (a'.snapshot orders).queues := by
  have hempty : ({ a with queues := fun _ => [] } : AbstractBook).queues =
      ({ a' with queues := fun _ => [] } : AbstractBook).queues := rfl
  exact queues_foldl_add hempty orders

theorem queues_addScoped (h : a.queues = a'.queues) {o : Order} (ho : o.id ≠ 0) (scope : FeedScope) :
    (a.addScoped o scope false).queues = (a'.addScoped o scope false).queues := by
  have hgiven : ¬ (false = true ∨ o.id = 0) := by simp [ho]
  rw [addScoped, addScoped, if_neg hgiven, if_neg hgiven]
  exact queues_add h _

theorem queues_update (h : a.queues = a'.queues) (k : OrderKey) (newPrice : Option Price)
    (newSize : Option UInt64) :
    (a.update k newPrice newSize).queues = (a'.update k newPrice newSize).queues := by
  unfold update
  rw [h]
  cases KeyedQueues.find Order.key k a'.queues with
  | none => exact h
  | some o =>
    dsimp only
    split_ifs
    · exact queues_delete h k
    · rfl
    · exact queues_add h _

theorem queues_priority (h : a.queues = a'.queues) (k : OrderKey) (newPriority : UInt64) :
    (a.priority k newPriority).queues = (a'.priority k newPriority).queues := by
  unfold priority
  rw [h]
  cases KeyedQueues.find Order.key k a'.queues with
  | none => exact h
  | some o =>
    dsimp only
    split_ifs
    · exact h
    · exact queues_add h _

theorem queues_trade (h : a.queues = a'.queues) (tradePrice : Price) (qty : UInt64)
    (aggr : Aggressor) :
    (a.trade tradePrice qty aggr).queues = (a'.trade tradePrice qty aggr).queues := by
  have hpassive : a.passive tradePrice aggr = a'.passive tradePrice aggr := by
    cases aggr with
    | buy => rfl
    | sell => rfl
    | unknown =>
      rw [passive, passive, h]
  unfold trade
  rw [hpassive, h]
  cases a'.passive tradePrice aggr with
  | none => exact h
  | some s => rfl

/-- Operations with ids read the queues and nothing else. -/
theorem queues_apply (h : a.queues = a'.queues) {op : BookOp} (hop : op.explicit = true) :
    (a.apply op).queues = (a'.apply op).queues := by
  cases op with
  | add o => exact queues_add h _
  | addScoped o scope idMissing =>
    simp only [BookOp.explicit, Bool.and_eq_true, Bool.not_eq_true', decide_eq_true_eq] at hop
    obtain ⟨rfl, ho⟩ := hop
    exact queues_addScoped h ho scope
  | addGetKey o scope idMissing =>
    simp only [BookOp.explicit, Bool.and_eq_true, Bool.not_eq_true', decide_eq_true_eq] at hop
    obtain ⟨rfl, ho⟩ := hop
    exact queues_addScoped h ho scope
  | update id newPrice newSize => exact queues_update h _ newPrice newSize
  | updateKey key newPrice newSize => exact queues_update h key newPrice newSize
  | delete id => exact queues_delete h _
  | deleteKey key => exact queues_delete h key
  | priority id newPriority => exact queues_priority h _ newPriority
  | priorityKey key newPriority => exact queues_priority h key newPriority
  | trade tradePrice qty aggr => exact queues_trade h tradePrice qty aggr
  | snapshotPerOrder orders => exact queues_snapshot a a' orders
  | snapshotAggregated levels => exact h
  | levelSummary side price totalSize orderCount => exact h

end AbstractBook

namespace OrderBook
variable {b b' : OrderBook}

/-- The abstract book of a book. -/
def abstraction (b : OrderBook) : AbstractBook where
  queues := fun x => b.queue x.1 x.2
  nextId := fun scope => (b.synthCounters.lookup (scopeKey scope)).getD 1

theorem WF.refines (h : b.WF) : b.Refines b.abstraction := ⟨h, fun _ _ => rfl, fun _ => rfl⟩

theorem queue_apply_congr (hb : b.WF) (hb' : b'.WF)
    (h : ∀ s p, b.queue s p = b'.queue s p) {op : BookOp} (hop : op.explicit = true) (s : Side)
    (p : Price) : (b.apply op).queue s p = (b'.apply op).queue s p := by
  have hqueues : b.abstraction.queues = b'.abstraction.queues := funext (fun x => h x.1 x.2)
  rw [(hb.refines.apply op).queues, (hb'.refines.apply op).queues,
    AbstractBook.queues_apply hqueues hop]

theorem queue_snapshot_congr (hb : b.WF) (hb' : b'.WF) (orders : List Order) (s : Side)
    (p : Price) : (b.applySnapshotPerOrder orders).queue s p =
      (b'.applySnapshotPerOrder orders).queue s p := by
  rw [(hb.refines.snapshot orders).queues, (hb'.refines.snapshot orders).queues,
    AbstractBook.queues_snapshot]

end OrderBook

namespace OrderBookManager
variable {D : Type} [Double D] {symbol : String} {m m' : OrderBookManager D}

/-- Two managers with the same settings for a symbol. -/
structure SameRules (symbol : String) (m m' : OrderBookManager D) : Prop where
  tickSize : m.getTickSize symbol = m'.getTickSize symbol
  negative : m.allowNegativePrices = m'.allowNegativePrices

/-- They also agree on the queues of the symbol, and on which operations its feed lets through. -/
structure Converged (symbol : String) (m m' : OrderBookManager D) : Prop extends
    SameRules symbol m m' where
  wf : (m.book symbol).WF
  wf' : (m'.book symbol).WF
  queues : ∀ s p, (m.book symbol).queue s p = (m'.book symbol).queue s p
  stale : (m.getFeedState symbol).stale = (m'.getFeedState symbol).stale
  lastSeq : (m.getFeedState symbol).lastSeq = (m'.getFeedState symbol).lastSeq

theorem SameRules.toTicks (h : SameRules symbol m m') : m.toTicks symbol = m'.toTicks symbol := by
  funext px
  rw [OrderBookManager.toTicks, OrderBookManager.toTicks, h.tickSize]

theorem SameRules.validatePrice (h : SameRules symbol m m') :
    m.validatePrice symbol = m'.validatePrice symbol := by
  funext px
  rw [OrderBookManager.validatePrice, OrderBookManager.validatePrice, h.tickSize, h.negative]

theorem Converged.gate (h : Converged symbol m m') : m.gate symbol = m'.gate symbol := h.stale

/-- An operation that leaves alone what is kept for the symbol. -/
theorem Converged.of_parts (h : Converged symbol m m') {n n' : OrderBookManager D}
    (hn : n.part symbol = m.part symbol) (hn' : n'.part symbol = m'.part symbol) :
    Converged symbol n n' := by
  have hneg : n.allowNegativePrices = m.allowNegativePrices :=
    congrArg SymbolPart.allowNegativePrices hn
  have hneg' : n'.allowNegativePrices = m'.allowNegativePrices :=
    congrArg SymbolPart.allowNegativePrices hn'
  constructor
  · exact ⟨by rw [getTickSize_congr hn, getTickSize_congr hn', h.tickSize],
      by rw [hneg, hneg', h.negative]⟩
  · rw [book_congr hn]
    exact h.wf
  · rw [book_congr hn']
    exact h.wf'
  · rw [book_congr hn, book_congr hn']
    exact h.queues
  · rw [getFeedState_congr hn, getFeedState_congr hn', h.stale]
  · rw [getFeedState_congr hn, getFeedState_congr hn', h.lastSeq]

theorem Converged.setFeed (h : Converged symbol m m') {st st' : FeedState}
    (hstale : st.stale = st'.stale) (hseq : st.lastSeq = st'.lastSeq) :
    Converged symbol (m.setFeed symbol st) (m'.setFeed symbol st') := by
  have hget (x : OrderBookManager D) (st : FeedState) :
      (x.setFeed symbol st).getFeedState symbol = st := by
    simp [getFeedState, OrderBookManager.setFeed]
  refine ⟨⟨h.tickSize, h.negative⟩, h.wf, h.wf', h.queues, ?_, ?_⟩
  · rw [hget, hget, hstale]
  · rw [hget, hget, hseq]

/-- A mutation by the same book operation, whatever levels it probes. -/
theorem Converged.mutate (h : Converged symbol m m') (candidates candidates' : List (Side × Price))
    {mutator : OrderBook → OrderBook × Bool} {bop : BookOp}
    (hmut : ∀ b : OrderBook, (mutator b).1 = b.apply bop) (hbop : bop.explicit = true) :
    Converged symbol (m.mutateWithDelta symbol candidates mutator).mgr
      (m'.mutateWithDelta symbol candidates' mutator).mgr := by
  obtain ⟨hfeed, htick, hneg⟩ := WsFeedClient.mutateWithDelta_frame m symbol candidates mutator
  obtain ⟨hfeed', htick', hneg'⟩ := WsFeedClient.mutateWithDelta_frame m' symbol candidates' mutator
  have hbook := book_mutateWithDelta m symbol candidates mutator symbol
  have hbook' := book_mutateWithDelta m' symbol candidates' mutator symbol
  rw [if_pos rfl, hmut] at hbook hbook'
  have hstate := getFeedState_of_feed (congrFun hfeed symbol)
  have hstate' := getFeedState_of_feed (congrFun hfeed' symbol)
  refine ⟨⟨?_, by rw [hneg, hneg', h.negative]⟩, ?_, ?_, ?_, ?_, ?_⟩
  · rw [getTickSize, getTickSize, htick, htick']
    exact h.tickSize
  · rw [hbook]
    exact wf_apply h.wf bop
  · rw [hbook']
    exact wf_apply h.wf' bop
  · rw [hbook, hbook']
    exact OrderBook.queue_apply_congr h.wf h.wf' h.queues hbop
  · rw [hstate, hstate', h.stale]
  · rw [hstate, hstate', h.lastSeq]

/-- The end of a snapshot, with the books that it installs. -/
theorem converged_afterSnapshot (h : SameRules symbol m m') {b b' : OrderBook} (hb : b.WF)
    (hb' : b'.WF) (hqueues : ∀ s p, b.queue s p = b'.queue s p) {snapshotSeq : Option UInt64}
    (hseq : snapshotSeq = none →
      (m.getFeedState symbol).lastSeq = (m'.getFeedState symbol).lastSeq) :
    Converged symbol ((m.setBook symbol b).afterSnapshot symbol snapshotSeq).1
      ((m'.setBook symbol b').afterSnapshot symbol snapshotSeq).1 := by
  have hstate (x : OrderBookManager D) (c : OrderBook) :
      ((x.setBook symbol c).afterSnapshot symbol snapshotSeq).1.getFeedState symbol =
        { x.getFeedState symbol with
          stale := false, lastSeq := snapshotSeq.getD (x.getFeedState symbol).lastSeq } := by
    simp only [getFeedState, feed_afterSnapshot, Function.update_self, Option.getD_some]
    rfl
  have hbook (x : OrderBookManager D) (c : OrderBook) :
      ((x.setBook symbol c).afterSnapshot symbol snapshotSeq).1.book symbol = c := by
    rw [book_afterSnapshot, book_setBook, if_pos rfl]
  have hframe (x : OrderBookManager D) (c : OrderBook) :
      ((x.setBook symbol c).afterSnapshot symbol snapshotSeq).1.tickSize = x.tickSize ∧
      ((x.setBook symbol c).afterSnapshot symbol snapshotSeq).1.allowNegativePrices =
        x.allowNegativePrices := by
    unfold afterSnapshot maybePublishDelta
    dsimp only
    split_ifs <;> exact ⟨rfl, rfl⟩
  refine ⟨⟨?_, ?_⟩, ?_, ?_, ?_, ?_, ?_⟩
  · rw [getTickSize, getTickSize, (hframe m b).1, (hframe m' b').1]
    exact h.tickSize
  · rw [(hframe m b).2, (hframe m' b').2, h.negative]
  · rwa [hbook]
  · rwa [hbook]
  · rwa [hbook, hbook]
  · rw [hstate, hstate]
  · rw [hstate, hstate]
    cases snapshotSeq with
    | none => exact hseq rfl
    | some seq => rfl

theorem Converged.onDeleteKey (h : Converged symbol m m') (key : OrderKey) :
    Converged symbol (m.onDeleteKey symbol key).mgr (m'.onDeleteKey symbol key).mgr := by
  unfold OrderBookManager.onDeleteKey
  rw [h.gate]
  split_ifs
  · exact h
  · have hmut : ∀ b : OrderBook, (b.applyDeleteKey key).1 = b.apply (.deleteKey key) :=
      fun _ => rfl
    exact h.mutate _ _ hmut rfl

theorem Converged.onPriorityKey (h : Converged symbol m m') (key : OrderKey)
    (newPriority : UInt64) : Converged symbol (m.onPriorityKey symbol key newPriority).mgr
      (m'.onPriorityKey symbol key newPriority).mgr := by
  unfold OrderBookManager.onPriorityKey
  rw [h.gate]
  split_ifs
  · exact h
  · have hmut : ∀ b : OrderBook, (b.applyPriorityKey key newPriority).1 =
        b.apply (.priorityKey key newPriority) := fun _ => rfl
    exact h.mutate _ _ hmut rfl

theorem Converged.onUpdateKey (h : Converged symbol m m') (key : OrderKey)
    (newPrice : Option D) (newSize : Option UInt64) :
    Converged symbol (m.onUpdateKey symbol key newPrice newSize).mgr
      (m'.onUpdateKey symbol key newPrice newSize).mgr := by
  unfold OrderBookManager.onUpdateKey
  rw [h.gate, h.validatePrice, h.toTicks]
  split_ifs
  · exact h
  · exact h
  · exact h
  · exact h
  · have hmut : ∀ b : OrderBook,
        (b.applyUpdateKey key (newPrice.map (m'.toTicks symbol)) newSize).1 =
          b.apply (.updateKey key (newPrice.map (m'.toTicks symbol)) newSize) := fun _ => rfl
    exact h.mutate _ _ hmut rfl

theorem Converged.onAdd (h : Converged symbol m m') {id : UInt64} (hid : id ≠ 0) (side : Side)
    (price : D) (size priority : UInt64) (scope : FeedScope) :
    Converged symbol (m.onAdd symbol id side price size priority scope false).mgr
      (m'.onAdd symbol id side price size priority scope false).mgr := by
  unfold OrderBookManager.onAdd addedOrder
  rw [h.gate, h.validatePrice, h.toTicks]
  split_ifs
  · exact h
  · exact h
  · have hmut : ∀ b : OrderBook, (b.applyAddScoped
        { id := id, side := side, price := m'.toTicks symbol price, size := size,
          priority := priority } scope false).1 = b.apply (.addScoped
        { id := id, side := side, price := m'.toTicks symbol price, size := size,
          priority := priority } scope false) := fun _ => rfl
    exact h.mutate _ _ hmut (by simp [BookOp.explicit, hid])

theorem Converged.onAddGetKey (h : Converged symbol m m') {id : UInt64} (hid : id ≠ 0)
    (side : Side) (price : D) (size priority : UInt64) (scope : FeedScope) :
    Converged symbol (m.onAddGetKey symbol id side price size priority scope false).mgr
      (m'.onAddGetKey symbol id side price size priority scope false).mgr := by
  unfold OrderBookManager.onAddGetKey addedOrder
  rw [h.gate, h.validatePrice, h.toTicks]
  split_ifs
  · exact h
  · exact h
  · have hmut : ∀ b : OrderBook, ((b.applyAddGetKey
        { id := id, side := side, price := m'.toTicks symbol price, size := size,
          priority := priority } scope false).1, true).1 = b.apply (.addGetKey
        { id := id, side := side, price := m'.toTicks symbol price, size := size,
          priority := priority } scope false) := fun _ => rfl
    exact h.mutate _ _ hmut (by simp [BookOp.explicit, hid])

/-- The venue keys are outside what the two agree on. -/
theorem Converged.resolverPut (h : Converged symbol m m') (venueKey : String) (key : OrderKey) :
    Converged symbol (m.resolverPut symbol venueKey key) m' :=
  ⟨⟨h.tickSize, h.negative⟩, h.wf, h.wf', h.queues, h.stale, h.lastSeq⟩

theorem Converged.resolverPut' (h : Converged symbol m m') (venueKey : String) (key : OrderKey) :
    Converged symbol m (m'.resolverPut symbol venueKey key) :=
  ⟨⟨h.tickSize, h.negative⟩, h.wf, h.wf', h.queues, h.stale, h.lastSeq⟩

theorem Converged.onTrade (h : Converged symbol m m') (tradePrice : D) (size : UInt64)
    (aggr : Aggressor) : Converged symbol (m.onTrade symbol tradePrice size aggr).mgr
      (m'.onTrade symbol tradePrice size aggr).mgr := by
  unfold OrderBookManager.onTrade
  rw [h.gate, h.validatePrice, h.toTicks]
  split_ifs
  · exact h
  · exact h
  · have hmut : ∀ b : OrderBook, (b.applyTrade (m'.toTicks symbol tradePrice) size aggr).1 =
        b.apply (.trade (m'.toTicks symbol tradePrice) size aggr) := fun _ => rfl
    exact h.mutate _ _ hmut rfl

theorem Converged.onLevelSummary (h : Converged symbol m m') (side : Side) (price : D)
    (totalSize : UInt64) (orderCount : Option UInt32) :
    Converged symbol (m.onLevelSummary symbol side price totalSize orderCount).mgr
      (m'.onLevelSummary symbol side price totalSize orderCount).mgr := by
  unfold OrderBookManager.onLevelSummary
  rw [h.gate, h.validatePrice, h.toTicks]
  split_ifs
  · exact h
  · exact h
  · have hmut : ∀ b : OrderBook,
        (b.applyLevelSummary side (m'.toTicks symbol price) totalSize orderCount).1 =
          b.apply (.levelSummary side (m'.toTicks symbol price) totalSize orderCount) :=
      fun _ => rfl
    exact h.mutate _ _ hmut rfl

theorem Converged.onSeq (h : Converged symbol m m') (seq : UInt64) :
    Converged symbol (m.onSeq symbol seq).mgr (m'.onSeq symbol seq).mgr := by
  unfold OrderBookManager.onSeq
  dsimp only
  rw [h.stale, h.lastSeq]
  split_ifs
  · exact h.setFeed h.stale h.lastSeq
  · exact h.setFeed rfl rfl
  · exact h.setFeed rfl rfl

/-- Whatever came before it, a per-order snapshot with a number brings the two together. -/
theorem converged_onSnapshotPerOrder (h : SameRules symbol m m') (hwf : (m.book symbol).WF)
    (hwf' : (m'.book symbol).WF) (tickOrders : List Order) {snapshotSeq : Option UInt64}
    (hseq : snapshotSeq = none →
      (m.getFeedState symbol).lastSeq = (m'.getFeedState symbol).lastSeq) :
    Converged symbol (m.onSnapshotPerOrder symbol tickOrders snapshotSeq).mgr
      (m'.onSnapshotPerOrder symbol tickOrders snapshotSeq).mgr :=
  converged_afterSnapshot h (wf_apply hwf (.snapshotPerOrder tickOrders))
    (wf_apply hwf' (.snapshotPerOrder tickOrders))
    (OrderBook.queue_snapshot_congr hwf hwf' tickOrders) hseq

theorem Converged.onSnapshotAggregated (h : Converged symbol m m')
    (levelsD : List (LevelSnapshotEntryD D)) (snapshotSeq : Option UInt64) :
    Converged symbol (m.onSnapshotAggregated symbol levelsD snapshotSeq).mgr
      (m'.onSnapshotAggregated symbol levelsD snapshotSeq).mgr := by
  unfold OrderBookManager.onSnapshotAggregated
  rw [h.toTicks]
  have hkept (levels : List LevelSnapshotEntry) :
      (BookOp.snapshotAggregated levels).explicit = true := rfl
  exact converged_afterSnapshot h.toSameRules (wf_apply h.wf (.snapshotAggregated _))
    (wf_apply h.wf' (.snapshotAggregated _))
    (OrderBook.queue_apply_congr h.wf h.wf' h.queues (hkept _)) (fun _ => h.lastSeq)

theorem Converged.setTickSize (h : Converged symbol m m') (tickSize : D) :
    Converged symbol (m.setTickSize symbol tickSize) (m'.setTickSize symbol tickSize) := by
  refine ⟨⟨?_, h.negative⟩, h.wf, h.wf', h.queues, h.stale, h.lastSeq⟩
  simp [OrderBookManager.setTickSize, getTickSize]

theorem Converged.exec_keyed (h : Converged symbol m m') {op : ManagerOp D}
    (hsymbol : op.symbol = some symbol) (hop : op.explicit = true) :
    Converged symbol (m.exec op).1 (m'.exec op).1 := by
  cases op with
  | setTickSize s tickSize =>
    cases hsymbol
    exact h.setTickSize tickSize
  | setAllowNegativePrices allow => cases hsymbol
  | seq s seq =>
    cases hsymbol
    exact h.onSeq seq
  | reset s newEpoch =>
    cases hsymbol
    exact h.setFeed rfl rfl
  | resolverSetCapacity cap => cases hsymbol
  | resolverPut s venueKey key =>
    cases hsymbol
    exact (h.resolverPut venueKey key).resolverPut' venueKey key
  | addGetKey s id side price size priority scope idMissing =>
    cases hsymbol
    simp only [ManagerOp.explicit, Bool.and_eq_true, Bool.not_eq_true', decide_eq_true_eq] at hop
    obtain ⟨rfl, hid⟩ := hop
    exact h.onAddGetKey hid side price size priority scope
  | add s id side price size priority scope idMissing =>
    cases hsymbol
    simp only [ManagerOp.explicit, Bool.and_eq_true, Bool.not_eq_true', decide_eq_true_eq] at hop
    obtain ⟨rfl, hid⟩ := hop
    exact h.onAdd hid side price size priority scope
  | update s id scope newPrice newSize synthetic =>
    cases hsymbol
    exact h.onUpdateKey _ newPrice newSize
  | updateKey s key newPrice newSize =>
    cases hsymbol
    exact h.onUpdateKey key newPrice newSize
  | delete s id scope synthetic =>
    cases hsymbol
    exact h.onDeleteKey _
  | deleteKey s key =>
    cases hsymbol
    exact h.onDeleteKey key
  | priority s id scope newPriority synthetic =>
    cases hsymbol
    exact h.onPriorityKey _ newPriority
  | priorityKey s key newPriority =>
    cases hsymbol
    exact h.onPriorityKey key newPriority
  | addWithVenueKey s venueKey id side price size priority scope idMissing =>
    cases hsymbol
    simp only [ManagerOp.explicit, Bool.and_eq_true, Bool.not_eq_true', decide_eq_true_eq] at hop
    obtain ⟨rfl, hid⟩ := hop
    have hadd := h.onAddGetKey hid side price size priority scope
    simp only [OrderBookManager.exec, Outcome.effect, onAddWithVenueKey]
    split_ifs
    · exact hadd
    · exact hadd.resolverPut' venueKey _
    · exact hadd.resolverPut venueKey _
    · exact (hadd.resolverPut venueKey _).resolverPut' venueKey _
  | updateByVenueKey s venueKey newPrice newSize => cases hop
  | deleteByVenueKey s venueKey => cases hop
  | trade s tradePrice size aggr =>
    cases hsymbol
    exact h.onTrade tradePrice size aggr
  | snapshotPerOrder s tickOrders snapshotSeq =>
    cases hsymbol
    exact converged_onSnapshotPerOrder h.toSameRules h.wf h.wf' tickOrders (fun _ => h.lastSeq)
  | snapshotAggregated s levelsD snapshotSeq =>
    cases hsymbol
    exact h.onSnapshotAggregated levelsD snapshotSeq
  | levelSummary s side price totalSize orderCount =>
    cases hsymbol
    exact h.onLevelSummary side price totalSize orderCount

theorem Converged.exec (h : Converged symbol m m') {op : ManagerOp D}
    (hop : op.symbol = some symbol → op.explicit = true) :
    Converged symbol (m.exec op).1 (m'.exec op).1 := by
  cases hsymbol : op.symbol with
  | none =>
    cases op with
    | setAllowNegativePrices allow =>
      exact ⟨⟨h.tickSize, rfl⟩, h.wf, h.wf', h.queues, h.stale, h.lastSeq⟩
    | resolverSetCapacity cap =>
      exact ⟨⟨h.tickSize, h.negative⟩, h.wf, h.wf', h.queues, h.stale, h.lastSeq⟩
    | _ => cases hsymbol
  | some s =>
    by_cases hs : s = symbol
    · subst hs
      exact h.exec_keyed hsymbol (hop hsymbol)
    · have hlocal := local_exec op s hsymbol
      exact h.of_parts (hlocal.elsewhere m symbol (Ne.symm hs))
        (hlocal.elsewhere m' symbol (Ne.symm hs))

theorem Converged.run (h : Converged symbol m m') {ops : List (ManagerOp D)}
    (hops : ∀ op ∈ ops, op.symbol = some symbol → op.explicit = true) :
    Converged symbol (m.runFrom ops).1 (m'.runFrom ops).1 := by
  induction ops using List.reverseRecOn with
  | nil => exact h
  | append_singleton ops op ih =>
    rw [runFrom_concat, runFrom_concat]
    have hbefore := ih (fun op' hop' => hops op' (List.mem_append_left _ hop'))
    exact hbefore.exec (hops op (List.mem_append_right _ (List.mem_singleton_self op)))

/-- Two managers with any pasts but the same settings for a symbol: from a numbered per-order
snapshot on, the same operations leave them with the same queues and let the same ones through. -/
theorem resync_converges (past past' later : List (ManagerOp D))
    (hrules : SameRules symbol (OrderBookManager.run past).1 (OrderBookManager.run past').1)
    (tickOrders : List Order) (snapshotSeq : UInt64)
    (hlater : ∀ op ∈ later, op.symbol = some symbol → op.explicit = true) :
    let snapshot := ManagerOp.snapshotPerOrder symbol tickOrders (some snapshotSeq)
    let n := (OrderBookManager.run (past ++ snapshot :: later)).1
    let n' := (OrderBookManager.run (past' ++ snapshot :: later)).1
    (∀ s p, (n.book symbol).queue s p = (n'.book symbol).queue s p) ∧
      (n.getFeedState symbol).stale = (n'.getFeedState symbol).stale ∧
      (n.getFeedState symbol).lastSeq = (n'.getFeedState symbol).lastSeq := by
  intro snapshot n n'
  have hsplit (ops : List (ManagerOp D)) :
      (OrderBookManager.run (ops ++ snapshot :: later)).1 =
        ((((OrderBookManager.run ops).1.exec snapshot).1).runFrom later).1 := by
    rw [OrderBookManager.run, runFrom_append, runFrom_cons]
    rfl
  have hsnapshot : Converged symbol ((OrderBookManager.run past).1.exec snapshot).1
      ((OrderBookManager.run past').1.exec snapshot).1 :=
    converged_onSnapshotPerOrder hrules (run_wf past symbol) (run_wf past' symbol) tickOrders
      (fun hnone => by cases hnone)
  have hrun := hsnapshot.run hlater
  rw [← hsplit past, ← hsplit past'] at hrun
  exact ⟨hrun.queues, hrun.stale, hrun.lastSeq⟩

/-- A feed that is reset while an order rests. -/
def feedBeforeSnapshot : List (ManagerOp ExactDouble) :=
  [.add "AAPL" 1 .bid (.fin 100) 10 0 {} false, .reset "AAPL" 1]

/-- The same feed after its snapshot: one more order, and a trade. -/
def feedAfterSnapshot : List (ManagerOp ExactDouble) :=
  [.add "AAPL" 3 .bid (.fin 100) 5 0 {} false, .trade "AAPL" (.fin 100) 4 .sell]

/-- A manager that still holds the order from before the reset, and one that never saw it. -/
theorem resync_converges_restingOrder :
    let snapshot : ManagerOp ExactDouble :=
      .snapshotPerOrder "AAPL" [{ id := 2, price := ⟨1000000⟩, size := 10 }] (some 7)
    let n := (run (feedBeforeSnapshot ++ snapshot :: feedAfterSnapshot)).1
    let n' := (run ([] ++ snapshot :: feedAfterSnapshot)).1
    (∀ s p, (n.book "AAPL").queue s p = (n'.book "AAPL").queue s p) ∧
      (n.getFeedState "AAPL").stale = (n'.getFeedState "AAPL").stale ∧
      (n.getFeedState "AAPL").lastSeq = (n'.getFeedState "AAPL").lastSeq := by
  have hrules : SameRules "AAPL" (run feedBeforeSnapshot).1
      (run ([] : List (ManagerOp ExactDouble))).1 := ⟨by decide +kernel, by decide +kernel⟩
  have hlater : ∀ op ∈ feedAfterSnapshot, op.symbol = some "AAPL" → op.explicit = true := by
    intro op hop _
    simp only [feedAfterSnapshot, List.mem_cons, List.not_mem_nil, or_false] at hop
    rcases hop with rfl | rfl
    · rfl
    · rfl
  exact resync_converges feedBeforeSnapshot [] feedAfterSnapshot hrules
    [{ id := 2, price := ⟨1000000⟩, size := 10 }] 7 hlater

end OrderBookManager
end GmaEngine
