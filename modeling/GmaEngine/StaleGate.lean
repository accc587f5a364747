import GmaEngine.ManagerRuns

/-!
# The stale gate

A reset or a gap in the sequence makes a symbol stale, and only a snapshot of the symbol makes
it fresh again. In between every other operation leaves the symbol's book and publication
counter as they are and publishes nothing for it, and the operations on other symbols do the
same whatever the feed state of the stale symbol is.
-/

namespace GmaEngine

/-- The operation is a snapshot of the symbol. -/
def ManagerOp.snapshots {D : Type} (symbol : String) : ManagerOp D → Bool
  | .snapshotPerOrder s .. => decide (s = symbol)
  | .snapshotAggregated s .. => decide (s = symbol)
  | _ => false

/-- The operations that set the feed state of their symbol. -/
def ManagerOp.controlsFeed {D : Type} : ManagerOp D → Bool
  | .seq .. => true
  | .reset .. => true
  | .snapshotPerOrder .. => true
  | .snapshotAggregated .. => true
  | _ => false

/-- What the caller of an operation is told. -/
inductive Reply where
  | done
  | flag (ok : Bool)
  | key (k : OrderKey)
  deriving DecidableEq, Repr

namespace OrderBookManager
variable {D : Type}

def reply [Double D] (m : OrderBookManager D) : ManagerOp D → Reply
  | .setTickSize .. => .done
  | .setAllowNegativePrices _ => .done
  | .seq symbol seq => .flag (m.onSeq symbol seq).ret
  | .reset .. => .done
  | .resolverSetCapacity _ => .done
  | .resolverPut .. => .done
  | .addGetKey symbol id side price size priority scope idMissing =>
    .key (m.onAddGetKey symbol id side price size priority scope idMissing).ret
  | .add symbol id side price size priority scope idMissing =>
    .flag (m.onAdd symbol id side price size priority scope idMissing).ret
  | .update symbol id scope newPrice newSize synthetic =>
    .flag (m.onUpdate symbol id scope newPrice newSize synthetic).ret
  | .updateKey symbol key newPrice newSize => .flag (m.onUpdateKey symbol key newPrice newSize).ret
  | .delete symbol id scope synthetic => .flag (m.onDelete symbol id scope synthetic).ret
  | .deleteKey symbol key => .flag (m.onDeleteKey symbol key).ret
  | .priority symbol id scope newPriority synthetic =>
    .flag (m.onPriority symbol id scope newPriority synthetic).ret
  | .priorityKey symbol key newPriority => .flag (m.onPriorityKey symbol key newPriority).ret
  | .addWithVenueKey symbol venueKey id side price size priority scope idMissing =>
    .flag (m.onAddWithVenueKey symbol venueKey id side price size priority scope idMissing).ret
  | .updateByVenueKey symbol venueKey newPrice newSize =>
    .flag (m.onUpdateByVenueKey symbol venueKey newPrice newSize).ret
  | .deleteByVenueKey symbol venueKey => .flag (m.onDeleteByVenueKey symbol venueKey).ret
  | .trade symbol tradePrice size aggr => .flag (m.onTrade symbol tradePrice size aggr).ret
  | .snapshotPerOrder .. => .done
  | .snapshotAggregated .. => .done
  | .levelSummary symbol side price totalSize orderCount =>
    .flag (m.onLevelSummary symbol side price totalSize orderCount).ret

/-- What an operation does that checks the gate of its symbol and does not control the feed:
nothing, or one mutation when it finds the gate open. -/
inductive Gated (m : OrderBookManager D) (symbol : Option String)
    (x : OrderBookManager D × List BookDelta) : Prop
  | closed (hfeed : x.1.feed = m.feed) (h : Alike x (m, []))
  | opened (hfeed : x.1.feed = m.feed) (s : String) (hs : symbol = some s)
      (hopen : m.gate s = false) (candidates : List (Side × Price))
      (mutator : OrderBook → OrderBook × Bool)
      (h : Alike x (m.mutateWithDelta s candidates mutator).effect)

section Gated
variable {m : OrderBookManager D} {s : String}

theorem Gated.refl (m : OrderBookManager D) (symbol : Option String) : Gated m symbol (m, []) :=
  .closed rfl (.refl _)

theorem Gated.feed {symbol : Option String} {x : OrderBookManager D × List BookDelta}
    (h : Gated m symbol x) : x.1.feed = m.feed := by
  cases h with
  | closed hfeed _ => exact hfeed
  | opened hfeed _ _ _ _ _ _ => exact hfeed

theorem feed_maybePublishDelta (levels : List LevelDelta)
    (newBid newAsk : Option (Price × UInt64)) :
    (m.maybePublishDelta s levels newBid newAsk).1.feed = m.feed := by
  unfold maybePublishDelta
  split_ifs <;> rfl

theorem gated_mutateWithDelta (hopen : ¬ m.gate s = true) (candidates : List (Side × Price))
    (mutator : OrderBook → OrderBook × Bool) :
    Gated m (some s) (m.mutateWithDelta s candidates mutator).effect := by
  refine .opened ?_ s rfl (by simpa using hopen) candidates mutator (.refl _)
  unfold mutateWithDelta
  dsimp only
  split_ifs
  · rfl
  all_goals exact feed_maybePublishDelta _ _ _

theorem gated_onDeleteKey (key : OrderKey) : Gated m (some s) (m.onDeleteKey s key).effect := by
  unfold onDeleteKey
  split_ifs with hgate
  · exact .refl m _
  · exact gated_mutateWithDelta hgate _ _

theorem gated_onPriorityKey (key : OrderKey) (newPriority : UInt64) :
    Gated m (some s) (m.onPriorityKey s key newPriority).effect := by
  unfold onPriorityKey
  split_ifs with hgate
  · exact .refl m _
  · exact gated_mutateWithDelta hgate _ _

variable [Double D]

theorem gated_onAdd (id : UInt64) (side : Side) (price : D) (size priority : UInt64)
    (scope : FeedScope) (idMissing : Bool) :
    Gated m (some s) (m.onAdd s id side price size priority scope idMissing).effect := by
  unfold onAdd
  split_ifs with hgate
  · exact .refl m _
  · exact .refl m _
  · exact gated_mutateWithDelta hgate _ _

theorem gated_onAddGetKey (id : UInt64) (side : Side) (price : D) (size priority : UInt64)
    (scope : FeedScope) (idMissing : Bool) :
    Gated m (some s) (m.onAddGetKey s id side price size priority scope idMissing).effect := by
  unfold onAddGetKey
  split_ifs with hgate
  · exact .refl m _
  · exact .refl m _
  · exact gated_mutateWithDelta hgate _ _

theorem gated_onUpdateKey (key : OrderKey) (newPrice : Option D) (newSize : Option UInt64) :
    Gated m (some s) (m.onUpdateKey s key newPrice newSize).effect := by
  unfold onUpdateKey
  split_ifs with hgate
  · exact .refl m _
  · exact .refl m _
  · exact .refl m _
  · exact .refl m _
  · exact gated_mutateWithDelta hgate _ _

theorem gated_onTrade (tradePrice : D) (size : UInt64) (aggr : Aggressor) :
    Gated m (some s) (m.onTrade s tradePrice size aggr).effect := by
  unfold onTrade
  split_ifs with hgate
  · exact .refl m _
  · exact .refl m _
  · exact gated_mutateWithDelta hgate _ _

theorem gated_onLevelSummary (side : Side) (price : D) (totalSize : UInt64)
    (orderCount : Option UInt32) :
    Gated m (some s) (m.onLevelSummary s side price totalSize orderCount).effect := by
  unfold onLevelSummary
  split_ifs with hgate
  · exact .refl m _
  · exact .refl m _
  · exact gated_mutateWithDelta hgate _ _

/-- Every operation besides sequence numbers, resets and snapshots is behind the gate. -/
theorem gated_exec {op : ManagerOp D} (h : op.controlsFeed = false) :
    Gated m op.symbol (m.exec op) := by
  cases op with
  | setTickSize s tickSize => exact .closed rfl (.refl _)
  | setAllowNegativePrices allow => exact .closed rfl (.refl _)
  | seq s seq => cases h
  | reset s newEpoch => cases h
  | resolverSetCapacity cap => exact .closed rfl (.refl _)
  | resolverPut s venueKey key => exact .closed rfl (.refl _)
  | addGetKey s id side price size priority scope idMissing =>
    exact gated_onAddGetKey id side price size priority scope idMissing
  | add s id side price size priority scope idMissing =>
    exact gated_onAdd id side price size priority scope idMissing
  | update s id scope newPrice newSize synthetic => exact gated_onUpdateKey _ newPrice newSize
  | updateKey s key newPrice newSize => exact gated_onUpdateKey key newPrice newSize
  | delete s id scope synthetic => exact gated_onDeleteKey _
  | deleteKey s key => exact gated_onDeleteKey key
  | priority s id scope newPriority synthetic => exact gated_onPriorityKey _ newPriority
  | priorityKey s key newPriority => exact gated_onPriorityKey key newPriority
  | addWithVenueKey s venueKey id side price size priority scope idMissing =>
    have hadd := gated_onAddGetKey (m := m) (s := s) id side price size priority scope idMissing
    simp only [exec, Outcome.effect, onAddWithVenueKey]
    split_ifs
    · exact hadd
    · -- a key may be put in the resolver, which nobody sees
      cases hadd with
      | closed hfeed h => exact .closed hfeed h
      | opened hfeed s' hs hopen candidates mutator h =>
        exact .opened hfeed s' hs hopen candidates mutator h
  | updateByVenueKey s venueKey newPrice newSize =>
    simp only [exec, onUpdateByVenueKey]
    split_ifs
    · exact .refl m _
    · cases m.resolverGet s venueKey with
      | none => exact .refl m _
      | some k => exact gated_onUpdateKey k newPrice newSize
  | deleteByVenueKey s venueKey =>
    simp only [exec, onDeleteByVenueKey]
    split_ifs
    · exact .refl m _
    · cases m.resolverGet s venueKey with
      | none => exact .refl m _
      | some k => exact gated_onDeleteKey k
  | trade s tradePrice size aggr => exact gated_onTrade tradePrice size aggr
  | snapshotPerOrder s tickOrders snapshotSeq => cases h
  | snapshotAggregated s levelsD snapshotSeq => cases h
  | levelSummary s side price totalSize orderCount =>
    exact gated_onLevelSummary side price totalSize orderCount

end Gated

/-- Nothing that subscribers and readers see of the symbol has changed. -/
structure Untouched (symbol : String) (m : OrderBookManager D)
    (x : OrderBookManager D × List BookDelta) : Prop where
  books : x.1.books symbol = m.books symbol
  pubSeq : x.1.pubSeq symbol = m.pubSeq symbol
  deltas : ∀ d ∈ x.2, d.symbol ≠ symbol
  stale : x.1.isStale symbol = m.isStale symbol

section Untouched
variable {m : OrderBookManager D} {s symbol : String}

theorem Untouched.refl (m : OrderBookManager D) (symbol : String) : Untouched symbol m (m, []) :=
  ⟨rfl, rfl, fun _ hd => (by cases hd), rfl⟩

theorem isStale_setFeed_of_ne (st : FeedState) (h : s ≠ symbol) :
    (m.setFeed s st).isStale symbol = m.isStale symbol := by
  simp only [isStale, getFeedState, setFeed, Function.update_of_ne (Ne.symm h)]

theorem untouched_maybePublishDelta (h : s ≠ symbol) (levels : List LevelDelta)
    (newBid newAsk : Option (Price × UInt64)) :
    Untouched symbol m (m.maybePublishDelta s levels newBid newAsk) := by
  unfold maybePublishDelta
  split_ifs
  · exact Untouched.refl m symbol
  · refine ⟨rfl, Function.update_of_ne (Ne.symm h) _ _, ?_, rfl⟩
    intro d hd
    obtain rfl := List.mem_singleton.mp hd
    exact h

theorem Untouched.after_setBook (h : s ≠ symbol) {b : OrderBook}
    {x : OrderBookManager D × List BookDelta} (hx : Untouched symbol (m.setBook s b) x) :
    Untouched symbol m x :=
  ⟨hx.books.trans (Function.update_of_ne (Ne.symm h) _ _), hx.pubSeq, hx.deltas, hx.stale⟩

theorem untouched_mutateWithDelta (h : s ≠ symbol) (candidates : List (Side × Price))
    (mutator : OrderBook → OrderBook × Bool) :
    Untouched symbol m (m.mutateWithDelta s candidates mutator).effect := by
  apply Untouched.after_setBook h (b := (mutator (m.book s)).1)
  unfold mutateWithDelta
  dsimp only
  split_ifs
  · exact Untouched.refl _ symbol
  all_goals exact untouched_maybePublishDelta h _ _ _

theorem untouched_afterSnapshot (h : s ≠ symbol) (snapshotSeq : Option UInt64) :
    Untouched symbol m (m.afterSnapshot s snapshotSeq) := by
  have hpublish := untouched_maybePublishDelta (m := m.setFeed s { m.getFeedState s with
    stale := false, lastSeq := snapshotSeq.getD (m.getFeedState s).lastSeq }) h []
    ((m.book s).bestBid.map (fun p => (p, (m.book s).bestBidSize)))
    ((m.book s).bestAsk.map (fun p => (p, (m.book s).bestAskSize)))
  exact ⟨hpublish.books, hpublish.pubSeq, hpublish.deltas,
    hpublish.stale.trans (isStale_setFeed_of_ne _ h)⟩

theorem Gated.untouched {op : Option String} {x : OrderBookManager D × List BookDelta}
    (hx : Gated m op x) (h : op ≠ some symbol ∨ m.gate symbol = true) : Untouched symbol m x := by
  have hstale : x.1.isStale symbol = m.isStale symbol := by
    simp only [isStale, getFeedState, hx.feed]
  cases hx with
  | closed hfeed hsame =>
    obtain ⟨hbooks, hseq, hdeltas⟩ := hsame
    refine ⟨congrFun hbooks symbol, congrFun hseq symbol, ?_, hstale⟩
    rw [hdeltas]
    exact fun _ hd => (by cases hd)
  | opened hfeed s hs hopen candidates mutator hsame =>
    have hne : s ≠ symbol := by
      rintro rfl
      rcases h with hne | hgate
      · exact hne hs
      · rw [hopen] at hgate
        cases hgate
    obtain ⟨hbooks, hseq, hdeltas⟩ := hsame
    have hmut := untouched_mutateWithDelta (m := m) hne candidates mutator
    refine ⟨(congrFun hbooks symbol).trans hmut.books, (congrFun hseq symbol).trans hmut.pubSeq,
      ?_, hstale⟩
    rw [hdeltas]
    exact hmut.deltas

variable [Double D]

omit [Double D] in
/-- Sequence numbers that a stale symbol is offered are refused. -/
theorem untouched_onSeq (h : s ≠ symbol ∨ m.gate symbol = true) (seq : UInt64) :
    Untouched symbol m (m.onSeq s seq).effect := by
  have hfeed : ∀ st : FeedState, (s = symbol → st.stale = true) →
      Untouched symbol m (m.setFeed s st, []) := by
    intro st hst
    refine ⟨rfl, rfl, fun _ hd => (by cases hd), ?_⟩
    by_cases hs : s = symbol
    · subst hs
      have hstale : m.isStale s = true := h.resolve_left (fun hne => hne rfl)
      rw [hstale]
      simp [isStale, getFeedState, setFeed, hst rfl]
    · exact isStale_setFeed_of_ne st hs
  unfold onSeq
  dsimp only
  split_ifs with hstale hnext
  · exact hfeed _ (fun _ => hstale)
  · refine hfeed _ ?_
    rintro rfl
    exact absurd (h.resolve_left (fun hne => hne rfl)) hstale
  · exact hfeed _ (fun _ => rfl)

/-- The step lemma: a stale symbol is left alone by all but its own snapshots, and by the
operations on other symbols in any case. -/
theorem untouched_exec {op : ManagerOp D} (hop : op.snapshots symbol = false)
    (h : op.symbol ≠ some symbol ∨ m.gate symbol = true) : Untouched symbol m (m.exec op) := by
  have hs : ∀ s, op.symbol = some s → s ≠ symbol ∨ m.gate symbol = true := by
    intro s heq
    exact h.imp_left (fun hne hsym => hne (heq.trans (congrArg some hsym)))
  cases op with
  | seq s seq => exact untouched_onSeq (hs s rfl) seq
  | reset s newEpoch =>
    refine ⟨rfl, rfl, fun _ hd => (by cases hd), ?_⟩
    by_cases hsym : s = symbol
    · subst hsym
      have hstale : m.isStale s = true := (hs s rfl).resolve_left (fun hne => hne rfl)
      rw [hstale]
      simp [exec, onReset, isStale, getFeedState, setFeed]
    · exact isStale_setFeed_of_ne _ hsym
  | snapshotPerOrder s tickOrders snapshotSeq =>
    have hne : s ≠ symbol := of_decide_eq_false hop
    exact (untouched_afterSnapshot hne snapshotSeq).after_setBook hne
  | snapshotAggregated s levelsD snapshotSeq =>
    have hne : s ≠ symbol := of_decide_eq_false hop
    exact (untouched_afterSnapshot hne snapshotSeq).after_setBook hne
  | _ => exact (gated_exec rfl).untouched h

/-- The run lemma. -/
theorem untouched_runFrom {ops : List (ManagerOp D)} (hstale : m.isStale symbol = true)
    (hops : ∀ op ∈ ops, op.snapshots symbol = false) : Untouched symbol m (m.runFrom ops) := by
  induction ops using List.reverseRecOn with
  | nil => exact Untouched.refl m symbol
  | append_singleton ops op ih =>
    have hbefore := ih (fun op' hop' => hops op' (List.mem_append_left _ hop'))
    have hgate : (m.runFrom ops).1.gate symbol = true := hbefore.stale.trans hstale
    have hstep := untouched_exec (hops op (by simp)) (.inr hgate)
    rw [runFrom_concat]
    refine ⟨hstep.books.trans hbefore.books, hstep.pubSeq.trans hbefore.pubSeq, ?_,
      hstep.stale.trans hbefore.stale⟩
    intro d hd
    rcases List.mem_append.mp hd with hd | hd
    · exact hbefore.deltas d hd
    · exact hstep.deltas d hd

end Untouched

end OrderBookManager

/-- The same outcome with another feed state of a symbol. -/
def Outcome.withFeed {D α : Type} (o : Outcome D α) (symbol : String) (st : FeedState) :
    Outcome D α :=
  { o with mgr := o.mgr.setFeed symbol st }

theorem Outcome.withFeed_spec {D α : Type} {o o' : Outcome D α} {symbol : String} {st : FeedState}
    (h : o' = o.withFeed symbol st) (f : α → Reply) :
    o'.effect = (o.effect.1.setFeed symbol st, o.effect.2) ∧ f o'.ret = f o.ret := by
  subst h
  exact ⟨rfl, rfl⟩

namespace OrderBookManager
variable {D : Type}

section OtherSymbols
variable {m : OrderBookManager D} {s symbol : String} (st : FeedState)

theorem setFeed_setFeed_of_ne (h : s ≠ symbol) (st' : FeedState) :
    (m.setFeed symbol st).setFeed s st' = (m.setFeed s st').setFeed symbol st := by
  simp only [setFeed, Function.update_comm (Ne.symm h)]

theorem getFeedState_setFeed_of_ne (h : s ≠ symbol) :
    (m.setFeed symbol st).getFeedState s = m.getFeedState s := by
  simp only [getFeedState, setFeed, Function.update_of_ne h]

theorem gate_setFeed_of_ne (h : s ≠ symbol) : (m.setFeed symbol st).gate s = m.gate s := by
  simp only [gate, getFeedState_setFeed_of_ne st h]

theorem mutateWithDelta_setFeed (candidates : List (Side × Price))
    (mutator : OrderBook → OrderBook × Bool) :
    (m.setFeed symbol st).mutateWithDelta s candidates mutator =
      (m.mutateWithDelta s candidates mutator).withFeed symbol st := by
  unfold mutateWithDelta maybePublishDelta
  dsimp only [book_setFeed]
  split_ifs <;> rfl

theorem maybePublishDelta_setFeed (levels : List LevelDelta)
    (newBid newAsk : Option (Price × UInt64)) :
    (m.setFeed symbol st).maybePublishDelta s levels newBid newAsk =
      ((m.maybePublishDelta s levels newBid newAsk).1.setFeed symbol st,
        (m.maybePublishDelta s levels newBid newAsk).2) := by
  unfold maybePublishDelta
  split_ifs <;> rfl

theorem afterSnapshot_setFeed (h : s ≠ symbol) (snapshotSeq : Option UInt64) :
    (m.setFeed symbol st).afterSnapshot s snapshotSeq =
      ((m.afterSnapshot s snapshotSeq).1.setFeed symbol st, (m.afterSnapshot s snapshotSeq).2) := by
  unfold afterSnapshot
  dsimp only [book_setFeed]
  rw [getFeedState_setFeed_of_ne st h, setFeed_setFeed_of_ne st h]
  exact maybePublishDelta_setFeed st _ _ _

theorem onSeq_setFeed (h : s ≠ symbol) (seq : UInt64) :
    (m.setFeed symbol st).onSeq s seq = (m.onSeq s seq).withFeed symbol st := by
  unfold onSeq
  simp only [getFeedState_setFeed_of_ne st h, setFeed_setFeed_of_ne st h]
  split_ifs <;> rfl

theorem onDeleteKey_setFeed (h : s ≠ symbol) (key : OrderKey) :
    (m.setFeed symbol st).onDeleteKey s key = (m.onDeleteKey s key).withFeed symbol st := by
  unfold onDeleteKey
  simp only [gate_setFeed_of_ne st h, mutateWithDelta_setFeed, book_setFeed]
  split_ifs <;> rfl

theorem onPriorityKey_setFeed (h : s ≠ symbol) (key : OrderKey) (newPriority : UInt64) :
    (m.setFeed symbol st).onPriorityKey s key newPriority =
      (m.onPriorityKey s key newPriority).withFeed symbol st := by
  unfold onPriorityKey
  simp only [gate_setFeed_of_ne st h, mutateWithDelta_setFeed]
  split_ifs <;> rfl

variable [Double D]

theorem validatePrice_setFeed (px : D) :
    (m.setFeed symbol st).validatePrice s px = m.validatePrice s px := rfl

theorem toTicks_setFeed (px : D) : (m.setFeed symbol st).toTicks s px = m.toTicks s px := rfl

theorem onAdd_setFeed (h : s ≠ symbol) (id : UInt64) (side : Side) (price : D)
    (size priority : UInt64) (scope : FeedScope) (idMissing : Bool) :
    (m.setFeed symbol st).onAdd s id side price size priority scope idMissing =
      (m.onAdd s id side price size priority scope idMissing).withFeed symbol st := by
  unfold onAdd
  simp only [gate_setFeed_of_ne st h, validatePrice_setFeed, mutateWithDelta_setFeed, addedOrder,
    toTicks_setFeed]
  split_ifs <;> rfl

theorem onAddGetKey_setFeed (h : s ≠ symbol) (id : UInt64) (side : Side) (price : D)
    (size priority : UInt64) (scope : FeedScope) (idMissing : Bool) :
    (m.setFeed symbol st).onAddGetKey s id side price size priority scope idMissing =
      (m.onAddGetKey s id side price size priority scope idMissing).withFeed symbol st := by
  unfold onAddGetKey
  simp only [gate_setFeed_of_ne st h, validatePrice_setFeed, mutateWithDelta_setFeed, addedOrder,
    toTicks_setFeed, book_setFeed]
  split_ifs <;> rfl

theorem onUpdateKey_setFeed (h : s ≠ symbol) (key : OrderKey) (newPrice : Option D)
    (newSize : Option UInt64) :
    (m.setFeed symbol st).onUpdateKey s key newPrice newSize =
      (m.onUpdateKey s key newPrice newSize).withFeed symbol st := by
  have hticks : (m.setFeed symbol st).toTicks s = m.toTicks s := by
    funext px
    exact toTicks_setFeed st px
  unfold onUpdateKey
  simp only [gate_setFeed_of_ne st h, validatePrice_setFeed, mutateWithDelta_setFeed, book_setFeed,
    hticks]
  split_ifs <;> rfl

theorem onTrade_setFeed (h : s ≠ symbol) (tradePrice : D) (size : UInt64) (aggr : Aggressor) :
    (m.setFeed symbol st).onTrade s tradePrice size aggr =
      (m.onTrade s tradePrice size aggr).withFeed symbol st := by
  unfold onTrade
  simp only [gate_setFeed_of_ne st h, validatePrice_setFeed, mutateWithDelta_setFeed, book_setFeed,
    toTicks_setFeed]
  split_ifs <;> rfl

theorem onLevelSummary_setFeed (h : s ≠ symbol) (side : Side) (price : D) (totalSize : UInt64)
    (orderCount : Option UInt32) :
    (m.setFeed symbol st).onLevelSummary s side price totalSize orderCount =
      (m.onLevelSummary s side price totalSize orderCount).withFeed symbol st := by
  unfold onLevelSummary
  simp only [gate_setFeed_of_ne st h, validatePrice_setFeed, mutateWithDelta_setFeed,
    toTicks_setFeed]
  split_ifs <;> rfl

theorem onAddWithVenueKey_setFeed (h : s ≠ symbol) (venueKey : String) (id : UInt64) (side : Side)
    (price : D) (size priority : UInt64) (scope : FeedScope) (idMissing : Bool) :
    (m.setFeed symbol st).onAddWithVenueKey s venueKey id side price size priority scope idMissing =
      (m.onAddWithVenueKey s venueKey id side price size priority scope idMissing).withFeed
        symbol st := by
  unfold onAddWithVenueKey
  rw [onAddGetKey_setFeed st h]
  dsimp only [Outcome.withFeed]
  split_ifs <;> rfl

theorem onUpdateByVenueKey_setFeed (h : s ≠ symbol) (venueKey : String) (newPrice : Option D)
    (newSize : Option UInt64) :
    (m.setFeed symbol st).onUpdateByVenueKey s venueKey newPrice newSize =
      (m.onUpdateByVenueKey s venueKey newPrice newSize).withFeed symbol st := by
  have hget : (m.setFeed symbol st).resolverGet s venueKey = m.resolverGet s venueKey := rfl
  unfold onUpdateByVenueKey
  rw [gate_setFeed_of_ne st h, hget]
  split_ifs
  · rfl
  · cases m.resolverGet s venueKey with
    | none => rfl
    | some k => exact onUpdateKey_setFeed st h k newPrice newSize

omit [Double D] in
theorem onDeleteByVenueKey_setFeed (h : s ≠ symbol) (venueKey : String) :
    (m.setFeed symbol st).onDeleteByVenueKey s venueKey =
      (m.onDeleteByVenueKey s venueKey).withFeed symbol st := by
  have hget : (m.setFeed symbol st).resolverGet s venueKey = m.resolverGet s venueKey := rfl
  unfold onDeleteByVenueKey
  rw [gate_setFeed_of_ne st h, hget]
  split_ifs
  · rfl
  · cases m.resolverGet s venueKey with
    | none => rfl
    | some k => exact onDeleteKey_setFeed st h k

/-- An operation that is not about a symbol does not see its feed state, and leaves it. -/
theorem exec_setFeed {op : ManagerOp D} (h : op.symbol ≠ some symbol) :
    (m.setFeed symbol st).exec op = ((m.exec op).1.setFeed symbol st, (m.exec op).2) ∧
      (m.setFeed symbol st).reply op = m.reply op := by
  have hs : ∀ s, op.symbol = some s → s ≠ symbol := by
    intro s heq hsym
    exact h (heq.trans (congrArg some hsym))
  cases op with
  | setTickSize s tickSize => exact ⟨rfl, rfl⟩
  | setAllowNegativePrices allow => exact ⟨rfl, rfl⟩
  | seq s seq => exact Outcome.withFeed_spec (onSeq_setFeed st (hs s rfl) seq) .flag
  | reset s newEpoch =>
    refine ⟨?_, rfl⟩
    simp only [exec, onReset, setFeed_setFeed_of_ne st (hs s rfl)]
  | resolverSetCapacity cap => exact ⟨rfl, rfl⟩
  | resolverPut s venueKey key => exact ⟨rfl, rfl⟩
  | addGetKey s id side price size priority scope idMissing =>
    exact Outcome.withFeed_spec (onAddGetKey_setFeed st (hs s rfl) id side price size priority scope
      idMissing) .key
  | add s id side price size priority scope idMissing =>
    exact Outcome.withFeed_spec (onAdd_setFeed st (hs s rfl) id side price size priority scope
      idMissing) .flag
  | update s id scope newPrice newSize synthetic =>
    exact Outcome.withFeed_spec (onUpdateKey_setFeed st (hs s rfl)
      ⟨id, scope.feedId, scope.epoch, synthetic⟩ newPrice newSize) .flag
  | updateKey s key newPrice newSize =>
    exact Outcome.withFeed_spec (onUpdateKey_setFeed st (hs s rfl) key newPrice newSize) .flag
  | delete s id scope synthetic =>
    exact Outcome.withFeed_spec (onDeleteKey_setFeed st (hs s rfl)
      ⟨id, scope.feedId, scope.epoch, synthetic⟩) .flag
  | deleteKey s key =>
    exact Outcome.withFeed_spec (onDeleteKey_setFeed st (hs s rfl) key) .flag
  | priority s id scope newPriority synthetic =>
    exact Outcome.withFeed_spec (onPriorityKey_setFeed st (hs s rfl)
      ⟨id, scope.feedId, scope.epoch, synthetic⟩ newPriority) .flag
  | priorityKey s key newPriority =>
    exact Outcome.withFeed_spec (onPriorityKey_setFeed st (hs s rfl) key newPriority) .flag
  | addWithVenueKey s venueKey id side price size priority scope idMissing =>
    exact Outcome.withFeed_spec (onAddWithVenueKey_setFeed st (hs s rfl) venueKey id side price size
      priority scope idMissing) .flag
  | updateByVenueKey s venueKey newPrice newSize =>
    exact Outcome.withFeed_spec (onUpdateByVenueKey_setFeed st (hs s rfl) venueKey newPrice
      newSize) .flag
  | deleteByVenueKey s venueKey =>
    exact Outcome.withFeed_spec (onDeleteByVenueKey_setFeed st (hs s rfl) venueKey) .flag
  | trade s tradePrice size aggr =>
    exact Outcome.withFeed_spec (onTrade_setFeed st (hs s rfl) tradePrice size aggr) .flag
  | snapshotPerOrder s tickOrders snapshotSeq =>
    exact ⟨afterSnapshot_setFeed (m := m.setBook s _) st (hs s rfl) snapshotSeq, rfl⟩
  | snapshotAggregated s levelsD snapshotSeq =>
    exact ⟨afterSnapshot_setFeed (m := m.setBook s _) st (hs s rfl) snapshotSeq, rfl⟩
  | levelSummary s side price totalSize orderCount =>
    exact Outcome.withFeed_spec (onLevelSummary_setFeed st (hs s rfl) side price totalSize
      orderCount) .flag

end OtherSymbols

section Runs
variable [Double D]

omit [Double D] in
/-- A reset makes the symbol stale, and so does a sequence number that is refused. -/
theorem isStale_of_refused (m : OrderBookManager D) (symbol : String) (newEpoch : UInt32)
    (seq : UInt64) : (m.onReset symbol newEpoch).isStale symbol = true ∧
      ((m.onSeq symbol seq).ret = false → (m.onSeq symbol seq).mgr.isStale symbol = true) := by
  refine ⟨by simp [onReset, isStale, getFeedState, setFeed], ?_⟩
  unfold onSeq
  dsimp only
  split_ifs with hstale hnext
  · intro _
    simpa [isStale, getFeedState, setFeed] using hstale
  · intro hfalse
    cases hfalse
  · intro _
    simp [isStale, getFeedState, setFeed]

/-- From a reset or a gap of a symbol to its next snapshot, in any run, no other operation
changes its book, publishes for it or advances its counter; and at every moment an operation
on another symbol answers, publishes and does the same whatever the symbol's feed state is. -/
theorem stale_gate (before after : List (ManagerOp D)) (symbol : String)
    (hstale : (run before).1.isStale symbol = true)
    (hafter : ∀ op ∈ after, op.snapshots symbol = false) :
    (run (before ++ after)).1.books symbol = (run before).1.books symbol ∧
    (run (before ++ after)).1.pubSeq symbol = (run before).1.pubSeq symbol ∧
    (run (before ++ after)).2.filter (fun d => d.symbol = symbol) =
      (run before).2.filter (fun d => d.symbol = symbol) ∧
    (∀ newEpoch seq, ((run before).1.onReset symbol newEpoch).isStale symbol = true ∧
      (((run before).1.onSeq symbol seq).ret = false →
        ((run before).1.onSeq symbol seq).mgr.isStale symbol = true)) ∧
    ∀ (op : ManagerOp D) (st : FeedState), op.symbol ≠ some symbol →
      ((run (before ++ after)).1.setFeed symbol st).exec op =
        (((run (before ++ after)).1.exec op).1.setFeed symbol st,
          ((run (before ++ after)).1.exec op).2) ∧
      ((run (before ++ after)).1.setFeed symbol st).reply op =
        (run (before ++ after)).1.reply op := by
  have hquiet := untouched_runFrom hstale hafter
  have hrun : run (before ++ after) = (((run before).1.runFrom after).1,
      (run before).2 ++ ((run before).1.runFrom after).2) := runFrom_append {} before after
  have hnone : ((run before).1.runFrom after).2.filter (fun d => d.symbol = symbol) = [] := by
    rw [List.filter_eq_nil_iff]
    intro d hd
    simpa using hquiet.deltas d hd
  refine ⟨?_, ?_, ?_, fun newEpoch seq => isStale_of_refused _ symbol newEpoch seq, ?_⟩
  · rw [hrun]
    exact hquiet.books
  · rw [hrun]
    exact hquiet.pubSeq
  · rw [hrun, List.filter_append, hnone, List.append_nil]
  · intro op st hop
    exact exec_setFeed st hop

end Runs

def gapAfterOne : List (ManagerOp ExactDouble) := [.seq "AAPL" 1, .seq "AAPL" 5]

theorem stale_gate_gapAfterOne :
    (run gapAfterOne).1.isStale "AAPL" = true ∧
    (run (gapAfterOne ++ [.add "AAPL" 1 .bid (.fin 100) 10 0 {} false])).1.books "AAPL" =
      (run gapAfterOne).1.books "AAPL" := by
  have hstale : (run gapAfterOne).1.isStale "AAPL" = true := by decide +kernel
  exact ⟨hstale, (stale_gate gapAfterOne [.add "AAPL" 1 .bid (.fin 100) 10 0 {} false] "AAPL"
    hstale (by simp [ManagerOp.snapshots])).1⟩

end OrderBookManager
end GmaEngine
