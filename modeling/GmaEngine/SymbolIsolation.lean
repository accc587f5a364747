import GmaEngine.DeltaPublication
import GmaEngine.LocalRuns

/-!
# Symbols do not influence each other

Every manager operation reads and changes what the manager keeps for its own symbol, except the
two settings that are for all symbols. So the book of a symbol, its feed state, its venue keys and
the deltas that its subscribers receive depend on the operations of that symbol alone.
-/

namespace GmaEngine
open LocalRuns

/-- What a manager keeps for one symbol, with the setting that all symbols share. -/
structure SymbolPart (D : Type) where
  book : Option OrderBook
  tickSize : Option D
  feed : Option FeedState
  resolver : Option Lru
  pubSeq : Option UInt64
  allowNegativePrices : Bool

namespace OrderBookManager
variable {D : Type}

def part (m : OrderBookManager D) (symbol : String) : SymbolPart D where
  book := m.books symbol
  tickSize := m.tickSize symbol
  feed := m.feed symbol
  resolver := m.resolver symbol
  pubSeq := m.pubSeq symbol
  allowNegativePrices := m.allowNegativePrices

/-- A computation that is local to a symbol, with the deltas of that symbol. -/
abbrev LocalToSymbol (symbol : String) (f : OrderBookManager D → OrderBookManager D × List BookDelta) :
    Prop :=
  LocalTo part BookDelta.symbol symbol f

section
variable {m m' : OrderBookManager D} {symbol : String} (h : m.part symbol = m'.part symbol)
include h

theorem book_congr : m.book symbol = m'.book symbol :=
  congrArg (fun p : SymbolPart D => p.book.getD {}) h

theorem getFeedState_congr : m.getFeedState symbol = m'.getFeedState symbol :=
  congrArg (fun p : SymbolPart D => p.feed.getD {}) h

theorem gate_congr : m.gate symbol = m'.gate symbol :=
  congrArg FeedState.stale (getFeedState_congr h)

theorem resolver_congr : m.resolver symbol = m'.resolver symbol :=
  congrArg SymbolPart.resolver h

theorem resolverGet_congr (venueKey : String) :
    m.resolverGet symbol venueKey = m'.resolverGet symbol venueKey := by
  rw [resolverGet, resolverGet, resolver_congr h]

variable [Double D]

theorem getTickSize_congr : m.getTickSize symbol = m'.getTickSize symbol :=
  congrArg (fun p : SymbolPart D => p.tickSize.getD kDefaultTick) h

theorem toTicks_congr : m.toTicks symbol = m'.toTicks symbol := by
  funext px
  rw [toTicks, toTicks, getTickSize_congr h]

theorem validatePrice_congr : m.validatePrice symbol = m'.validatePrice symbol := by
  funext px
  have hneg : m.allowNegativePrices = m'.allowNegativePrices :=
    congrArg SymbolPart.allowNegativePrices h
  rw [validatePrice, validatePrice, getTickSize_congr h, hneg]

end

section
variable (symbol : String)

theorem local_setBook (b : OrderBook) :
    LocalToSymbol symbol (fun m : OrderBookManager D => (m.setBook symbol b, [])) := by
  refine LocalTo.of_change (fun p => { p with book := some b }) (fun m s => ?_)
  by_cases hs : s = symbol <;> simp [part, setBook, hs]

theorem local_setFeed (st : FeedState) :
    LocalToSymbol symbol (fun m : OrderBookManager D => (m.setFeed symbol st, [])) := by
  refine LocalTo.of_change (fun p => { p with feed := some st }) (fun m s => ?_)
  by_cases hs : s = symbol <;> simp [part, setFeed, hs]

theorem local_setTickSize [Double D] (tickSize : D) :
    LocalToSymbol symbol (fun m : OrderBookManager D => (m.setTickSize symbol tickSize, [])) := by
  let t : D := if Double.gt tickSize (Double.ofRat 0) then tickSize else kDefaultTick
  refine LocalTo.of_change (fun p => { p with tickSize := some t }) (fun m s => ?_)
  by_cases hs : s = symbol <;> simp [part, setTickSize, hs, t]

theorem local_resolverPut (venueKey : String) (key : OrderKey) :
    LocalToSymbol symbol
      (fun m : OrderBookManager D => (m.resolverPut symbol venueKey key, [])) := by
  refine LocalTo.of_change
    (fun p => { p with resolver := some ((p.resolver.getD {}).put venueKey key) }) (fun m s => ?_)
  by_cases hs : s = symbol
  · subst hs
    simp [part, resolverPut]
  · simp [part, resolverPut, hs]

theorem local_maybePublishDelta (levels : List LevelDelta)
    (newBid newAsk : Option (Price × UInt64)) :
    LocalToSymbol symbol
      (fun m : OrderBookManager D => m.maybePublishDelta symbol levels newBid newAsk) := by
  unfold maybePublishDelta
  refine LocalTo.ite .skip ⟨?_, ?_, ?_⟩
  · intro m s hs
    simp [part, hs]
  · intro m m' heq
    simp only [part, SymbolPart.mk.injEq] at heq
    simp [part, heq]
  · intro m d hd
    obtain rfl := List.mem_singleton.mp hd
    rfl

theorem local_mutateWithDelta (candidates : List (Side × Price))
    (mutator : OrderBook → OrderBook × Bool) :
    LocalToSymbol symbol (fun m : OrderBookManager D =>
      (m.mutateWithDelta symbol candidates mutator).effect) := by
  refine .of_pairs (fun m m' heq => ?_)
  simp only [Outcome.effect, mutateWithDelta_eq, book_congr heq]
  split_ifs
  · exact ⟨_, (local_setBook symbol _).andThen (local_maybePublishDelta symbol _ _ _), rfl, rfl⟩
  · exact ⟨_, local_setBook symbol _, rfl, rfl⟩

/-- The end of a snapshot, with the book that it installs. -/
theorem local_afterSnapshot (b : OrderBook) (snapshotSeq : Option UInt64) :
    LocalToSymbol symbol (fun m : OrderBookManager D =>
      (m.setBook symbol b).afterSnapshot symbol snapshotSeq) := by
  refine .of_pairs (fun m m' heq => ?_)
  have hfeed (x : OrderBookManager D) :
      (x.setBook symbol b).getFeedState symbol = x.getFeedState symbol := rfl
  simp only [afterSnapshot, hfeed, book_setFeed, book_setBook, getFeedState_congr heq]
  exact ⟨_, (local_setBook symbol b).andThen
    ((local_setFeed symbol _).andThen (local_maybePublishDelta symbol _ _ _)), rfl, rfl⟩

end

section
variable (symbol : String)

theorem local_onSeq (seq : UInt64) :
    LocalToSymbol symbol (fun m : OrderBookManager D => (m.onSeq symbol seq).effect) := by
  refine .of_pairs (fun m m' heq => ?_)
  simp only [onSeq, getFeedState_congr heq]
  split_ifs <;> exact ⟨_, local_setFeed symbol _, rfl, rfl⟩

theorem local_onDeleteKey (key : OrderKey) :
    LocalToSymbol symbol (fun m : OrderBookManager D => (m.onDeleteKey symbol key).effect) := by
  refine .of_pairs (fun m m' heq => ?_)
  simp only [onDeleteKey, gate_congr heq, book_congr heq]
  split_ifs
  · exact ⟨_, .skip, rfl, rfl⟩
  · exact ⟨_, local_mutateWithDelta symbol _ _, rfl, rfl⟩

theorem local_onPriorityKey (key : OrderKey) (newPriority : UInt64) :
    LocalToSymbol symbol
      (fun m : OrderBookManager D => (m.onPriorityKey symbol key newPriority).effect) := by
  refine .of_pairs (fun m m' heq => ?_)
  simp only [onPriorityKey, gate_congr heq]
  split_ifs
  · exact ⟨_, .skip, rfl, rfl⟩
  · exact ⟨_, local_mutateWithDelta symbol _ _, rfl, rfl⟩

theorem local_onDeleteByVenueKey (venueKey : String) :
    LocalToSymbol symbol
      (fun m : OrderBookManager D => (m.onDeleteByVenueKey symbol venueKey).effect) := by
  refine .of_pairs (fun m m' heq => ?_)
  simp only [onDeleteByVenueKey, gate_congr heq, resolverGet_congr heq]
  split_ifs
  · exact ⟨_, .skip, rfl, rfl⟩
  · cases m'.resolverGet symbol venueKey with
    | none => exact ⟨_, .skip, rfl, rfl⟩
    | some key => exact ⟨_, local_onDeleteKey symbol key, rfl, rfl⟩

theorem local_onSnapshotPerOrder (tickOrders : List Order) (snapshotSeq : Option UInt64) :
    LocalToSymbol symbol (fun m : OrderBookManager D =>
      (m.onSnapshotPerOrder symbol tickOrders snapshotSeq).effect) := by
  refine .of_pairs (fun m m' heq => ?_)
  simp only [onSnapshotPerOrder, book_congr heq]
  exact ⟨_, local_afterSnapshot symbol _ snapshotSeq, rfl, rfl⟩

variable [Double D]

theorem local_onAdd (id : UInt64) (side : Side) (price : D) (size priority : UInt64)
    (scope : FeedScope) (idMissing : Bool) :
    LocalToSymbol symbol
      (fun m => (m.onAdd symbol id side price size priority scope idMissing).effect) := by
  refine .of_pairs (fun m m' heq => ?_)
  simp only [onAdd, addedOrder, gate_congr heq, validatePrice_congr heq, toTicks_congr heq]
  split_ifs
  · exact ⟨_, .skip, rfl, rfl⟩
  · exact ⟨_, .skip, rfl, rfl⟩
  · exact ⟨_, local_mutateWithDelta symbol _ _, rfl, rfl⟩

/-- The key that an add gives back is read off the part of the symbol as well. -/
theorem onAddGetKey_congr {m m' : OrderBookManager D} (heq : m.part symbol = m'.part symbol)
    (id : UInt64) (side : Side) (price : D) (size priority : UInt64) (scope : FeedScope)
    (idMissing : Bool) :
    (∃ f, LocalToSymbol symbol f ∧
      (m.onAddGetKey symbol id side price size priority scope idMissing).effect = f m ∧
      (m'.onAddGetKey symbol id side price size priority scope idMissing).effect = f m') ∧
    (m.onAddGetKey symbol id side price size priority scope idMissing).ret =
      (m'.onAddGetKey symbol id side price size priority scope idMissing).ret := by
  simp only [onAddGetKey, addedOrder, gate_congr heq, validatePrice_congr heq, toTicks_congr heq,
    book_congr heq]
  split_ifs
  · exact ⟨⟨_, .skip, rfl, rfl⟩, rfl⟩
  · exact ⟨⟨_, .skip, rfl, rfl⟩, rfl⟩
  · exact ⟨⟨_, local_mutateWithDelta symbol _ _, rfl, rfl⟩, rfl⟩

theorem local_onAddGetKey (id : UInt64) (side : Side) (price : D) (size priority : UInt64)
    (scope : FeedScope) (idMissing : Bool) :
    LocalToSymbol symbol
      (fun m => (m.onAddGetKey symbol id side price size priority scope idMissing).effect) :=
  .of_pairs (fun _ _ heq =>
    (onAddGetKey_congr symbol heq id side price size priority scope idMissing).1)

theorem local_onUpdateKey (key : OrderKey) (newPrice : Option D) (newSize : Option UInt64) :
    LocalToSymbol symbol (fun m => (m.onUpdateKey symbol key newPrice newSize).effect) := by
  refine .of_pairs (fun m m' heq => ?_)
  simp only [onUpdateKey, gate_congr heq, validatePrice_congr heq, toTicks_congr heq,
    book_congr heq]
  split_ifs
  · exact ⟨_, .skip, rfl, rfl⟩
  · exact ⟨_, .skip, rfl, rfl⟩
  · exact ⟨_, .skip, rfl, rfl⟩
  · exact ⟨_, .skip, rfl, rfl⟩
  · exact ⟨_, local_mutateWithDelta symbol _ _, rfl, rfl⟩

theorem local_onAddWithVenueKey (venueKey : String) (id : UInt64) (side : Side) (price : D)
    (size priority : UInt64) (scope : FeedScope) (idMissing : Bool) :
    LocalToSymbol symbol (fun m =>
      (m.onAddWithVenueKey symbol venueKey id side price size priority scope idMissing).effect) := by
  refine .of_pairs (fun m m' heq => ?_)
  obtain ⟨⟨f, hf, hm, hm'⟩, hret⟩ :=
    onAddGetKey_congr symbol heq id side price size priority scope idMissing
  simp only [onAddWithVenueKey, hret]
  split_ifs
  · exact ⟨f, hf, hm, hm'⟩
  · refine ⟨_, hf.andThen (local_resolverPut symbol venueKey
      (m'.onAddGetKey symbol id side price size priority scope idMissing).ret), ?_, ?_⟩
    · simp [← hm, Outcome.effect]
    · simp [← hm', Outcome.effect]

theorem local_onUpdateByVenueKey (venueKey : String) (newPrice : Option D)
    (newSize : Option UInt64) :
    LocalToSymbol symbol
      (fun m => (m.onUpdateByVenueKey symbol venueKey newPrice newSize).effect) := by
  refine .of_pairs (fun m m' heq => ?_)
  simp only [onUpdateByVenueKey, gate_congr heq, resolverGet_congr heq]
  split_ifs
  · exact ⟨_, .skip, rfl, rfl⟩
  · cases m'.resolverGet symbol venueKey with
    | none => exact ⟨_, .skip, rfl, rfl⟩
    | some key => exact ⟨_, local_onUpdateKey symbol key newPrice newSize, rfl, rfl⟩

theorem local_onTrade (tradePrice : D) (size : UInt64) (aggr : Aggressor) :
    LocalToSymbol symbol (fun m => (m.onTrade symbol tradePrice size aggr).effect) := by
  refine .of_pairs (fun m m' heq => ?_)
  simp only [onTrade, gate_congr heq, validatePrice_congr heq, toTicks_congr heq, book_congr heq]
  split_ifs
  · exact ⟨_, .skip, rfl, rfl⟩
  · exact ⟨_, .skip, rfl, rfl⟩
  · exact ⟨_, local_mutateWithDelta symbol _ _, rfl, rfl⟩

theorem local_onSnapshotAggregated (levelsD : List (LevelSnapshotEntryD D))
    (snapshotSeq : Option UInt64) :
    LocalToSymbol symbol
      (fun m => (m.onSnapshotAggregated symbol levelsD snapshotSeq).effect) := by
  refine .of_pairs (fun m m' heq => ?_)
  simp only [onSnapshotAggregated, book_congr heq, toTicks_congr heq]
  exact ⟨_, local_afterSnapshot symbol _ snapshotSeq, rfl, rfl⟩

theorem local_onLevelSummary (side : Side) (price : D) (totalSize : UInt64)
    (orderCount : Option UInt32) :
    LocalToSymbol symbol
      (fun m => (m.onLevelSummary symbol side price totalSize orderCount).effect) := by
  refine .of_pairs (fun m m' heq => ?_)
  simp only [onLevelSummary, gate_congr heq, validatePrice_congr heq, toTicks_congr heq]
  split_ifs
  · exact ⟨_, .skip, rfl, rfl⟩
  · exact ⟨_, .skip, rfl, rfl⟩
  · exact ⟨_, local_mutateWithDelta symbol _ _, rfl, rfl⟩

end

section
variable [Double D]

theorem local_exec (op : ManagerOp D) (symbol : String) (hop : op.symbol = some symbol) :
    LocalToSymbol symbol (fun m => m.exec op) := by
  cases op with
  | setTickSize s tickSize =>
    cases hop
    exact local_setTickSize symbol tickSize
  | setAllowNegativePrices allow => cases hop
  | seq s seq =>
    cases hop
    exact local_onSeq symbol seq
  | reset s newEpoch =>
    cases hop
    exact local_setFeed symbol _
  | resolverSetCapacity cap => cases hop
  | resolverPut s venueKey key =>
    cases hop
    exact local_resolverPut symbol venueKey key
  | addGetKey s id side price size priority scope idMissing =>
    cases hop
    exact local_onAddGetKey symbol id side price size priority scope idMissing
  | add s id side price size priority scope idMissing =>
    cases hop
    exact local_onAdd symbol id side price size priority scope idMissing
  | update s id scope newPrice newSize synthetic =>
    cases hop
    exact local_onUpdateKey symbol _ newPrice newSize
  | updateKey s key newPrice newSize =>
    cases hop
    exact local_onUpdateKey symbol key newPrice newSize
  | delete s id scope synthetic =>
    cases hop
    exact local_onDeleteKey symbol _
  | deleteKey s key =>
    cases hop
    exact local_onDeleteKey symbol key
  | priority s id scope newPriority synthetic =>
    cases hop
    exact local_onPriorityKey symbol _ newPriority
  | priorityKey s key newPriority =>
    cases hop
    exact local_onPriorityKey symbol key newPriority
  | addWithVenueKey s venueKey id side price size priority scope idMissing =>
    cases hop
    exact local_onAddWithVenueKey symbol venueKey id side price size priority scope idMissing
  | updateByVenueKey s venueKey newPrice newSize =>
    cases hop
    exact local_onUpdateByVenueKey symbol venueKey newPrice newSize
  | deleteByVenueKey s venueKey =>
    cases hop
    exact local_onDeleteByVenueKey symbol venueKey
  | trade s tradePrice size aggr =>
    cases hop
    exact local_onTrade symbol tradePrice size aggr
  | snapshotPerOrder s tickOrders snapshotSeq =>
    cases hop
    exact local_onSnapshotPerOrder symbol tickOrders snapshotSeq
  | snapshotAggregated s levelsD snapshotSeq =>
    cases hop
    exact local_onSnapshotAggregated symbol levelsD snapshotSeq
  | levelSummary s side price totalSize orderCount =>
    cases hop
    exact local_onLevelSummary symbol side price totalSize orderCount

theorem uniform_exec (op : ManagerOp D) (hop : op.symbol = none) :
    Uniform part (fun m => m.exec op) := by
  cases op with
  | setAllowNegativePrices allow =>
    refine ⟨fun m m' s heq => ?_, fun m => rfl⟩
    simp only [part, SymbolPart.mk.injEq] at heq
    simp [exec, part, heq]
  | resolverSetCapacity cap =>
    refine ⟨fun m m' s heq => ?_, fun m => rfl⟩
    simp only [part, SymbolPart.mk.injEq] at heq
    simp [exec, part, resolverSetCapacity, heq]
  | _ => cases hop

theorem localSystem : LocalSystem exec (ManagerOp.symbol (D := D)) part BookDelta.symbol where
  keyed := local_exec
  unkeyed := uniform_exec

/-- What the manager keeps for a symbol after a run, and the deltas that the subscribers of the
symbol get, are those of the run of the operations about that symbol alone. -/
theorem runFrom_symbol (m : OrderBookManager D) (ops : List (ManagerOp D)) (symbol : String) :
    (m.runFrom ops).1.part symbol =
      (m.runFrom (ops.filter (concerns ManagerOp.symbol symbol))).1.part symbol ∧
    (m.runFrom ops).2.filter (·.symbol = symbol) =
      (m.runFrom (ops.filter (concerns ManagerOp.symbol symbol))).2 :=
  localSystem.run_part symbol rfl ops

end

end OrderBookManager
end GmaEngine
