import GmaEngine.LevelTotals
import GmaEngine.OrderBookManager

/-!
# Runs of the manager

A manager operation changes at most one book, by one book operation, and publishes at most
one delta. Hence every book of a reachable manager satisfies the locator invariant, its
cached totals are exact while the level sums fit, and the deltas of a symbol are numbered
one after the other.
-/

namespace GmaEngine

/-- Every operation that changes a manager, one constructor per overload. -/
inductive ManagerOp (D : Type) where
  | setTickSize (symbol : String) (tickSize : D)
  | setAllowNegativePrices (allow : Bool)
  | seq (symbol : String) (seq : UInt64)
  | reset (symbol : String) (newEpoch : UInt32)
  | resolverSetCapacity (cap : ℕ)
  | resolverPut (symbol venueKey : String) (key : OrderKey)
  | addGetKey (symbol : String) (id : UInt64) (side : Side) (price : D) (size priority : UInt64)
      (scope : FeedScope) (idMissing : Bool)
  | add (symbol : String) (id : UInt64) (side : Side) (price : D) (size priority : UInt64)
      (scope : FeedScope) (idMissing : Bool)
  | update (symbol : String) (id : UInt64) (scope : FeedScope) (newPrice : Option D)
      (newSize : Option UInt64) (synthetic : Bool)
  | updateKey (symbol : String) (key : OrderKey) (newPrice : Option D) (newSize : Option UInt64)
  | delete (symbol : String) (id : UInt64) (scope : FeedScope) (synthetic : Bool)
  | deleteKey (symbol : String) (key : OrderKey)
  | priority (symbol : String) (id : UInt64) (scope : FeedScope) (newPriority : UInt64)
      (synthetic : Bool)
  | priorityKey (symbol : String) (key : OrderKey) (newPriority : UInt64)
  | addWithVenueKey (symbol venueKey : String) (id : UInt64) (side : Side) (price : D)
      (size priority : UInt64) (scope : FeedScope) (idMissing : Bool)
  | updateByVenueKey (symbol venueKey : String) (newPrice : Option D) (newSize : Option UInt64)
  | deleteByVenueKey (symbol venueKey : String)
  | trade (symbol : String) (tradePrice : D) (size : UInt64) (aggr : Aggressor)
  | snapshotPerOrder (symbol : String) (tickOrders : List Order) (snapshotSeq : Option UInt64)
  | snapshotAggregated (symbol : String) (levelsD : List (LevelSnapshotEntryD D))
      (snapshotSeq : Option UInt64)
  | levelSummary (symbol : String) (side : Side) (price : D) (totalSize : UInt64)
      (orderCount : Option UInt32)

/-- The symbol an operation is about; two of them are about all symbols. -/
def ManagerOp.symbol {D : Type} : ManagerOp D → Option String
  | .setTickSize s _ => some s
  | .setAllowNegativePrices _ => none
  | .seq s _ => some s
  | .reset s _ => some s
  | .resolverSetCapacity _ => none
  | .resolverPut s _ _ => some s
  | .addGetKey s .. => some s
  | .add s .. => some s
  | .update s .. => some s
  | .updateKey s .. => some s
  | .delete s .. => some s
  | .deleteKey s _ => some s
  | .priority s .. => some s
  | .priorityKey s .. => some s
  | .addWithVenueKey s .. => some s
  | .updateByVenueKey s .. => some s
  | .deleteByVenueKey s _ => some s
  | .trade s .. => some s
  | .snapshotPerOrder s .. => some s
  | .snapshotAggregated s .. => some s
  | .levelSummary s .. => some s

namespace Outcome
variable {D α : Type}

def effect (o : Outcome D α) : OrderBookManager D × List BookDelta := (o.mgr, o.deltas)

end Outcome

namespace OrderBookManager
variable {D : Type}

section
variable [Double D]

def exec (m : OrderBookManager D) : ManagerOp D → OrderBookManager D × List BookDelta
  | .setTickSize symbol tickSize => (m.setTickSize symbol tickSize, [])
  | .setAllowNegativePrices allow => ({ m with allowNegativePrices := allow }, [])
  | .seq symbol seq => (m.onSeq symbol seq).effect
  | .reset symbol newEpoch => (m.onReset symbol newEpoch, [])
  | .resolverSetCapacity cap => (m.resolverSetCapacity cap, [])
  | .resolverPut symbol venueKey key => (m.resolverPut symbol venueKey key, [])
  | .addGetKey symbol id side price size priority scope idMissing =>
    (m.onAddGetKey symbol id side price size priority scope idMissing).effect
  | .add symbol id side price size priority scope idMissing =>
    (m.onAdd symbol id side price size priority scope idMissing).effect
  | .update symbol id scope newPrice newSize synthetic =>
    (m.onUpdate symbol id scope newPrice newSize synthetic).effect
  | .updateKey symbol key newPrice newSize => (m.onUpdateKey symbol key newPrice newSize).effect
  | .delete symbol id scope synthetic => (m.onDelete symbol id scope synthetic).effect
  | .deleteKey symbol key => (m.onDeleteKey symbol key).effect
  | .priority symbol id scope newPriority synthetic =>
    (m.onPriority symbol id scope newPriority synthetic).effect
  | .priorityKey symbol key newPriority => (m.onPriorityKey symbol key newPriority).effect
  | .addWithVenueKey symbol venueKey id side price size priority scope idMissing =>
    (m.onAddWithVenueKey symbol venueKey id side price size priority scope idMissing).effect
  | .updateByVenueKey symbol venueKey newPrice newSize =>
    (m.onUpdateByVenueKey symbol venueKey newPrice newSize).effect
  | .deleteByVenueKey symbol venueKey => (m.onDeleteByVenueKey symbol venueKey).effect
  | .trade symbol tradePrice size aggr => (m.onTrade symbol tradePrice size aggr).effect
  | .snapshotPerOrder symbol tickOrders snapshotSeq =>
    (m.onSnapshotPerOrder symbol tickOrders snapshotSeq).effect
  | .snapshotAggregated symbol levelsD snapshotSeq =>
    (m.onSnapshotAggregated symbol levelsD snapshotSeq).effect
  | .levelSummary symbol side price totalSize orderCount =>
    (m.onLevelSummary symbol side price totalSize orderCount).effect

/-- The manager after a sequence of operations, with all deltas published on the way. -/
def runFrom (m : OrderBookManager D) (ops : List (ManagerOp D)) :
    OrderBookManager D × List BookDelta :=
  ops.foldl (fun x op => ((x.1.exec op).1, x.2 ++ (x.1.exec op).2)) (m, [])

def run (ops : List (ManagerOp D)) : OrderBookManager D × List BookDelta := runFrom {} ops

theorem runFrom_concat (m : OrderBookManager D) (ops : List (ManagerOp D)) (op : ManagerOp D) :
    runFrom m (ops ++ [op]) = (((runFrom m ops).1.exec op).1,
      (runFrom m ops).2 ++ ((runFrom m ops).1.exec op).2) := by
  simp [runFrom, List.foldl_append]

theorem runFrom_append (m : OrderBookManager D) (before after : List (ManagerOp D)) :
    m.runFrom (before ++ after) = (((m.runFrom before).1.runFrom after).1,
      (m.runFrom before).2 ++ ((m.runFrom before).1.runFrom after).2) := by
  induction after using List.reverseRecOn with
  | nil => simp [runFrom]
  | append_singleton after op ih =>
    rw [← List.append_assoc, runFrom_concat, ih, runFrom_concat, List.append_assoc]

end

section
variable (m : OrderBookManager D) (symbol : String)

@[simp] theorem book_setBook (b : OrderBook) (s : String) :
    (m.setBook symbol b).book s = if s = symbol then b else m.book s := by
  unfold book setBook
  by_cases h : s = symbol <;> simp [h]

@[simp] theorem book_setFeed (st : FeedState) (s : String) :
    (m.setFeed symbol st).book s = m.book s := rfl

@[simp] theorem book_maybePublishDelta (levels : List LevelDelta)
    (newBid newAsk : Option (Price × UInt64)) (s : String) :
    (m.maybePublishDelta symbol levels newBid newAsk).1.book s = m.book s := by
  unfold maybePublishDelta
  split_ifs <;> rfl

@[simp] theorem book_mutateWithDelta (candidates : List (Side × Price))
    (mutator : OrderBook → OrderBook × Bool) (s : String) :
    (m.mutateWithDelta symbol candidates mutator).mgr.book s =
      if s = symbol then (mutator (m.book symbol)).1 else m.book s := by
  unfold mutateWithDelta
  dsimp only
  split_ifs <;> simp_all

@[simp] theorem book_afterSnapshot (snapshotSeq : Option UInt64) (s : String) :
    (m.afterSnapshot symbol snapshotSeq).1.book s = m.book s := by
  simp [afterSnapshot]

end

/-- At most one delta is published, for the symbol of the operation and under its next
number. -/
def Publishes (m : OrderBookManager D) (symbol : Option String)
    (x : OrderBookManager D × List BookDelta) : Prop :=
  (x.2 = [] ∧ x.1.pubSeq = m.pubSeq) ∨
    ∃ d, x.2 = [d] ∧ symbol = some d.symbol ∧ d.seq = (m.pubSeq d.symbol).getD 0 + 1 ∧
      x.1.pubSeq = Function.update m.pubSeq d.symbol (some d.seq)

section
variable (m : OrderBookManager D) (symbol : String)

theorem publishes_maybePublishDelta (levels : List LevelDelta)
    (newBid newAsk : Option (Price × UInt64)) :
    m.Publishes (some symbol) (m.maybePublishDelta symbol levels newBid newAsk) := by
  unfold maybePublishDelta
  split_ifs
  · exact .inl ⟨rfl, rfl⟩
  · exact .inr ⟨_, rfl, rfl, rfl, rfl⟩

theorem publishes_mutateWithDelta (candidates : List (Side × Price))
    (mutator : OrderBook → OrderBook × Bool) :
    m.Publishes (some symbol) (m.mutateWithDelta symbol candidates mutator).effect := by
  unfold mutateWithDelta
  dsimp only
  split_ifs
  · exact .inl ⟨rfl, rfl⟩
  all_goals exact publishes_maybePublishDelta (m.setBook symbol _) symbol _ _ _

theorem publishes_afterSnapshot (snapshotSeq : Option UInt64) :
    m.Publishes (some symbol) (m.afterSnapshot symbol snapshotSeq) :=
  publishes_maybePublishDelta (m.setFeed symbol _) symbol _ _ _

end

/-- The same books, publication counters and deltas. -/
def Alike (x y : OrderBookManager D × List BookDelta) : Prop :=
  x.1.books = y.1.books ∧ x.1.pubSeq = y.1.pubSeq ∧ x.2 = y.2

/-- The effect of an operation on books, counters and deltas: none, one mutation by a book
operation, or an aggregated snapshot. Per-order snapshots stand apart. -/
inductive Effect (m : OrderBookManager D) (symbol : Option String)
    (x : OrderBookManager D × List BookDelta) : Prop
  | quiet (h : Alike x (m, []))
  | mutate (s : String) (hs : symbol = some s) (candidates : List (Side × Price))
      (mutator : OrderBook → OrderBook × Bool) (bop : BookOp)
      (hbop : ∀ orders, bop ≠ .snapshotPerOrder orders)
      (hmut : ∀ b : OrderBook, (mutator b).1 = b.apply bop)
      (h : Alike x (m.mutateWithDelta s candidates mutator).effect)
  | aggregated (s : String) (hs : symbol = some s) (levels : List LevelSnapshotEntry)
      (snapshotSeq : Option UInt64)
      (h : Alike x ((m.setBook s
        ((m.book s).applySnapshotAggregated levels)).afterSnapshot s snapshotSeq))

theorem Alike.refl (x : OrderBookManager D × List BookDelta) : Alike x x := ⟨rfl, rfl, rfl⟩

theorem Effect.congr {m : OrderBookManager D} {symbol : Option String}
    {x y : OrderBookManager D × List BookDelta} (h : Effect m symbol x) (hxy : Alike y x) :
    Effect m symbol y := by
  obtain ⟨hb, hq, hd⟩ := hxy
  cases h with
  | quiet h => exact .quiet ⟨hb.trans h.1, hq.trans h.2.1, hd.trans h.2.2⟩
  | mutate s hs candidates mutator bop hbop hmut h =>
    exact .mutate s hs candidates mutator bop hbop hmut
      ⟨hb.trans h.1, hq.trans h.2.1, hd.trans h.2.2⟩
  | aggregated s hs levels snapshotSeq h =>
    exact .aggregated s hs levels snapshotSeq ⟨hb.trans h.1, hq.trans h.2.1, hd.trans h.2.2⟩

section
variable (m : OrderBookManager D)

theorem effect_mutateWithDelta (symbol : String) (candidates : List (Side × Price))
    (mutator : OrderBook → OrderBook × Bool) (bop : BookOp)
    (h : ∀ orders, bop ≠ .snapshotPerOrder orders)
    (hmut : ∀ b : OrderBook, (mutator b).1 = b.apply bop) :
    Effect m (some symbol) (m.mutateWithDelta symbol candidates mutator).effect :=
  .mutate symbol rfl candidates mutator bop h hmut (.refl _)

theorem effect_onDeleteKey (symbol : String) (key : OrderKey) :
    Effect m (some symbol) (m.onDeleteKey symbol key).effect := by
  unfold onDeleteKey
  split_ifs
  · exact .quiet (.refl _)
  · exact effect_mutateWithDelta m _ _ _ (.deleteKey key) (by simp) (fun _ => rfl)

theorem effect_onPriorityKey (symbol : String) (key : OrderKey) (newPriority : UInt64) :
    Effect m (some symbol) (m.onPriorityKey symbol key newPriority).effect := by
  unfold onPriorityKey
  split_ifs
  · exact .quiet (.refl _)
  · exact effect_mutateWithDelta m _ _ _ (.priorityKey key newPriority) (by simp) (fun _ => rfl)

variable [Double D]

theorem effect_onAdd (symbol : String) (id : UInt64) (side : Side) (price : D)
    (size priority : UInt64) (scope : FeedScope) (idMissing : Bool) :
    Effect m (some symbol) (m.onAdd symbol id side price size priority scope idMissing).effect := by
  unfold onAdd
  split_ifs
  · exact .quiet (.refl _)
  · exact .quiet (.refl _)
  · exact effect_mutateWithDelta m _ _ _ (.addScoped _ scope idMissing) (by simp) (fun _ => rfl)

theorem effect_onAddGetKey (symbol : String) (id : UInt64) (side : Side) (price : D)
    (size priority : UInt64) (scope : FeedScope) (idMissing : Bool) :
    Effect m (some symbol) (m.onAddGetKey symbol id side price size priority scope idMissing).effect := by
  unfold onAddGetKey
  split_ifs
  · exact .quiet (.refl _)
  · exact .quiet (.refl _)
  · exact effect_mutateWithDelta m _ _ _ (.addGetKey _ scope idMissing) (by simp) (fun _ => rfl)

theorem effect_onUpdateKey (symbol : String) (key : OrderKey) (newPrice : Option D)
    (newSize : Option UInt64) : Effect m (some symbol) (m.onUpdateKey symbol key newPrice newSize).effect := by
  unfold onUpdateKey
  split_ifs
  · exact .quiet (.refl _)
  · exact .quiet (.refl _)
  · exact .quiet (.refl _)
  · exact .quiet (.refl _)
  · exact effect_mutateWithDelta m _ _ _ (.updateKey key _ newSize) (by simp) (fun _ => rfl)

theorem effect_onTrade (symbol : String) (tradePrice : D) (size : UInt64) (aggr : Aggressor) :
    Effect m (some symbol) (m.onTrade symbol tradePrice size aggr).effect := by
  unfold onTrade
  split_ifs
  · exact .quiet (.refl _)
  · exact .quiet (.refl _)
  · exact effect_mutateWithDelta m _ _ _ (.trade _ size aggr) (by simp) (fun _ => rfl)

theorem effect_onLevelSummary (symbol : String) (side : Side) (price : D) (totalSize : UInt64)
    (orderCount : Option UInt32) :
    Effect m (some symbol) (m.onLevelSummary symbol side price totalSize orderCount).effect := by
  unfold onLevelSummary
  split_ifs
  · exact .quiet (.refl _)
  · exact .quiet (.refl _)
  · exact effect_mutateWithDelta m _ _ _ (.levelSummary side _ totalSize orderCount) (by simp)
      (fun _ => rfl)

theorem exec_effect (op : ManagerOp D) :
    (∃ symbol tickOrders snapshotSeq, op = .snapshotPerOrder symbol tickOrders snapshotSeq) ∨
      Effect m op.symbol (m.exec op) := by
  cases op with
  | setTickSize symbol tickSize => exact .inr (.quiet (.refl _))
  | setAllowNegativePrices allow => exact .inr (.quiet (.refl _))
  | seq symbol seq =>
    right
    simp only [exec, Outcome.effect, onSeq]
    split_ifs <;> exact .quiet (.refl _)
  | reset symbol newEpoch => exact .inr (.quiet (.refl _))
  | resolverSetCapacity cap => exact .inr (.quiet (.refl _))
  | resolverPut symbol venueKey key => exact .inr (.quiet (.refl _))
  | addGetKey symbol id side price size priority scope idMissing =>
    exact .inr (effect_onAddGetKey m symbol id side price size priority scope idMissing)
  | add symbol id side price size priority scope idMissing =>
    exact .inr (effect_onAdd m symbol id side price size priority scope idMissing)
  | update symbol id scope newPrice newSize synthetic =>
    exact .inr (effect_onUpdateKey m symbol _ newPrice newSize)
  | updateKey symbol key newPrice newSize =>
    exact .inr (effect_onUpdateKey m symbol key newPrice newSize)
  | delete symbol id scope synthetic => exact .inr (effect_onDeleteKey m symbol _)
  | deleteKey symbol key => exact .inr (effect_onDeleteKey m symbol key)
  | priority symbol id scope newPriority synthetic =>
    exact .inr (effect_onPriorityKey m symbol _ newPriority)
  | priorityKey symbol key newPriority =>
    exact .inr (effect_onPriorityKey m symbol key newPriority)
  | addWithVenueKey symbol venueKey id side price size priority scope idMissing =>
    right
    have h := effect_onAddGetKey m symbol id side price size priority scope idMissing
    simp only [exec, Outcome.effect, onAddWithVenueKey]
    split_ifs
    · exact h
    · -- the resolver entry is outside the books and the counters
      exact h.congr ⟨rfl, rfl, rfl⟩
  | updateByVenueKey symbol venueKey newPrice newSize =>
    right
    simp only [exec, onUpdateByVenueKey]
    split_ifs
    · exact .quiet (.refl _)
    · cases m.resolverGet symbol venueKey with
      | none => exact .quiet (.refl _)
      | some k => exact effect_onUpdateKey m symbol k newPrice newSize
  | deleteByVenueKey symbol venueKey =>
    right
    simp only [exec, onDeleteByVenueKey]
    split_ifs
    · exact .quiet (.refl _)
    · cases m.resolverGet symbol venueKey with
      | none => exact .quiet (.refl _)
      | some k => exact effect_onDeleteKey m symbol k
  | trade symbol tradePrice size aggr => exact .inr (effect_onTrade m symbol tradePrice size aggr)
  | snapshotPerOrder symbol tickOrders snapshotSeq =>
    exact .inl ⟨symbol, tickOrders, snapshotSeq, rfl⟩
  | snapshotAggregated symbol levelsD snapshotSeq => exact .inr (.aggregated symbol rfl _ snapshotSeq (.refl _))
  | levelSummary symbol side price totalSize orderCount =>
    exact .inr (effect_onLevelSummary m symbol side price totalSize orderCount)

end

/-- A book left alone, or changed by one operation other than a per-order snapshot. -/
inductive BookChange (b : OrderBook) : OrderBook → Prop
  | same : BookChange b b
  | op (bop : BookOp) (hbop : ∀ orders, bop ≠ .snapshotPerOrder orders) :
      BookChange b (b.apply bop)

section
variable {m : OrderBookManager D} {symbol : Option String}
  {x : OrderBookManager D × List BookDelta}

theorem Alike.book {x y : OrderBookManager D × List BookDelta} (h : Alike x y) (s : String) :
    x.1.book s = y.1.book s := by
  rw [OrderBookManager.book, OrderBookManager.book, h.1]

theorem Effect.book (h : Effect m symbol x) (s : String) : BookChange (m.book s) (x.1.book s) := by
  cases h with
  | quiet h =>
    rw [h.book]
    exact .same
  | mutate s' hs' candidates mutator bop hbop hmut h =>
    rw [h.book, Outcome.effect, book_mutateWithDelta]
    split_ifs with hs
    · rw [hs, hmut]
      exact .op bop hbop
    · exact .same
  | aggregated s' hs' levels snapshotSeq h =>
    rw [h.book, book_afterSnapshot, book_setBook]
    split_ifs with hs
    · subst hs
      exact .op (.snapshotAggregated levels) (by simp)
    · exact .same

theorem Effect.publishes (h : Effect m symbol x) : m.Publishes symbol x := by
  have key : ∀ y, Alike x y → m.Publishes symbol y → m.Publishes symbol x := by
    rintro y ⟨-, hs, hd⟩ hy
    unfold Publishes at hy ⊢
    rwa [hs, hd]
  cases h with
  | quiet h => exact key _ h (.inl ⟨rfl, rfl⟩)
  | mutate s hs candidates mutator bop hbop hmut h =>
    subst hs
    exact key _ h (publishes_mutateWithDelta m s candidates mutator)
  | aggregated s hs levels snapshotSeq h =>
    subst hs
    exact key _ h (publishes_afterSnapshot (m.setBook s _) s snapshotSeq)

end

section
variable (m : OrderBookManager D)

theorem book_onSnapshotPerOrder (symbol : String) (tickOrders : List Order)
    (snapshotSeq : Option UInt64) (s : String) :
    (m.onSnapshotPerOrder symbol tickOrders snapshotSeq).mgr.book s =
      if s = symbol then (m.book symbol).applySnapshotPerOrder tickOrders else m.book s := by
  simp [onSnapshotPerOrder]

variable [Double D]

theorem exec_book (op : ManagerOp D) (s : String) :
    (∃ tickOrders snapshotSeq, op = .snapshotPerOrder s tickOrders snapshotSeq ∧
      (m.exec op).1.book s = (m.book s).applySnapshotPerOrder tickOrders) ∨
    BookChange (m.book s) ((m.exec op).1.book s) := by
  obtain ⟨symbol, tickOrders, snapshotSeq, rfl⟩ | h := exec_effect m op
  · have hbook := book_onSnapshotPerOrder m symbol tickOrders snapshotSeq s
    by_cases hs : s = symbol
    · subst hs
      rw [if_pos rfl] at hbook
      exact .inl ⟨tickOrders, snapshotSeq, rfl, hbook⟩
    · rw [if_neg hs] at hbook
      right
      have hsame : (m.exec (.snapshotPerOrder symbol tickOrders snapshotSeq)).1.book s = m.book s :=
        hbook
      rw [hsame]
      exact .same
  · exact .inr (h.book s)

theorem exec_publishes (op : ManagerOp D) : m.Publishes op.symbol (m.exec op) := by
  obtain ⟨symbol, tickOrders, snapshotSeq, rfl⟩ | h := exec_effect m op
  · exact publishes_afterSnapshot (m.setBook symbol _) symbol snapshotSeq
  · exact h.publishes

/-- The deltas of an operation go to the subscribers of its symbol. -/
theorem exec_named {op : ManagerOp D} {symbol : String} (hop : op.symbol = some symbol) :
    ∀ d ∈ (m.exec op).2, d.symbol = symbol := by
  intro d hd
  obtain ⟨hnil, -⟩ | ⟨d', hone, hs, -⟩ := exec_publishes m op
  · rw [hnil] at hd
    cases hd
  · rw [hone] at hd
    obtain rfl := List.mem_singleton.mp hd
    exact (Option.some.inj (hop.symm.trans hs)).symm

end

section
variable [Double D]

/-- The level sums of the symbol's book stay below `2 ^ 64` while the operation runs: in the
book after it and, for a per-order snapshot, after each of the orders it adds. -/
def Fits (m : OrderBookManager D) (symbol : String) (op : ManagerOp D) : Prop :=
  ((m.exec op).1.book symbol).SumsFit ∧ ∀ tickOrders snapshotSeq,
    op = .snapshotPerOrder symbol tickOrders snapshotSeq →
      ∀ os, os <+: tickOrders → ((m.book symbol).applySnapshotPerOrder os).SumsFit

/-- Every operation of a run meets `P` in the manager it finds. -/
def Along (P : OrderBookManager D → ManagerOp D → Prop) (m : OrderBookManager D) :
    List (ManagerOp D) → Prop
  | [] => True
  | op :: ops => P m op ∧ Along P (m.exec op).1 ops

/-- The level sums of a symbol stay below `2 ^ 64` all along a run. -/
def FitsRun (symbol : String) (ops : List (ManagerOp D)) : Prop :=
  Along (fun m op => m.Fits symbol op) {} ops

theorem wf_apply {b : OrderBook} (h : b.WF) (bop : BookOp) : (b.apply bop).WF := by
  have hself : b.Refines ⟨fun x => b.queue x.1 x.2,
      fun scope => (b.synthCounters.lookup (OrderBook.scopeKey scope)).getD 1⟩ :=
    ⟨h, fun _ _ => rfl, fun _ => rfl⟩
  exact (hself.apply bop).wf

theorem wf_exec {m : OrderBookManager D} (h : ∀ s, (m.book s).WF) (op : ManagerOp D) (s : String) :
    ((m.exec op).1.book s).WF := by
  obtain ⟨tickOrders, snapshotSeq, -, hbook⟩ | hchange := exec_book m op s
  · rw [hbook]
    exact wf_apply (h s) (.snapshotPerOrder tickOrders)
  · generalize (m.exec op).1.book s = b' at hchange
    cases hchange with
    | same => exact h s
    | op bop hbop => exact wf_apply (h s) bop

theorem exact_exec {m : OrderBookManager D} {s : String} (h : (m.book s).WF)
    (he : (m.book s).Exact) (op : ManagerOp D) (hfit : m.Fits s op) :
    ((m.exec op).1.book s).Exact := by
  obtain ⟨tickOrders, snapshotSeq, hop, hbook⟩ | hchange := exec_book m op s
  · rw [hbook]
    exact (OrderBook.exact_applySnapshotPerOrder tickOrders
      (hfit.2 tickOrders snapshotSeq hop)).2
  · have hsum := hfit.1
    generalize (m.exec op).1.book s = b' at hchange hsum
    cases hchange with
    | same => exact he
    | op bop hbop =>
      refine OrderBook.exact_apply h he bop ?_
      cases bop with
      | snapshotPerOrder orders => exact absurd rfl (hbop orders)
      | _ => exact hsum

theorem runFrom_cons (m : OrderBookManager D) (op : ManagerOp D) (ops : List (ManagerOp D)) :
    (runFrom m (op :: ops)).1 = (runFrom (m.exec op).1 ops).1 := by
  have hacc : ∀ (x : OrderBookManager D × List BookDelta),
      (ops.foldl (fun x op => ((x.1.exec op).1, x.2 ++ (x.1.exec op).2)) x).1 =
        (runFrom x.1 ops).1 := by
    intro x
    unfold runFrom
    induction ops generalizing x with
    | nil => rfl
    | cons op' ops ih =>
      rw [List.foldl_cons, List.foldl_cons]
      exact (ih _).trans (ih ((x.1.exec op').1, [] ++ (x.1.exec op').2)).symm
  exact hacc ((m.exec op).1, (m.exec op).2)

/-- Every book of a reachable manager satisfies the locator invariant. -/
theorem run_wf (ops : List (ManagerOp D)) (s : String) : ((run ops).1.book s).WF := by
  induction ops using List.reverseRecOn generalizing s with
  | nil => exact OrderBook.wf_empty
  | append_singleton ops op ih =>
    rw [run, runFrom_concat]
    exact wf_exec ih op s

theorem runFrom_exact {m : OrderBookManager D} {s : String} (h : ∀ s, (m.book s).WF)
    (he : (m.book s).Exact) (ops : List (ManagerOp D))
    (hfit : Along (fun m op => m.Fits s op) m ops) :
    ((runFrom m ops).1.book s).Exact := by
  induction ops generalizing m with
  | nil => exact he
  | cons op ops ih =>
    rw [runFrom_cons]
    exact ih (wf_exec h op) (exact_exec (h s) he op hfit.1) hfit.2

theorem along_concat (P : OrderBookManager D → ManagerOp D → Prop) (m : OrderBookManager D)
    (ops : List (ManagerOp D)) (op : ManagerOp D) :
    Along P m (ops ++ [op]) ↔ Along P m ops ∧ P (runFrom m ops).1 op := by
  induction ops generalizing m with
  | nil => simp [Along, runFrom]
  | cons op' ops ih => rw [List.cons_append, Along, Along, ih, runFrom_cons, and_assoc]

/-- While the level sums of a symbol fit, its cached totals are exact. -/
theorem run_exact (ops : List (ManagerOp D)) (s : String) (hfit : FitsRun s ops) :
    ((run ops).1.book s).Exact :=
  runFrom_exact (m := {}) (fun _ => OrderBook.wf_empty) OrderBook.exact_empty ops hfit

/-- The deltas of a symbol published in a run are numbered 1, 2, 3 and so on. -/
theorem run_seq (ops : List (ManagerOp D)) (s : String) :
    ((run ops).2.filter (fun d => d.symbol = s)).map BookDelta.seq =
      (List.range ((run ops).2.filter (fun d => d.symbol = s)).length).map
        (fun i => UInt64.ofNat (i + 1)) ∧
    ((run ops).1.pubSeq s).getD 0 =
      UInt64.ofNat ((run ops).2.filter (fun d => d.symbol = s)).length := by
  induction ops using List.reverseRecOn with
  | nil => exact ⟨rfl, rfl⟩
  | append_singleton ops op ih =>
    rw [run, runFrom_concat, ← run]
    obtain ⟨hd, hs⟩ | ⟨d, hd, -, hseq, hs⟩ := exec_publishes (run ops).1 op
    · rw [hd, hs, List.append_nil]
      exact ih
    · rw [hd, hs, List.filter_append]
      by_cases hsym : d.symbol = s
      · subst hsym
        rw [ih.2] at hseq
        have hnext : d.seq = UInt64.ofNat
            (((run ops).2.filter (fun e => e.symbol = d.symbol)).length + 1) := by
          rw [hseq, UInt64.ofNat_add]
          rfl
        have hone : [d].filter (fun e => e.symbol = d.symbol) = [d] := by simp
        rw [hone, List.map_append, List.length_append, ih.1]
        refine ⟨?_, ?_⟩
        · simp [List.range_succ, hnext]
        · simp [hnext]
      · have hnone : [d].filter (fun e => e.symbol = s) = [] := by simp [hsym]
        rw [hnone, List.append_nil, Function.update_of_ne (Ne.symm hsym)]
        exact ih

end

end OrderBookManager
end GmaEngine
