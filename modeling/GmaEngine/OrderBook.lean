import Mathlib

/-!
# The per-symbol order book

A literal account of `OrderBook`: two ladders of price levels, each level a list of
order nodes with a cached total, an index from order keys to locators, the aggregated
ladders, and the synthetic-id counters. List nodes carry the address the allocator gave
them, so a locator's iterator is an address and dereferencing it is a search for that
address. Sizes, ids and totals are 64-bit words and wrap as they do in the source;
prices are integer ticks, on which no arithmetic is done.
-/

namespace GmaEngine
open Std

inductive Side where
  | bid | ask
  deriving DecidableEq, Repr

inductive Aggressor where
  | unknown | buy | sell
  deriving DecidableEq, Repr

structure Price where
  ticks : Int
  deriving DecidableEq, Repr

structure FeedScope where
  feedId : UInt32 := 0
  epoch : UInt32 := 0
  deriving DecidableEq, Repr

structure OrderKey where
  id : UInt64 := 0
  feedId : UInt32 := 0
  epoch : UInt32 := 0
  synthetic : Bool := false
  deriving DecidableEq, Repr

structure Order where
  id : UInt64 := 0
  side : Side := .bid
  price : Price := ⟨0⟩
  size : UInt64 := 0
  priority : UInt64 := 0
  feedId : UInt32 := 0
  epoch : UInt32 := 0
  synthetic : Bool := false
  deriving DecidableEq, Repr

/-- `makeKeyFromOrder`. -/
def Order.key (o : Order) : OrderKey := ⟨o.id, o.feedId, o.epoch, o.synthetic⟩

/-- `makeKey`. -/
def makeKey (id : UInt64) (s : FeedScope) (synthetic : Bool) : OrderKey :=
  ⟨id, s.feedId, s.epoch, synthetic⟩

/-- A node of a level's `std::list<Order>`: the order and the address an iterator holds. -/
structure Node where
  addr : ℕ
  order : Order
  deriving DecidableEq, Repr

structure PriceLevel where
  orders : List Node
  totalSize : UInt64
  deriving DecidableEq, Repr

structure LevelAgg where
  totalSize : UInt64
  orderCount : UInt32
  deriving DecidableEq, Repr

structure LevelSnapshotEntry where
  side : Side
  price : Price
  totalSize : UInt64
  orderCount : Option UInt32
  deriving DecidableEq, Repr

structure Locator where
  side : Side
  price : Price
  it : ℕ
  deriving DecidableEq, Repr

/-- `GreaterP` on the bid ladder, `LessP` on the ask ladder: the best price comes first. -/
def ladderCmp : Side → Price → Price → Ordering
  | .bid, p, q => compare q.ticks p.ticks
  | .ask, p, q => compare p.ticks q.ticks

instance (s : Side) : LawfulEqCmp (ladderCmp s) where
  compare_self := by intro p; cases s <;> simp [ladderCmp]
  eq_of_compare := by
    rintro ⟨p⟩ ⟨q⟩ h
    cases s <;> simp_all [ladderCmp]

instance (s : Side) : TransCmp (ladderCmp s) where
  eq_swap := by
    intro p q
    cases s <;> simp only [ladderCmp] <;> exact OrientedCmp.eq_swap
  isLE_trans := by
    intro p q r hpq hqr
    cases s <;> simp only [ladderCmp] at hpq hqr ⊢
    · exact TransCmp.isLE_trans hqr hpq
    · exact TransCmp.isLE_trans hpq hqr

abbrev Ladder (s : Side) := ExtTreeMap Price PriceLevel (ladderCmp s)
abbrev AggLadder (s : Side) := ExtTreeMap Price LevelAgg (ladderCmp s)

/-- `ladder .bid` is `bids_`, `ladder .ask` is `asks_`, and `ladderAgg` is the pair
`bidsAgg_`, `asksAgg_`. `nextAddr` is the allocator's next fresh list-node address. -/
structure OrderBook where
  ladder : (s : Side) → Ladder s := fun _ => ∅
  ladderAgg : (s : Side) → AggLadder s := fun _ => ∅
  byId : AList (fun _ : OrderKey => Locator) := ∅
  synthCounters : AList (fun _ : UInt64 => UInt64) := ∅
  nextAddr : ℕ := 0

namespace PriceLevel

/-- Dereference an iterator into this level's list. -/
def deref (l : PriceLevel) (it : ℕ) : Option Order :=
  (l.orders.find? (fun n => n.addr = it)).map Node.order

def eraseNode (l : PriceLevel) (it : ℕ) : List Node :=
  l.orders.filter (fun n => n.addr ≠ it)

/-- Write through an iterator; the node keeps its address and its place. -/
def writeNode (l : PriceLevel) (it : ℕ) (o : Order) : List Node :=
  l.orders.map (fun n => if n.addr = it then ⟨it, o⟩ else n)

/-- The guarded subtraction of `updateImpl` and `deleteImpl`: on underflow the cached
total is reset to zero. -/
def shrunk (l : PriceLevel) (sz : UInt64) : UInt64 :=
  if sz ≤ l.totalSize then l.totalSize - sz else 0

end PriceLevel

namespace OrderBook

def scopeKey (s : FeedScope) : UInt64 := (s.feedId.toUInt64 <<< 32) ||| s.epoch.toUInt64

/-- The first id of a scope is one; the counter then holds the next one. -/
def nextSyntheticId (b : OrderBook) (s : FeedScope) : OrderBook × UInt64 :=
  let id := (b.synthCounters.lookup (scopeKey s)).getD 1
  ({ b with synthCounters := b.synthCounters.insert (scopeKey s) (id + 1) }, id)

def findLevel (b : OrderBook) (s : Side) (p : Price) : Option PriceLevel := (b.ladder s)[p]?

/-- A write through a level reference obtained from `findLevel` or `getOrCreateLevel`. -/
def setLevel (b : OrderBook) (s : Side) (p : Price) (l : PriceLevel) : OrderBook :=
  { b with ladder := Function.update b.ladder s ((b.ladder s).insert p l) }

def getOrCreateLevel (b : OrderBook) (s : Side) (p : Price) : PriceLevel :=
  (b.findLevel s p).getD ⟨[], 0⟩

def eraseLevelIfEmpty (b : OrderBook) (s : Side) (p : Price) : OrderBook :=
  match b.findLevel s p with
  | none => b
  | some l =>
    if l.orders = [] then { b with ladder := Function.update b.ladder s ((b.ladder s).erase p) }
    else b

def findAggLevel (b : OrderBook) (s : Side) (p : Price) : Option LevelAgg := (b.ladderAgg s)[p]?

def setAggLevel (b : OrderBook) (s : Side) (p : Price) (l : LevelAgg) : OrderBook :=
  { b with ladderAgg := Function.update b.ladderAgg s ((b.ladderAgg s).insert p l) }

def eraseAggLevel (b : OrderBook) (s : Side) (p : Price) : OrderBook :=
  { b with ladderAgg := Function.update b.ladderAgg s ((b.ladderAgg s).erase p) }

/-- `begin()` of a ladder, with the level it holds. -/
def begin (b : OrderBook) (s : Side) : Option (Price × PriceLevel) := (b.ladder s).toList.head?

/-- Take the node at `it`, holding size `sz`, out of a level and drop the level when it
was the last one. -/
def unlink (b : OrderBook) (s : Side) (p : Price) (l : PriceLevel) (it : ℕ) (sz : UInt64) :
    OrderBook :=
  (b.setLevel s p ⟨l.eraseNode it, l.shrunk sz⟩).eraseLevelIfEmpty s p

/-- `push_back` of a new node on a level that is created when missing. -/
def pushBack (b : OrderBook) (s : Side) (p : Price) (o : Order) : OrderBook :=
  let l := b.getOrCreateLevel s p
  { b.setLevel s p ⟨l.orders ++ [⟨b.nextAddr, o⟩], l.totalSize + o.size⟩ with
    nextAddr := b.nextAddr + 1 }

/-- The loop of `consumeAtLevel` over the front of one level: the index, the remaining
nodes, the remaining quantity and the cached total. -/
def consumeLoop (byId : AList (fun _ : OrderKey => Locator)) (remaining total : UInt64) :
    List Node → AList (fun _ : OrderKey => Locator) × List Node × UInt64 × UInt64
  | [] => (byId, [], remaining, total)
  | top :: rest =>
    if remaining = 0 then (byId, top :: rest, remaining, total)
    else
      let take := if top.order.size ≤ remaining then top.order.size else remaining
      let left := top.order.size - take
      if left = 0 then
        consumeLoop (byId.erase top.order.key) (remaining - take) (total - take) rest
      else
        (byId, ⟨top.addr, { top.order with size := left }⟩ :: rest, remaining - take, total - take)

def consumeAtLevel (b : OrderBook) (passive : Side) (p : Price) (qty : UInt64) :
    OrderBook × UInt64 :=
  match b.findLevel passive p with
  | none => (b, 0)
  | some l =>
    if qty = 0 then (b, 0)
    else
      match consumeLoop b.byId qty l.totalSize l.orders with
      | (byId, orders, remaining, total) =>
        ((({ b with byId := byId }).setLevel passive p ⟨orders, total⟩).eraseLevelIfEmpty passive p,
          qty - remaining)

def deleteImpl (b : OrderBook) (key : OrderKey) : OrderBook × Bool :=
  match b.byId.lookup key with
  | none => (b, false)
  | some loc =>
    match b.findLevel loc.side loc.price with
    | none => ({ b with byId := b.byId.erase key }, false)
    | some l =>
      match l.deref loc.it with
      | none => (b, false) -- a dangling iterator, excluded by the locator invariant
      | some ord =>
        let b := b.unlink loc.side loc.price l loc.it ord.size
        ({ b with byId := b.byId.erase key }, true)

def addImpl (b : OrderBook) (o : Order) : OrderBook × Bool :=
  let b := if (b.byId.lookup o.key).isSome then (b.deleteImpl o.key).1 else b
  let addr := b.nextAddr
  let b := b.pushBack o.side o.price o
  -- `emplace` leaves an existing entry alone
  ({ b with byId := if (b.byId.lookup o.key).isSome then b.byId
      else b.byId.insert o.key ⟨o.side, o.price, addr⟩ }, true)

def updateImpl (b : OrderBook) (key : OrderKey) (newPrice : Option Price)
    (newSize : Option UInt64) : OrderBook × Bool :=
  match b.byId.lookup key with
  | none => (b, false)
  | some loc =>
    match b.findLevel loc.side loc.price with
    | none => ({ b with byId := b.byId.erase key }, false)
    | some l =>
      match l.deref loc.it with
      | none => (b, false) -- a dangling iterator, excluded by the locator invariant
      | some ord =>
        let tgtPrice := newPrice.getD ord.price
        let tgtSize := newSize.getD ord.size
        if tgtSize = 0 then
          let b := b.unlink loc.side loc.price l loc.it ord.size
          ({ b with byId := b.byId.erase key }, true)
        else if tgtPrice = ord.price then
          if tgtSize = ord.size then (b, false)
          else
            let total := if ord.size < tgtSize then l.totalSize + (tgtSize - ord.size)
              else l.totalSize - (ord.size - tgtSize)
            (b.setLevel loc.side loc.price ⟨l.writeNode loc.it { ord with size := tgtSize }, total⟩,
              true)
        else
          let moved := { ord with price := tgtPrice, size := tgtSize }
          let b := b.unlink loc.side loc.price l loc.it ord.size
          let newIt := b.nextAddr
          let b := b.pushBack loc.side tgtPrice moved
          ({ b with byId := b.byId.insert key ⟨loc.side, tgtPrice, newIt⟩ }, true)

/-- Priority change: move to the back of the level. -/
def priorityImpl (b : OrderBook) (key : OrderKey) (newPriority : UInt64) : OrderBook × Bool :=
  match b.byId.lookup key with
  | none => (b, false)
  | some loc =>
    match b.findLevel loc.side loc.price with
    | none => ({ b with byId := b.byId.erase key }, false)
    | some l =>
      match l.deref loc.it with
      | none => (b, false) -- a dangling iterator, excluded by the locator invariant
      | some ord =>
        if ord.priority = newPriority then (b, false)
        else
          let ord := { ord with priority := newPriority }
          let orders :=
            if l.orders.getLast?.map Node.addr = some loc.it then l.writeNode loc.it ord
            else l.eraseNode loc.it ++ [⟨loc.it, ord⟩] -- the splice keeps the iterator valid
          (b.setLevel loc.side loc.price ⟨orders, l.totalSize⟩, true)

def clearPerOrderUnlocked (b : OrderBook) : OrderBook := { b with ladder := fun _ => ∅, byId := ∅ }

def clearAggregatedUnlocked (b : OrderBook) : OrderBook := { b with ladderAgg := fun _ => ∅ }

/-- The scope and, when the id is missing, the synthetic id that a scoped add writes into
its copy of the order. -/
def scopedCopy (b : OrderBook) (o : Order) (scope : FeedScope) (idMissing : Bool) :
    OrderBook × Order :=
  let copy : Order := { o with feedId := scope.feedId, epoch := scope.epoch }
  if idMissing ∨ copy.id = 0 then
    let (b, id) := b.nextSyntheticId scope
    (b, { copy with synthetic := true, id := id })
  else (b, copy)

def applyAdd (b : OrderBook) (o : Order) : OrderBook × Bool :=
  b.addImpl { o with feedId := 0, epoch := 0 }

def applyAddScoped (b : OrderBook) (o : Order) (scope : FeedScope) (idMissing : Bool) :
    OrderBook × Bool :=
  let (b, copy) := b.scopedCopy o scope idMissing
  b.addImpl copy

def applyAddGetKey (b : OrderBook) (o : Order) (scope : FeedScope) (idMissing : Bool) :
    OrderBook × OrderKey :=
  let (b, copy) := b.scopedCopy o scope idMissing
  ((b.addImpl copy).1, copy.key)

def applyUpdateKey (b : OrderBook) (key : OrderKey) (newPrice : Option Price)
    (newSize : Option UInt64) : OrderBook × Bool := b.updateImpl key newPrice newSize

def applyUpdate (b : OrderBook) (id : UInt64) (newPrice : Option Price)
    (newSize : Option UInt64) : OrderBook × Bool :=
  b.updateImpl (makeKey id {} false) newPrice newSize

def applyDeleteKey (b : OrderBook) (key : OrderKey) : OrderBook × Bool := b.deleteImpl key

def applyDelete (b : OrderBook) (id : UInt64) : OrderBook × Bool :=
  b.deleteImpl (makeKey id {} false)

def applyPriorityKey (b : OrderBook) (key : OrderKey) (newPriority : UInt64) : OrderBook × Bool :=
  b.priorityImpl key newPriority

def applyPriority (b : OrderBook) (id : UInt64) (newPriority : UInt64) : OrderBook × Bool :=
  b.priorityImpl (makeKey id {} false) newPriority

/-- The passive side of a trade. An unknown aggressor is placed by the best prices; a
trade strictly inside the spread, or on an empty book, has no passive side. -/
def passiveSide (b : OrderBook) (tradePrice : Price) : Aggressor → Option Side
  | .buy => some .ask
  | .sell => some .bid
  | .unknown =>
    if (b.begin .bid).any (fun l => tradePrice.ticks ≤ l.1.ticks) then some .bid
    else if (b.begin .ask).any (fun l => l.1.ticks ≤ tradePrice.ticks) then some .ask
    else none

def applyTrade (b : OrderBook) (tradePrice : Price) (qty : UInt64) (aggr : Aggressor) :
    OrderBook × Bool :=
  if qty = 0 then (b, false)
  else
    match b.passiveSide tradePrice aggr with
    | none => (b, false)
    | some passive =>
      let (b, consumed) := b.consumeAtLevel passive tradePrice qty
      (b, decide (0 < consumed))

def applySnapshotPerOrder (b : OrderBook) (orders : List Order) : OrderBook :=
  orders.foldl (fun b o => (b.addImpl o).1) b.clearPerOrderUnlocked

def applySnapshotAggregated (b : OrderBook) (levels : List LevelSnapshotEntry) : OrderBook :=
  levels.foldl (fun b e => if e.totalSize = 0 then b
    else b.setAggLevel e.side e.price ⟨e.totalSize, e.orderCount.getD 0⟩) b.clearAggregatedUnlocked

def applyLevelSummary (b : OrderBook) (side : Side) (price : Price) (totalSize : UInt64)
    (orderCount : Option UInt32) : OrderBook × Bool :=
  if totalSize = 0 then (b.eraseAggLevel side price, true)
  else
    let l := (b.findAggLevel side price).getD ⟨0, 0⟩
    let changed := l.totalSize ≠ totalSize ∨ orderCount.any (fun c => l.orderCount ≠ c)
    (b.setAggLevel side price ⟨totalSize, orderCount.getD l.orderCount⟩, decide changed)

def bestBid (b : OrderBook) : Option Price := (b.begin .bid).map Prod.fst
def bestAsk (b : OrderBook) : Option Price := (b.begin .ask).map Prod.fst
def bestBidSize (b : OrderBook) : UInt64 := (b.begin .bid).elim 0 (fun l => l.2.totalSize)
def bestAskSize (b : OrderBook) : UInt64 := (b.begin .ask).elim 0 (fun l => l.2.totalSize)

def levelSize (b : OrderBook) (s : Side) (p : Price) : UInt64 :=
  (b.findLevel s p).elim 0 PriceLevel.totalSize

def levelSizeAggregated (b : OrderBook) (s : Side) (p : Price) : UInt64 :=
  (b.findAggLevel s p).elim 0 LevelAgg.totalSize

/-- The prices and totals that `forEachLevel` hands to its callback, in order. -/
def forEachLevel (b : OrderBook) (s : Side) (n : ℕ) : List (Price × UInt64) :=
  ((b.ladder s).toList.take n).map (fun l => (l.1, l.2.totalSize))

def locate (b : OrderBook) (key : OrderKey) : Option (Side × Price) :=
  (b.byId.lookup key).map (fun loc => (loc.side, loc.price))

end OrderBook
end GmaEngine
