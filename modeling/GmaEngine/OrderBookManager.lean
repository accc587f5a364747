import GmaEngine.Double
import GmaEngine.OrderBookRefinement

/-!
# The order book manager

Sequencing and stale control per symbol, tick quantisation and validation, the venue-key
resolver, and the event bus: every mutation goes through `mutateWithDelta`, which compares
the probed levels and the top of book before and after it and publishes a `BookDelta`.
An operation returns its value, the new manager and the deltas it hands to the subscribers
of the symbol. Metrics counters and the subscription table are left out.
-/

namespace GmaEngine

structure LevelDelta where
  side : Side
  price : Price
  totalSize : UInt64
  deriving DecidableEq, Repr

structure BookDelta where
  symbol : String
  seq : UInt64
  levels : List LevelDelta
  bid : Option (Price × UInt64)
  ask : Option (Price × UInt64)
  deriving DecidableEq, Repr

structure DepthSnapshot where
  symbol : String
  seq : UInt64
  epoch : UInt32
  bids : List (Price × UInt64)
  asks : List (Price × UInt64)
  deriving DecidableEq, Repr

structure FeedState where
  lastSeq : UInt64 := 0
  epoch : UInt32 := 0
  stale : Bool := false
  deriving DecidableEq, Repr

structure LruNode where
  addr : ℕ
  key : String
  value : OrderKey
  deriving DecidableEq, Repr

/-- The most recently used entry comes first; `idx` holds iterators into `dq`. -/
structure Lru where
  cap : ℕ := 4096
  dq : List LruNode := []
  idx : AList (fun _ : String => ℕ) := ∅
  nextAddr : ℕ := 0

namespace Lru

def popBack (l : Lru) : Lru :=
  match l.dq.getLast? with
  | none => l
  | some n => { l with dq := l.dq.dropLast, idx := l.idx.erase n.key }

/-- `while (dq.size() > cap)`: as many rounds as there are entries over the capacity. -/
def trim (l : Lru) : Lru := popBack^[l.dq.length - l.cap] l

def setCap (l : Lru) (c : ℕ) : Lru := trim { l with cap := if c ≠ 0 then c else 1 }

def put (l : Lru) (k : String) (v : OrderKey) : Lru :=
  match l.idx.lookup k with
  | some it =>
    { l with dq := (l.dq.filter (fun n => n.addr = it)).map (fun n => { n with value := v }) ++
        l.dq.filter (fun n => n.addr ≠ it) }
  | none =>
    trim { l with dq := ⟨l.nextAddr, k, v⟩ :: l.dq, idx := l.idx.insert k l.nextAddr,
                  nextAddr := l.nextAddr + 1 }

def cget (l : Lru) (k : String) : Option OrderKey := do
  let it ← l.idx.lookup k
  let n ← l.dq.find? (fun n => n.addr = it)
  return n.value

end Lru

structure OrderBookManager (D : Type) where
  books : String → Option OrderBook := fun _ => none
  tickSize : String → Option D := fun _ => none
  feed : String → Option FeedState := fun _ => none
  resolver : String → Option Lru := fun _ => none
  pubSeq : String → Option UInt64 := fun _ => none
  allowNegativePrices : Bool := false

/-- What a call gives back: its value, the manager after it, and the published deltas. -/
structure Outcome (D α : Type) where
  ret : α
  mgr : OrderBookManager D
  deltas : List BookDelta

structure LevelSnapshotEntryD (D : Type) where
  side : Side
  price : D
  totalSize : UInt64
  orderCount : Option UInt32

namespace OrderBookManager
variable {D : Type}

/-- `book`: the book of a symbol, created empty on first use. -/
def book (m : OrderBookManager D) (symbol : String) : OrderBook := (m.books symbol).getD {}

def findBook (m : OrderBookManager D) (symbol : String) : Option OrderBook := m.books symbol

def setBook (m : OrderBookManager D) (symbol : String) (b : OrderBook) : OrderBookManager D :=
  { m with books := Function.update m.books symbol (some b) }

def getFeedState (m : OrderBookManager D) (symbol : String) : FeedState :=
  (m.feed symbol).getD {}

def setFeed (m : OrderBookManager D) (symbol : String) (st : FeedState) : OrderBookManager D :=
  { m with feed := Function.update m.feed symbol (some st) }

def isStale (m : OrderBookManager D) (symbol : String) : Bool := (m.getFeedState symbol).stale

def gate (m : OrderBookManager D) (symbol : String) : Bool := (m.getFeedState symbol).stale

/-- The value says whether the message may be applied; a gap makes the symbol stale. -/
def onSeq (m : OrderBookManager D) (symbol : String) (seq : UInt64) : Outcome D Bool :=
  let st := m.getFeedState symbol
  if st.stale then ⟨false, m.setFeed symbol st, []⟩
  else if st.lastSeq = 0 ∨ seq = st.lastSeq + 1 then
    ⟨true, m.setFeed symbol { st with lastSeq := seq }, []⟩
  else ⟨false, m.setFeed symbol { st with stale := true }, []⟩

def onReset (m : OrderBookManager D) (symbol : String) (newEpoch : UInt32) : OrderBookManager D :=
  m.setFeed symbol { epoch := newEpoch, stale := true, lastSeq := 0 }

def resolverSetCapacity (m : OrderBookManager D) (cap : ℕ) : OrderBookManager D :=
  { m with resolver := fun s => (m.resolver s).map (fun l => l.setCap cap) }

def resolverPut (m : OrderBookManager D) (symbol venueKey : String) (key : OrderKey) :
    OrderBookManager D :=
  let l := ((m.resolver symbol).getD {}).put venueKey key
  { m with resolver := Function.update m.resolver symbol (some l) }

def resolverGet (m : OrderBookManager D) (symbol venueKey : String) : Option OrderKey := do
  let l ← m.resolver symbol
  l.cget venueKey

/-- Nothing is published when there is nothing to say; else the symbol's publication
sequence moves on by one. -/
def maybePublishDelta (m : OrderBookManager D) (symbol : String) (levels : List LevelDelta)
    (newBid newAsk : Option (Price × UInt64)) : OrderBookManager D × List BookDelta :=
  if levels = [] ∧ newBid = none ∧ newAsk = none then (m, [])
  else
    let seq := (m.pubSeq symbol).getD 0 + 1
    ({ m with pubSeq := Function.update m.pubSeq symbol (some seq) },
      [⟨symbol, seq, levels, newBid, newAsk⟩])

structure Probe where
  s : Side
  p : Price
  before : UInt64

/-- `addProbe`: a level probed already is not probed again. -/
def addProbe (b : OrderBook) (probes : List Probe) (c : Side × Price) : List Probe :=
  if probes.any (fun pr => pr.s = c.1 ∧ pr.p.ticks = c.2.ticks) then probes
  else probes ++ [⟨c.1, c.2, b.levelSize c.1 c.2⟩]

/-- `bidChanged` and `askChanged`. -/
def tobChanged (pre post : Option Price) (preSz postSz : UInt64) : Bool :=
  decide (pre.isSome ≠ post.isSome) ||
    match pre, post with
    | some p, some q => decide (p.ticks ≠ q.ticks ∨ preSz ≠ postSz)
    | _, _ => false

/-- The mutator's book is kept whatever it returns; a delta is computed only when it
reports a change. -/
def mutateWithDelta (m : OrderBookManager D) (symbol : String) (candidates : List (Side × Price))
    (mutator : OrderBook → OrderBook × Bool) : Outcome D Bool :=
  let b := m.book symbol
  let probes := candidates.foldl (addProbe b) []
  let (b', changed) := mutator b
  let m := m.setBook symbol b'
  if !changed then ⟨false, m, []⟩
  else
    let levels := probes.filterMap (fun pr =>
      let after := b'.levelSize pr.s pr.p
      if after ≠ pr.before then some ⟨pr.s, pr.p, after⟩ else none)
    let bidChanged := tobChanged b.bestBid b'.bestBid b.bestBidSize b'.bestBidSize
    let askChanged := tobChanged b.bestAsk b'.bestAsk b.bestAskSize b'.bestAskSize
    let nbid := if bidChanged then b'.bestBid.map (fun p => (p, b'.bestBidSize)) else none
    let nask := if askChanged then b'.bestAsk.map (fun p => (p, b'.bestAskSize)) else none
    let (m, deltas) := m.maybePublishDelta symbol levels nbid nask
    ⟨true, m, deltas⟩

section
variable [Double D]
open Double

def kDefaultTick : D := ofRat (1 / 10000)

def setTickSize (m : OrderBookManager D) (symbol : String) (tickSize : D) : OrderBookManager D :=
  let t := if gt tickSize (ofRat 0) then tickSize else kDefaultTick
  { m with tickSize := Function.update m.tickSize symbol (some t) }

def getTickSize (m : OrderBookManager D) (symbol : String) : D :=
  (m.tickSize symbol).getD kDefaultTick

def quantizeTicks (px tick : D) : ℤ :=
  if le tick (ofRat 0) then 0
  else
    let q := div px tick
    -- `static_cast<double>(INT64_MAX)` is 2^63
    if gt q (ofRat (2 ^ 63)) || lt q (ofRat (-2 ^ 63)) then 0
    else llround (add q (copysign (ofRat (1 / 10 ^ 12)) q))

def toTicks (m : OrderBookManager D) (symbol : String) (px : D) : Price :=
  ⟨quantizeTicks px (m.getTickSize symbol)⟩

def toDouble (m : OrderBookManager D) (symbol : String) (p : Price) : D :=
  mul (ofRat p.ticks) (m.getTickSize symbol)

def validSide (s : Side) : Bool := decide (s = .bid ∨ s = .ask)

def validateSize (sz : UInt64) : Bool := decide (0 < sz)

def validatePrice (m : OrderBookManager D) (symbol : String) (px : D) : Bool :=
  if isnan px || isinf px then false
  else if eq px (ofRat 0) then false
  else if !m.allowNegativePrices && lt px (ofRat 0) then false
  else
    let q := div px (m.getTickSize symbol)
    lt (fabs (sub q (round q))) (ofRat (1 / 10 ^ 8))

/-- The order that an accepted add hands to the book. -/
def addedOrder (m : OrderBookManager D) (symbol : String) (id : UInt64) (side : Side) (price : D)
    (size priority : UInt64) : Order :=
  { id := id, side := side, price := m.toTicks symbol price, size := size, priority := priority }

def onAddGetKey (m : OrderBookManager D) (symbol : String) (id : UInt64) (side : Side) (price : D)
    (size priority : UInt64) (scope : FeedScope) (idMissing : Bool) : Outcome D OrderKey :=
  if m.gate symbol then ⟨⟨0, scope.feedId, scope.epoch, true⟩, m, []⟩
  else if !validSide side || !m.validatePrice symbol price || !validateSize size then ⟨{}, m, []⟩
  else
    let o := m.addedOrder symbol id side price size priority
    let out := m.mutateWithDelta symbol [(side, o.price)]
      (fun b => ((b.applyAddGetKey o scope idMissing).1, true))
    ⟨((m.book symbol).applyAddGetKey o scope idMissing).2, out.mgr, out.deltas⟩

def onAdd (m : OrderBookManager D) (symbol : String) (id : UInt64) (side : Side) (price : D)
    (size priority : UInt64) (scope : FeedScope) (idMissing : Bool) : Outcome D Bool :=
  if m.gate symbol then ⟨false, m, []⟩
  else if !validSide side || !m.validatePrice symbol price || !validateSize size then
    ⟨false, m, []⟩
  else
    let o := m.addedOrder symbol id side price size priority
    m.mutateWithDelta symbol [(side, o.price)] (fun b => b.applyAddScoped o scope idMissing)

end

/-- The levels that an update probes: where the order rests and, for a new price, where it
will go. For an unknown key the source leaves `oldSide` unset; the update then reports no
change and the probe is never read. -/
def updateCandidates (b : OrderBook) (key : OrderKey) (newPrice : Option Price) :
    List (Side × Price) :=
  let located := b.locate key
  located.toList ++ newPrice.toList.map (fun p => ((located.map Prod.fst).getD .bid, p))

section
variable [Double D]

def onUpdateKey (m : OrderBookManager D) (symbol : String) (key : OrderKey)
    (newPrice : Option D) (newSize : Option UInt64) : Outcome D Bool :=
  if m.gate symbol then ⟨false, m, []⟩
  else if newPrice.isNone && newSize.isNone then ⟨false, m, []⟩
  else if newPrice.any (fun px => !m.validatePrice symbol px) then ⟨false, m, []⟩
  else if newSize.any (fun sz => !validateSize sz) then ⟨false, m, []⟩
  else
    let p := newPrice.map (m.toTicks symbol)
    m.mutateWithDelta symbol (updateCandidates (m.book symbol) key p)
      (fun b => b.applyUpdateKey key p newSize)

def onUpdate (m : OrderBookManager D) (symbol : String) (id : UInt64) (scope : FeedScope)
    (newPrice : Option D) (newSize : Option UInt64) (synthetic : Bool) : Outcome D Bool :=
  m.onUpdateKey symbol ⟨id, scope.feedId, scope.epoch, synthetic⟩ newPrice newSize

end

def onDeleteKey (m : OrderBookManager D) (symbol : String) (key : OrderKey) : Outcome D Bool :=
  if m.gate symbol then ⟨false, m, []⟩
  else m.mutateWithDelta symbol ((m.book symbol).locate key).toList (fun b => b.applyDeleteKey key)

def onDelete (m : OrderBookManager D) (symbol : String) (id : UInt64) (scope : FeedScope)
    (synthetic : Bool) : Outcome D Bool :=
  m.onDeleteKey symbol ⟨id, scope.feedId, scope.epoch, synthetic⟩

def onPriorityKey (m : OrderBookManager D) (symbol : String) (key : OrderKey)
    (newPriority : UInt64) : Outcome D Bool :=
  if m.gate symbol then ⟨false, m, []⟩
  else m.mutateWithDelta symbol [] (fun b => b.applyPriorityKey key newPriority)

def onPriority (m : OrderBookManager D) (symbol : String) (id : UInt64) (scope : FeedScope)
    (newPriority : UInt64) (synthetic : Bool) : Outcome D Bool :=
  m.onPriorityKey symbol ⟨id, scope.feedId, scope.epoch, synthetic⟩ newPriority

section
variable [Double D]

def onAddWithVenueKey (m : OrderBookManager D) (symbol venueKey : String) (id : UInt64)
    (side : Side) (price : D) (size priority : UInt64) (scope : FeedScope) (idMissing : Bool) :
    Outcome D Bool :=
  let out := m.onAddGetKey symbol id side price size priority scope idMissing
  let k := out.ret
  if k.id = 0 ∧ k.feedId = 0 ∧ k.epoch = 0 then ⟨false, out.mgr, out.deltas⟩
  else ⟨true, out.mgr.resolverPut symbol venueKey k, out.deltas⟩

def onUpdateByVenueKey (m : OrderBookManager D) (symbol venueKey : String) (newPrice : Option D)
    (newSize : Option UInt64) : Outcome D Bool :=
  if m.gate symbol then ⟨false, m, []⟩
  else
    match m.resolverGet symbol venueKey with
    | none => ⟨false, m, []⟩
    | some k => m.onUpdateKey symbol k newPrice newSize

end

def onDeleteByVenueKey (m : OrderBookManager D) (symbol venueKey : String) : Outcome D Bool :=
  if m.gate symbol then ⟨false, m, []⟩
  else
    match m.resolverGet symbol venueKey with
    | none => ⟨false, m, []⟩
    | some k => m.onDeleteKey symbol k

/-- The levels that a trade probes: those at its price with a nonzero cached total. -/
def tradeCandidates (b : OrderBook) (tp : Price) : List (Side × Price) :=
  (if 0 < b.levelSize .bid tp then [(.bid, tp)] else []) ++
    (if 0 < b.levelSize .ask tp then [(.ask, tp)] else [])

def onTrade [Double D] (m : OrderBookManager D) (symbol : String) (tradePrice : D) (size : UInt64)
    (aggr : Aggressor) : Outcome D Bool :=
  if m.gate symbol then ⟨false, m, []⟩
  else if !m.validatePrice symbol tradePrice || !validateSize size then ⟨false, m, []⟩
  else
    let tp := m.toTicks symbol tradePrice
    m.mutateWithDelta symbol (tradeCandidates (m.book symbol) tp)
      (fun b => b.applyTrade tp size aggr)

/-- The end of both snapshot operations: the symbol is fresh again, and the best prices of
the per-order ladders are published without any level. -/
def afterSnapshot (m : OrderBookManager D) (symbol : String) (snapshotSeq : Option UInt64) :
    OrderBookManager D × List BookDelta :=
  let st := m.getFeedState symbol
  let m := m.setFeed symbol { st with stale := false, lastSeq := snapshotSeq.getD st.lastSeq }
  let b := m.book symbol
  m.maybePublishDelta symbol [] (b.bestBid.map (fun p => (p, b.bestBidSize)))
    (b.bestAsk.map (fun p => (p, b.bestAskSize)))

def onSnapshotPerOrder (m : OrderBookManager D) (symbol : String) (tickOrders : List Order)
    (snapshotSeq : Option UInt64) : Outcome D Unit :=
  let m := m.setBook symbol ((m.book symbol).applySnapshotPerOrder tickOrders)
  let (m, deltas) := m.afterSnapshot symbol snapshotSeq
  ⟨(), m, deltas⟩

section
variable [Double D]

def onSnapshotAggregated (m : OrderBookManager D) (symbol : String)
    (levelsD : List (LevelSnapshotEntryD D)) (snapshotSeq : Option UInt64) : Outcome D Unit :=
  let levels := levelsD.map (fun e =>
    (⟨e.side, m.toTicks symbol e.price, e.totalSize, e.orderCount⟩ : LevelSnapshotEntry))
  let m := m.setBook symbol ((m.book symbol).applySnapshotAggregated levels)
  let (m, deltas) := m.afterSnapshot symbol snapshotSeq
  ⟨(), m, deltas⟩

def onLevelSummary (m : OrderBookManager D) (symbol : String) (side : Side) (price : D)
    (totalSize : UInt64) (orderCount : Option UInt32) : Outcome D Bool :=
  if m.gate symbol then ⟨false, m, []⟩
  else if !validSide side || !m.validatePrice symbol price then ⟨false, m, []⟩
  else
    let p := m.toTicks symbol price
    m.mutateWithDelta symbol [(side, p)]
      (fun b => b.applyLevelSummary side p totalSize orderCount)

def bestBid (m : OrderBookManager D) (symbol : String) : Option D := do
  let b ← m.findBook symbol
  let p ← b.bestBid
  return m.toDouble symbol p

def bestAsk (m : OrderBookManager D) (symbol : String) : Option D := do
  let b ← m.findBook symbol
  let p ← b.bestAsk
  return m.toDouble symbol p

/-- Up to `n` levels of either side, best first, with their prices as doubles. -/
def depthN (m : OrderBookManager D) (symbol : String) (n : ℕ) :
    List (D × UInt64) × List (D × UInt64) :=
  match m.findBook symbol with
  | none => ([], [])
  | some b => ((b.forEachLevel .bid n).map (fun l => (m.toDouble symbol l.1, l.2)),
      (b.forEachLevel .ask n).map (fun l => (m.toDouble symbol l.1, l.2)))

end

def buildSnapshot (m : OrderBookManager D) (symbol : String) (levels : ℕ) : DepthSnapshot :=
  let b := (m.findBook symbol).getD {}
  ⟨symbol, (m.pubSeq symbol).getD 0, (m.getFeedState symbol).epoch, b.forEachLevel .bid levels,
    b.forEachLevel .ask levels⟩

end OrderBookManager
end GmaEngine
