import GmaEngine.JsonDocument
import GmaEngine.OrderBookManager

/-!
# The ITCH feed

`ItchAdapter` translates one parsed ITCH message into canonical feed events and keeps the
symbol of each stock locate and the state of each live order; `WsFeedClient` applies the
events one by one to the order book manager. Log lines, metrics and the time stamps, which
nothing reads, are left out, and so is the Dispatcher behind a tick event.
-/

namespace GmaEngine

inductive FeedEvent (D : Type) where
  | tick (symbol : String) (payload : Json D)
  | obAdd (symbol : String) (orderId : UInt64) (side : Side) (price : D) (size priority : UInt64)
  | obUpdate (symbol : String) (orderId : UInt64) (newPrice : Option D) (newSize : Option UInt64)
  | obDelete (symbol : String) (orderId : UInt64)
  | obTrade (symbol : String) (price : D) (size : UInt64) (aggressor : Aggressor)
  | obTickSize (symbol : String) (tickSize : D)
  | obReset (symbol : String) (epoch : UInt32)

/-- Live order tracking for partial fill and cancel resolution. -/
structure OrderState (D : Type) where
  symbol : String
  remainingShares : UInt64
  side : Side
  price : D
  deriving DecidableEq

structure ItchAdapter (D : Type) where
  /-- The stock locate is an `int`. -/
  locateToSymbol : ℤ → Option String := fun _ => none
  orders : UInt64 → Option (OrderState D) := fun _ => none

namespace ItchAdapter
variable {D : Type}

section
variable [Double D]

def parsePrice : Json D → D
  | .string s => (CNumerals.strtod (cString s).toList).1
  | .int n => Double.ofRat n.val
  | .double d => d
  | _ => Double.ofRat 0

def makeTradeTickEvent (symbol : String) (price : D) (size : UInt64) : FeedEvent D :=
  .tick symbol (.object [("symbol", .string symbol), ("lastPrice", .double price),
    ("volume", .double (Double.ofRat size.toNat))])

end

/-- Trim trailing spaces: ITCH pads to 8 characters. -/
def trim (s : String) : String :=
  String.ofList (s.toList.reverse.dropWhile (· = ' ')).reverse

/-- The symbol of a message: its `stock` field, else the mapping of its `stockLocate`. The
value is `none` when the message names no known symbol. -/
def resolveStock (a : ItchAdapter D) (doc : Json D) : Option (Option String) :=
  if doc.has "stock" Json.isString then do
    let stock ← (← doc.member "stock").getString
    return some (trim stock)
  else if doc.has "stockLocate" Json.isNumber then do
    let locate ← (← doc.member "stockLocate").getInt
    return a.locateToSymbol locate
  else return none

def setOrder (a : ItchAdapter D) (orderRef : UInt64) (os : OrderState D) : ItchAdapter D :=
  { a with orders := Function.update a.orders orderRef (some os) }

def eraseOrder (a : ItchAdapter D) (orderRef : UInt64) : ItchAdapter D :=
  { a with orders := Function.update a.orders orderRef none }

-- A route returns the adapter and the events it appends; `none` is a failed assertion of a
-- typed getter.

def routeStockDirectory [Double D] (a : ItchAdapter D) (doc : Json D) :
    Option (ItchAdapter D × List (FeedEvent D)) :=
  if !doc.has "stockLocate" Json.isNumber || !doc.has "stock" Json.isString then some (a, [])
  else do
    let locate ← (← doc.member "stockLocate").getInt
    let stock := trim (← (← doc.member "stock").getString)
    return ({ a with locateToSymbol := Function.update a.locateToSymbol locate (some stock) },
      [.obTickSize stock (Double.ofRat (1 / 100))])

def routeAddOrder [Double D] (a : ItchAdapter D) (doc : Json D) :
    Option (ItchAdapter D × List (FeedEvent D)) :=
  if !doc.has "orderRef" Json.isNumber || !doc.has "side" Json.isString ||
      !doc.has "shares" Json.isNumber || !doc.has "price" (fun _ => true) then some (a, [])
  else do
    match ← a.resolveStock doc with
    | none => return (a, [])
    | some stock =>
      let orderRef ← (← doc.member "orderRef").getUint64
      let shares ← (← doc.member "shares").getUint64
      let price := parsePrice (← doc.member "price")
      let sideStr ← (← doc.member "side").getString
      let side := if sideStr.toList.head? = some 'B' then Side.bid else Side.ask
      return (a.setOrder orderRef ⟨stock, shares, side, price⟩,
        [.obAdd stock orderRef side price shares 0])

def routeOrderExecuted [Double D] (a : ItchAdapter D) (doc : Json D) :
    Option (ItchAdapter D × List (FeedEvent D)) :=
  if !doc.has "orderRef" Json.isNumber || !doc.has "shares" Json.isNumber then some (a, [])
  else do
    let orderRef ← (← doc.member "orderRef").getUint64
    let execShares ← (← doc.member "shares").getUint64
    match a.orders orderRef with
    | none => return (a, [])
    | some os =>
      -- the resting order is passive; the aggressor is the opposite side
      let aggr := if os.side = Side.bid then Aggressor.sell else Aggressor.buy
      if os.remainingShares ≤ execShares then
        return (a.eraseOrder orderRef,
          [.obDelete os.symbol orderRef, .obTrade os.symbol os.price execShares aggr,
            makeTradeTickEvent os.symbol os.price execShares])
      else
        let remaining := os.remainingShares - execShares
        return (a.setOrder orderRef { os with remainingShares := remaining },
          [.obUpdate os.symbol orderRef none (some remaining),
            .obTrade os.symbol os.price execShares aggr,
            makeTradeTickEvent os.symbol os.price execShares])

def routeOrderCancel (a : ItchAdapter D) (doc : Json D) :
    Option (ItchAdapter D × List (FeedEvent D)) :=
  if !doc.has "orderRef" Json.isNumber || !doc.has "shares" Json.isNumber then some (a, [])
  else do
    let orderRef ← (← doc.member "orderRef").getUint64
    let cancelShares ← (← doc.member "shares").getUint64
    match a.orders orderRef with
    | none => return (a, [])
    | some os =>
      if os.remainingShares ≤ cancelShares then
        return (a.eraseOrder orderRef, [.obDelete os.symbol orderRef])
      else
        let remaining := os.remainingShares - cancelShares
        return (a.setOrder orderRef { os with remainingShares := remaining },
          [.obUpdate os.symbol orderRef none (some remaining)])

def routeOrderDelete (a : ItchAdapter D) (doc : Json D) :
    Option (ItchAdapter D × List (FeedEvent D)) :=
  if !doc.has "orderRef" Json.isNumber then some (a, [])
  else do
    let orderRef ← (← doc.member "orderRef").getUint64
    match a.orders orderRef with
    | none => return (a, [])
    | some os => return (a.eraseOrder orderRef, [.obDelete os.symbol orderRef])

def routeOrderReplace [Double D] (a : ItchAdapter D) (doc : Json D) :
    Option (ItchAdapter D × List (FeedEvent D)) :=
  if !doc.has "origOrderRef" Json.isNumber || !doc.has "orderRef" Json.isNumber ||
      !doc.has "shares" Json.isNumber || !doc.has "price" (fun _ => true) then some (a, [])
  else do
    let origRef ← (← doc.member "origOrderRef").getUint64
    let newRef ← (← doc.member "orderRef").getUint64
    let shares ← (← doc.member "shares").getUint64
    let price := parsePrice (← doc.member "price")
    match a.orders origRef with
    | none => return (a, [])
    | some os =>
      return ((a.eraseOrder origRef).setOrder newRef ⟨os.symbol, shares, os.side, price⟩,
        [.obDelete os.symbol origRef, .obAdd os.symbol newRef os.side price shares 0])

def routeTrade [Double D] (a : ItchAdapter D) (doc : Json D) :
    Option (ItchAdapter D × List (FeedEvent D)) :=
  if !doc.has "price" (fun _ => true) || !doc.has "shares" Json.isNumber then some (a, [])
  else do
    match ← a.resolveStock doc with
    | none => return (a, [])
    | some stock =>
      let price := parsePrice (← doc.member "price")
      let shares ← (← doc.member "shares").getUint64
      let aggr ←
        if doc.has "side" Json.isString then do
          let s ← (← doc.member "side").getString
          pure (if s.toList.head? = some 'B' then Aggressor.buy
            else if s.toList.head? = some 'S' then Aggressor.sell else Aggressor.unknown)
        else pure Aggressor.unknown
      return (a, [.obTrade stock price shares aggr, makeTradeTickEvent stock price shares])

/-- From the parser's result, `none` being a parse error. A `system_event` is only logged. -/
def translate [Double D] (a : ItchAdapter D) (doc : Option (Json D)) :
    Option (ItchAdapter D × List (FeedEvent D)) :=
  match doc with
  | none => some (a, [])
  | some doc =>
    if !doc.isObject || !doc.has "type" Json.isString then some (a, [])
    else do
      let type ← (← doc.member "type").getString
      if type = "trade" then a.routeTrade doc
      else if type = "add_order" then a.routeAddOrder doc
      else if type = "add_order_mpid" then a.routeAddOrder doc
      else if type = "order_executed" then a.routeOrderExecuted doc
      else if type = "order_cancel" then a.routeOrderCancel doc
      else if type = "order_delete" then a.routeOrderDelete doc
      else if type = "order_replace" then a.routeOrderReplace doc
      else if type = "stock_directory" then a.routeStockDirectory doc
      else some (a, [])

end ItchAdapter

/-- A feed client with an ITCH adapter and an order book manager. -/
structure WsFeedClient (D : Type) where
  adapter : ItchAdapter D := {}
  obManager : OrderBookManager D := {}

namespace WsFeedClient
variable {D : Type} [Double D]

def dispatchEvent (m : OrderBookManager D) : FeedEvent D → OrderBookManager D
  | .tick _ _ => m
  | .obAdd symbol orderId side price size priority =>
    (m.onAdd symbol orderId side price size priority {} false).mgr
  | .obUpdate symbol orderId newPrice newSize =>
    (m.onUpdate symbol orderId {} newPrice newSize false).mgr
  | .obDelete symbol orderId => (m.onDelete symbol orderId {} false).mgr
  | .obTrade symbol price size aggressor => (m.onTrade symbol price size aggressor).mgr
  | .obTickSize symbol tickSize => m.setTickSize symbol tickSize
  | .obReset symbol epoch => m.onReset symbol epoch

def handleMessage (c : WsFeedClient D) (doc : Option (Json D)) : Option (WsFeedClient D) := do
  let (adapter, events) ← c.adapter.translate doc
  return ⟨adapter, events.foldl dispatchEvent c.obManager⟩

/-- The client after a sequence of messages; `none` if a typed getter failed on the way. -/
def receive (docs : List (Option (Json D))) : Option (WsFeedClient D) :=
  docs.foldlM handleMessage {}

end WsFeedClient
end GmaEngine
