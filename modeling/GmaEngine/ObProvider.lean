import GmaEngine.ObMaterializer
import GmaEngine.OrderBookManager

/-!
# The `ob.*` provider

The provider matches the tokens of a key by hand and answers a few forms from a snapshot of
the book. An exception, thrown for a numeral it cannot read, is answered by NaN.
-/

namespace GmaEngine.Ob
open Double

variable {D : Type} [Double D]

/-- One level of a captured ladder: the number of orders is not known. -/
def capturedLevel (tick : D) (l : Price × UInt64) : Level D :=
  let dpx := mul (ofRat l.1.ticks) tick
  ⟨dpx, ofRat l.2.toNat, quietNaN, mul dpx (ofRat l.2.toNat)⟩

/-- The capture function that the market connector installs; it ignores the mode and the
price band. -/
def capture (m : OrderBookManager D) (symbol : String) (maxLevels : ℕ) : Snapshot D :=
  let ds := m.buildSnapshot symbol maxLevels
  let tick := m.getTickSize symbol
  let bids := ds.bids.map (capturedLevel tick)
  let asks := ds.asks.map (capturedLevel tick)
  ⟨bids, asks, ⟨ds.seq, ds.epoch, false, bids.length, asks.length, 0⟩⟩

/-- `std::stoi`; `none` is an exception. -/
def toInt (s : List Char) : Option ℤ := CNumerals.stoi (cChars s)

/-- The forms that the provider recognises in a key, with the tokens it goes on to read. -/
inductive Form
  | spread
  | level (side : Side) (n metric : List Char)
  | cum (side : Side) (k metric : List Char)
  | imbalance (range : List Char)
  | other
  deriving DecidableEq

/-- A side spelled in lower case. -/
def sideToken (s : List Char) : Option Side :=
  if s = "bid".toList then some .bid else if s = "ask".toList then some .ask else none

/-- The token checks of `getImpl`. -/
def form (fullKey : String) : Form :=
  if fullKey = "ob.spread" then .spread
  else
    match fullKey.toList.splitOn '.' with
    | [ob, name, side, n, metric] =>
      match sideToken side with
      | some s => if ob = "ob".toList ∧ name = "level".toList then .level s n metric else .other
      | none => .other
    | [ob, name, side, kind, k, metric] =>
      match sideToken side with
      | some s =>
        if ob = "ob".toList ∧ name = "cum".toList ∧ kind = "levels".toList then .cum s k metric
        else .other
      | none => .other
    | [ob, name, kind, range] =>
      if ob = "ob".toList ∧ name = "imbalance".toList ∧ kind = "levels".toList then
        .imbalance range
      else .other
    | _ => .other

/-- A provider over a capture function for one symbol. -/
structure Provider (D : Type) where
  capture : ℕ → Snapshot D
  defPer : ℕ

namespace Provider

def getSpread (p : Provider D) : D :=
  match (p.capture 1).bids, (p.capture 1).asks with
  | b :: _, a :: _ => sub a.price b.price
  | _, _ => quietNaN

/-- `ob.level.bid.N.metric`. -/
def getLevel (p : Provider D) (side : Side) (nText metric : List Char) : Option D := do
  let n ← toInt nText
  if n ≤ 0 then return quietNaN
  else
    let vec := (p.capture (max p.defPer n.toNat)).bySide side
    if narrow vec.length < n then return quietNaN
    else
      match vec[n.toNat - 1]? with
      | none => return quietNaN
      | some l =>
        if metric = "price".toList then return l.price
        else if metric = "size".toList then return l.size
        else if metric = "notional".toList then return l.notional
        else if metric = "orders".toList then return l.orders
        else return quietNaN

/-- `ob.cum.bid.levels.K.metric`; an unknown metric is found out at the first level. -/
def getCum (p : Provider D) (side : Side) (kText metric : List Char) : Option D := do
  let k ← toInt kText
  if k ≤ 0 then return quietNaN
  else
    let vec := (p.capture (max p.defPer k.toNat)).bySide side
    let vec := vec.take (min k (narrow vec.length)).toNat
    if metric = "size".toList then return total (vec.map Level.size)
    else if metric = "notional".toList then return total (vec.map Level.notional)
    else if metric = "orders".toList then return total (vec.map Level.orders)
    else if vec = [] then return ofRat 0
    else return quietNaN

/-- `ob.imbalance.levels.M-N`; the range is cut at its first dash. -/
def getImbalance (p : Provider D) (range : List Char) : Option D :=
  match range.dropWhile (· ≠ '-') with
  | [] => some quietNaN
  | _ :: rest => do
    let m ← toInt (range.takeWhile (· ≠ '-'))
    let n ← toInt rest
    if m ≤ 0 ∨ n < m then return quietNaN
    else
      let snap := p.capture (max p.defPer n.toNat)
      let hi := min n (narrow (min snap.bids.length snap.asks.length : ℕ))
      let b := total ((slice m hi snap.bids).map Level.size)
      let a := total ((slice m hi snap.asks).map Level.size)
      return imbalance b a

def getImpl (p : Provider D) (fullKey : String) : Option D :=
  match form fullKey with
  | .spread => some p.getSpread
  | .level side n metric => p.getLevel side n metric
  | .cum side k metric => p.getCum side k metric
  | .imbalance range => p.getImbalance range
  | .other => some quietNaN

def get (p : Provider D) (fullKey : String) : D := (p.getImpl fullKey).getD quietNaN

end Provider

/-- The provider of the market connector. -/
def obProvider (m : OrderBookManager D) (symbol : String) : Provider D := ⟨capture m symbol, 10⟩

end GmaEngine.Ob
