import GmaEngine.AtomicStore
import GmaEngine.BuiltinFunctions
import GmaEngine.SlidingHistory

/-!
# The market tick computer

Every tick that carries a price extends the history of its symbol, from which the statistics
and indicators are recomputed. They are written to the AtomicStore, and those that reach
their listeners in no other way are announced.
-/

namespace GmaEngine

/-- The settings that the dispatcher and the computer read. -/
structure Config (D : Type) where
  taMACD_fast : ℤ := 12
  taMACD_slow : ℤ := 26
  taBBands_n : ℤ := 20
  taBBands_stdK : D
  taSMA : List ℤ := [5, 20]
  taEMA : List ℤ := [12, 26]
  taRSI : ℤ := 14
  taATR : ℤ := 14
  taMomentum : ℤ := 10
  taMACD_signal : ℤ := 9
  taVolAvg : ℤ := 20
  taHistoryMax : ℤ := 1000
  maxSymbols : ℤ := 10000
  maxFieldsPerSymbol : ℤ := 200

/-- Which payload fields hold what; each list is tried in order. -/
structure MarketFieldMap where
  priceFields : List String := ["lastPrice", "price", "last", "px"]
  volumeFields : List String := ["volume", "vol", "qty", "size"]
  bidFields : List String := []
  askFields : List String := []
  timestampField : String := ""
  taEnabled : Bool := true

structure TickEntry (D : Type) where
  price : D
  volume : D
  bid : D
  ask : D
  timestampNs : UInt64

/-- An event with its payload, a JSON object. -/
structure Event (D : Type) where
  symbol : String
  payload : Json D
  type : String := "tick"

/-- A number in the payload: `HasMember(field.c_str())`, `IsNumber()` and `GetDouble()`. -/
def Event.number {D : Type} [Double D] (tick : Event D) (field : String) : Option D :=
  (tick.payload.member (cString field)).bind Json.getDouble

namespace MarketTA
open Double DoubleMath BuiltinFunctions
variable {D : Type} [DoubleMath D]

def lastN {α : Type} (period : ℕ) (xs : List α) : List α := xs.drop (xs.length - period)

/-- `nth_element` puts the smaller half in front; the median of an even number takes its
maximum. -/
def computeMedian (prices : List D) : D :=
  let vals := sorted prices
  match vals[vals.length / 2]? with
  | none => quietNaN
  | some upper =>
    if vals.length % 2 = 1 then upper
    else mul (add (ofFirst Double.max (vals.take (vals.length / 2))) upper) half

/-- One step of an exponential average. -/
def smooth (k val x : D) : D := add (mul k x) (mul (sub one k) val)

def emaFactor (period : ℕ) : D := div (ofRat 2) (ofRat (period + 1))

def emaOverSeries (series : List D) (period : ℕ) : D :=
  if series.length < period then quietNaN
  else
    match lastN period series with
    | [] => quietNaN
    | val :: rest => rest.foldl (smooth (emaFactor period)) val

def sma (prices : List D) (period : ℕ) : D :=
  if prices.length < period then quietNaN else div (sum (lastN period prices)) (ofRat period)

/-- Seeded with the oldest price. -/
def ema (prices : List D) (period : ℕ) : D :=
  if prices.length < period then quietNaN
  else
    match prices with
    | [] => quietNaN
    | val :: rest => rest.foldl (smooth (emaFactor period)) val

/-- The last `period` price changes, each as the price before and the price after. -/
def changes (prices : List D) (period : ℕ) : List (D × D) := lastN period (prices.zip prices.tail)

def rsi (prices : List D) (period : ℕ) : D :=
  let step (acc : D × D) (c : D × D) : D × D :=
    let d := sub c.2 c.1
    if gt d zero then (add acc.1 d, acc.2) else (acc.1, add acc.2 (neg d))
  let (gain, loss) := (changes prices period).foldl step (zero, zero)
  let avgGain := div gain (ofRat period)
  let avgLoss := div loss (ofRat period)
  let rs := div avgGain (if gt avgLoss epsilon then avgLoss else epsilon)
  sub (ofRat 100) (div (ofRat 100) (add one rs))

/-- One step of the MACD loop. -/
def macdStep (fast slow : ℕ) (acc : D × D × List D) (p : D × ℕ) : D × D × List D :=
  let emaFast := smooth (emaFactor fast) acc.1 p.1
  let emaSlow := smooth (emaFactor slow) acc.2.1 p.1
  (emaFast, emaSlow, if slow - 1 ≤ p.2 then acc.2.2 ++ [sub emaFast emaSlow] else acc.2.2)

/-- The MACD line after each price from the first `slow` ones on. -/
def macdSeries (prices : List D) (fast slow : ℕ) : List D :=
  match prices with
  | [] => []
  | first :: rest => ((rest.zipIdx 1).foldl (macdStep fast slow) (first, first, [])).2.2

theorem macdSeries_cons (first : D) (rest : List D) (fast slow : ℕ) :
    macdSeries (first :: rest) fast slow =
      ((rest.zipIdx 1).foldl (macdStep fast slow) (first, first, [])).2.2 := rfl

/-- Line, signal and histogram. -/
def macd (prices : List D) (fast slow signal : ℕ) : D × D × D :=
  if slow ≤ prices.length then
    let series := macdSeries prices fast slow
    match series.getLast? with
    | some line =>
      let sig := emaOverSeries series signal
      (line, sig, sub line sig)
    | none => (zero, zero, zero)
  else (sub (ema prices fast) (ema prices slow), zero, zero)

def stddevBB (prices : List D) (period : ℕ) : D :=
  let mean := sma prices period
  let sumSq := (lastN period prices).foldl (fun acc p => add acc (mul (sub p mean) (sub p mean))) zero
  sqrt (div sumSq (ofRat period))

def roc (last prev : D) : D :=
  if gt (fabs prev) epsilon then div (mul (ofRat 100) (sub last prev)) prev else quietNaN

def atr (prices : List D) (period : ℕ) : D :=
  div ((changes prices period).foldl (fun acc c => add acc (fabs (sub c.2 c.1))) zero) (ofRat period)

def vwap (hist : List (TickEntry D)) : D :=
  let cumPV := hist.foldl (fun acc e => add acc (mul e.price e.volume)) zero
  let cumVol := hist.foldl (fun acc e => add acc e.volume) zero
  if gt cumVol zero then div cumPV cumVol else quietNaN

def obv (hist : List (TickEntry D)) : D :=
  (hist.zip hist.tail).foldl (fun acc c => add acc
    (if gt c.2.price c.1.price then c.2.volume
      else if lt c.2.price c.1.price then neg c.2.volume else zero)) zero

def invalidConfig (cfg : Config D) : Bool :=
  decide (cfg.taBBands_n ≤ 0 ∨ cfg.taRSI ≤ 0 ∨ cfg.taMACD_fast ≤ 0 ∨ cfg.taMACD_slow ≤ 0 ∨
    cfg.taMACD_signal ≤ 0 ∨ cfg.taMomentum ≤ 0 ∨ cfg.taATR ≤ 0 ∨ cfg.taVolAvg ≤ 0)

/-- The name of an indicator with its period. -/
def periodKey (name : String) (period : ℤ) : String := name ++ "_" ++ toString period

def basePrices (hist : List (TickEntry D)) : List (String × D) :=
  let prices := hist.map TickEntry.price
  [("lastPrice", prices.getLast?.getD zero), ("openPrice", prices.head?.getD zero),
    ("highPrice", ofFirst Double.max prices), ("lowPrice", ofFirst Double.min prices),
    ("mean", div (sum prices) (ofRat prices.length)), ("median", computeMedian prices)]

/-- What is added from the second tick on. -/
def indicators (cfg : Config D) (hist : List (TickEntry D)) : List (String × D) :=
  let prices := hist.map TickEntry.price
  let n := prices.length
  let last := prices.getLast?.getD zero
  let mean := div (sum prices) (ofRat n)
  let bbandsN := cfg.taBBands_n.toNat
  let stddev := stddevBB prices bbandsN
  let momP := cfg.taMomentum.toNat
  let prevM := prices[n - momP - 1]?.getD zero
  let lines := macd prices cfg.taMACD_fast.toNat cfg.taMACD_slow.toNat cfg.taMACD_signal.toNat
  [("prevClose", prices[n - 2]?.getD zero), ("vwap", vwap hist)] ++
  (cfg.taSMA.filter (0 < ·)).map (fun p => (periodKey "sma" p, sma prices p.toNat)) ++
  (cfg.taEMA.filter (0 < ·)).map (fun p => (periodKey "ema" p, ema prices p.toNat)) ++
  (if cfg.taRSI.toNat + 1 ≤ n then [(periodKey "rsi" cfg.taRSI, rsi prices cfg.taRSI.toNat)]
    else []) ++
  [("macd_line", lines.1), ("macd_signal", lines.2.1), ("macd_histogram", lines.2.2)] ++
  (if bbandsN ≤ n then
    [("bollinger_upper", add (sma prices bbandsN) (mul cfg.taBBands_stdK stddev)),
      ("bollinger_lower", sub (sma prices bbandsN) (mul cfg.taBBands_stdK stddev))] else []) ++
  (if momP + 1 ≤ n then
    [(periodKey "momentum" cfg.taMomentum, sub last prevM),
      (periodKey "roc" cfg.taMomentum, roc last prevM)] else []) ++
  (if cfg.taATR.toNat + 1 ≤ n then [(periodKey "atr" cfg.taATR, atr prices cfg.taATR.toNat)]
    else []) ++
  [("volume", (hist.getLast?.map TickEntry.volume).getD zero)] ++
  (if cfg.taVolAvg.toNat ≤ n then
    [(periodKey "volume_avg" cfg.taVolAvg,
      div (sum (lastN cfg.taVolAvg.toNat (hist.map TickEntry.volume))) (ofRat cfg.taVolAvg.toNat))]
    else []) ++
  [("obv", obv hist)] ++
  (if !eq mean zero && decide (bbandsN ≤ n) then
    [("volatility_rank", Double.min (div stddev (fabs mean)) one)] else [])

/-- The results, without their write to the store. -/
def allAtomicValues (cfg : Config D) (hist : List (TickEntry D)) : List (String × D) :=
  if hist.isEmpty || invalidConfig cfg then []
  else if hist.length = 1 then basePrices hist
  else basePrices hist ++ indicators cfg hist

/-- The metrics of the lightweight path. -/
def lightweightValues (hist : List (TickEntry D)) (price volume : D) : List (String × D) :=
  let prices := hist.map TickEntry.price
  [("lastPrice", price), ("volume", volume)] ++
  (if hist.isEmpty then []
    else [("openPrice", prices.head?.getD zero), ("highPrice", ofFirst Double.max prices),
      ("lowPrice", ofFirst Double.min prices)])

end MarketTA

structure MarketTickComputer (D : Type) where
  cfg : Config D
  fieldMap : MarketFieldMap := {}
  symbolHistories : List (String × List (TickEntry D)) := []
  /-- The keys that are not announced when the TA suite runs. -/
  skipFields : List String

namespace MarketTickComputer
open Double DoubleMath BuiltinFunctions MarketTA
variable {D : Type} [DoubleMath D]

def skipped : List String :=
  ["lastPrice", "openPrice", "highPrice", "lowPrice", "mean", "median", "prevClose", "vwap",
    "volume", "obv", "volatility_rank"]

/-- The constructor, which reads the names registered so far. -/
def create (cfg : Config D) (fieldMap : MarketFieldMap) (table : FunctionTable D) :
    MarketTickComputer D where
  cfg := cfg
  fieldMap := fieldMap
  skipFields := skipped ++ table.names

def maxHistory (c : MarketTickComputer D) : ℕ := (Max.max 1 c.cfg.taHistoryMax).toNat
def maxSymbols (c : MarketTickComputer D) : ℕ := (Max.max 1 c.cfg.maxSymbols).toNat

/-- The first of the fields that holds a number. -/
def extract (fields : List String) (tick : Event D) : Option D := fields.findSome? tick.number

def timestamp (c : MarketTickComputer D) (tick : Event D) : UInt64 :=
  if c.fieldMap.timestampField.isEmpty then 0
  else ((tick.payload.member (cString c.fieldMap.timestampField)).bind Json.getUint64).getD 0

/-- What a tick with a price adds to the history. -/
def entry (c : MarketTickComputer D) (tick : Event D) (price : D) : TickEntry D where
  price := price
  volume := (extract c.fieldMap.volumeFields tick).getD zero
  bid := (extract c.fieldMap.bidFields tick).getD zero
  ask := (extract c.fieldMap.askFields tick).getD zero
  timestampNs := c.timestamp tick

/-- The values stored before the history is looked at. -/
def quoteValues (e : TickEntry D) : List (String × ArgType D) :=
  (if gt e.bid zero then [("bid", .double e.bid)] else []) ++
  (if gt e.ask zero then [("ask", .double e.ask)] else []) ++
  (if gt e.bid zero && gt e.ask zero then [("spread", .double (sub e.ask e.bid))] else []) ++
  (if 0 < e.timestampNs then [("timestamp", .string (toString e.timestampNs.toNat))] else [])

/-- The results for a history that ends with the new entry. -/
def taResults (c : MarketTickComputer D) (hist : List (TickEntry D)) (e : TickEntry D) :
    List (String × D) :=
  if c.fieldMap.taEnabled then allAtomicValues c.cfg hist
  else lightweightValues hist e.price e.volume

/-- The results that are handed to `notifyListeners`. -/
def announced (c : MarketTickComputer D) (results : List (String × D)) : List (String × D) :=
  results.filter (fun result => !(c.fieldMap.taEnabled && c.skipFields.contains result.1))

/-- The new state, the new store and the results to announce. -/
def compute (c : MarketTickComputer D) (tick : Event D) (store : AtomicStore D) :
    MarketTickComputer D × AtomicStore D × List (String × D) :=
  match extract c.fieldMap.priceFields tick with
  | none => (c, store, [])
  | some price =>
    let e := c.entry tick price
    let store := (quoteValues e).foldl (fun s w => s.set tick.symbol w.1 w.2) store
    if (lookupKey c.symbolHistories tick.symbol).isNone &&
        decide (c.maxSymbols ≤ c.symbolHistories.length) then (c, store, [])
    else
      let hist := SlidingHistory.push c.maxHistory
        ((lookupKey c.symbolHistories tick.symbol).getD []) e
      let results := c.taResults hist e
      -- with an invalid configuration there is nothing to write
      let store := if results.isEmpty then store
        else store.setBatch tick.symbol (results.map (fun r => (r.1, .double r.2)))
      ({ c with symbolHistories := assignKey c.symbolHistories tick.symbol hist }, store,
        c.announced results)

end MarketTickComputer
end GmaEngine
