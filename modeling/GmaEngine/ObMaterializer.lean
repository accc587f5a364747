import GmaEngine.ObKey

/-!
# Evaluation of `ob.*` keys on a snapshot

The levels of a ladder stand from best to worse. Loops over level numbers run on slices of
the ladder; a level count is cast to `int` where the source casts it.
-/

namespace GmaEngine.Ob
open Double

structure Level (D : Type) where
  price : D
  size : D
  /-- NaN if unknown. -/
  orders : D
  notional : D
  deriving DecidableEq, Repr

structure Meta where
  seq : UInt64
  epoch : UInt32
  stale : Bool
  bidLevels : ℕ
  askLevels : ℕ
  lastChangeMs : ℤ
  deriving DecidableEq, Repr

structure Snapshot (D : Type) where
  bids : List (Level D)
  asks : List (Level D)
  info : Meta
  deriving DecidableEq, Repr

def Snapshot.bySide {D : Type} (s : Snapshot D) : Side → List (Level D)
  | .bid => s.bids
  | .ask => s.asks

/-- The attribute that a target selects; `none` for the target `none`. -/
def Level.attr {D : Type} (l : Level D) : Target → Option D
  | .price => some l.price
  | .size => some l.size
  | .orders => some l.orders
  | .notional => some l.notional
  | .none => none

/-- The elements with numbers `lo` to `hi`, counted from one. -/
def slice {α : Type} (lo hi : ℤ) (xs : List α) : List α := (xs.take hi.toNat).drop (lo - 1).toNat

variable {D : Type} [Double D]

/-- An accumulator that starts at zero. -/
def total (vs : List D) : D := vs.foldl add (ofRat 0)

def bestPrice (s : Snapshot D) (side : Side) : D :=
  match s.bySide side with
  | [] => quietNaN
  | l :: _ => l.price

def bestSize (s : Snapshot D) (side : Side) : D :=
  match s.bySide side with
  | [] => ofRat 0
  | l :: _ => l.size

def spread (s : Snapshot D) : D :=
  match s.bids, s.asks with
  | b :: _, a :: _ => sub a.price b.price
  | _, _ => quietNaN

def mid (s : Snapshot D) : D :=
  match s.bids, s.asks with
  | b :: _, a :: _ => mul (ofRat (1 / 2)) (add a.price b.price)
  | _, _ => quietNaN

def levelIdx (s : Snapshot D) (side : Side) (n : ℤ) (attr : Target) : D :=
  if n ≤ 0 then quietNaN
  else
    match (s.bySide side)[n.toNat - 1]? with
    | none => quietNaN
    | some lvl => (lvl.attr attr).getD quietNaN

def levelPx (s : Snapshot D) (side : Side) (px : D) (attr : Target) : D :=
  match (s.bySide side).find? (fun lvl => eq lvl.price px) with
  | none => quietNaN
  | some lvl => (lvl.attr attr).getD quietNaN

def rangeIdxReduce (s : Snapshot D) (side : Side) (lv : Range) (reduce : Reduce)
    (target : Target) : D :=
  let levels := s.bySide side
  let lo := max 1 lv.a
  let hi := min (narrow levels.length) lv.b
  if levels = [] ∨ lo > hi then quietNaN
  else
    let vs := (slice lo hi levels).filterMap (fun lvl => lvl.attr target)
    if reduce = .avg ∧ vs ≠ [] then div (total vs) (ofRat vs.length) else total vs

/-- The levels of a price band, as the range, VWAP and imbalance loops skip levels. -/
def inBand (p1 p2 : D) (lvl : Level D) : Bool := !(lt lvl.price p1 || gt lvl.price p2)

def rangePxReduce (s : Snapshot D) (side : Side) (p1 p2 : D) (reduce : Reduce)
    (target : Target) : D :=
  let vs := ((s.bySide side).filter (inBand p1 p2)).filterMap (fun lvl => lvl.attr target)
  match reduce with
  | .avg => if vs ≠ [] then div (total vs) (ofRat vs.length) else total vs
  | .sum => total vs
  | .count => ofRat vs.length
  | _ => ofRat 0

def imbalance (bidQty askQty : D) : D :=
  let sum := add bidQty askQty
  if le sum (ofRat 0) then ofRat 0 else div (sub bidQty askQty) sum

def imbalanceLevels (s : Snapshot D) (r : Range) : D :=
  let lo := max 1 r.a
  let qty := fun levels : List (Level D) =>
    total ((slice lo (min r.b (narrow levels.length)) levels).map Level.size)
  imbalance (qty s.bids) (qty s.asks)

def imbalanceBand (s : Snapshot D) (p1 p2 : D) : D :=
  let qty := fun levels : List (Level D) =>
    total ((levels.filter (fun l => ge l.price p1 && le l.price p2)).map Level.size)
  imbalance (qty s.bids) (qty s.asks)

def cumLevels (s : Snapshot D) (side : Side) (n : ℤ) (target : Target) : D :=
  let levels := s.bySide side
  if levels = [] ∨ n ≤ 0 then ofRat 0
  else
    let count := min n (narrow levels.length)
    total ((slice 1 count levels).filterMap (fun lvl => lvl.attr target))

def vwap (levels : List (Level D)) : D :=
  let sumPV := total (levels.map (fun lvl => mul lvl.price lvl.size))
  let sumV := total (levels.map Level.size)
  if le sumV (ofRat 0) then quietNaN else div sumPV sumV

def vwapLevels (s : Snapshot D) (side : Side) (r : Range) : D :=
  let levels := s.bySide side
  let lo := max 1 r.a
  let hi := min (narrow levels.length) r.b
  if levels = [] ∨ lo > hi then quietNaN else vwap (slice lo hi levels)

def vwapPriceBand (s : Snapshot D) (side : Side) (p1 p2 : D) : D :=
  vwap ((s.bySide side).filter (inBand p1 p2))

def metaValue (s : Snapshot D) (field : List Char) : D :=
  if field = "seq".toList then ofRat s.info.seq.toNat
  else if field = "epoch".toList then ofRat s.info.epoch.toNat
  else if field = "is_stale".toList then (if s.info.stale then ofRat 1 else ofRat 0)
  else if field = "levels.bid".toList then ofRat s.info.bidLevels
  else if field = "levels.ask".toList then ofRat s.info.askLevels
  else if field = "last_change_ms".toList then ofRat s.info.lastChangeMs
  else quietNaN

def eval (s : Snapshot D) (k : ObKey D) : D :=
  match k.metric with
  | .best side attr => if attr = .size then bestSize s side else bestPrice s side
  | .levelIdx side n attr => levelIdx s side n attr
  | .levelPx side px attr => levelPx s side px attr
  | .rangeIdx side lv reduce target => rangeIdxReduce s side lv reduce target
  | .rangePx side p1 p2 reduce target => rangePxReduce s side p1 p2 reduce target
  | .cum side n target => cumLevels s side n target
  | .vwapLevels side lv => vwapLevels s side lv
  | .vwapPrice side p1 p2 => vwapPriceBand s side p1 p2
  | .imbalanceLevels lv => imbalanceLevels s lv
  | .imbalancePrice p1 p2 => imbalanceBand s p1 p2
  | .spread => spread s
  | .mid => mid s
  | .metaField field => metaValue s field

end GmaEngine.Ob
