import GmaEngine.CNumerals
import GmaEngine.OrderBook

/-!
# The `ob.*` key language

A key is a text of tokens separated by dots. Tokens are lists of characters; empty tokens
are dropped, and numerals are read from a token as from a C string.
-/

namespace GmaEngine.Ob

inductive Mode
  | per
  | agg
  deriving DecidableEq, Repr

inductive Reduce
  | sum
  | avg
  | min
  | max
  | count
  | none
  deriving DecidableEq, Repr

inductive Target
  | price
  | size
  | orders
  | notional
  | none
  deriving DecidableEq, Repr

/-- Inclusive, 1-based for levels; the bounds are of type `int`. -/
structure Range where
  a : ℤ
  b : ℤ
  deriving DecidableEq, Repr

/-- The metric of a key with the fields it uses. -/
inductive Metric (D : Type) where
  | spread
  | mid
  | best (side : Side) (attr : Target)
  | levelIdx (side : Side) (n : ℤ) (attr : Target)
  | levelPx (side : Side) (px : D) (attr : Target)
  | rangeIdx (side : Side) (lv : Range) (reduce : Reduce) (target : Target)
  | rangePx (side : Side) (p1 p2 : D) (reduce : Reduce) (target : Target)
  | cum (side : Side) (n : ℤ) (target : Target)
  | vwapLevels (side : Side) (lv : Range)
  | vwapPrice (side : Side) (p1 p2 : D)
  | imbalanceLevels (lv : Range)
  | imbalancePrice (p1 p2 : D)
  | metaField (field : List Char)
  deriving DecidableEq, Repr

structure ObKey (D : Type) where
  metric : Metric D
  mode : Mode
  deriving DecidableEq, Repr

def split (sep : Char) (s : List Char) : List (List Char) := (s.splitOn sep).filter (· ≠ [])

def lower (v : List Char) : List Char := v.map Char.toLower

/-- The characters that `c_str` shows to the C library. -/
def cChars (s : List Char) : List Char := s.takeWhile (· ≠ '\x00')

/-- A `long` narrowed to an `int`. -/
def narrow (v : ℤ) : ℤ := v.bmod (2 ^ 32)

theorem narrow_eq_self {n : ℤ} (hlo : -2 ^ 31 ≤ n) (hhi : n < 2 ^ 31) : narrow n = n := by
  rw [narrow, Int.bmod_def]
  split_ifs <;> omega

def parseInt (s : List Char) : Option ℤ :=
  let (v, rest) := CNumerals.strtol (cChars s)
  if rest = [] then some (narrow v) else none

def parseDouble {D : Type} [Double D] (s : List Char) : Option D :=
  let (v, rest) := CNumerals.strtod (cChars s)
  if rest = [] then some v else none

def parseSide (s : List Char) : Option Side :=
  let t := lower s
  if t = "bid".toList then some .bid
  else if t = "ask".toList then some .ask
  else none

def parseTarget (s : List Char) : Option Target :=
  let v := lower s
  if v = "price".toList then some .price
  else if v = "size".toList then some .size
  else if v = "orders".toList then some .orders
  else if v = "notional".toList then some .notional
  else none

def parseReduce (s : List Char) : Option Reduce :=
  let v := lower s
  if v = "sum".toList then some .sum
  else if v = "avg".toList then some .avg
  else if v = "min".toList then some .min
  else if v = "max".toList then some .max
  else if v = "count".toList then some .count
  else none

/-- `A-B` with `1 <= A <= B`. -/
def parseRange (s : List Char) : Option Range :=
  match split '-' s with
  | [x, y] => do
    let a ← parseInt x
    let b ← parseInt y
    if a < 1 ∨ b < a then none else some ⟨a, b⟩
  | _ => none

/-- A single `N`, for `1-N`, or `A-B`. -/
def parseLevels (s : List Char) : Option Range :=
  match parseInt s with
  | some n => if 1 ≤ n then some ⟨1, n⟩ else parseRange s
  | none => parseRange s

/-- `P1-P2` with `P1 <= P2`. -/
def parseBand {D : Type} [Double D] (s : List Char) : Option (D × D) :=
  match split '-' s with
  | [x, y] => do
    let p1 ← parseDouble x
    let p2 ← parseDouble y
    if Double.lt p2 p1 then none else some (p1, p2)
  | _ => none

/-- The reduction of a range key and its target, which only `count` goes without. -/
def parseReduction : List (List Char) → Option (Reduce × Target)
  | [reduce] => do
    let r ← parseReduce reduce
    if r = .count then some (r, .none) else none
  | [reduce, target] => do
    let r ← parseReduce reduce
    if r = .count then some (r, .none)
    else do
      let t ← parseTarget target
      some (r, t)
  | _ => none

section
variable {D : Type} [Double D]

def parseBest : List (List Char) → Option (Metric D)
  | [side, attr] => do
    let s ← parseSide side
    let t ← parseTarget attr
    if t = .price ∨ t = .size then some (.best s t) else none
  | _ => none

def parseLevel : List (List Char) → Option (Metric D)
  | [side, n, attr] => do
    let s ← parseSide side
    let n ← parseInt n
    if n < 1 then none
    else do
      let t ← parseTarget attr
      some (.levelIdx s n t)
  | _ => none

def parseAt : List (List Char) → Option (Metric D)
  | [side, px, attr] => do
    let s ← parseSide side
    let px ← parseDouble px
    let t ← parseTarget attr
    some (.levelPx s px t)
  | _ => none

def parseRangeKey : List (List Char) → Option (Metric D)
  | side :: kind :: ab :: reduction =>
    if kind = "levels".toList then do
      let s ← parseSide side
      let lv ← parseRange ab
      let (r, t) ← parseReduction reduction
      some (.rangeIdx s lv r t)
    else if kind = "price".toList then do
      let s ← parseSide side
      let (p1, p2) ← parseBand ab
      let (r, t) ← parseReduction reduction
      some (.rangePx s p1 p2 r t)
    else none
  | _ => none

def parseCum : List (List Char) → Option (Metric D)
  | [side, kind, n, target] =>
    if kind = "levels".toList then do
      let s ← parseSide side
      let n ← parseInt n
      if n < 1 then none
      else do
        let t ← parseTarget target
        some (.cum s n t)
    else none
  | _ => none

def parseVwap : List (List Char) → Option (Metric D)
  | [side, kind, ab] => do
    let s ← parseSide side
    if kind = "levels".toList then do
      let lv ← parseLevels ab
      some (.vwapLevels s lv)
    else if kind = "price".toList then do
      let (p1, p2) ← parseBand ab
      some (.vwapPrice s p1 p2)
    else none
  | _ => none

def parseImbalance : List (List Char) → Option (Metric D)
  | [kind, ab] =>
    if kind = "levels".toList then do
      let lv ← parseLevels ab
      some (.imbalanceLevels lv)
    else if kind = "price".toList then do
      let (p1, p2) ← parseBand ab
      some (.imbalancePrice p1 p2)
    else none
  | _ => none

def parseMeta : List (List Char) → Option (Metric D)
  | [field] => some (.metaField field)
  | [kind, field] =>
    if kind = "levels".toList then some (.metaField ("levels.".toList ++ field)) else none
  | _ => none

/-- The tokens after `ob`, without the mode. A metric name decides which form is tried, so the
order in which the forms stand does not matter; any name that starts with `meta` is one. -/
def parseMetric : List (List Char) → Option (Metric D)
  | [] => none
  | name :: args =>
    if name = "spread".toList then (if args = [] then some .spread else none)
    else if name = "mid".toList then (if args = [] then some .mid else none)
    else if name = "best".toList then parseBest args
    else if name = "level".toList then parseLevel args
    else if name = "at".toList then parseAt args
    else if name = "range".toList then parseRangeKey args
    else if name = "cum".toList then parseCum args
    else if name = "vwap".toList then parseVwap args
    else if name = "imbalance".toList then parseImbalance args
    else if name.take 4 = "meta".toList then parseMeta args
    else none

/-- An optional mode ends the key. -/
def takeMode (t : List (List Char)) : Mode × List (List Char) :=
  if t.getLast? = some "agg".toList then (.agg, t.dropLast)
  else if t.getLast? = some "per".toList then (.per, t.dropLast)
  else (.per, t)

def parseObKey (keyStr : String) : Option (ObKey D) :=
  match split '.' keyStr.toList with
  | [] => none
  | ob :: t =>
    if ob ≠ "ob".toList then none
    else do
      let (mode, t) := takeMode t
      let metric ← parseMetric t
      some ⟨metric, mode⟩

end

example : (parseObKey "ob.vwap.BID..levels.1-10.per" : Option (ObKey ExactDouble)) =
    some ⟨.vwapLevels .bid ⟨1, 10⟩, .per⟩ := by
  decide +kernel

end GmaEngine.Ob
