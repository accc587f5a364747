import GmaEngine.StreamNodes

/-!
# The registered functions

`registerBuiltinFunctions` fills the FunctionMap with plain reducers. None of them throws, so
each is a function on the input vector; most look at its last element, or at its first and
last.
-/

namespace GmaEngine

/-- The plain reducers in the order in which `forEach` visits them. -/
structure FunctionTable (D : Type) where
  entries : List (String × Func D)
  nodup : (entries.map Prod.fst).Nodup

def FunctionTable.names {D : Type} (table : FunctionTable D) : List String :=
  table.entries.map Prod.fst

namespace BuiltinFunctions
open Double DoubleMath
variable {D : Type} [DoubleMath D]

def zero : D := ofRat 0
def one : D := ofRat 1
def half : D := ofRat (1 / 2)

/-- Minimum threshold for denominators. -/
def epsilon : D := ofRat (1 / 1000000)

def size (v : List D) : D := ofRat v.length

/-- Reducers of the last element, zero on the empty vector. -/
def ofLast (f : D → D) (v : List D) : D := (v.getLast?).elim zero f

/-- Reducers of the first and the last element, zero on fewer than two. -/
def ofEnds (f : D → D → D) (v : List D) : D :=
  match v with
  | first :: _ :: _ => f first (v.getLast?.getD first)
  | _ => zero

/-- Reducers that go on from the first element, zero on the empty vector. -/
def ofFirst (f : D → D → D) : List D → D
  | [] => zero
  | x :: rest => rest.foldl f x

def truth (b : Bool) : D := if b then one else zero

/-- The argument of a denominator that is far enough from zero. -/
def guarded (denom value : D) : D := if gt (fabs denom) epsilon then value else zero

def sum (v : List D) : D := v.foldl add zero

def mean (v : List D) : D := if v.isEmpty then zero else div (sum v) (size v)

def product (v : List D) : D := if v.isEmpty then zero else v.foldl mul one

def sorted (v : List D) : List D := v.insertionSort (fun x y => lt y x = false)

def median (v : List D) : D :=
  let w := sorted v
  let upper := w[w.length / 2]?.getD zero
  if v.isEmpty then zero
  else if w.length % 2 = 1 then upper
  else mul (add (w[w.length / 2 - 1]?.getD zero) upper) half

def range (v : List D) : D :=
  if v.length < 2 then zero else sub (ofFirst Double.max v) (ofFirst Double.min v)

/-- Population variance. -/
def variance (v : List D) : D :=
  if v.length < 2 then zero
  else
    let mean := div (sum v) (size v)
    div (v.foldl (fun ss x => add ss (mul (sub x mean) (sub x mean))) zero) (size v)

def stddev (v : List D) : D := if v.length < 2 then zero else sqrt (variance v)

def sign (x : D) : D := if gt x zero then one else if lt x zero then ofRat (-1) else zero

def clamp (x : D) : D := if lt x (ofRat (-1)) then ofRat (-1) else if lt one x then one else x

def zscore (v : List D) : D :=
  if v.length < 3 then zero
  else
    let mean := div (sum v) (size v)
    let sd := stddev v
    guarded sd (div (sub (v.getLast?.getD zero) mean) sd)

def emaWeight (v : List D) : D :=
  let k := div (ofRat 2) (add (size v) one)
  ofFirst (fun ema x => add (mul k x) (mul (sub one k) ema)) v

/-- The registrations, in the order of the source. -/
def all : List (String × (List D → D)) :=
  [("mean", mean), ("avg", mean), ("sum", sum), ("product", product),
    ("min", ofFirst Double.min), ("max", ofFirst Double.max),
    ("last", ofLast id), ("first", fun v => v.head?.getD zero), ("count", size),
    ("median", median), ("range", range), ("stddev", stddev), ("variance", variance),
    ("diff", ofEnds (fun x y => sub y x)), ("spread", range),
    ("div", ofEnds (fun x y => guarded y (div x y))),
    ("mod", ofEnds (fun x y => guarded y (fmod x y))),
    ("pow", ofEnds pow),
    ("midpoint", fun v => if v.length < 2 then v.head?.getD zero
      else ofEnds (fun x y => mul (add x y) half) v),
    ("pct_change", ofEnds (fun x y => guarded x (div (mul (ofRat 100) (sub y x)) x))),
    ("ratio", ofEnds (fun x y => guarded y (div x y))),
    ("abs", ofLast fabs), ("neg", ofLast neg),
    ("reciprocal", ofLast (fun x => guarded x (div one x))),
    ("sqrt", ofLast (fun x => sqrt (fabs x))), ("cbrt", ofLast cbrt), ("exp", ofLast exp),
    ("log", ofLast (fun x => if le x zero then zero else log x)),
    ("log2", ofLast (fun x => if le x zero then zero else log2 x)),
    ("log10", ofLast (fun x => if le x zero then zero else log10 x)),
    ("ceil", ofLast ceil), ("floor", ofLast floor), ("round", ofLast Double.round),
    ("trunc", ofLast trunc), ("sign", ofLast sign),
    ("sin", ofLast sin), ("cos", ofLast cos), ("tan", ofLast tan),
    ("asin", ofLast (fun x => asin (clamp x))), ("acos", ofLast (fun x => acos (clamp x))),
    ("atan", ofLast atan), ("atan2", ofEnds atan2),
    ("gt", ofEnds (fun x y => truth (gt x y))), ("lt", ofEnds (fun x y => truth (lt x y))),
    ("gte", ofEnds (fun x y => truth (ge x y))), ("lte", ofEnds (fun x y => truth (le x y))),
    ("eq", ofEnds (fun x y => truth (lt (fabs (sub x y)) epsilon))),
    ("neq", ofEnds (fun x y => truth (ge (fabs (sub x y)) epsilon))),
    ("and", fun v => truth (!v.isEmpty && !v.any (fun x => le x half))),
    ("or", fun v => truth (v.any (fun x => gt x half))),
    ("not", ofLast (fun x => truth (le x half))),
    ("zscore", zscore), ("ema_weight", emaWeight),
    ("cumulative_return", ofEnds (fun x y => guarded x (div (sub y x) x)))]

def names : List String :=
  ["mean", "avg", "sum", "product", "min", "max", "last", "first", "count", "median", "range",
    "stddev", "variance", "diff", "spread", "div", "mod", "pow", "midpoint", "pct_change",
    "ratio", "abs", "neg", "reciprocal", "sqrt", "cbrt", "exp", "log", "log2", "log10", "ceil",
    "floor", "round", "trunc", "sign", "sin", "cos", "tan", "asin", "acos", "atan", "atan2",
    "gt", "lt", "gte", "lte", "eq", "neq", "and", "or", "not", "zscore", "ema_weight",
    "cumulative_return"]

theorem map_fst_all : (all : List (String × (List D → D))).map Prod.fst = names := rfl

end BuiltinFunctions

/-- The FunctionMap after `registerBuiltinFunctions`. -/
def builtinFunctions (D : Type) [DoubleMath D] : FunctionTable D where
  entries := BuiltinFunctions.all.map (fun fn => (fn.1, fun v => some (fn.2 v)))
  nodup := by
    have hnames : (BuiltinFunctions.all.map (fun fn : String × (List D → D) =>
        (fn.1, fun v => some (fn.2 v)))).map Prod.fst = BuiltinFunctions.names := by
      rw [← BuiltinFunctions.map_fst_all (D := D), List.map_map]
      rfl
    rw [hnames]
    decide

end GmaEngine
