import Mathlib

/-!
# Double arithmetic

The program computes prices in C++ `double`. `Double D` collects the operations it uses,
so that the models built on it hold for every arithmetic, rounding included.
`ExactDouble` is the arithmetic without rounding: rationals, the two infinities and a NaN.
-/

namespace GmaEngine

/-- The operations of `double` and `<cmath>` that the program calls. `ofRat` is the value of
a literal or of a converted integer. -/
class Double (D : Type) where
  ofRat : ℚ → D
  add : D → D → D
  sub : D → D → D
  mul : D → D → D
  div : D → D → D
  lt : D → D → Bool
  eq : D → D → Bool
  isnan : D → Bool
  isinf : D → Bool
  fabs : D → D
  round : D → D
  copysign : D → D → D
  /-- An `int64_t`. -/
  llround : D → ℤ
  quietNaN : D

inductive ExactDouble where
  | nan
  | inf (negative : Bool)
  | fin (q : ℚ)
  deriving DecidableEq, Repr

namespace ExactDouble

/-- Sign of a value that is not a NaN; zero counts as positive. -/
def signbit : ExactDouble → Bool
  | nan => false
  | inf n => n
  | fin q => decide (q < 0)

def neg : ExactDouble → ExactDouble
  | nan => nan
  | inf n => inf (!n)
  | fin q => fin (-q)

def add : ExactDouble → ExactDouble → ExactDouble
  | nan, _ => nan
  | _, nan => nan
  | inf a, inf b => if a = b then inf a else nan
  | inf a, fin _ => inf a
  | fin _, inf b => inf b
  | fin x, fin y => fin (x + y)

def mul : ExactDouble → ExactDouble → ExactDouble
  | nan, _ => nan
  | _, nan => nan
  | fin x, fin y => fin (x * y)
  | x, y => if x = fin 0 ∨ y = fin 0 then nan else inf (x.signbit ^^ y.signbit)

def div : ExactDouble → ExactDouble → ExactDouble
  | nan, _ => nan
  | _, nan => nan
  | inf _, inf _ => nan
  | inf a, y => inf (a ^^ y.signbit)
  | fin _, inf _ => fin 0
  | fin x, fin y => if y = 0 then (if x = 0 then nan else inf (decide (x < 0))) else fin (x / y)

def lt : ExactDouble → ExactDouble → Bool
  | nan, _ => false
  | _, nan => false
  | inf a, inf b => a && !b
  | inf a, fin _ => a
  | fin _, inf b => !b
  | fin x, fin y => decide (x < y)

def eq : ExactDouble → ExactDouble → Bool
  | nan, _ => false
  | x, y => decide (x = y)

def fabs (x : ExactDouble) : ExactDouble := if x.signbit then x.neg else x

/-- Halves are rounded away from zero. -/
def roundRat (q : ℚ) : ℤ := if 0 ≤ q then ⌊q + 1 / 2⌋ else -⌊-q + 1 / 2⌋

def round : ExactDouble → ExactDouble
  | fin q => fin (roundRat q)
  | x => x

/-- Outside the range of `int64_t` the result is unspecified; it is the one of x86-64. -/
def llround : ExactDouble → ℤ
  | fin q => if -2 ^ 63 ≤ roundRat q ∧ roundRat q < 2 ^ 63 then roundRat q else -2 ^ 63
  | _ => -2 ^ 63

instance : Double ExactDouble where
  ofRat := fin
  add := add
  sub x y := x.add y.neg
  mul := mul
  div := div
  lt := lt
  eq := eq
  isnan x := decide (x = nan)
  isinf
    | inf _ => true
    | _ => false
  fabs := fabs
  round := round
  copysign x y := if x.signbit = y.signbit then x else x.neg
  llround := llround
  quietNaN := nan

end ExactDouble

namespace Double
variable {D : Type} [Double D]

/-- `x > y`. -/
def gt (x y : D) : Bool := lt y x

/-- `x <= y`. -/
def le (x y : D) : Bool := lt x y || eq x y

/-- `x >= y`. -/
def ge (x y : D) : Bool := le y x

/-- `std::max`. -/
def max (x y : D) : D := if lt x y then y else x

/-- `std::min`. -/
def min (x y : D) : D := if lt y x then y else x

end Double

/-- The rest of `<cmath>` that the registered functions and the indicators call. -/
class DoubleMath (D : Type) extends Double D where
  neg : D → D
  sqrt : D → D
  cbrt : D → D
  exp : D → D
  log : D → D
  log2 : D → D
  log10 : D → D
  ceil : D → D
  floor : D → D
  trunc : D → D
  sin : D → D
  cos : D → D
  tan : D → D
  asin : D → D
  acos : D → D
  atan : D → D
  atan2 : D → D → D
  fmod : D → D → D
  pow : D → D → D

namespace ExactDouble

def toIntegral (f : ℚ → ℤ) : ExactDouble → ExactDouble
  | fin q => fin (f q)
  | x => x

def truncRat (q : ℚ) : ℤ := if 0 ≤ q then ⌊q⌋ else ⌈q⌉

/-- Exact roots only: a NaN stands for a root that is not rational. -/
def sqrt : ExactDouble → ExactDouble
  | fin q =>
    let root : ℚ := (q.num.toNat.sqrt : ℚ) / (q.den.sqrt : ℚ)
    if root * root = q then fin root else nan
  | inf false => inf false
  | _ => nan

def fmod : ExactDouble → ExactDouble → ExactDouble
  | fin x, fin y => if y = 0 then nan else fin (x - y * truncRat (x / y))
  | fin x, inf _ => fin x
  | _, _ => nan

/-- Powers with an integral exponent. -/
def pow : ExactDouble → ExactDouble → ExactDouble
  | fin x, fin y => if y.den = 1 then fin (x ^ y.num) else nan
  | _, _ => nan

/-- A function of which only one exact value is kept. -/
def onlyAt (point value : ℚ) (x : ExactDouble) : ExactDouble :=
  if x = fin point then fin value else nan

instance : DoubleMath ExactDouble where
  neg := neg
  sqrt := sqrt
  cbrt := onlyAt 0 0
  exp := onlyAt 0 1
  log := onlyAt 1 0
  log2 := onlyAt 1 0
  log10 := onlyAt 1 0
  ceil := toIntegral Int.ceil
  floor := toIntegral Int.floor
  trunc := toIntegral truncRat
  sin := onlyAt 0 0
  cos := onlyAt 0 1
  tan := onlyAt 0 0
  asin := onlyAt 0 0
  acos := onlyAt 1 0
  atan := onlyAt 0 0
  atan2 y _ := onlyAt 0 0 y
  fmod := fmod
  pow := pow

end ExactDouble
end GmaEngine
