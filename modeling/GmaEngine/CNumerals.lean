import GmaEngine.Double

/-!
# Numerals of the C library

`strtol`, `stoi` and `strtod` on the characters of a C string. Each returns the value it
read and the text at which its end pointer stands; a text without a numeral gives zero and
leaves the end pointer at the start.
-/

namespace GmaEngine.CNumerals

def isSpace (c : Char) : Bool := c = ' ' || ('\t' ≤ c && c ≤ '\r')

def isHexDigit (c : Char) : Bool :=
  c.isDigit || ('a' ≤ c && c ≤ 'f') || ('A' ≤ c && c ≤ 'F')

def digitValue (c : Char) : ℕ :=
  if c.isDigit then c.toNat - '0'.toNat else c.toLower.toNat - 'a'.toNat + 10

def ofDigits (base : ℕ) (ds : List Char) : ℕ :=
  ds.foldl (fun acc c => acc * base + digitValue c) 0

/-- An optional sign; the flag says whether it is a minus. -/
def takeSign : List Char → Bool × List Char
  | '-' :: cs => (true, cs)
  | '+' :: cs => (false, cs)
  | cs => (false, cs)

def signed (negative : Bool) (n : ℕ) : ℤ := if negative then -n else n

/-- The integer that a text starts with, in base ten and without a bound. -/
def readInt (s : List Char) : Option (ℤ × List Char) :=
  let (negative, cs) := takeSign (s.dropWhile isSpace)
  if cs.takeWhile Char.isDigit = [] then none
  else some (signed negative (ofDigits 10 (cs.takeWhile Char.isDigit)), cs.dropWhile Char.isDigit)

/-- `strtol(s, &end, 10)` with a 64-bit `long`: a value out of range is replaced by the bound. -/
def strtol (s : List Char) : ℤ × List Char :=
  match readInt s with
  | none => (0, s)
  | some (n, rest) => (max (-2 ^ 63) (min (2 ^ 63 - 1) n), rest)

/-- `std::stoi`; `none` is an exception, for a text without a numeral or a value that is not
an `int`. -/
def stoi (s : List Char) : Option ℤ := do
  let (n, _) ← readInt s
  if -2 ^ 31 ≤ n ∧ n < 2 ^ 31 then some n else none

/-- Digits with an optional point among them, at least one digit. -/
def readMantissa (isDigit : Char → Bool) (base : ℕ) (cs : List Char) : Option (ℚ × List Char) :=
  let whole := cs.takeWhile isDigit
  let (frac, rest) := match cs.dropWhile isDigit with
    | '.' :: t => (t.takeWhile isDigit, t.dropWhile isDigit)
    | t => ([], t)
  if whole = [] ∧ frac = [] then none
  else some (ofDigits base (whole ++ frac) / base ^ frac.length, rest)

/-- An exponent after one of the two marks; without digits it is not read. -/
def readExponent (lower upper : Char) : List Char → ℤ × List Char
  | [] => (0, [])
  | c :: cs =>
    let (negative, ds) := takeSign cs
    if (c = lower ∨ c = upper) ∧ ds.takeWhile Char.isDigit ≠ [] then
      (signed negative (ofDigits 10 (ds.takeWhile Char.isDigit)), ds.dropWhile Char.isDigit)
    else (0, c :: cs)

def readDecimal (cs : List Char) : Option (ℚ × List Char) := do
  let (q, rest) ← readMantissa Char.isDigit 10 cs
  let (e, rest) := readExponent 'e' 'E' rest
  return (q * 10 ^ e, rest)

def readHex : List Char → Option (ℚ × List Char)
  | '0' :: x :: cs =>
    if x = 'x' ∨ x = 'X' then do
      let (q, rest) ← readMantissa isHexDigit 16 cs
      let (e, rest) := readExponent 'p' 'P' rest
      return (q * 2 ^ e, rest)
    else none
  | _ => none

/-- The text after a word, whatever the case of its letters. -/
def dropWord (word cs : List Char) : Option (List Char) :=
  if (cs.take word.length).map Char.toLower = word then some (cs.drop word.length) else none

/-- The parenthesised tag that may follow `nan`. -/
def dropTag : List Char → List Char
  | '(' :: cs =>
    match cs.dropWhile (fun c => c.isAlphanum || c = '_') with
    | ')' :: rest => rest
    | _ => '(' :: cs
  | cs => cs

variable {D : Type} [Double D]

def infinity : D := Double.div (Double.ofRat 1) (Double.ofRat 0)

/-- The magnitude that a text starts with, after its sign. -/
def readMagnitude (cs : List Char) : Option (D × List Char) :=
  ((dropWord "infinity".toList cs).map (fun rest => (infinity, rest))).or <|
  ((dropWord "inf".toList cs).map (fun rest => (infinity, rest))).or <|
  ((dropWord "nan".toList cs).map (fun rest => (Double.quietNaN, dropTag rest))).or <|
  ((readHex cs).or (readDecimal cs)).map (fun (q, rest) => (Double.ofRat q, rest))

/-- `strtod(s, &end)`. -/
def strtod (s : List Char) : D × List Char :=
  let (negative, cs) := takeSign (s.dropWhile isSpace)
  match readMagnitude cs with
  | none => (Double.ofRat 0, s)
  | some (v, rest) => (if negative then Double.copysign v (Double.ofRat (-1)) else v, rest)

example : (strtod " -12.5e1x".toList : ExactDouble × List Char) = (.fin (-125), ['x']) := by
  decide +kernel

end GmaEngine.CNumerals
