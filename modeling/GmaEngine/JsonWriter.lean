import Mathlib.Data.Nat.Digits.Defs
import GmaEngine.JsonText
import GmaEngine.StreamNodes

/-!
# Writing update frames

The JSON writer with its default flags, and the messages that carry a value to a client. The
writer puts the separator in front of a value before it looks at the value; for a double that
is not finite it then writes nothing and reports a failure, which its callers ignore. The text
of a finite double is left to `dtoa`.
-/

namespace GmaEngine

def decimal (n : ℕ) : List Char :=
  if n = 0 then ['0'] else (Nat.digits 10 n).reverse.map Nat.digitChar

def intText (n : ℤ) : List Char := if n < 0 then '-' :: decimal n.natAbs else decimal n.natAbs

def hexDigit (n : ℕ) : Char := "0123456789ABCDEF".toList[n]?.getD '0'

def escapeChar (c : Char) : List Char :=
  if c = '"' ∨ c = '\\' then ['\\', c]
  else if c = '\x08' then ['\\', 'b']
  else if c = '\t' then ['\\', 't']
  else if c = '\n' then ['\\', 'n']
  else if c = '\x0c' then ['\\', 'f']
  else if c = '\r' then ['\\', 'r']
  else if c.toNat < 32 then ['\\', 'u', '0', '0', hexDigit (c.toNat / 16), hexDigit (c.toNat % 16)]
  else [c]

/-- A string behind its opening quote. -/
def stringText (s : String) : List Char := s.toList.flatMap escapeChar ++ ['"']

/-- An open array or object and the number of values in it; the names of members count too. -/
structure WriterLevel where
  inArray : Bool
  valueCount : ℕ := 0

structure JsonWriter where
  out : List Char := []
  levels : List WriterLevel := []

namespace JsonWriter

def separator (level : WriterLevel) : List Char :=
  if level.valueCount = 0 then []
  else if level.inArray || level.valueCount % 2 = 0 then [',']
  else [':']

/-- `Writer::Prefix`. -/
def startValue (w : JsonWriter) : JsonWriter :=
  match w.levels with
  | [] => w
  | level :: levels =>
    { out := w.out ++ separator level
      levels := { level with valueCount := level.valueCount + 1 } :: levels }

def put (w : JsonWriter) (text : List Char) : JsonWriter := { w with out := w.out ++ text }

def scalar (w : JsonWriter) (text : List Char) : JsonWriter := w.startValue.put text

def bool (w : JsonWriter) (b : Bool) : JsonWriter :=
  w.scalar (if b then "true".toList else "false".toList)

def int (w : JsonWriter) (n : ℤ) : JsonWriter := w.scalar (intText n)

def string (w : JsonWriter) (s : String) : JsonWriter := w.scalar ('"' :: stringText s)

def key (w : JsonWriter) (name : String) : JsonWriter := w.string name

def open_ (w : JsonWriter) (inArray : Bool) : JsonWriter :=
  { out := w.startValue.out ++ [if inArray then '[' else '{']
    levels := { inArray := inArray } :: w.startValue.levels }

def close (w : JsonWriter) (inArray : Bool) : JsonWriter :=
  { out := w.out ++ [if inArray then ']' else '}'], levels := w.levels.tail }

def startArray (w : JsonWriter) : JsonWriter := w.open_ true
def endArray (w : JsonWriter) : JsonWriter := w.close true
def startObject (w : JsonWriter) : JsonWriter := w.open_ false
def endObject (w : JsonWriter) : JsonWriter := w.close false

section Double
variable {D : Type} [Double D] (dtoa : D → List Char)

def isFinite (d : D) : Bool := !(Double.isnan d || Double.isinf d)

def double (w : JsonWriter) (d : D) : JsonWriter :=
  if isFinite d then w.scalar (dtoa d) else w.startValue

mutual
def writeArgTypeJson (w : JsonWriter) : ArgType D → JsonWriter
  | .bool b => w.bool b
  | .int n => w.int n
  | .double d => w.double dtoa d
  | .string s => w.string (cString s)
  | .ints ns => (ns.foldl int w.startArray).endArray
  | .doubles ds => (ds.foldl (double dtoa) w.startArray).endArray
  | .values vs => (writeArgValuesJson w.startArray vs).endArray

def writeArgValuesJson (w : JsonWriter) : List (ArgType D) → JsonWriter
  | [] => w
  | v :: vs => writeArgValuesJson (writeArgTypeJson w v) vs
end

def writeRequestKeyJSON (w : JsonWriter) : RequestKey → JsonWriter
  | .int n => (w.key "key").int n
  | .str s => (w.key "requestId").string (cString s)

/-- What the send callback of a ClientSession passes to `sendText`. -/
def sendFn (key : RequestKey) (sv : StreamValue D) : List Char :=
  let w := ({} : JsonWriter).startObject
  let w := (w.key "type").string "update"
  let w := w.writeRequestKeyJSON key
  let w := (w.key "streamKey").string (cString sv.symbol)
  let w := writeArgTypeJson dtoa (w.key "value") sv.value
  w.endObject.out

/-- What `WSResponder::onValue` passes to its callback. -/
def wsResponderOnValue (reqId : String) (sv : StreamValue D) : List Char :=
  let w := ({} : JsonWriter).startObject
  let w := (w.key "type").string "update"
  let w := (w.key "id").string (cString reqId)
  let w := (w.key "streamKey").string (cString sv.symbol)
  let w := writeArgTypeJson dtoa (w.key "value") sv.value
  w.endObject.out

end Double
end JsonWriter
end GmaEngine
