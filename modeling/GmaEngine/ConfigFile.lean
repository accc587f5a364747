import GmaEngine.CNumerals
import GmaEngine.LineBuffers
import GmaEngine.MarketTA

/-!
# The configuration file

`loadFromFile` reads lines of `key=value` through a buffer of 1024 bytes; a character of the content
is a byte. A line that does not fit is skipped. What an entry sets depends on its key; each value
has its own guard. `atoi` is a parameter: it is undefined on numbers that are no `int`.
-/

namespace GmaEngine

structure FeedConfig where
  url : String := ""
  adapter : String := "itch"
  symbols : List String := ["*"]
  deriving DecidableEq, Repr

structure Ingress where
  kind : String := ""
  params : List (String × String) := []
  deriving DecidableEq, Repr

/-- All settings; those that the dispatcher and the computer read are a `Config`. -/
structure EngineConfig (D : Type) [Double D] extends Config D where
  taBBands_stdK := Double.ofRat 2
  wsPort : ℤ := 8080
  feedPort : ℤ := 9001
  threadPoolSize : ℤ := 0
  metricsEnabled : Bool := false
  metricsIntervalSec : ℤ := 15
  logLevel : String := "info"
  feedUrl : String := ""
  feedSymbols : List String := ["*"]
  allowNegativePrices : Bool := false
  feeds : List FeedConfig := []
  ingress : List Ingress := []
  forumUrl : String := ""
  forumTenantId : String := ""
  forumAuthToken : String := ""
  pendingKeys : List (String × String) := []

namespace EngineConfig
open LineBuffers

def trim (s : List Char) : List Char :=
  ((s.dropWhile CNumerals.isSpace).reverse.dropWhile CNumerals.isSpace).reverse

def parseLineKV (line : List Char) : Option (String × String) :=
  match line.dropWhile (· ≠ '=') with
  | [] => none
  | _ :: val =>
    let k := trim (line.takeWhile (· ≠ '='))
    if k = [] then none else some (String.ofList k, String.ofList (trim val))

/-- The entry of a line, which is neither blank nor a comment. -/
def entryOf (line : List Char) : Option (String × String) :=
  let line := (line.reverse.dropWhile (fun c => c = '\n' || c = '\r')).reverse
  match trim line with
  | [] => none
  | c :: s => if c = '#' || c = ';' then none else parseLineKV (c :: s)

/-- What is before the null character. -/
def cText (tmp : List Char) : List Char := tmp.takeWhile (· ≠ '\x00')

/-- The remainder of an oversized line is consumed. -/
def skipLine (file : List Char) : List Char :=
  if _h : file = [] then []
  else if '\n' ∈ cText (fgets 1023 file).1 then (fgets 1023 file).2
  else skipLine (fgets 1023 file).2
termination_by file.length
decreasing_by exact length_fgets_lt (by decide) _h

theorem length_skipLine_le (file : List Char) : (skipLine file).length ≤ file.length := by
  fun_induction skipLine file with
  | case1 => exact Nat.zero_le _
  | case2 file _ _ => exact length_fgets_le 1023 file
  | case3 file _ _ ih => exact ih.trans (length_fgets_le 1023 file)

/-- The lines that are read. The whole buffer without a newline is part of an oversized one. -/
def readLines (file : List Char) : List (List Char) :=
  if _h : file = [] then []
  else
    let line := cText (fgets 1023 file).1
    if line.length = 1023 ∧ line.getLast? ≠ some '\n' then
      readLines (skipLine (fgets 1023 file).2)
    else line :: readLines (fgets 1023 file).2
termination_by file.length
decreasing_by
  · exact (length_skipLine_le _).trans_lt (length_fgets_lt (by decide) _h)
  · exact length_fgets_lt (by decide) _h

section
variable (atoi : List Char → ℤ)

def period (val : String) : ℤ := max 1 (atoi val.toList)

def portOr (old : ℤ) (val : String) : ℤ :=
  if 0 < atoi val.toList ∧ atoi val.toList ≤ 65535 then atoi val.toList else old

def positiveOr (old : ℤ) (val : String) : ℤ :=
  if 0 < atoi val.toList then atoi val.toList else old

def sizeOr (old : ℤ) (val : String) : ℤ := if 0 ≤ atoi val.toList then atoi val.toList else old

def flag (val : String) : Bool := val = "true" || val = "1" || val = "yes"

/-- `getline` with a comma; nothing comes after the last one. -/
def tokens (val : String) : List (List Char) :=
  let parts := val.toList.splitOn ','
  if parts.getLast? = some [] then parts.dropLast else parts

def symbolsOf (val : String) : List String :=
  let symbols := ((tokens val).map trim).filter (· ≠ [])
  if symbols = [] then ["*"] else symbols.map String.ofList

def periodsOf (default : List ℤ) (val : String) : List ℤ :=
  let periods := ((tokens val).map (fun tok => atoi (trim tok))).filter (0 < ·)
  if periods = [] then default else periods

/-- The key has that beginning and goes on. -/
def startsWith (key start : String) : Bool :=
  start.toList.isPrefixOf key.toList && decide (start.length < key.length)

/-- The index, below 64, and the field of a key, behind its first `n` characters. -/
def indexField (n : ℕ) (key : String) : Option (ℕ × String) :=
  let idxStr := (key.toList.drop n).takeWhile (· ≠ '.')
  match (key.toList.drop n).dropWhile (· ≠ '.') with
  | [] => none
  | _ :: field =>
    if idxStr.head?.any Char.isDigit && decide (0 ≤ atoi idxStr) && decide (atoi idxStr < 64) then
      some ((atoi idxStr).toNat, String.ofList field)
    else none

/-- The entry at an index is changed; those up to it are made if they are missing. -/
def modifyAt {α : Type} (entries : List α) (new : α) (idx : ℕ) (f : α → α) : List α :=
  (entries ++ List.replicate (idx + 1 - entries.length) new).modify idx f

def setIngress (entries : List Ingress) (key val : String) : List Ingress :=
  match indexField atoi 8 key with
  | none => entries
  | some (idx, field) =>
    modifyAt entries {} idx (fun entry =>
      if field = "kind" then { entry with kind := val }
      else { entry with params := assignKey entry.params field val })

def setFeed (feeds : List FeedConfig) (key val : String) : List FeedConfig :=
  match indexField atoi 5 key with
  | none => feeds
  | some (idx, field) =>
    modifyAt feeds {} idx (fun fc =>
      if field = "url" then { fc with url := val }
      else if field = "adapter" then { fc with adapter := val }
      else if field = "symbols" then { fc with symbols := symbolsOf val }
      else fc)

variable {D : Type} [Double D]

def applyEntry (cfg : EngineConfig D) (key val : String) : EngineConfig D :=
  if key = "taMACD_fast" then { cfg with taMACD_fast := period atoi val }
  else if key = "taMACD_slow" then { cfg with taMACD_slow := period atoi val }
  else if key = "taBBands_n" then { cfg with taBBands_n := period atoi val }
  else if key = "taBBands_stdK" then { cfg with taBBands_stdK := (CNumerals.strtod val.toList).1 }
  else if key = "taRSI" then { cfg with taRSI := period atoi val }
  else if key = "taATR" then { cfg with taATR := period atoi val }
  else if key = "taMomentum" then { cfg with taMomentum := period atoi val }
  else if key = "taMACD_signal" then { cfg with taMACD_signal := period atoi val }
  else if key = "taVolAvg" then { cfg with taVolAvg := period atoi val }
  else if key = "wsPort" then { cfg with wsPort := portOr atoi cfg.wsPort val }
  else if key = "feedPort" then { cfg with feedPort := portOr atoi cfg.feedPort val }
  else if key = "threadPoolSize" then
    { cfg with threadPoolSize := sizeOr atoi cfg.threadPoolSize val }
  else if key = "taHistoryMax" then
    { cfg with taHistoryMax := positiveOr atoi cfg.taHistoryMax val }
  else if key = "maxSymbols" then { cfg with maxSymbols := positiveOr atoi cfg.maxSymbols val }
  else if key = "maxFieldsPerSymbol" then
    { cfg with maxFieldsPerSymbol := positiveOr atoi cfg.maxFieldsPerSymbol val }
  else if key = "allowNegativePrices" then { cfg with allowNegativePrices := flag val }
  else if startsWith key "ingress." then
    { cfg with ingress := setIngress atoi cfg.ingress key val }
  else if startsWith key "feed." then { cfg with feeds := setFeed atoi cfg.feeds key val }
  else if key = "metricsEnabled" then { cfg with metricsEnabled := flag val }
  else if key = "metricsIntervalSec" then
    { cfg with metricsIntervalSec := positiveOr atoi cfg.metricsIntervalSec val }
  else if key = "logLevel" then { cfg with logLevel := val }
  else if key = "forumUrl" then { cfg with forumUrl := val }
  else if key = "forumTenantId" then { cfg with forumTenantId := val }
  else if key = "forumAuthToken" then { cfg with forumAuthToken := val }
  else if key = "feedUrl" then { cfg with feedUrl := val }
  else if key = "feedSymbols" then { cfg with feedSymbols := symbolsOf val }
  else if key = "taSMA" then { cfg with taSMA := periodsOf atoi [5, 20] val }
  else if key = "taEMA" then { cfg with taEMA := periodsOf atoi [12, 26] val }
  else { cfg with pendingKeys := cfg.pendingKeys ++ [(key, val)] }

def entries (file : List Char) : List (String × String) := (readLines file).filterMap entryOf

/-- The loop over the file. -/
def readFile (cfg : EngineConfig D) (file : List Char) : EngineConfig D :=
  (entries file).foldl (fun cfg entry => cfg.applyEntry atoi entry.1 entry.2) cfg

end

variable {D : Type} [Double D]

def wsEntry (url adapter : String) (symbols : List String) : Ingress :=
  { kind := "market.wsclient"
    params := [("url", url), ("adapter", adapter)] ++
      if symbols = [] then [] else [("symbols", String.intercalate "," symbols)] }

/-- Entries for the legacy keys, if there are none of `ingress.*`. -/
def synthesizeIngressFromLegacy (cfg : EngineConfig D) : EngineConfig D :=
  if cfg.ingress ≠ [] then cfg
  else
    { cfg with
      ingress :=
        { kind := "market.feedserver", params := [("port", toString cfg.feedPort)] } ::
          ((if cfg.feedUrl = "" then [] else [wsEntry cfg.feedUrl "itch" cfg.feedSymbols]) ++
            (cfg.feeds.filter (·.url ≠ "")).map (fun fc => wsEntry fc.url fc.adapter fc.symbols)) }

def orderMACD (cfg : EngineConfig D) : EngineConfig D :=
  if cfg.taMACD_slow < cfg.taMACD_fast then
    { cfg with taMACD_slow := cfg.taMACD_fast, taMACD_fast := cfg.taMACD_slow }
  else cfg

def positiveStdK (cfg : EngineConfig D) : EngineConfig D :=
  let zero := Double.ofRat 0
  if Double.lt cfg.taBBands_stdK zero || Double.eq cfg.taBBands_stdK zero then
    { cfg with taBBands_stdK := Double.ofRat 2 }
  else cfg

/-- `none` is a file that cannot be opened. -/
def loadFromFile (atoi : List Char → ℤ) (cfg : EngineConfig D) : Option (List Char) →
    Bool × EngineConfig D
  | none => (false, cfg)
  | some file =>
    (true, (cfg.readFile atoi file).synthesizeIngressFromLegacy.orderMACD.positiveStdK)

end EngineConfig
end GmaEngine
