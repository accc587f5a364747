import GmaEngine.FieldMaps
import GmaEngine.FrameTrees
import GmaEngine.StreamSegments

/-!
# The feed clients of a configuration

`main` starts a source for every ingress entry whose factory makes one. The legacy keys of a file
and the records of the forum become entries whose symbols are joined by commas, and the factory of
the client splits them again: a client connects to the URL and subscribes to the symbols that were
configured.
-/

namespace GmaEngine

structure FeedUrl where
  tls : Bool
  host : List Char
  port : List Char
  target : List Char
  deriving DecidableEq, Repr

namespace WsFeedClient

/-- What follows the scheme, and whether the scheme is the one with TLS. -/
def readScheme (url : List Char) : Option (Bool × List Char) :=
  if url.take 6 = "wss://".toList then some (true, url.drop 6)
  else if url.take 5 = "ws://".toList then some (false, url.drop 5)
  else none

/-- `none` is an exception. The port is behind the last colon. -/
def parseUrl (url : String) : Option FeedUrl := do
  let (tls, rest) ← readScheme url.toList
  let hostPort := rest.takeWhile (· ≠ '/')
  let target := if rest.dropWhile (· ≠ '/') = [] then ['/'] else rest.dropWhile (· ≠ '/')
  let port := (hostPort.reverse.takeWhile (· ≠ ':')).reverse
  if ':' ∈ hostPort then
    return ⟨tls, hostPort.take (hostPort.length - port.length - 1), port, target⟩
  else return ⟨tls, hostPort, if tls then "443".toList else "80".toList, target⟩

end WsFeedClient

/-- `IFeedAdapter::subscribeMessage`. -/
def subscribeMessage (symbols : List String) : List Char :=
  let w := ({} : JsonWriter).startObject
  let w := (w.key "action").string "subscribe"
  let w := (w.key "symbols").startArray
  let w := (symbols.foldl (fun w s => w.string (cString s)) w).endArray
  w.endObject.out

inductive IngressSource where
  | feedServer (port : ℕ)
  | wsClient (url : FeedUrl) (symbols : List String)
  deriving DecidableEq, Repr

namespace IngressSource
open MarketFieldMap

/-- A text that is no number leaves the default. -/
def feedserverFactory (params : List (String × String)) : Option IngressSource :=
  match (lookupKey params "port").bind (fun text => CNumerals.stoi text.toList) with
  | some p => some (.feedServer (p % 65536).toNat)
  | none => some (.feedServer 9001)

def symbolsOr (symbols : List String) : List String := if symbols = [] then ["*"] else symbols

/-- Every adapter is the one for ITCH. -/
def wsclientFactory (params : List (String × String)) : Option IngressSource :=
  (WsFeedClient.parseUrl ((lookupKey params "url").getD "")).map
    (.wsClient · (symbolsOr (((lookupKey params "symbols").map splitCSV).getD [])))

/-- An entry of unknown kind, or one whose factory throws, is logged. -/
def ofEntry (entry : Ingress) : Option IngressSource :=
  if entry.kind = "market.feedserver" then feedserverFactory entry.params
  else if entry.kind = "market.wsclient" then wsclientFactory entry.params
  else none

end IngressSource

namespace ConnectorsClient
variable {D : Type}

def stringMember (row : Json D) (name : String) : String :=
  (((row.member name).bind Json.getString).map cString).getD ""

/-- Elements that are no strings are left out. -/
def joinSymbols (csv : String) : List (Json D) → String
  | [] => csv
  | elem :: elems =>
    match elem.getString with
    | some s => joinSymbols ((if csv = "" then csv else csv ++ ",") ++ cString s) elems
    | none => joinSymbols csv elems

def symbolElems (row : Json D) : List (Json D) :=
  match row.member "symbols" with
  | some (.array elems) => elems
  | _ => []

def symbolsCsv (row : Json D) : String :=
  let csv := joinSymbols "" (symbolElems row)
  if csv = "" then "*" else csv

def ingressOfRow (row : Json D) : Option Ingress :=
  if row.isObject = false then none
  else
    let protocol := stringMember row "protocol"
    let endpoint := stringMember row "endpointUrl"
    if protocol = "" ∨ endpoint = "" then none
    else if protocol ≠ "itch" then none
    else some
      { kind := "market.wsclient"
        params := [("url", endpoint), ("adapter", protocol), ("symbols", symbolsCsv row)] }

/-- A body that cannot be parsed comes with the parser's message. -/
def parseConnectorsJson : Except String (Json D) → Except String (List Ingress)
  | .error err => .error ("ConnectorsClient: JSON parse error: " ++ err)
  | .ok (.array rows) => .ok (rows.filterMap ingressOfRow)
  | .ok _ => .error "ConnectorsClient: expected JSON array at top level"

end ConnectorsClient

namespace MarketFieldMap
open EngineConfig

/-- The fields of a text, without those that are blank. -/
def fields (cs : List Char) : List (List Char) :=
  ((cs.splitOn ',').map stripBlanks).filter (· ≠ [])

/-- The empty field behind a last comma would be left out anyway. -/
theorem splitCSV_eq (value : String) : splitCSV value = (fields value.toList).map String.ofList := by
  rw [splitCSV, fields, tokens]
  split_ifs with hlast
  · obtain ⟨parts, hparts⟩ := List.getLast?_eq_some_iff.mp hlast
    rw [hparts, List.dropLast_concat, List.map_append, List.filter_append]
    simp [stripBlanks]
  · rfl

theorem fields_append_comma (cs cs' : List Char) :
    fields (cs ++ ',' :: cs') = fields cs ++ fields cs' := by
  have hsplit : (cs ++ ',' :: cs').splitOn ',' = cs.splitOn ',' ++ cs'.splitOn ',' :=
    List.splitOnP_append_cons cs cs' (by simp)
  rw [fields, hsplit, List.map_append, List.filter_append]
  rfl

theorem splitCSV_append_comma (value value' : String) :
    splitCSV (value ++ "," ++ value') = splitCSV value ++ splitCSV value' := by
  have htext : (value ++ "," ++ value').toList = value.toList ++ ',' :: value'.toList := by simp
  rw [splitCSV_eq, splitCSV_eq, splitCSV_eq, htext, fields_append_comma, List.map_append]

theorem splitCSV_empty : splitCSV "" = [] := by decide

/-- The text of a field: neither blank at its ends nor empty, and without a comma. -/
structure IsField (s : String) : Prop where
  stripped : stripBlanks s.toList = s.toList
  nonempty : s ≠ ""
  noComma : ',' ∉ s.toList

theorem IsField.splitCSV {s : String} (h : IsField s) : splitCSV s = [s] := by
  have hsplit : s.toList.splitOn ',' = [s.toList] :=
    List.splitOnP_eq_singleton (fun c hc => by
      rw [beq_eq_false_iff_ne]
      rintro rfl
      exact h.noComma hc)
  have hne : s.toList ≠ [] := by simpa using h.nonempty
  rw [splitCSV_eq, fields, hsplit, List.map_singleton, h.stripped,
    List.filter_cons_of_pos (by simpa using hne)]
  simp

theorem splitCSV_intercalate (values : List String) :
    splitCSV (String.intercalate "," values) = values.flatMap splitCSV := by
  induction values with
  | nil => exact splitCSV_empty
  | cons value values ih =>
    cases values with
    | nil => rw [String.intercalate_singleton, List.flatMap_singleton]
    | cons value' values =>
      rw [String.intercalate_cons_cons, splitCSV_append_comma, ih, List.flatMap_cons (x := value)]

/-- Fields that are joined are split again. -/
theorem splitCSV_join {symbols : List String} (h : ∀ s ∈ symbols, IsField s) :
    splitCSV (String.intercalate "," symbols) = symbols := by
  rw [splitCSV_intercalate]
  induction symbols with
  | nil => rfl
  | cons s symbols ih =>
    obtain ⟨hfirst, hrest⟩ := List.forall_mem_cons.mp h
    rw [List.flatMap_cons, hfirst.splitCSV, ih hrest]
    rfl

theorem dropWhile_of_head {q : Char → Bool} {cs : List Char} (h : ∀ c ∈ cs.head?, q c = false) :
    cs.dropWhile q = cs := by
  cases cs with
  | nil => rfl
  | cons c cs => exact List.dropWhile_cons_of_neg (by simp [h c rfl])

theorem head_dropWhile {q : Char → Bool} {cs : List Char} {c : Char}
    (h : c ∈ (cs.dropWhile q).head?) : q c = false := by
  have hnot := List.head?_dropWhile_not q cs
  rw [h] at hnot
  simpa using hnot

theorem isSpace_of_isBlank {c : Char} (h : isBlank c = true) : CNumerals.isSpace c = true := by
  rw [isBlank, Bool.or_eq_true, decide_eq_true_eq, decide_eq_true_eq] at h
  rcases h with rfl | rfl <;> decide

theorem trim_start (s : List Char) : trim s <+: s.dropWhile CNumerals.isSpace :=
  List.rdropWhile_prefix _ _

/-- Where no spaces are left at the ends, there are no blanks. -/
theorem stripBlanks_trim (s : List Char) : stripBlanks (trim s) = trim s := by
  have hblank : ∀ c, CNumerals.isSpace c = false → isBlank c = false := by
    intro c hc
    by_contra hnot
    rw [isSpace_of_isBlank (by simpa using hnot)] at hc
    cases hc
  have hfront : (trim s).dropWhile isBlank = trim s := by
    refine dropWhile_of_head (fun c hc => hblank c ?_)
    obtain ⟨rest, hrest⟩ := trim_start s
    suffices hhead : c ∈ (s.dropWhile CNumerals.isSpace).head? from head_dropWhile hhead
    rw [← hrest, List.head?_append, hc]
    rfl
  have hback : (trim s).reverse.dropWhile isBlank = (trim s).reverse := by
    refine dropWhile_of_head (fun c hc => hblank c ?_)
    rw [trim, List.reverse_reverse] at hc
    exact head_dropWhile hc
  rw [stripBlanks, hfront, hback, List.reverse_reverse]

end MarketFieldMap

namespace EngineConfig
open MarketFieldMap
variable {D : Type} [Double D] {atoi : List Char → ℤ}

/-- A list of symbols that can be joined. -/
def Joinable (symbols : List String) : Prop := symbols ≠ [] ∧ ∀ s ∈ symbols, IsField s

theorem joinable_all : Joinable ["*"] := by
  refine ⟨List.cons_ne_nil _ _, ?_⟩
  intro s hs
  rw [List.mem_singleton.mp hs]
  exact ⟨by decide, by decide, by decide⟩

theorem joinable_symbolsOf (val : String) : Joinable (symbolsOf val) := by
  unfold symbolsOf
  dsimp only
  split_ifs with hnone
  · exact joinable_all
  · refine ⟨by simpa using hnone, ?_⟩
    intro s hs
    obtain ⟨tok, htok, rfl⟩ := List.mem_map.mp hs
    obtain ⟨hmem, hne⟩ := List.mem_filter.mp htok
    obtain ⟨part, hpart, rfl⟩ := List.mem_map.mp hmem
    have hsplit : part ∈ val.toList.splitOn ',' := by
      unfold tokens at hpart
      dsimp only at hpart
      split_ifs at hpart
      · exact List.mem_of_mem_dropLast hpart
      · exact hpart
    have hcomma := StreamSegments.sep_notMem _ part hsplit
    refine ⟨?_, ?_, ?_⟩
    · rw [String.toList_ofList]
      exact stripBlanks_trim part
    · simpa using hne
    · rw [String.toList_ofList]
      exact fun hin => hcomma ((List.dropWhile_sublist _).subset ((trim_start part).subset hin))

/-- All lists of symbols in a configuration can be joined. -/
structure JoinableSymbols (cfg : EngineConfig D) : Prop where
  feedSymbols : Joinable cfg.feedSymbols
  feeds : ∀ fc ∈ cfg.feeds, Joinable fc.symbols

theorem forall_mem_modifyAt {α : Type} {P : α → Prop} {entries : List α} {new : α} {f : α → α}
    (h : ∀ entry ∈ entries, P entry) (hnew : P new) (hf : ∀ entry, P entry → P (f entry))
    (idx : ℕ) : ∀ entry ∈ modifyAt entries new idx f, P entry := by
  have hmade : ∀ entry ∈ entries ++ List.replicate (idx + 1 - entries.length) new, P entry := by
    intro entry hentry
    rcases List.mem_append.mp hentry with hold | hreplicate
    · exact h entry hold
    · rw [(List.mem_replicate.mp hreplicate).2]
      exact hnew
  intro entry hentry
  rw [modifyAt] at hentry
  obtain ⟨i, hi, rfl⟩ := List.mem_iff_getElem.mp hentry
  rw [List.getElem_modify]
  split_ifs
  · exact hf _ (hmade _ (List.getElem_mem _))
  · exact hmade _ (List.getElem_mem _)

theorem joinable_setFeed {feeds : List FeedConfig} (h : ∀ fc ∈ feeds, Joinable fc.symbols)
    (key val : String) : ∀ fc ∈ setFeed atoi feeds key val, Joinable fc.symbols := by
  unfold setFeed
  split
  · exact h
  · refine forall_mem_modifyAt h joinable_all (fun fc hfc => ?_) _
    split_ifs
    · exact hfc
    · exact hfc
    · exact joinable_symbolsOf val
    · exact hfc

variable {cfg cfg' : EngineConfig D}

theorem JoinableSymbols.ite {condition : Prop} [Decidable condition] (h : cfg.JoinableSymbols)
    (h' : cfg'.JoinableSymbols) : (if condition then cfg else cfg').JoinableSymbols := by
  split_ifs
  · exact h
  · exact h'

theorem JoinableSymbols.applyEntry (h : cfg.JoinableSymbols) (key val : String) :
    (cfg.applyEntry atoi key val).JoinableSymbols := by
  unfold EngineConfig.applyEntry
  repeat refine .ite ⟨h.feedSymbols, h.feeds⟩ ?_
  refine .ite ⟨h.feedSymbols, joinable_setFeed h.feeds key val⟩ ?_
  repeat refine .ite ⟨h.feedSymbols, h.feeds⟩ ?_
  refine .ite ⟨joinable_symbolsOf val, h.feeds⟩ ?_
  repeat refine .ite ⟨h.feedSymbols, h.feeds⟩ ?_
  exact ⟨h.feedSymbols, h.feeds⟩

theorem joinable_readFile (atoi : List Char → ℤ) (file : List Char) :
    (({} : EngineConfig D).readFile atoi file).JoinableSymbols :=
  (entries file).foldlRecOn (motive := JoinableSymbols) _
    ⟨joinable_all, List.forall_mem_nil _⟩ (fun _ hcfg entry _ => hcfg.applyEntry entry.1 entry.2)

/-- The feeds of the legacy keys, with their symbols. -/
def legacyFeeds (cfg : EngineConfig D) : List (String × List String) :=
  (cfg.feedUrl, cfg.feedSymbols) :: cfg.feeds.map (fun fc => (fc.url, fc.symbols))

end EngineConfig

namespace IngressSource
open EngineConfig MarketFieldMap
variable {D : Type} [Double D] {atoi : List Char → ℤ}

/-- The client of a feed, if its URL is one. -/
def ofFeed (feed : String × List String) : Option IngressSource :=
  (WsFeedClient.parseUrl feed.1).map (.wsClient · feed.2)

theorem ofFeed_empty (symbols : List String) : ofFeed ("", symbols) = none := rfl

/-- The factory makes of an entry the client of the feed that the entry was made of. -/
theorem ofEntry_wsEntry (url adapter : String) {symbols : List String} (h : Joinable symbols) :
    ofEntry (wsEntry url adapter symbols) = ofFeed (url, symbols) := by
  have hparams : (wsEntry url adapter symbols).params =
      [("url", url), ("adapter", adapter), ("symbols", String.intercalate "," symbols)] := by
    rw [wsEntry, if_neg h.1]
    rfl
  have hclient : ofEntry (wsEntry url adapter symbols) =
      wsclientFactory (wsEntry url adapter symbols).params := rfl
  have hsymbols : lookupKey [("url", url), ("adapter", adapter),
      ("symbols", String.intercalate "," symbols)] "symbols" =
        some (String.intercalate "," symbols) := rfl
  rw [hclient, hparams, wsclientFactory, hsymbols, Option.map_some, Option.getD_some,
    splitCSV_join h.2, symbolsOr, if_neg h.1]
  rfl

theorem ofEntry_feedserver {port : ℤ} (h : 1 ≤ port ∧ port ≤ 65535) :
    ofEntry { kind := "market.feedserver", params := [("port", toString port)] } =
      some (.feedServer port.toNat) := by
  obtain ⟨n, rfl⟩ := Int.eq_ofNat_of_zero_le (by omega : 0 ≤ port)
  have hstoi := CNumerals.stoi_numeral (CNumerals.numeral_toString n) (by omega)
  have hfactory : ofEntry { kind := "market.feedserver", params := [("port", toString (n : ℤ))] } =
      feedserverFactory [("port", toString n)] := rfl
  have hlookup : (lookupKey [("port", toString n)] "port").bind
      (fun text => CNumerals.stoi text.toList) = some (n : ℤ) := hstoi
  have hsmall : (n : ℤ) % 65536 = n := Int.emod_eq_of_lt (by omega) (by omega)
  rw [hfactory, feedserverFactory, hlookup]
  dsimp only
  rw [hsmall]

/-- The sources of the entries that are made for the legacy keys. -/
theorem sources_synthesize {cfg : EngineConfig D} (hnone : cfg.ingress = [])
    (hport : 1 ≤ cfg.feedPort ∧ cfg.feedPort ≤ 65535) (hsymbols : cfg.JoinableSymbols) :
    cfg.synthesizeIngressFromLegacy.ingress.filterMap ofEntry =
      .feedServer cfg.feedPort.toNat :: cfg.legacyFeeds.filterMap ofFeed := by
  have hfeeds : ((cfg.feeds.filter (·.url ≠ "")).map
      (fun fc => wsEntry fc.url fc.adapter fc.symbols)).filterMap ofEntry =
        (cfg.feeds.map (fun fc => (fc.url, fc.symbols))).filterMap ofFeed := by
    rw [List.filterMap_map, List.filterMap_map, List.filterMap_filter]
    refine List.filterMap_congr (fun fc hfc => ?_)
    by_cases hurl : fc.url = ""
    · simp [hurl, ofFeed_empty]
    · simp [hurl, ofEntry_wsEntry _ _ (hsymbols.feeds fc hfc)]
  have hfirst : (if cfg.feedUrl = "" then [] else
      [wsEntry cfg.feedUrl "itch" cfg.feedSymbols]).filterMap ofEntry =
        [(cfg.feedUrl, cfg.feedSymbols)].filterMap ofFeed := by
    split_ifs with hurl
    · rw [hurl]
      rfl
    · rw [List.filterMap_cons, ofEntry_wsEntry _ _ hsymbols.feedSymbols]
      rfl
  rw [synthesizeIngressFromLegacy, if_neg (not_not.mpr hnone)]
  dsimp only
  rw [List.filterMap_cons, ofEntry_feedserver hport]
  dsimp only
  rw [List.filterMap_append, hfirst, hfeeds, ← List.filterMap_append]
  rfl

end IngressSource

section
open JsonWriter JsonText

theorem subscribeMessage_eq (symbols : List String) :
    subscribeMessage symbols = objectText ([("action", '"' :: stringText "subscribe"),
      ("symbols", arrayText (symbols.map (fun s => '"' :: stringText (cString s))))].map member) := by
  rw [← object_eq, subscribeMessage]
  simp only [List.foldl_cons, List.foldl_nil, writeMember, ← array_eq_scalar, List.foldl_map]
  rfl

/-- What a subscription says: the symbols, in their order. -/
def subscriptionTree (symbols : List String) : Tree :=
  .object [("action", .string "subscribe"), ("symbols", .array (symbols.map (.string ∘ cString)))]

theorem subscription_says (symbols : List String) (tree : Tree) :
    Parses (subscribeMessage symbols) tree ↔ tree = subscriptionTree symbols := by
  have harray : Renders (arrayText (symbols.map (fun s => '"' :: stringText (cString s))))
      (.array (symbols.map (.string ∘ cString))) := by
    refine renders_array ?_
    induction symbols with
    | nil => exact .nil
    | cons s symbols ih => exact .cons (renders_cString s) ih
  have hparses : Parses (subscribeMessage symbols) (subscriptionTree symbols) := by
    rw [subscribeMessage_eq]
    have hvalues : List.Forall₂ (fun m t => Renders m.text t)
        ([("action", '"' :: stringText "subscribe"),
          ("symbols", arrayText (symbols.map (fun s => '"' :: stringText (cString s))))].map member)
        [.string "subscribe", .array (symbols.map (.string ∘ cString))] :=
      .cons (renders_string (isStringText_stringText "subscribe")) (.cons harray .nil)
    exact parses_object (by simp) (named_member _) hvalues
  constructor
  · intro h
    exact h.unique hparses
  · rintro rfl
    exact hparses

end

namespace Outside
open EngineConfig IngressSource
variable {D : Type} [Double D]

/-- A file without numbered entries starts the feed server and one client for every feed whose URL
is one, and what a client sends as its subscription can only be read as the symbols of its feed. -/
theorem legacy_clients (atoi : List Char → ℤ) (o : Outside) {path : String} {file : List Char}
    (hpath : o.argv[2]? = some path) (hfile : o.files path = some file) (hlegacy : Legacy file)
    (henv : o.getenv "FORUM_URL" = none) :
    let cfg := ({} : EngineConfig D).readFile atoi file
    (o.startedIngress D atoi).map (List.filterMap ofEntry) =
        some (.feedServer (filePort atoi file).toNat :: cfg.legacyFeeds.filterMap ofFeed) ∧
      ∀ feed ∈ cfg.legacyFeeds, ∀ tree,
        JsonText.Parses (subscribeMessage feed.2) tree ↔ tree = subscriptionTree feed.2 := by
  intro cfg
  have hport : cfg.feedPort = filePort atoi file := feedPort_foldl (entries file) {}
  have hbounded : cfg.Bounded := bounded_readFile atoi bounded_default file
  have hnone : cfg.ingress = [] := (legacy_readFile atoi {} hlegacy).1
  refine ⟨?_, fun feed _ => subscription_says feed.2⟩
  rw [startedIngress_eq hpath hfile hlegacy henv, ingress_loadFromFile, Option.map_some,
    sources_synthesize hnone hbounded.feedPort (joinable_readFile atoi file), hport]

def feedFile : String := "feedUrl=wss://feed/itch\nfeedSymbols=AAPL, MSFT\n"

theorem entries_feedFile : entries feedFile.toList =
    [("feedUrl", "wss://feed/itch"), ("feedSymbols", "AAPL, MSFT")] := by
  rw [entries_eq _ (by decide +kernel)]
  decide +kernel

theorem legacy_clients_feedFile :
    ((startedWith feedFile "9100").startedIngress ExactDouble definedAtoi).map
      (List.filterMap ofEntry) =
        some [.feedServer 9001,
          .wsClient ⟨true, "feed".toList, "443".toList, "/itch".toList⟩ ["AAPL", "MSFT"]] := by
  have hlegacy : Legacy feedFile.toList := by
    intro entry hentry
    rw [entries_feedFile] at hentry
    simp only [List.mem_cons, List.not_mem_nil, or_false] at hentry
    rcases hentry with rfl | rfl <;> exact ⟨by decide +kernel, by decide⟩
  have hstarted := (legacy_clients (D := ExactDouble) definedAtoi (startedWith feedFile "9100") rfl
    rfl hlegacy rfl).1
  have hfeeds : (({} : EngineConfig ExactDouble).readFile definedAtoi
      feedFile.toList).legacyFeeds = [("wss://feed/itch", ["AAPL", "MSFT"])] := by
    rw [readFile, entries_feedFile]
    decide +kernel
  rw [hfeeds, filePort, entries_feedFile] at hstarted
  rw [hstarted]
  decide +kernel

end Outside

namespace ConnectorsClient
open MarketFieldMap IngressSource
variable {D : Type}

/-- The symbols of a record: each element may hold several, separated by commas. -/
def rowSymbols (row : Json D) : List String :=
  symbolsOr (((symbolElems row).filterMap Json.getString).flatMap (splitCSV ∘ cString))

/-- The feed of a record with a URL, if it is one for ITCH. -/
def feedOfRow (row : Json D) : Option (String × List String) :=
  if row.isObject && decide (stringMember row "protocol" = "itch") &&
      decide (stringMember row "endpointUrl" ≠ "") then
    some (stringMember row "endpointUrl", rowSymbols row)
  else none

theorem splitCSV_joinSymbols (csv : String) (elems : List (Json D)) :
    splitCSV (joinSymbols csv elems) =
      splitCSV csv ++ (elems.filterMap Json.getString).flatMap (splitCSV ∘ cString) := by
  induction elems generalizing csv with
  | nil => simp [joinSymbols]
  | cons elem elems ih =>
    rw [joinSymbols]
    cases hstring : elem.getString with
    | none =>
      rw [List.filterMap_cons_none hstring]
      exact ih csv
    | some s =>
      have hjoin : splitCSV ((if csv = "" then csv else csv ++ ",") ++ cString s) =
          splitCSV csv ++ splitCSV (cString s) := by
        split_ifs with hcsv
        · rw [hcsv, splitCSV_empty]
          simp
        · exact splitCSV_append_comma csv (cString s)
      rw [List.filterMap_cons_some hstring]
      dsimp only
      rw [ih, hjoin, List.flatMap_cons, List.append_assoc]
      rfl

theorem symbolsOr_symbolsCsv (row : Json D) :
    symbolsOr (splitCSV (symbolsCsv row)) = rowSymbols row := by
  have hsplit := splitCSV_joinSymbols "" (symbolElems row)
  rw [splitCSV_empty, List.nil_append] at hsplit
  rw [rowSymbols, ← hsplit, symbolsCsv]
  split_ifs with hempty
  · rw [hempty, splitCSV_empty]
    decide
  · rfl

theorem ofEntry_ingressOfRow (row : Json D) :
    (ingressOfRow row).bind ofEntry = (feedOfRow row).bind ofFeed := by
  unfold ingressOfRow feedOfRow
  cases hobject : row.isObject with
  | false => rfl
  | true =>
    by_cases hprotocol : stringMember row "protocol" = "itch"
    · by_cases hurl : stringMember row "endpointUrl" = ""
      · simp [hurl]
      · have hclient : ofEntry { kind := "market.wsclient", params :=
            [("url", stringMember row "endpointUrl"), ("adapter", "itch"),
              ("symbols", symbolsCsv row)] } =
            (WsFeedClient.parseUrl (stringMember row "endpointUrl")).map
              (.wsClient · (symbolsOr (splitCSV (symbolsCsv row)))) := rfl
        simp [hprotocol, hurl, hclient, symbolsOr_symbolsCsv, ofFeed]
    · simp [hprotocol]

/-- The clients for the records of the forum: those for ITCH, in their order, each with the URL and
the symbols of its record. -/
theorem forum_clients (rows : List (Json D)) :
    (parseConnectorsJson (.ok (.array rows))).map (List.filterMap ofEntry) =
      .ok ((rows.filterMap feedOfRow).filterMap ofFeed) := by
  rw [parseConnectorsJson, Except.map, List.filterMap_filterMap, List.filterMap_filterMap]
  congr 1
  exact List.filterMap_congr (fun row _ => ofEntry_ingressOfRow row)

end ConnectorsClient
end GmaEngine
