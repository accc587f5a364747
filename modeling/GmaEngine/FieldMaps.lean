import GmaEngine.FeedPorts
import GmaEngine.LocalRuns

/-!
# The field map of a configuration

Keys that the engine does not know are parked while the file is loaded and replayed once the
connectors have registered their namespaces. The market connector reads `market.source.*`, and
`source.*` as a deprecated alias, into the map that its tick computers are created with.
-/

namespace GmaEngine

/-- The reader of a namespace: it takes the tail of a key and the value, and either changes the
state of its connector or refuses the key. -/
abbrev ConfigReaderFn (σ : Type) := σ → String → String → Option σ

namespace ConfigNamespaceRegistry
variable {σ : Type}

/-- The first registration of a prefix stays. -/
def registerNamespace (map : List (String × ConfigReaderFn σ)) (pre : String)
    (reader : ConfigReaderFn σ) : List (String × ConfigReaderFn σ) :=
  if (lookupKey map pre).isSome then map else map ++ [(pre, reader)]

/-- `none` is a key that nobody consumes. -/
def dispatch (map : List (String × ConfigReaderFn σ)) (s : σ) (fullKey value : String) :
    Option σ :=
  match fullKey.toList.dropWhile (· ≠ '.') with
  | [] => none
  | _ :: tail =>
    (lookupKey map (String.ofList (fullKey.toList.takeWhile (· ≠ '.')))).bind
      (fun fn => fn s (String.ofList tail) value)

end ConfigNamespaceRegistry

namespace EngineConfig
open ConfigNamespaceRegistry
variable {D : Type} [Double D] {σ : Type}

/-- The state after the replay, the configuration and the number of keys consumed. -/
def dispatchPendingKeys (map : List (String × ConfigReaderFn σ)) (cfg : EngineConfig D) (s : σ) :
    σ × EngineConfig D × ℕ :=
  let replay (acc : σ × ℕ) (entry : String × String) : σ × ℕ :=
    match dispatch map acc.1 entry.1 entry.2 with
    | some s => (s, acc.2 + 1)
    | none => acc
  let done := cfg.pendingKeys.foldl replay (s, 0)
  (done.1, { cfg with pendingKeys := [] }, done.2)

end EngineConfig

namespace MarketFieldMap

def isBlank (c : Char) : Bool := c = ' ' || c = '\t'

def stripBlanks (tok : List Char) : List Char :=
  ((tok.dropWhile isBlank).reverse.dropWhile isBlank).reverse

def splitCSV (value : String) : List String :=
  (((EngineConfig.tokens value).map stripBlanks).filter (· ≠ [])).map String.ofList

/-- A list of fields that must not become empty. -/
def fieldsOr (default : List String) (value : String) : List String :=
  if splitCSV value = [] then default else splitCSV value

def defaultPriceFields : List String := ["lastPrice", "price", "last", "px"]
def defaultVolumeFields : List String := ["volume", "vol", "qty", "size"]

/-- The name of a map is not kept, since nothing reads it. -/
def applyMarketSourceKey : ConfigReaderFn MarketFieldMap := fun fm tail value =>
  if tail = "name" then some fm
  else if tail = "priceFields" then
    some { fm with priceFields := fieldsOr defaultPriceFields value }
  else if tail = "volumeFields" then
    some { fm with volumeFields := fieldsOr defaultVolumeFields value }
  else if tail = "bidFields" then some { fm with bidFields := splitCSV value }
  else if tail = "askFields" then some { fm with askFields := splitCSV value }
  else if tail = "timestampField" then some { fm with timestampField := value }
  else if tail = "taEnabled" then some { fm with taEnabled := EngineConfig.flag value }
  else none

def marketReader : ConfigReaderFn MarketFieldMap := fun fm tail value =>
  if "source.".toList.isPrefixOf tail.toList then
    applyMarketSourceKey fm (String.ofList (tail.toList.drop 7)) value
  else none

/-- The namespaces that `MarketConnector::registerWith` registers. -/
def namespaces : List (String × ConfigReaderFn MarketFieldMap) :=
  ConfigNamespaceRegistry.registerNamespace
    (ConfigNamespaceRegistry.registerNamespace [] "market" marketReader) "source"
    applyMarketSourceKey

end MarketFieldMap

/-- The field map with which tick computers are created: the keys are replayed after the connector
was registered with the configuration. -/
def Outside.startedFieldMap (D : Type) [Double D] (atoi : List Char → ℤ) (o : Outside) :
    MarketFieldMap :=
  ((o.cliConfig D atoi).dispatchPendingKeys MarketFieldMap.namespaces {}).1

namespace MarketFieldMap
open ConfigNamespaceRegistry EngineConfig LocalRuns

/-- The key of a setting, in either namespace. -/
def namesSetting (x key : String) : Bool :=
  key = "market.source." ++ x || key = "source." ++ x

theorem dispatch_market (fm : MarketFieldMap) (x value : String) :
    dispatch namespaces fm ("market.source." ++ x) value = applyMarketSourceKey fm x value := by
  have hhead : ("market.source." ++ x).toList.takeWhile (· ≠ '.') = "market".toList := by simp
  have htail : ("market.source." ++ x).toList.dropWhile (· ≠ '.') =
      '.' :: ("source." ++ x).toList := by simp
  have hlookup : lookupKey namespaces "market" = some marketReader := rfl
  have hreader : marketReader fm ("source." ++ x) value = applyMarketSourceKey fm x value := by
    simp [marketReader]
  rw [dispatch, htail]
  dsimp only
  rw [hhead, String.ofList_toList, String.ofList_toList, hlookup, Option.bind_some, hreader]

theorem dispatch_source (fm : MarketFieldMap) (x value : String) :
    dispatch namespaces fm ("source." ++ x) value = applyMarketSourceKey fm x value := by
  have hhead : ("source." ++ x).toList.takeWhile (· ≠ '.') = "source".toList := by simp
  have htail : ("source." ++ x).toList.dropWhile (· ≠ '.') = '.' :: x.toList := by simp
  have hlookup : lookupKey namespaces "source" = some applyMarketSourceKey := rfl
  rw [dispatch, htail]
  dsimp only
  rw [hhead, String.ofList_toList, String.ofList_toList, hlookup, Option.bind_some]

/-- A key is what stands before its first dot, the dot and the tail. -/
theorem eq_append_tail {key : String} {c : Char} {tail : List Char}
    (htail : key.toList.dropWhile (· ≠ '.') = c :: tail) :
    key = String.ofList (key.toList.takeWhile (· ≠ '.')) ++ "." ++ String.ofList tail := by
  have hdot : c = '.' := by
    have h := List.head?_dropWhile_not (fun x : Char => decide (x ≠ '.')) key.toList
    rw [htail] at h
    simpa using h
  have hkey := List.takeWhile_append_dropWhile (p := (· ≠ '.')) (l := key.toList)
  rw [htail, hdot] at hkey
  rw [← String.toList_inj]
  simpa using hkey.symm

theorem lookupKey_namespaces {pre : String} (hmarket : pre ≠ "market") (hsource : pre ≠ "source") :
    lookupKey namespaces pre = none := by
  have hnamespaces : namespaces = [("market", marketReader), ("source", applyMarketSourceKey)] := rfl
  rw [hnamespaces, lookupKey_cons, if_neg hmarket.symm, lookupKey_cons, if_neg hsource.symm]
  rfl

/-- Other keys are refused. -/
theorem dispatch_other (fm : MarketFieldMap) {key : String} (value : String)
    (hmarket : ∀ x, key ≠ "market.source." ++ x) (hsource : ∀ x, key ≠ "source." ++ x) :
    dispatch namespaces fm key value = none := by
  unfold dispatch
  cases htail : key.toList.dropWhile (· ≠ '.') with
  | nil => rfl
  | cons c tail =>
    dsimp only
    have hkey := eq_append_tail htail
    by_cases hm : String.ofList (key.toList.takeWhile (· ≠ '.')) = "market"
    · have hlookup : lookupKey namespaces "market" = some marketReader := rfl
      rw [hm, hlookup, Option.bind_some, marketReader, if_neg]
      intro hpre
      have htoList : (String.ofList tail).toList = tail := String.toList_ofList
      rw [List.isPrefixOf_iff_prefix, htoList] at hpre
      obtain ⟨x, hx⟩ := hpre
      refine hmarket (String.ofList x) ?_
      rw [hkey, hm, ← hx, ← String.toList_inj]
      simp
    · by_cases hs : String.ofList (key.toList.takeWhile (· ≠ '.')) = "source"
      · rw [hs] at hkey
        exact absurd hkey (hsource (String.ofList tail))
      · rw [lookupKey_namespaces hm hs]
        rfl

/-- The entry of a key, if it is consumed. -/
def replay (fm : MarketFieldMap) (entry : String × String) : MarketFieldMap :=
  (dispatch namespaces fm entry.1 entry.2).getD fm

/-- A part of the field map that the keys of one setting write. -/
def Setting {α : Type} (x : String) (get : MarketFieldMap → α) (parse : String → α) : Prop :=
  ∀ fm tail value, get ((applyMarketSourceKey fm tail value).getD fm) =
    if tail = x then parse value else get fm

/-- Every part of the map has a setting of its own. -/
theorem settings :
    Setting "priceFields" priceFields (fieldsOr defaultPriceFields) ∧
    Setting "volumeFields" volumeFields (fieldsOr defaultVolumeFields) ∧
    Setting "bidFields" bidFields splitCSV ∧ Setting "askFields" askFields splitCSV ∧
    Setting "timestampField" timestampField id ∧ Setting "taEnabled" taEnabled flag := by
  refine ⟨?_, ?_, ?_, ?_, ?_, ?_⟩
  all_goals
    intro fm tail value
    unfold applyMarketSourceKey
    split_ifs <;> simp_all

theorem market_ne_source (x y : String) : "market.source." ++ y ≠ "source." ++ x := by
  intro h
  have hlist := congrArg String.toList h
  simp at hlist

theorem namesSetting_market (x y : String) :
    namesSetting x ("market.source." ++ y) = decide (y = x) := by
  rw [namesSetting, decide_eq_false (market_ne_source x y), Bool.or_false]
  simp

theorem namesSetting_source (x y : String) :
    namesSetting x ("source." ++ y) = decide (y = x) := by
  rw [namesSetting, decide_eq_false (market_ne_source y x).symm, Bool.false_or]
  simp

section
variable {α : Type} {x : String} {get : MarketFieldMap → α} {parse : String → α}

/-- A replayed entry writes a part if its key names the setting, in whichever namespace. -/
theorem Setting.replay (h : Setting x get parse) (fm : MarketFieldMap) (entry : String × String) :
    get (fm.replay entry) = if namesSetting x entry.1 then parse entry.2 else get fm := by
  obtain ⟨key, value⟩ := entry
  unfold MarketFieldMap.replay
  dsimp only
  by_cases hmarket : ∃ y, key = "market.source." ++ y
  · obtain ⟨y, rfl⟩ := hmarket
    rw [dispatch_market, h, namesSetting_market]
    simp
  · by_cases hsource : ∃ y, key = "source." ++ y
    · obtain ⟨y, rfl⟩ := hsource
      rw [dispatch_source, h, namesSetting_source]
      simp
    · have hmarket := not_exists.mp hmarket
      have hsource := not_exists.mp hsource
      have hnot : namesSetting x key = false := by
        rw [namesSetting, decide_eq_false (hmarket x), decide_eq_false (hsource x)]
        rfl
      rw [dispatch_other fm value hmarket hsource, hnot]
      rfl

/-- After the replay of some entries a part has the value of the last one that names it. -/
theorem Setting.foldl_replay (h : Setting x get parse) (fm : MarketFieldMap)
    (entries : List (String × String)) : get (entries.foldl MarketFieldMap.replay fm) =
      (lastValue (namesSetting x) entries).elim (get fm) parse :=
  get_foldl h.replay fm entries

end

theorem namesSetting_of_dotless {x key word : String} (hkey : key = word)
    (hword : '.' ∉ word.toList) : namesSetting x key = false := by
  subst hkey
  rw [namesSetting, Bool.or_eq_false_iff]
  constructor
  · refine decide_eq_false (fun h => hword ?_)
    simp [h]
  · refine decide_eq_false (fun h => hword ?_)
    simp [h]

theorem namesSetting_of_startsWith {x key start : String} (hkey : startsWith key start = true)
    (hstart : start.toList.head?.any (fun c => c ≠ 'm' && c ≠ 's') = true) :
    namesSetting x key = false := by
  rw [startsWith, Bool.and_eq_true, List.isPrefixOf_iff_prefix] at hkey
  obtain ⟨⟨rest, hrest⟩, -⟩ := hkey
  rw [namesSetting, Bool.or_eq_false_iff]
  cases hlist : start.toList with
  | nil =>
    rw [hlist] at hstart
    cases hstart
  | cons c cs =>
    rw [hlist] at hstart hrest
    have hc : c ≠ 'm' ∧ c ≠ 's' := by simpa using hstart
    constructor
    · refine decide_eq_false (fun h => hc.1 ?_)
      rw [h] at hrest
      simpa using congrArg List.head? hrest
    · refine decide_eq_false (fun h => hc.2 ?_)
      rw [h] at hrest
      simpa using congrArg List.head? hrest

variable {D : Type} [Double D] {atoi : List Char → ℤ}

/-- What an entry does to the parked keys: a key that names a setting is parked. -/
def ParkStep (x key val : String) (cfg cfg' : EngineConfig D) : Prop :=
  (namesSetting x key = false ∧ cfg'.pendingKeys = cfg.pendingKeys) ∨
    cfg'.pendingKeys = cfg.pendingKeys ++ [(key, val)]

section
variable {x key val known start : String} {cfg cfg' rest : EngineConfig D}

theorem ParkStep.named (hknown : '.' ∉ known.toList) (hsame : cfg'.pendingKeys = cfg.pendingKeys)
    (hrest : ParkStep x key val cfg rest) :
    ParkStep x key val cfg (if key = known then cfg' else rest) :=
  iteInduction (fun h => .inl ⟨namesSetting_of_dotless h hknown, hsame⟩) (fun _ => hrest)

theorem ParkStep.numbered
    (hstart : start.toList.head?.any (fun c => c ≠ 'm' && c ≠ 's') = true)
    (hsame : cfg'.pendingKeys = cfg.pendingKeys) (hrest : ParkStep x key val cfg rest) :
    ParkStep x key val cfg (if startsWith key start then cfg' else rest) :=
  iteInduction (fun h => .inl ⟨namesSetting_of_startsWith h hstart, hsame⟩) (fun _ => hrest)

end

theorem parkStep_applyEntry (x : String) (cfg : EngineConfig D) (key val : String) :
    ParkStep x key val cfg (cfg.applyEntry atoi key val) := by
  unfold applyEntry
  repeat refine ParkStep.named (by decide) rfl ?_
  repeat refine ParkStep.numbered (by decide) rfl ?_
  repeat refine ParkStep.named (by decide) rfl ?_
  exact .inr rfl

/-- The loop over a file parks the entries that name a setting, in their order. -/
theorem filter_pendingKeys (x : String) (cfg : EngineConfig D) (list : List (String × String)) :
    (list.foldl (fun cfg entry => cfg.applyEntry atoi entry.1 entry.2) cfg).pendingKeys.filter
        (fun entry => namesSetting x entry.1) =
      (cfg.pendingKeys ++ list).filter (fun entry => namesSetting x entry.1) := by
  induction list generalizing cfg with
  | nil => simp
  | cons entry list ih =>
    rw [List.foldl_cons, ih]
    have hstep : ParkStep x entry.1 entry.2 cfg (cfg.applyEntry atoi entry.1 entry.2) :=
      parkStep_applyEntry x cfg entry.1 entry.2
    rcases hstep with ⟨hnot, hsame⟩ | hpark
    · simp [hsame, hnot]
    · simp [hpark]

/-- The map that some entries make. -/
def ofEntries (entries : List (String × String)) : MarketFieldMap where
  priceFields := (lastValue (namesSetting "priceFields") entries).elim defaultPriceFields
    (fieldsOr defaultPriceFields)
  volumeFields := (lastValue (namesSetting "volumeFields") entries).elim defaultVolumeFields
    (fieldsOr defaultVolumeFields)
  bidFields := (lastValue (namesSetting "bidFields") entries).elim [] splitCSV
  askFields := (lastValue (namesSetting "askFields") entries).elim [] splitCSV
  timestampField := (lastValue (namesSetting "timestampField") entries).getD ""
  taEnabled := (lastValue (namesSetting "taEnabled") entries).elim true flag

/-- The replay of parked keys, without the count. -/
theorem fst_dispatchPendingKeys (cfg : EngineConfig D) (fm : MarketFieldMap) :
    (cfg.dispatchPendingKeys namespaces fm).1 = cfg.pendingKeys.foldl MarketFieldMap.replay fm := by
  unfold dispatchPendingKeys
  dsimp only
  generalize 0 = count
  induction cfg.pendingKeys generalizing fm count with
  | nil => rfl
  | cons entry list ih =>
    rw [List.foldl_cons, List.foldl_cons, MarketFieldMap.replay]
    cases dispatch namespaces fm entry.1 entry.2 with
    | none => exact ih fm count
    | some fm' => exact ih fm' (count + 1)

theorem foldl_replay_eq (entries : List (String × String)) :
    entries.foldl MarketFieldMap.replay {} = ofEntries entries := by
  have heta (fm : MarketFieldMap) : fm = ⟨fm.priceFields, fm.volumeFields, fm.bidFields,
    fm.askFields, fm.timestampField, fm.taEnabled⟩ := rfl
  obtain ⟨hprice, hvolume, hbid, hask, htimestamp, htaEnabled⟩ := settings
  rw [heta (entries.foldl MarketFieldMap.replay {}), hprice.foldl_replay, hvolume.foldl_replay,
    hbid.foldl_replay, hask.foldl_replay, htimestamp.foldl_replay, htaEnabled.foldl_replay]
  rw [ofEntries]
  cases lastValue (namesSetting "timestampField") entries <;> rfl

/-- Only the entries that name a setting matter. -/
theorem ofEntries_congr {list list' : List (String × String)}
    (h : ∀ x, list.filter (fun entry => namesSetting x entry.1) =
      list'.filter (fun entry => namesSetting x entry.1)) : ofEntries list = ofEntries list' := by
  simp only [ofEntries, lastValue, h]

theorem fieldsOr_ne_nil {default : List String} (hdefault : default ≠ []) (value : String) :
    fieldsOr default value ≠ [] := by
  unfold fieldsOr
  split_ifs with h
  · exact hdefault
  · exact h

/-- There are always fields for the price and the volume. -/
theorem ofEntries_ne_nil (entries : List (String × String)) :
    (ofEntries entries).priceFields ≠ [] ∧ (ofEntries entries).volumeFields ≠ [] := by
  constructor
  · rw [ofEntries]
    cases lastValue (namesSetting "priceFields") entries with
    | none => exact List.cons_ne_nil _ _
    | some value => exact fieldsOr_ne_nil (List.cons_ne_nil _ _) value
  · rw [ofEntries]
    cases lastValue (namesSetting "volumeFields") entries with
    | none => exact List.cons_ne_nil _ _
    | some value => exact fieldsOr_ne_nil (List.cons_ne_nil _ _) value

end MarketFieldMap

namespace Outside
open EngineConfig MarketFieldMap
variable {D : Type} [Double D]

/-- Every part of the field map has the value of the last entry of the file that names its setting,
under `market.source.` or `source.`, and its default if there is none. -/
theorem startedFieldMap_of_file (atoi : List Char → ℤ) (o : Outside) {path : String}
    {file : List Char} (hpath : o.argv[2]? = some path) (hfile : o.files path = some file) :
    o.startedFieldMap D atoi = ofEntries (entries file) ∧
      (o.startedFieldMap D atoi).priceFields ≠ [] ∧
      (o.startedFieldMap D atoi).volumeFields ≠ [] := by
  have hload : o.loadedConfig D atoi = (({} : EngineConfig D).loadFromFile atoi (some file)).2 := by
    rw [loadedConfig, hpath, ← hfile]
  have hparked : (o.cliConfig D atoi).pendingKeys =
      (({} : EngineConfig D).readFile atoi file).pendingKeys := by
    obtain ⟨config, heq⟩ := loadFromFile_eq atoi ({} : EngineConfig D) file
    change (o.loadedConfig D atoi).pendingKeys = _
    rw [hload, heq]
    unfold synthesizeIngressFromLegacy
    split_ifs <;> rfl
  have hmap : o.startedFieldMap D atoi = ofEntries (entries file) := by
    rw [startedFieldMap, fst_dispatchPendingKeys, foldl_replay_eq, hparked]
    exact ofEntries_congr (fun x => filter_pendingKeys x {} (entries file))
  rw [hmap]
  exact ⟨rfl, ofEntries_ne_nil (entries file)⟩

/-- The alias comes first and is overwritten. -/
def aliasedFile : String := "source.priceFields=px\nmarket.source.priceFields= last , px\n"

theorem entries_aliasedFile : entries aliasedFile.toList =
    [("source.priceFields", "px"), ("market.source.priceFields", "last , px")] := by
  rw [entries_eq _ (by decide +kernel)]
  decide +kernel

theorem startedFieldMap_aliasedFile :
    (startedWith aliasedFile "9001").startedFieldMap ExactDouble definedAtoi =
        { priceFields := ["last", "px"] } ∧
      ((startedWith aliasedFile "9001").startedFieldMap ExactDouble definedAtoi).priceFields ≠ [] ∧
      ((startedWith aliasedFile "9001").startedFieldMap ExactDouble definedAtoi).volumeFields ≠
        [] := by
  have hmap := startedFieldMap_of_file (D := ExactDouble) definedAtoi
    (startedWith aliasedFile "9001") rfl rfl
  rw [entries_aliasedFile] at hmap
  exact hmap

end Outside
end GmaEngine
