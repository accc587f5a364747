import GmaEngine.DecimalNumerals
import GmaEngine.SafeConfigs

/-!
# The feed port on the command line

`main` loads the file, then puts the ports of the command line over those of the file, and makes
ingress entries for the legacy keys if there are none. `loadFromFile` has made them before.
-/

namespace GmaEngine

/-- What `main` reads from outside. The ingresses that the forum lists are fetched by HTTP. -/
structure Outside where
  argv : List String
  files : String → Option (List Char)
  getenv : String → Option String
  fetchIngresses : (forumUrl tenantId authToken : String) → Except String (List Ingress)

namespace Outside

/-- `std::stoul`; a minus negates modulo 2^64, and `none` is an exception. -/
def stoul (s : List Char) : Option ℕ := do
  let (n, _) ← CNumerals.readInt s
  if n.natAbs < 2 ^ 64 then some (n % 2 ^ 64).toNat else none

def parsePort (str : String) (fallback : ℤ) : ℤ :=
  match stoul str.toList with
  | some p => if p = 0 ∨ 65535 < p then fallback else p
  | none => fallback

/-- A port that is none is replaced by the default. -/
def validPort (port default : ℤ) : ℤ := if port ≤ 0 ∨ 65535 < port then default else port

variable (D : Type) [Double D] (atoi : List Char → ℤ) (o : Outside)

def loadedConfig : EngineConfig D :=
  match o.argv[2]? with
  | some path => (EngineConfig.loadFromFile atoi {} (o.files path)).2
  | none => {}

/-- The arguments win over the file. -/
def cliConfig : EngineConfig D :=
  let cfg := o.loadedConfig D atoi
  let wsPort := validPort cfg.wsPort 8080
  let feedPort := validPort cfg.feedPort 9001
  { cfg with
    wsPort := (o.argv[1]?).elim wsPort (parsePort · wsPort)
    feedPort := (o.argv[3]?).elim feedPort (parsePort · feedPort) }

def envOr (cfgVal envName : String) : String :=
  if cfgVal ≠ "" then cfgVal else (o.getenv envName).getD ""

/-- The `cfg.ingress` whose sources are started; `none` is an exit without any. The connectors only
read the configuration. -/
def startedIngress : Option (List Ingress) :=
  let cfg := (o.cliConfig D atoi).synthesizeIngressFromLegacy
  let forumUrl := o.envOr cfg.forumUrl "FORUM_URL"
  if forumUrl = "" then some cfg.ingress
  else
    match o.fetchIngresses forumUrl (o.envOr cfg.forumTenantId "FORUM_TENANT_ID")
        (o.envOr cfg.forumAuthToken "FORUM_AGENT_TOKEN") with
    | .ok pulled => some pulled
    | .error _ => none

end Outside

/-- The port parameter of the feed server's entry. -/
def feedserverPort (ingress : List Ingress) : Option String :=
  (ingress.find? (fun entry => entry.kind = "market.feedserver")).bind
    (fun entry => lookupKey entry.params "port")

namespace EngineConfig
variable {D : Type} [Double D] {atoi : List Char → ℤ} {cfg : EngineConfig D}

/-- A file with none of the keys that replace the legacy ones. -/
def Legacy (file : List Char) : Prop :=
  ∀ entry ∈ entries file, startsWith entry.1 "ingress." = false ∧ entry.1 ≠ "forumUrl"

/-- The port of an entry, if it has one. -/
def portOf (atoi : List Char → ℤ) (entry : String × String) : Option ℤ :=
  if entry.1 = "feedPort" ∧ 0 < atoi entry.2.toList ∧ atoi entry.2.toList ≤ 65535 then
    some (atoi entry.2.toList)
  else none

/-- The last port that a file gives. -/
def filePort (atoi : List Char → ℤ) (file : List Char) : ℤ :=
  ((entries file).filterMap (portOf atoi)).getLastD 9001

theorem feedPort_applyEntry (cfg : EngineConfig D) (entry : String × String) :
    (cfg.applyEntry atoi entry.1 entry.2).feedPort = (portOf atoi entry).getD cfg.feedPort := by
  obtain ⟨key, val⟩ := entry
  unfold portOf
  by_cases hkey : key = "feedPort"
  · subst hkey
    have happly : (cfg.applyEntry atoi "feedPort" val).feedPort =
        portOr atoi cfg.feedPort val := rfl
    rw [happly, portOr]
    split_ifs <;> simp_all
  · rw [if_neg (fun h => hkey h.1)]
    let Same (cfg' : EngineConfig D) : Prop := cfg'.feedPort = cfg.feedPort
    show Same _
    unfold applyEntry
    repeat refine iteInduction (motive := Same) (fun _ => rfl) fun _ => ?_
    refine iteInduction (motive := Same) (fun h => absurd h hkey) fun _ => ?_
    repeat refine iteInduction (motive := Same) (fun _ => rfl) fun _ => ?_
    rfl

theorem forumUrl_applyEntry (cfg : EngineConfig D) {key : String} (hkey : key ≠ "forumUrl")
    (val : String) : (cfg.applyEntry atoi key val).forumUrl = cfg.forumUrl := by
  let Same (cfg' : EngineConfig D) : Prop := cfg'.forumUrl = cfg.forumUrl
  show Same _
  unfold applyEntry
  repeat refine iteInduction (motive := Same) (fun _ => rfl) fun _ => ?_
  refine iteInduction (motive := Same) (fun h => absurd h hkey) fun _ => ?_
  repeat refine iteInduction (motive := Same) (fun _ => rfl) fun _ => ?_
  rfl

theorem feedPort_foldl (list : List (String × String)) (cfg : EngineConfig D) :
    (list.foldl (fun cfg entry => cfg.applyEntry atoi entry.1 entry.2) cfg).feedPort =
      (list.filterMap (portOf atoi)).getLastD cfg.feedPort := by
  induction list generalizing cfg with
  | nil => rfl
  | cons entry list ih =>
    rw [List.foldl_cons, ih, feedPort_applyEntry, List.filterMap_cons]
    cases portOf atoi entry with
    | none => rfl
    | some port => rw [Option.getD_some, List.getLastD_cons]

/-- The loop over such a file leaves the ingress entries and the forum to what is done later. -/
theorem legacy_readFile (atoi : List Char → ℤ) (cfg : EngineConfig D) {file : List Char}
    (h : Legacy file) :
    (cfg.readFile atoi file).ingress = cfg.ingress ∧
      (cfg.readFile atoi file).forumUrl = cfg.forumUrl := by
  let Same (cfg' : EngineConfig D) : Prop :=
    cfg'.ingress = cfg.ingress ∧ cfg'.forumUrl = cfg.forumUrl
  refine (entries file).foldlRecOn (motive := Same) _ ⟨rfl, rfl⟩ fun cfg' hcfg entry hentry => ?_
  obtain ⟨hstart, hforum⟩ := h entry hentry
  constructor
  · obtain hsame | ⟨hyes, -⟩ := ingressStep_applyEntry atoi cfg' entry.1 entry.2
    · exact hsame.trans hcfg.1
    · rw [hstart] at hyes
      cases hyes
  · exact (forumUrl_applyEntry cfg' hforum entry.2).trans hcfg.2

/-- What such a file leaves in a new configuration: the entry of the feed server has its port. -/
theorem legacy_loadFromFile (atoi : List Char → ℤ) {file : List Char} (h : Legacy file) :
    let cfg := (({} : EngineConfig D).loadFromFile atoi (some file)).2
    cfg.ingress ≠ [] ∧ feedserverPort cfg.ingress = some (toString (filePort atoi file)) ∧
      cfg.forumUrl = "" := by
  obtain ⟨config, heq⟩ := loadFromFile_eq atoi ({} : EngineConfig D) file
  obtain ⟨hingress, hforum⟩ := legacy_readFile atoi ({} : EngineConfig D) h
  have hport : (({} : EngineConfig D).readFile atoi file).feedPort = filePort atoi file :=
    feedPort_foldl (entries file) {}
  have hnone : ¬ (({} : EngineConfig D).readFile atoi file).ingress ≠ [] := not_not.mpr hingress
  dsimp only
  rw [heq, synthesizeIngressFromLegacy, if_neg hnone, hport]
  exact ⟨List.cons_ne_nil _ _, rfl, hforum⟩

end EngineConfig

namespace Outside
open EngineConfig
variable {D : Type} [Double D] {atoi : List Char → ℤ} {o : Outside}

/-- The sources are started with the entries that were made when the file was loaded. -/
theorem startedIngress_eq {path : String} {file : List Char} (hpath : o.argv[2]? = some path)
    (hfile : o.files path = some file) (hlegacy : Legacy file)
    (henv : o.getenv "FORUM_URL" = none) :
    o.startedIngress D atoi =
      some (({} : EngineConfig D).loadFromFile atoi (some file)).2.ingress := by
  obtain ⟨hne, -, hforum⟩ := legacy_loadFromFile (D := D) atoi hlegacy
  have hload : o.loadedConfig D atoi = (({} : EngineConfig D).loadFromFile atoi (some file)).2 := by
    rw [loadedConfig, hpath, ← hfile]
  have hcli : (o.cliConfig D atoi).ingress = (o.loadedConfig D atoi).ingress ∧
      (o.cliConfig D atoi).forumUrl = (o.loadedConfig D atoi).forumUrl := ⟨rfl, rfl⟩
  rw [hload] at hcli
  have hsame : (o.cliConfig D atoi).synthesizeIngressFromLegacy = o.cliConfig D atoi := by
    refine if_pos ?_
    rw [hcli.1]
    exact hne
  have hurl : o.envOr (o.cliConfig D atoi).forumUrl "FORUM_URL" = "" := by
    rw [envOr, hcli.2, hforum, henv]
    rfl
  unfold startedIngress
  dsimp only
  rw [hsame, hurl, if_pos rfl, hcli.1]

theorem startedIngress_legacy {path : String} {file : List Char} (hpath : o.argv[2]? = some path)
    (hfile : o.files path = some file) (hlegacy : Legacy file)
    (henv : o.getenv "FORUM_URL" = none) :
    (o.startedIngress D atoi).bind feedserverPort = some (toString (filePort atoi file)) := by
  rw [startedIngress_eq hpath hfile hlegacy henv, Option.bind_some]
  exact (legacy_loadFromFile (D := D) atoi hlegacy).2.1

/-- A port is known by its text. -/
theorem toString_eq_iff {port : ℤ} (hport : 1 ≤ port ∧ port ≤ 65535) {p : ℕ} (hp : p ≤ 65535) :
    toString port = toString p ↔ port = p := by
  obtain ⟨n, rfl⟩ := Int.eq_ofNat_of_zero_le (by omega : 0 ≤ port)
  constructor
  · intro heq
    have hn := CNumerals.stoi_numeral (CNumerals.numeral_toString n) (by omega)
    have hp := CNumerals.stoi_numeral (CNumerals.numeral_toString p) (by omega)
    have htext : toString n = toString p := heq
    rw [htext, hp] at hn
    exact (Option.some_inj.mp hn).symm
  · rintro heq
    rw [heq]
    rfl

theorem filePort_mem (atoi : List Char → ℤ) (file : List Char) :
    1 ≤ filePort atoi file ∧ filePort atoi file ≤ 65535 := by
  have hbounded : (({} : EngineConfig ExactDouble).readFile atoi file).Bounded :=
    bounded_readFile atoi bounded_default file
  have hport : (({} : EngineConfig ExactDouble).readFile atoi file).feedPort = filePort atoi file :=
    feedPort_foldl (entries file) {}
  rw [← hport]
  exact hbounded.feedPort

theorem feedPort_cliConfig {text : String} {p : ℕ} (htext : o.argv[3]? = some text)
    (hstoul : stoul text.toList = some p) (hvalid : 1 ≤ p ∧ p ≤ 65535) :
    (o.cliConfig D atoi).feedPort = p := by
  have hport : ¬ (p = 0 ∨ 65535 < p) := by omega
  unfold cliConfig
  dsimp only
  rw [htext, Option.elim_some, parsePort, hstoul]
  exact if_neg hport

/-- A valid port on the command line becomes the feed port of the configuration, and is that of the
feed server exactly if the file gives it too. -/
theorem cli_feed_port_iff (atoi : List Char → ℤ) (o : Outside) {path text : String}
    {file : List Char} {p : ℕ} (hpath : o.argv[2]? = some path) (hfile : o.files path = some file)
    (hlegacy : Legacy file) (henv : o.getenv "FORUM_URL" = none) (htext : o.argv[3]? = some text)
    (hstoul : stoul text.toList = some p) (hvalid : 1 ≤ p ∧ p ≤ 65535) :
    (o.cliConfig D atoi).feedPort = p ∧
      ((o.startedIngress D atoi).bind feedserverPort = some (toString p) ↔
        filePort atoi file = p) := by
  refine ⟨feedPort_cliConfig htext hstoul hvalid, ?_⟩
  rw [startedIngress_legacy hpath hfile hlegacy henv, Option.some_inj]
  exact toString_eq_iff (filePort_mem atoi file) hvalid.2

/-- A file of that content, and that feed port on the command line. -/
def startedWith (file port : String) : Outside where
  argv := ["gma", "8080", "gma.ini", port]
  files path := if path = "gma.ini" then some file.toList else none
  getenv _ := none
  fetchIngresses _ _ _ := .error "no connection"

/-- `atoi` on the texts where it is defined. -/
def definedAtoi (s : List Char) : ℤ := (CNumerals.stoi s).getD 0

theorem entries_feedPort : entries "feedPort=9100\n".toList = [("feedPort", "9100")] := by
  rw [entries_eq _ (by decide +kernel)]
  decide +kernel

theorem cli_feed_port_given :
    ((startedWith "feedPort=9100\n" "9100").startedIngress ExactDouble definedAtoi).bind
      feedserverPort = some (toString 9100) := by
  have hlegacy : Legacy "feedPort=9100\n".toList := by
    intro entry hentry
    rw [entries_feedPort, List.mem_singleton] at hentry
    rw [hentry]
    exact ⟨by decide +kernel, by decide⟩
  refine (cli_feed_port_iff definedAtoi (startedWith "feedPort=9100\n" "9100") rfl rfl hlegacy rfl
    rfl (by decide +kernel) (by decide)).2.mpr ?_
  rw [filePort, entries_feedPort]
  decide +kernel

/-- With an empty file the feed server still has the default port. -/
theorem cli_feed_port_ignored :
    ¬ ∀ (atoi : List Char → ℤ) (o : Outside) (path text : String) (file : List Char) (p : ℕ),
      o.argv[2]? = some path → o.files path = some file → Legacy file →
      o.getenv "FORUM_URL" = none → o.argv[3]? = some text → stoul text.toList = some p →
      1 ≤ p ∧ p ≤ 65535 →
        (o.startedIngress ExactDouble atoi).bind feedserverPort = some (toString p) := by
  intro hall
  have hentries : entries "".toList = [] := by
    rw [entries, String.toList_empty, readLines_nil]
    rfl
  have hlegacy : Legacy "".toList := by
    intro entry hentry
    rw [hentries] at hentry
    cases hentry
  have hport := hall definedAtoi (startedWith "" "9100") "gma.ini" "9100" "".toList 9100 rfl rfl
    hlegacy rfl rfl (by decide +kernel) (by decide)
  rw [startedIngress_legacy rfl rfl hlegacy rfl, filePort, hentries] at hport
  revert hport
  decide +kernel

end Outside
end GmaEngine
