import GmaEngine.ConfigFile
import GmaEngine.IndicatorBounds

/-!
# Loaded configurations are safe

Every entry keeps the bounds of the settings, so the loop over a file does, and what is done after
the loop puts the MACD periods in order. Of the content of a file only the lines that fit into the
buffer matter.
-/

namespace GmaEngine.EngineConfig

open LineBuffers
variable {atoi : List Char → ℤ}

section
variable {line rest : List Char}

theorem cText_eq {tmp : List Char} (h : '\x00' ∉ tmp) : cText tmp = tmp := by
  rw [cText, List.takeWhile_eq_self_iff]
  intro c hc
  exact decide_eq_true (fun heq => h (heq ▸ hc))

@[simp] theorem readLines_nil : readLines [] = [] := by
  rw [readLines, dif_pos rfl]

@[simp] theorem skipLine_nil : skipLine [] = [] := by
  rw [skipLine, dif_pos rfl]

/-- The rest of a line is consumed with its newline. -/
theorem skipLine_line (hline : '\n' ∉ line) (hnul : '\x00' ∉ line) (rest : List Char) :
    skipLine (line ++ '\n' :: rest) = rest := by
  induction hlen : line.length using Nat.strong_induction_on generalizing line with
  | h len ih =>
    rw [skipLine, dif_neg (List.append_ne_nil_of_right_ne_nil _ (List.cons_ne_nil _ _))]
    by_cases hfits : line.length < 1023
    · have hfull : '\x00' ∉ line ++ ['\n'] := by simpa using hnul
      rw [fgets_line hline hfits, if_pos]
      rw [cText_eq hfull]
      simp
    · rw [not_lt] at hfits
      have htake : '\n' ∉ line.take 1023 := fun h => hline (List.mem_of_mem_take h)
      have htake' : '\x00' ∉ line.take 1023 := fun h => hnul (List.mem_of_mem_take h)
      rw [fgets_full hline hfits, cText_eq htake', if_neg htake]
      refine ih (line.drop 1023).length ?_ (fun h => hline (List.mem_of_mem_drop h))
        (fun h => hnul (List.mem_of_mem_drop h)) rfl
      rw [List.length_drop, ← hlen]
      omega

theorem skipLine_last (hline : '\n' ∉ line) : skipLine line = [] := by
  induction hlen : line.length using Nat.strong_induction_on generalizing line with
  | h len ih =>
    by_cases hnil : line = []
    · rw [hnil, skipLine_nil]
    · rw [skipLine, dif_neg hnil]
      obtain hfits | hlong := Nat.le_total line.length 1023
      · rw [fgets_last hline hfits, if_neg, skipLine_nil]
        exact fun h => hline (List.takeWhile_subset _ h)
      · have hfull := fgets_full hline hlong []
        rw [List.append_nil, List.append_nil] at hfull
        rw [hfull, if_neg]
        · refine ih (line.drop 1023).length ?_ (fun h => hline (List.mem_of_mem_drop h)) rfl
          rw [List.length_drop, ← hlen]
          omega
        · exact fun h => hline (List.mem_of_mem_take (List.takeWhile_subset _ h))

theorem readLines_line (hline : '\n' ∉ line) (hnul : '\x00' ∉ line) (hfits : line.length < 1023)
    (rest : List Char) :
    readLines (line ++ '\n' :: rest) = (line ++ ['\n']) :: readLines rest := by
  have hfull : '\x00' ∉ line ++ ['\n'] := by simpa using hnul
  rw [readLines, dif_neg (List.append_ne_nil_of_right_ne_nil _ (List.cons_ne_nil _ _)),
    fgets_line hline hfits]
  dsimp only
  rw [cText_eq hfull, if_neg]
  simp

theorem readLines_last (hline : '\n' ∉ line) (hnul : '\x00' ∉ line) (hfits : line.length < 1023)
    (hnil : line ≠ []) : readLines line = [line] := by
  rw [readLines, dif_neg hnil, fgets_last hline hfits.le]
  dsimp only
  rw [cText_eq hnul, if_neg, readLines_nil]
  exact fun h => hfits.ne h.1

/-- What fills the buffer without a newline is not read, nor is the rest of its line. -/
theorem readLines_long (hline : '\n' ∉ line) (hnul : '\x00' ∉ line) (hlong : 1023 ≤ line.length)
    (tail : List Char) :
    readLines (line ++ tail) = readLines (skipLine (line.drop 1023 ++ tail)) := by
  have hnil : line ++ tail ≠ [] := by
    refine List.append_ne_nil_of_left_ne_nil (fun h => ?_) _
    rw [h] at hlong
    cases hlong
  have htake : '\x00' ∉ line.take 1023 := fun h => hnul (List.mem_of_mem_take h)
  rw [readLines, dif_neg hnil, fgets_full hline hlong]
  dsimp only
  rw [cText_eq htake, if_pos]
  refine ⟨List.length_take_of_le hlong, fun h => hline ?_⟩
  exact List.mem_of_mem_take (List.mem_of_getLast? h)

/-- The newline of a line is stripped. -/
theorem entryOf_newline (line : List Char) : entryOf (line ++ ['\n']) = entryOf line := by
  simp [entryOf]

end

/-- The lines of a file that fit into the buffer. -/
def shortLines (file : List Char) : List (List Char) :=
  (file.splitOn '\n').filter (fun line => line.length < 1023)

theorem shortLines_cons {line : List Char} (hline : '\n' ∉ line) (rest : List Char) :
    shortLines (line ++ '\n' :: rest) =
      (if line.length < 1023 then [line] else []) ++ shortLines rest := by
  rw [shortLines, List.splitOn_append_cons_self, List.splitOn_eq_singleton hline,
    List.singleton_append, List.filter_cons]
  split_ifs with h h' <;> simp_all [shortLines]

theorem shortLines_last {line : List Char} (hline : '\n' ∉ line) :
    shortLines line = if line.length < 1023 then [line] else [] := by
  rw [shortLines, List.splitOn_eq_singleton hline, List.filter_cons]
  split_ifs with h h' <;> simp_all

/-- The entries of a file are those of its lines that fit. -/
theorem entries_eq (file : List Char) (hnul : '\x00' ∉ file) :
    entries file = (shortLines file).filterMap entryOf := by
  unfold entries
  induction file using lines_induction with
  | last line hline =>
    rw [shortLines_last hline]
    by_cases hnil : line = []
    · rw [hnil, readLines_nil]
      rfl
    · split_ifs with hfits
      · rw [readLines_last hline hnul hfits hnil]
      · have hlong := readLines_long hline hnul (not_lt.mp hfits) []
        rw [List.append_nil, List.append_nil,
          skipLine_last (fun h => hline (List.mem_of_mem_drop h)), readLines_nil] at hlong
        rw [hlong]
  | more line rest hline ih =>
    rw [List.mem_append, List.mem_cons, not_or, not_or] at hnul
    obtain ⟨hline', -, hrest⟩ := hnul
    rw [shortLines_cons hline]
    split_ifs with hfits
    · rw [readLines_line hline hline' hfits, List.filterMap_cons, entryOf_newline,
        List.singleton_append, List.filterMap_cons, ih hrest]
    · rw [readLines_long hline hline' (not_lt.mp hfits),
        skipLine_line (fun h => hline (List.mem_of_mem_drop h))
          (fun h => hline' (List.mem_of_mem_drop h)), ih hrest, List.nil_append]

theorem mem_shortLines {file line : List Char} (h : line ∈ shortLines file) :
    '\n' ∉ line ∧ line ⊆ file ∧ line.length < 1023 := by
  induction file using lines_induction with
  | last other hother =>
    rw [shortLines_last hother] at h
    split_ifs at h with hfits
    · rw [List.mem_singleton.mp h]
      exact ⟨hother, List.Subset.refl _, hfits⟩
    · cases h
  | more other rest hother ih =>
    rw [shortLines_cons hother, List.mem_append] at h
    obtain h | h := h
    · split_ifs at h with hfits
      · rw [List.mem_singleton.mp h]
        exact ⟨hother, List.subset_append_left _ _, hfits⟩
      · cases h
    · obtain ⟨hline, hsub, hfits⟩ := ih h
      refine ⟨hline, fun c hc => ?_, hfits⟩
      exact List.mem_append_right _ (List.mem_cons_of_mem _ (hsub hc))

/-- The content without its lines that do not fit. -/
def withoutLongLines (file : List Char) : List Char := ['\n'].intercalate (shortLines file)

theorem mem_intercalate {sep c : Char} {lines : List (List Char)}
    (h : c ∈ [sep].intercalate lines) : c = sep ∨ ∃ line ∈ lines, c ∈ line := by
  induction lines with
  | nil => cases h
  | cons line lines ih =>
    cases lines with
    | nil =>
      rw [List.intercalate_singleton] at h
      exact .inr ⟨line, List.mem_cons_self, h⟩
    | cons next lines =>
      rw [List.intercalate_cons_cons, List.mem_append, List.mem_append] at h
      obtain (h | h) | h := h
      · exact .inr ⟨line, List.mem_cons_self, h⟩
      · exact .inl (List.mem_singleton.mp h)
      · obtain heq | ⟨other, hother, hc⟩ := ih h
        · exact .inl heq
        · exact .inr ⟨other, List.mem_cons_of_mem _ hother, hc⟩

theorem shortLines_withoutLongLines (file : List Char) :
    (shortLines (withoutLongLines file)).filterMap entryOf =
      (shortLines file).filterMap entryOf := by
  by_cases hnone : shortLines file = []
  · rw [withoutLongLines, hnone]
    rfl
  · have hsplit : (withoutLongLines file).splitOn '\n' = shortLines file :=
      List.splitOn_intercalate '\n' (fun line hline => (mem_shortLines hline).1) hnone
    rw [shortLines, hsplit, List.filter_eq_self.mpr]
    exact fun line hline => decide_eq_true (mem_shortLines hline).2.2

theorem entries_withoutLongLines {file : List Char} (hnul : '\x00' ∉ file) :
    entries (withoutLongLines file) = entries file := by
  have hnul' : '\x00' ∉ withoutLongLines file := by
    intro h
    obtain heq | ⟨line, hline, hc⟩ := mem_intercalate h
    · cases heq
    · exact hnul ((mem_shortLines hline).2.1 hc)
  rw [entries_eq _ hnul', shortLines_withoutLongLines, entries_eq file hnul]

variable {D : Type} [Double D] {cfg : EngineConfig D}

def Positive (periods : List ℤ) : Prop := periods ≠ [] ∧ ∀ p ∈ periods, 1 ≤ p

/-- The bounds of the settings that every entry keeps. -/
structure Bounded (cfg : EngineConfig D) : Prop where
  fast : 1 ≤ cfg.taMACD_fast
  slow : 1 ≤ cfg.taMACD_slow
  bbands : 1 ≤ cfg.taBBands_n
  rsi : 1 ≤ cfg.taRSI
  atr : 1 ≤ cfg.taATR
  momentum : 1 ≤ cfg.taMomentum
  signal : 1 ≤ cfg.taMACD_signal
  volAvg : 1 ≤ cfg.taVolAvg
  sma : Positive cfg.taSMA
  ema : Positive cfg.taEMA
  wsPort : 1 ≤ cfg.wsPort ∧ cfg.wsPort ≤ 65535
  feedPort : 1 ≤ cfg.feedPort ∧ cfg.feedPort ≤ 65535
  historyMax : 1 ≤ cfg.taHistoryMax
  maxSymbols : 1 ≤ cfg.maxSymbols
  maxFields : 1 ≤ cfg.maxFieldsPerSymbol
  threadPool : 0 ≤ cfg.threadPoolSize
  metricsInterval : 1 ≤ cfg.metricsIntervalSec

theorem positive_sma : Positive [5, 20] := ⟨by decide, by decide⟩

theorem positive_ema : Positive [12, 26] := ⟨by decide, by decide⟩

theorem bounded_default : Bounded ({} : EngineConfig D) where
  fast := of_decide_eq_true rfl
  slow := of_decide_eq_true rfl
  bbands := of_decide_eq_true rfl
  rsi := of_decide_eq_true rfl
  atr := of_decide_eq_true rfl
  momentum := of_decide_eq_true rfl
  signal := of_decide_eq_true rfl
  volAvg := of_decide_eq_true rfl
  sma := positive_sma
  ema := positive_ema
  wsPort := ⟨of_decide_eq_true rfl, of_decide_eq_true rfl⟩
  feedPort := ⟨of_decide_eq_true rfl, of_decide_eq_true rfl⟩
  historyMax := of_decide_eq_true rfl
  maxSymbols := of_decide_eq_true rfl
  maxFields := of_decide_eq_true rfl
  threadPool := of_decide_eq_true rfl
  metricsInterval := of_decide_eq_true rfl

theorem one_le_period (val : String) : 1 ≤ period atoi val := le_max_left 1 _

theorem portOr_mem {old : ℤ} (h : 1 ≤ old ∧ old ≤ 65535) (val : String) :
    1 ≤ portOr atoi old val ∧ portOr atoi old val ≤ 65535 := by
  unfold portOr
  split_ifs with hval
  · exact hval
  · exact h

theorem one_le_positiveOr {old : ℤ} (h : 1 ≤ old) (val : String) : 1 ≤ positiveOr atoi old val := by
  unfold positiveOr
  split_ifs with hval
  · exact hval
  · exact h

theorem sizeOr_nonneg {old : ℤ} (h : 0 ≤ old) (val : String) : 0 ≤ sizeOr atoi old val := by
  unfold sizeOr
  split_ifs with hval
  · exact hval
  · exact h

theorem positive_periodsOf {default : List ℤ} (h : Positive default) (val : String) :
    Positive (periodsOf atoi default val) := by
  unfold periodsOf
  dsimp only
  split_ifs with hnone
  · exact h
  · refine ⟨hnone, fun p hp => ?_⟩
    exact of_decide_eq_true (List.mem_filter.mp hp).2

theorem Bounded.ite {condition : Prop} [Decidable condition] {cfg' : EngineConfig D}
    (h : cfg.Bounded) (h' : cfg'.Bounded) : (if condition then cfg else cfg').Bounded := by
  split_ifs
  · exact h
  · exact h'

/-- One case for each key. -/
theorem Bounded.applyEntry (h : cfg.Bounded) (key val : String) :
    (cfg.applyEntry atoi key val).Bounded := by
  unfold EngineConfig.applyEntry
  refine .ite { h with fast := one_le_period val } ?_
  refine .ite { h with slow := one_le_period val } ?_
  refine .ite { h with bbands := one_le_period val } ?_
  refine .ite { h with } ?_
  refine .ite { h with rsi := one_le_period val } ?_
  refine .ite { h with atr := one_le_period val } ?_
  refine .ite { h with momentum := one_le_period val } ?_
  refine .ite { h with signal := one_le_period val } ?_
  refine .ite { h with volAvg := one_le_period val } ?_
  refine .ite { h with wsPort := portOr_mem h.wsPort val } ?_
  refine .ite { h with feedPort := portOr_mem h.feedPort val } ?_
  refine .ite { h with threadPool := sizeOr_nonneg h.threadPool val } ?_
  refine .ite { h with historyMax := one_le_positiveOr h.historyMax val } ?_
  refine .ite { h with maxSymbols := one_le_positiveOr h.maxSymbols val } ?_
  refine .ite { h with maxFields := one_le_positiveOr h.maxFields val } ?_
  refine .ite { h with } ?_
  refine .ite { h with } ?_
  refine .ite { h with } ?_
  refine .ite { h with } ?_
  refine .ite { h with metricsInterval := one_le_positiveOr h.metricsInterval val } ?_
  refine .ite { h with } ?_
  refine .ite { h with } ?_
  refine .ite { h with } ?_
  refine .ite { h with } ?_
  refine .ite { h with } ?_
  refine .ite { h with } ?_
  refine .ite { h with sma := positive_periodsOf positive_sma val } ?_
  refine .ite { h with ema := positive_periodsOf positive_ema val } ?_
  exact { h with }

theorem bounded_readFile (atoi : List Char → ℤ) (h : cfg.Bounded) (file : List Char) :
    (cfg.readFile atoi file).Bounded :=
  (entries file).foldlRecOn (motive := Bounded) _ h
    (fun _ hcfg entry _ => hcfg.applyEntry entry.1 entry.2)

theorem length_modifyAt {α : Type} (entries : List α) (new : α) (idx : ℕ) (f : α → α) :
    (modifyAt entries new idx f).length = max entries.length (idx + 1) := by
  rw [modifyAt, List.length_modify, List.length_append, List.length_replicate]
  omega

theorem indexField_lt {n idx : ℕ} {key field : String}
    (h : indexField atoi n key = some (idx, field)) : idx < 64 := by
  unfold indexField at h
  dsimp only at h
  split at h
  case h_1 => cases h
  case h_2 =>
    split_ifs at h with hidx
    rw [Bool.and_eq_true, Bool.and_eq_true, decide_eq_true_eq, decide_eq_true_eq] at hidx
    cases h
    omega

theorem length_setIngress {ingress : List Ingress} (h : ingress.length ≤ 64) (key val : String) :
    (setIngress atoi ingress key val).length ≤ 64 := by
  unfold setIngress
  split
  case h_1 => exact h
  case h_2 idx field hfield =>
    have hidx := indexField_lt hfield
    rw [length_modifyAt]
    omega

/-- What the entry does to the list: nothing, unless its key begins with `ingress.`. -/
def IngressStep (atoi : List Char → ℤ) (cfg : EngineConfig D) (key val : String)
    (cfg' : EngineConfig D) : Prop :=
  cfg'.ingress = cfg.ingress ∨
    startsWith key "ingress." = true ∧ cfg'.ingress = setIngress atoi cfg.ingress key val

theorem ingressStep_applyEntry (atoi : List Char → ℤ) (cfg : EngineConfig D) (key val : String) :
    IngressStep atoi cfg key val (cfg.applyEntry atoi key val) := by
  let Step := IngressStep atoi cfg key val
  show Step _
  unfold applyEntry
  -- the keys before `ingress.*`, that one, and those behind it
  repeat refine iteInduction (motive := Step) (fun _ => .inl rfl) fun _ => ?_
  refine iteInduction (motive := Step) (fun h => .inr ⟨h, rfl⟩) fun _ => ?_
  repeat refine iteInduction (motive := Step) (fun _ => .inl rfl) fun _ => ?_
  exact .inl rfl

theorem length_ingress_readFile (h : cfg.ingress.length ≤ 64) (file : List Char) :
    (cfg.readFile atoi file).ingress.length ≤ 64 := by
  refine (entries file).foldlRecOn (motive := fun cfg : EngineConfig D => cfg.ingress.length ≤ 64)
    _ h fun cfg hcfg entry _ => ?_
  obtain hsame | ⟨-, hset⟩ := ingressStep_applyEntry atoi cfg entry.1 entry.2
  · rw [hsame]
    exact hcfg
  · rw [hset]
    exact length_setIngress hcfg entry.1 entry.2

theorem ingress_synthesize (cfg : EngineConfig D) :
    cfg.synthesizeIngressFromLegacy.ingress ≠ [] ∧
      (cfg.ingress ≠ [] → cfg.synthesizeIngressFromLegacy.ingress = cfg.ingress) := by
  unfold synthesizeIngressFromLegacy
  by_cases h : cfg.ingress ≠ []
  · rw [if_pos h]
    exact ⟨h, fun _ => rfl⟩
  · rw [if_neg h]
    exact ⟨List.cons_ne_nil _ _, fun hne => absurd hne h⟩

/-- What a loaded configuration keeps. -/
structure Safe (cfg : EngineConfig D) : Prop extends Bounded cfg where
  ordered : cfg.taMACD_fast ≤ cfg.taMACD_slow
  ingress : cfg.ingress ≠ []

theorem bounded_synthesize (h : cfg.Bounded) : cfg.synthesizeIngressFromLegacy.Bounded := by
  unfold synthesizeIngressFromLegacy
  exact h.ite { h with }

theorem bounded_orderMACD (h : cfg.Bounded) :
    cfg.orderMACD.Bounded ∧ cfg.orderMACD.taMACD_fast ≤ cfg.orderMACD.taMACD_slow := by
  unfold orderMACD
  split_ifs with horder
  · exact ⟨{ h with fast := h.slow, slow := h.fast }, horder.le⟩
  · exact ⟨h, not_lt.mp horder⟩

/-- The last correction changes no other setting. -/
theorem positiveStdK_eq (cfg : EngineConfig D) :
    ∃ stdK, cfg.positiveStdK = { cfg with taBBands_stdK := stdK } := by
  unfold positiveStdK
  dsimp only
  split_ifs
  · exact ⟨_, rfl⟩
  · exact ⟨cfg.taBBands_stdK, rfl⟩

/-- The corrections leave everything that the dispatcher does not read. -/
theorem loadFromFile_eq (atoi : List Char → ℤ) (cfg : EngineConfig D) (file : List Char) :
    ∃ config, (cfg.loadFromFile atoi (some file)).2 =
      { (cfg.readFile atoi file).synthesizeIngressFromLegacy with toConfig := config } := by
  obtain ⟨stdK, heq⟩ :=
    positiveStdK_eq (cfg.readFile atoi file).synthesizeIngressFromLegacy.orderMACD
  rw [loadFromFile, heq]
  unfold orderMACD
  split_ifs
  · exact ⟨_, rfl⟩
  · exact ⟨_, rfl⟩

theorem ingress_loadFromFile (cfg : EngineConfig D) (file : List Char) :
    (cfg.loadFromFile atoi (some file)).2.ingress =
      (cfg.readFile atoi file).synthesizeIngressFromLegacy.ingress := by
  obtain ⟨config, heq⟩ := loadFromFile_eq atoi cfg file
  rw [heq]

theorem safe_loadFromFile (h : cfg.Bounded) (file : List Char) :
    (cfg.loadFromFile atoi (some file)).2.Safe := by
  have hloop := bounded_synthesize (bounded_readFile atoi h file)
  obtain ⟨hbounded, hordered⟩ := bounded_orderMACD hloop
  have hingress : (cfg.loadFromFile atoi (some file)).2.ingress ≠ [] := by
    rw [ingress_loadFromFile]
    exact (ingress_synthesize _).1
  obtain ⟨stdK, heq⟩ :=
    positiveStdK_eq (cfg.readFile atoi file).synthesizeIngressFromLegacy.orderMACD
  rw [loadFromFile, heq] at hingress ⊢
  exact { hbounded with ordered := hordered, ingress := hingress }

/-- The indicators may be computed with a loaded configuration. -/
theorem Safe.loaded (h : cfg.Safe) : MarketTA.Loaded cfg.toConfig where
  bbands := h.bbands
  rsi := h.rsi
  fast := h.fast
  ordered := h.ordered
  signal := h.signal
  momentum := h.momentum
  atr := h.atr
  volAvg := h.volAvg

/-- Loading a file into a new configuration, whatever `atoi` returns on numbers that are no `int`.
`keyed` are the entries of `ingress.*` keys. -/
theorem loaded_configs_are_safe (atoi : List Char → ℤ) (file : List Char) :
    let keyed := (readFile atoi ({} : EngineConfig D) file).ingress
    let result := loadFromFile atoi ({} : EngineConfig D) (some file)
    result.1 = true ∧ result.2.Safe ∧
      keyed.length ≤ 64 ∧ (keyed ≠ [] → result.2.ingress = keyed) ∧
      ('\x00' ∉ file → loadFromFile atoi {} (some (withoutLongLines file)) = result) := by
  refine ⟨rfl, safe_loadFromFile bounded_default file, ?_, ?_, ?_⟩
  · have hnone : ({} : EngineConfig D).ingress.length ≤ 64 := Nat.zero_le 64
    exact length_ingress_readFile hnone file
  · intro hkeyed
    rw [ingress_loadFromFile]
    exact (ingress_synthesize _).2 hkeyed
  · intro hnul
    rw [loadFromFile, readFile, entries_withoutLongLines hnul]
    rfl

end GmaEngine.EngineConfig
