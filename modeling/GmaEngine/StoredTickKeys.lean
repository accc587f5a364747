import GmaEngine.DispatcherHistory

/-!
# The keys of the tick computer in the store

The computer and the registered functions write into the same fields of a symbol, the computer
first. What the computer wrote for a tick survives the tick under every key that is not the
name of a function, and under every key when no listened field is carried.
-/

namespace GmaEngine

namespace MarketTickComputer
variable {D : Type} [DoubleMath D]

/-- What a tick that the computer takes adds to the history of its symbol. -/
def accepts (c : MarketTickComputer D) (tick : Event D) : Option (TickEntry D) :=
  if tick.type = "tick" ∧ tick.symbol.isEmpty = false then
    (extract c.fieldMap.priceFields tick).map (c.entry tick)
  else none

/-- All that the computer writes for a tick, given the history that the tick ends. -/
def writes (c : MarketTickComputer D) (hist : List (TickEntry D)) (e : TickEntry D) :
    List (String × ArgType D) :=
  quoteValues e ++ (c.taResults hist e).map (fun r => (r.1, .double r.2))

def history (c : MarketTickComputer D) (symbol : String) : List (TickEntry D) :=
  (lookupKey c.symbolHistories symbol).getD []

/-- The history that a new entry ends. -/
def extended (c : MarketTickComputer D) (symbol : String) (e : TickEntry D) : List (TickEntry D) :=
  SlidingHistory.push c.maxHistory (c.history symbol) e

/-- The symbol has a history, or there is room for it. -/
def admits (c : MarketTickComputer D) (symbol : String) : Prop :=
  ((lookupKey c.symbolHistories symbol).isNone &&
    decide (c.maxSymbols ≤ c.symbolHistories.length)) = false

instance (c : MarketTickComputer D) (symbol : String) : Decidable (c.admits symbol) :=
  inferInstanceAs (Decidable (_ = false))

theorem accepts_eq_some {c : MarketTickComputer D} {tick : Event D} {e : TickEntry D}
    (h : c.accepts tick = some e) : tick.type = "tick" ∧ tick.symbol.isEmpty = false ∧
      ∃ price, extract c.fieldMap.priceFields tick = some price ∧ c.entry tick price = e := by
  unfold accepts at h
  split_ifs at h with htick
  exact ⟨htick.1, htick.2, Option.map_eq_some_iff.mp h⟩

theorem fst_compute {c : MarketTickComputer D} {tick : Event D} {e : TickEntry D}
    (h : c.accepts tick = some e) (hadmits : c.admits tick.symbol) (store : AtomicStore D) :
    (c.compute tick store).1 = { c with
      symbolHistories := assignKey c.symbolHistories tick.symbol (c.extended tick.symbol e) } := by
  obtain ⟨-, -, price, hprice, rfl⟩ := accepts_eq_some h
  unfold admits at hadmits
  simp only [compute, hprice, hadmits, Bool.false_eq_true, if_false]
  rfl

/-- The writes of a tick are one batch. -/
theorem store_compute {c : MarketTickComputer D} {tick : Event D} {e : TickEntry D}
    (h : c.accepts tick = some e) (hadmits : c.admits tick.symbol) (store : AtomicStore D)
    (hne : c.writes (c.extended tick.symbol e) e ≠ []) :
    (c.compute tick store).2.1 =
      store.setBatch tick.symbol (c.writes (c.extended tick.symbol e) e) := by
  obtain ⟨-, -, price, hprice, rfl⟩ := accepts_eq_some h
  unfold admits at hadmits
  simp only [compute, hprice, hadmits, Bool.false_eq_true, if_false]
  change (if (c.taResults (c.extended tick.symbol (c.entry tick price))
    (c.entry tick price)).isEmpty then _ else _) = _
  split_ifs with hempty
  · rw [List.isEmpty_iff] at hempty
    simp only [writes, hempty, List.map_nil, List.append_nil] at hne ⊢
    exact AtomicStore.foldl_set hne
  · exact AtomicStore.foldl_set_setBatch

theorem compute_of_not_accepts {c : MarketTickComputer D} {tick : Event D}
    (htype : tick.type = "tick") (hsymbol : tick.symbol.isEmpty = false)
    (h : c.accepts tick = none) (store : AtomicStore D) : c.compute tick store = (c, store, []) := by
  rw [accepts, if_pos ⟨htype, hsymbol⟩, Option.map_eq_none_iff] at h
  simp only [compute, h]

end MarketTickComputer

namespace Dispatcher
variable {D : Type}

section Functions
variable {d : Dispatcher D}

theorem fst_mem_names_of_mem_results {hist : List D} {r : String × D} (h : r ∈ d.results hist) :
    r.1 ∈ d.functions.names := by
  obtain ⟨fn, hfn, hr⟩ := List.mem_filterMap.mp h
  obtain ⟨value, -, rfl⟩ := Option.map_eq_some_iff.mp hr
  exact List.mem_map_of_mem hfn

theorem get_foldl_set_of_notMem {results : List (String × D)} {symbol key : String}
    (h : key ∉ results.map Prod.fst) (store : AtomicStore D) (s : String) :
    (results.foldl (fun s r => s.set symbol r.1 (.double r.2)) store).get s key =
      store.get s key := by
  induction results generalizing store with
  | nil => rfl
  | cons r results ih =>
    rw [List.map_cons, List.mem_cons, not_or] at h
    rw [List.foldl_cons, ih h.2, AtomicStore.set_eq_setBatch, AtomicStore.get_setBatch_of_notMem]
    simpa using h.1

theorem belowCaps_of_foldl_set {results : List (String × D)} {symbol : String}
    {store : AtomicStore D}
    (h : (results.foldl (fun s r => s.set symbol r.1 (.double r.2)) store).BelowCaps) :
    store.BelowCaps := by
  induction results generalizing store with
  | nil => exact h
  | cons r results ih =>
    have hset : (store.set symbol r.1 (.double r.2)).BelowCaps := ih h
    rw [AtomicStore.set_eq_setBatch] at hset
    exact hset.of_setBatch

end Functions

section Double
variable [Double D] {tick : Event D}

theorem tickComputers_notifyAll (pairs : List (String × NodeId)) (d : Dispatcher D) :
    (notifyAll tick d pairs).1.tickComputers = d.tickComputers := by
  induction pairs generalizing d with
  | nil => rfl
  | cons pair pairs ih =>
    have hpair : (notify tick d pair).1.tickComputers = d.tickComputers := by
      rcases notify_cases tick d pair with ⟨-, h⟩ | ⟨raw, hist, -, -, -, h⟩ <;> rw [h]
      rfl
    exact (ih _).trans hpair

theorem belowCaps_of_notifyAll {pairs : List (String × NodeId)} {d : Dispatcher D}
    (h : (notifyAll tick d pairs).1.store.BelowCaps) : d.store.BelowCaps := by
  induction pairs generalizing d with
  | nil => exact h
  | cons pair pairs ih =>
    have hpair := ih h
    rcases notify_cases tick d pair with ⟨-, heq⟩ | ⟨raw, hist, -, -, -, heq⟩
    · rwa [heq] at hpair
    · rw [heq] at hpair
      exact belowCaps_of_foldl_set hpair

/-- The functions write only under their names, and only for a field that is carried. -/
theorem get_notifyAll {pairs : List (String × NodeId)} {d : Dispatcher D} {key : String}
    (h : key ∉ d.functions.names ∨ ∀ pair ∈ pairs, tick.number pair.1 = none) (s : String) :
    (notifyAll tick d pairs).1.store.get s key = d.store.get s key := by
  induction pairs generalizing d with
  | nil => rfl
  | cons pair pairs ih =>
    have hfunctions := (sameSetup_notify tick d pair).functions
    have hrest : key ∉ (notify tick d pair).1.functions.names ∨
        ∀ p ∈ pairs, tick.number p.1 = none := by
      rw [hfunctions]
      exact h.imp_right (fun hall p hp => hall p (List.mem_cons_of_mem _ hp))
    refine (ih hrest).trans ?_
    rcases notify_cases tick d pair with ⟨-, heq⟩ | ⟨raw, hist, hraw, -, -, heq⟩
    · rw [heq]
    · rw [heq]
      rcases h with hname | hall
      · apply get_foldl_set_of_notMem
        intro hmem
        obtain ⟨r, hr, rfl⟩ := List.mem_map.mp hmem
        exact hname (fst_mem_names_of_mem_results (d := d) hr)
      · rw [hall pair List.mem_cons_self] at hraw
        cases hraw

end Double

section Tick
variable [DoubleMath D] {d : Dispatcher D} {c : MarketTickComputer D} {tick : Event D}

theorem compute_tick (hcomputer : d.tickComputers = [c]) (htype : tick.type = "tick") :
    (d.compute tick).1 = { d with
      tickComputers := [(c.compute tick d.store).1], store := (c.compute tick d.store).2.1 } := by
  rw [compute, if_pos htype]
  simp [hcomputer, runTickComputers]

theorem tickComputers_onTick (hcomputer : d.tickComputers = [c]) (htype : tick.type = "tick")
    (hsymbol : tick.symbol.isEmpty = false) :
    (d.onTick tick).1.tickComputers = [(c.compute tick d.store).1] := by
  rw [fst_onTick hsymbol, tickComputers_notifyAll, compute_tick hcomputer htype]

/-- Under which keys the computer's writes of a tick are found after it. -/
theorem get_onTick {e : TickEntry D} {key : String} (hcomputer : d.tickComputers = [c])
    (haccepts : c.accepts tick = some e) (hadmits : c.admits tick.symbol)
    (hcaps : (d.onTick tick).1.store.BelowCaps)
    (hkey : key ∈ (c.writes (c.extended tick.symbol e) e).map Prod.fst)
    (hkept : key ∉ d.functions.names ∨
      ∀ field ∈ (d.listeners tick.symbol).fields, tick.number field = none) :
    (d.onTick tick).1.store.get tick.symbol key =
      lookupKey (c.writes (c.extended tick.symbol e) e).reverse key := by
  obtain ⟨htype, hsymbol, -⟩ := MarketTickComputer.accepts_eq_some haccepts
  have hne : c.writes (c.extended tick.symbol e) e ≠ [] := by
    intro hnil
    rw [hnil] at hkey
    cases hkey
  have hstore : (d.compute tick).1.store =
      d.store.setBatch tick.symbol (c.writes (c.extended tick.symbol e) e) := by
    rw [compute_tick hcomputer htype]
    exact MarketTickComputer.store_compute haccepts hadmits d.store hne
  rw [fst_onTick hsymbol] at hcaps ⊢
  rw [get_notifyAll]
  · have hbelow := belowCaps_of_notifyAll hcaps
    rw [hstore] at hbelow ⊢
    rw [AtomicStore.get_setBatch hbelow]
    obtain ⟨write, hwrite, hfst⟩ := List.mem_map.mp hkey
    cases hlook : lookupKey (c.writes (c.extended tick.symbol e) e).reverse key with
    | none => exact absurd hfst (lookupKey_eq_none_iff.mp hlook write (List.mem_reverse.mpr hwrite))
    | some value => rfl
  · rw [(sameSetup_compute d tick).functions]
    exact hkept.imp_right (fun hnone pair hpair => hnone _ (mem_toNotify hpair))

end Tick
end Dispatcher

namespace DispatcherOp
variable {D : Type} [DoubleMath D]

/-- The entry that an operation adds to the computer's history of a symbol. -/
def accepted (c : MarketTickComputer D) (symbol : String) : DispatcherOp D → Option (TickEntry D)
  | onTick tick => if tick.symbol = symbol then c.accepts tick else none
  | _ => none

def acceptedSymbol (c : MarketTickComputer D) : DispatcherOp D → Option String
  | onTick tick => (c.accepts tick).map (fun _ => tick.symbol)
  | _ => none

end DispatcherOp

namespace MarketTickComputer
variable {D : Type} [DoubleMath D]

/-- The entries of the accepted ticks of a symbol, in the order of the run. -/
def entriesOf (c : MarketTickComputer D) (symbol : String) (ops : List (DispatcherOp D)) :
    List (TickEntry D) :=
  ops.filterMap (DispatcherOp.accepted c symbol)

def acceptedSymbols (c : MarketTickComputer D) (ops : List (DispatcherOp D)) : Finset String :=
  (ops.filterMap (DispatcherOp.acceptedSymbol c)).toFinset

omit [DoubleMath D] in
theorem maxHistory_pos (c : MarketTickComputer D) : 0 < c.maxHistory := by
  unfold maxHistory
  omega

/-- The computer `c'` is `c` after a run: it holds the latest accepted ticks of each symbol. -/
structure Tracks (c : MarketTickComputer D) (symbols : Finset String)
    (ops : List (DispatcherOp D)) (c' : MarketTickComputer D) : Prop where
  cfg : c'.cfg = c.cfg
  fieldMap : c'.fieldMap = c.fieldMap
  nodup : (c'.symbolHistories.map Prod.fst).Nodup
  mem : ∀ s ∈ c'.symbolHistories.map Prod.fst, s ∈ symbols
  history : ∀ symbol, c'.history symbol = (c.entriesOf symbol ops).rtake c.maxHistory

section Tracks
variable {c c' : MarketTickComputer D} {symbols : Finset String} {ops : List (DispatcherOp D)}
  {tick : Event D}

theorem Tracks.accepts_eq (h : Tracks c symbols ops c') (tick : Event D) :
    c'.accepts tick = c.accepts tick := by
  unfold accepts
  rw [h.fieldMap]
  have hentry : c'.entry tick = c.entry tick := by
    funext price
    simp only [entry, timestamp, h.fieldMap]
  rw [hentry]

theorem Tracks.writes_eq (h : Tracks c symbols ops c') : c'.writes = c.writes := by
  funext hist e
  simp only [writes, taResults, h.fieldMap, h.cfg]

theorem Tracks.maxHistory_eq (h : Tracks c symbols ops c') : c'.maxHistory = c.maxHistory := by
  simp only [maxHistory, h.cfg]

theorem Tracks.admits (h : Tracks c symbols ops c') {symbol : String} (hmem : symbol ∈ symbols)
    (hcard : symbols.card ≤ c.maxSymbols) : c'.admits symbol := by
  have hmax : c'.maxSymbols = c.maxSymbols := by simp only [maxSymbols, h.cfg]
  rw [MarketTickComputer.admits, Bool.and_eq_false_iff, decide_eq_false_iff_not, hmax]
  cases hlook : lookupKey c'.symbolHistories symbol with
  | none =>
    have hlt := length_lt_of_lookupKey_none h.nodup h.mem hmem hlook
    exact .inr (by omega)
  | some _ => exact .inl rfl

theorem Tracks.extended_eq (h : Tracks c symbols ops c') {e : TickEntry D}
    (haccepts : c.accepts tick = some e) :
    c'.extended tick.symbol e =
      (c.entriesOf tick.symbol (ops ++ [.onTick tick])).rtake c.maxHistory := by
  rw [extended, h.maxHistory_eq, h.history, SlidingHistory.push_rtake c.maxHistory_pos, entriesOf,
    entriesOf, List.filterMap_append]
  simp [DispatcherOp.accepted, haccepts]

/-- An operation that the computer does not take. -/
theorem Tracks.skip (h : Tracks c symbols ops c') {op : DispatcherOp D}
    (hop : ∀ symbol, op.accepted c symbol = none) : Tracks c symbols (ops ++ [op]) c' := by
  refine ⟨h.cfg, h.fieldMap, h.nodup, h.mem, ?_⟩
  intro symbol
  rw [h.history, entriesOf, entriesOf, List.filterMap_append, List.filterMap_cons_none (hop symbol)]
  simp

theorem Tracks.compute (h : Tracks c symbols ops c') (hcard : symbols.card ≤ c.maxSymbols)
    {e : TickEntry D} (haccepts : c.accepts tick = some e) (hmem : tick.symbol ∈ symbols)
    (store : AtomicStore D) :
    Tracks c symbols (ops ++ [.onTick tick]) (c'.compute tick store).1 := by
  rw [fst_compute ((h.accepts_eq tick).trans haccepts) (h.admits hmem hcard)]
  refine ⟨h.cfg, h.fieldMap, nodup_assignKey h.nodup, ?_, ?_⟩
  · intro s hs
    rcases mem_keys_assignKey.mp hs with rfl | hs
    · exact hmem
    · exact h.mem s hs
  · intro symbol
    simp only [MarketTickComputer.history, lookupKey_assignKey]
    split_ifs with hsymbol
    · rw [hsymbol, Option.getD_some, h.extended_eq haccepts]
    · have hother : (DispatcherOp.onTick tick).accepted c symbol = none := by
        simp only [DispatcherOp.accepted]
        rw [if_neg (Ne.symm hsymbol)]
      have hsame := h.history symbol
      rw [MarketTickComputer.history] at hsame
      rw [hsame, entriesOf, entriesOf, List.filterMap_append, List.filterMap_cons_none hother]
      simp

end Tracks
end MarketTickComputer

namespace Dispatcher
variable {D : Type} [DoubleMath D] {d : Dispatcher D} {c : MarketTickComputer D}
  {ops : List (DispatcherOp D)}

theorem tracks_exec {c' : MarketTickComputer D} {symbols : Finset String} {op : DispatcherOp D}
    (hcard : symbols.card ≤ c.maxSymbols) (hcomputer : d.tickComputers = [c'])
    (h : c.Tracks symbols ops c') (hop : ∀ s, op.acceptedSymbol c = some s → s ∈ symbols) :
    ∃ c'', (d.exec op).1.tickComputers = [c''] ∧ c.Tracks symbols (ops ++ [op]) c'' := by
  cases op with
  | registerListener s f node => exact ⟨c', hcomputer, h.skip (fun _ => rfl)⟩
  | unregisterListener s f node => exact ⟨c', hcomputer, h.skip (fun _ => rfl)⟩
  | onTick tick =>
    by_cases htake : tick.type = "tick" ∧ tick.symbol.isEmpty = false
    · refine ⟨_, tickComputers_onTick hcomputer htake.1 htake.2, ?_⟩
      cases haccepts : c.accepts tick with
      | none =>
        rw [MarketTickComputer.compute_of_not_accepts htake.1 htake.2
          ((h.accepts_eq tick).trans haccepts)]
        exact h.skip (fun symbol => by simp [DispatcherOp.accepted, haccepts])
      | some e =>
        apply h.compute hcard haccepts
        exact hop _ (by simp [DispatcherOp.acceptedSymbol, haccepts])
    · have hnone : c.accepts tick = none := by rw [MarketTickComputer.accepts, if_neg htake]
      refine ⟨c', ?_, h.skip (fun symbol => by simp [DispatcherOp.accepted, hnone])⟩
      simp only [exec, onTick]
      split_ifs with hempty
      · exact hcomputer
      · rw [tickComputers_notifyAll, compute, if_neg (by simp_all)]
        split_ifs <;> exact hcomputer

/-- The computer's histories along a run. -/
theorem tracks_after (hcomputer : d.tickComputers = [c]) (hnew : c.symbolHistories = [])
    (hcard : (c.acceptedSymbols ops).card ≤ c.maxSymbols) {pre : List (DispatcherOp D)}
    (hpre : pre <+: ops) :
    ∃ c', (d.after pre).tickComputers = [c'] ∧ c.Tracks (c.acceptedSymbols ops) pre c' := by
  induction pre using List.reverseRecOn with
  | nil =>
    refine ⟨c, hcomputer, rfl, rfl, by simp [hnew], by simp [hnew], ?_⟩
    intro symbol
    simp [MarketTickComputer.history, MarketTickComputer.entriesOf, hnew]
  | append_singleton pre op ih =>
    obtain ⟨c', hc', htracks⟩ := ih ((List.prefix_append pre [op]).trans hpre)
    rw [after_append, after_singleton]
    apply tracks_exec hcard hc' htracks
    intro s hs
    apply List.mem_toFinset.mpr
    exact List.mem_filterMap.mpr ⟨op, hpre.subset (by simp), hs⟩

/-- Along every run the computer holds exactly the last accepted ticks of a symbol, and after
each of them the store has what the computer derived from these under every key it wrote that
is not the name of a registered function, and under all of them if the tick carries no number
for a field with a listener. -/
theorem stored_keys_after_tick (hcomputer : d.tickComputers = [c]) (hnew : c.symbolHistories = [])
    (hcard : (c.acceptedSymbols ops).card ≤ c.maxSymbols)
    (hcaps : ∀ pre, pre <+: ops → (d.after pre).store.BelowCaps)
    {pre : List (DispatcherOp D)} {tick : Event D} (hpre : pre ++ [.onTick tick] <+: ops)
    {e : TickEntry D} (haccepts : c.accepts tick = some e)
    {hist : List (TickEntry D)}
    (hhist : hist = (c.entriesOf tick.symbol (pre ++ [.onTick tick])).rtake c.maxHistory) :
    (∃ c', (d.after (pre ++ [.onTick tick])).tickComputers = [c'] ∧
      c'.history tick.symbol = hist) ∧
    ∀ key ∈ (c.writes hist e).map Prod.fst,
      (key ∉ (d.after pre).functions.names ∨
        ∀ field ∈ ((d.after pre).listeners tick.symbol).fields, tick.number field = none) →
      (d.after (pre ++ [.onTick tick])).store.get tick.symbol key =
        lookupKey (c.writes hist e).reverse key := by
  have hpre' := (List.prefix_append pre [DispatcherOp.onTick tick]).trans hpre
  constructor
  · obtain ⟨c', hc', htracks⟩ := tracks_after hcomputer hnew hcard hpre
    exact ⟨c', hc', (htracks.history _).trans hhist.symm⟩
  · obtain ⟨c', hc', htracks⟩ := tracks_after hcomputer hnew hcard hpre'
    have hmem : tick.symbol ∈ c.acceptedSymbols ops := by
      apply List.mem_toFinset.mpr
      refine List.mem_filterMap.mpr ⟨.onTick tick, hpre.subset (by simp), ?_⟩
      simp [DispatcherOp.acceptedSymbol, haccepts]
    have haccepts' := (htracks.accepts_eq tick).trans haccepts
    have hbelow := hcaps _ hpre
    rw [after_append, after_singleton] at hbelow ⊢
    intro key hkey hkept
    rw [hhist, ← htracks.extended_eq haccepts, ← htracks.writes_eq] at hkey ⊢
    exact get_onTick hc' haccepts' (htracks.admits hmem hcard) hbelow hkey hkept

/-- The default settings, the computer with its TA suite and one listener on AAPL's volume. -/
def oneVolume : Dispatcher ExactDouble :=
  let cfg : Config ExactDouble := { taBBands_stdK := .fin 2 }
  let d : Dispatcher ExactDouble :=
    { cfg := cfg
      functions := builtinFunctions ExactDouble
      tickComputers := [.create cfg {} (builtinFunctions ExactDouble)] }
  d.registerListener "AAPL" "volume" 0

def volumeComputer : MarketTickComputer ExactDouble :=
  .create { taBBands_stdK := .fin 2 } {} (builtinFunctions ExactDouble)

theorem belowCaps_oneVolume (tick : Event ExactDouble)
    (hkeys : (oneVolume.after [.onTick tick]).store.maxStreamKeys = 0)
    (hfields : (oneVolume.after [.onTick tick]).store.maxFieldsPerStreamKey = 0)
    (pre : List (DispatcherOp ExactDouble)) (hpre : pre <+: [.onTick tick]) :
    (oneVolume.after pre).store.BelowCaps := by
  rw [← List.mem_inits] at hpre
  simp only [List.inits, List.map_cons, List.map_nil, List.mem_cons, List.not_mem_nil,
    or_false] at hpre
  rcases hpre with rfl | rfl
  · exact AtomicStore.belowCaps_of_unlimited rfl rfl
  · exact AtomicStore.belowCaps_of_unlimited hkeys hfields

theorem stored_mean_of_priceTick :
    (oneVolume.after ([] ++ [.onTick (priceTick 42 (by decide))])).store.get "AAPL" "mean" =
      lookupKey (volumeComputer.writes [volumeComputer.entry (priceTick 42 (by decide)) (.fin 42)]
        (volumeComputer.entry (priceTick 42 (by decide)) (.fin 42))).reverse "mean" := by
  have hcaps := belowCaps_oneVolume (priceTick 42 (by decide)) (by decide +kernel)
    (by decide +kernel)
  refine (stored_keys_after_tick rfl rfl (by decide +kernel) hcaps (List.prefix_refl _) rfl rfl).2
    "mean" (by decide +kernel) (.inr ?_)
  have hnone : ∀ field ∈ (oneVolume.listeners "AAPL").fields,
      ((priceTick 42 (by decide)).number field).isNone := by decide +kernel
  intro field hfield
  exact Option.isNone_iff_eq_none.mp (hnone field hfield)

/-- A tick with price 42 and volume 100 leaves the mean of the volumes where the computer wrote
the mean of the prices. -/
theorem volume_mean_overwrites_price_mean :
    let tick : Event ExactDouble :=
      { symbol := "AAPL"
        payload := .object [("price", .int ⟨42, by decide, by decide⟩),
          ("volume", .int ⟨100, by decide, by decide⟩)] }
    let e := volumeComputer.entry tick (.fin 42)
    oneVolume.tickComputers = [volumeComputer] ∧ volumeComputer.fieldMap.taEnabled = true ∧
      volumeComputer.accepts tick = some e ∧
      (∀ pre, pre <+: [.onTick tick] → (oneVolume.after pre).store.BelowCaps) ∧
      (lookupKey (volumeComputer.writes [e] e).reverse "mean").map TreeBuilder.toDouble =
        some (.fin 42) ∧
      ((oneVolume.after [.onTick tick]).store.get "AAPL" "mean").map TreeBuilder.toDouble =
        some (.fin 100) :=
  ⟨rfl, rfl, rfl, belowCaps_oneVolume _ (by decide +kernel) (by decide +kernel), by decide +kernel,
    by decide +kernel⟩

end Dispatcher
end GmaEngine
