import GmaEngine.StoredTickKeys
import GmaEngine.TickKeys

/-!
# The lightweight path of the tick computer

With the TA suite switched off the computer keeps the same histories and writes a few metrics on
its own. Under their keys the store holds what the suite would have left there. The suite writes
the volume from the second tick on.
-/

namespace GmaEngine

namespace MarketTA
open BuiltinFunctions

section
variable {α β : Type} {xs ys : List (String × α)} {key : String}

/-- The last result of a name counts, and the later list has none. -/
theorem lookupKey_reverse_append (h : Names (· ≠ key) ys) :
    lookupKey (xs ++ ys).reverse key = lookupKey xs.reverse key := by
  have hnone : lookupKey ys.reverse key = none :=
    lookupKey_eq_none_iff.mpr (fun e he => h e (List.mem_reverse.mp he))
  rw [List.reverse_append, lookupKey_append, hnone, Option.none_or]

theorem lookupKey_reverse_map (f : α → β) :
    lookupKey (xs.map (fun e => (e.1, f e.2))).reverse key = (lookupKey xs.reverse key).map f := by
  rw [← List.map_reverse]
  induction xs.reverse with
  | nil => rfl
  | cons x xs ih =>
    rw [List.map_cons, lookupKey_cons, lookupKey_cons, ih]
    split_ifs <;> rfl

end

variable {D : Type} [DoubleMath D]

def priceKeys : List String := ["lastPrice", "openPrice", "highPrice", "lowPrice"]

theorem periodKey_ne {key : String} (h : '_' ∉ key.toList) (name : String) (p : ℤ) :
    periodKey name p ≠ key := by
  rintro rfl
  exact h (underscore_mem_periodKey name p)

variable {cfg : Config D} {hist : List (TickEntry D)} {e : TickEntry D} {key : String}

/-- No indicator stands under the key of a price. -/
theorem lookupKey_allAtomicValues (hvalid : invalidConfig cfg = false) (hne : hist ≠ [])
    (hkey : key ∈ priceKeys) :
    lookupKey (allAtomicValues cfg hist).reverse key = lookupKey (basePrices hist).reverse key := by
  have hplain : ∀ k ∈ priceKeys, (∀ name ∈ indicatorNames, name ≠ k) ∧ '_' ∉ k.toList := by decide
  have hempty : hist.isEmpty = false := by simpa using hne
  rw [allAtomicValues, hempty, hvalid, Bool.or_false, if_neg Bool.false_ne_true]
  split_ifs
  · rfl
  · exact lookupKey_reverse_append (names_indicators (hplain key hkey).1
      (fun name _ => periodKey_ne (hplain key hkey).2 name) cfg hist)

/-- The suite gives the volume with the other indicators. -/
theorem lookupKey_volume (hvalid : invalidConfig cfg = false) (hlast : hist.getLast? = some e)
    (hlong : 2 ≤ hist.length) :
    lookupKey (allAtomicValues cfg hist).reverse "volume" = some e.volume := by
  have hempty : hist.isEmpty = false := by
    rw [List.isEmpty_eq_false_iff]
    rintro rfl
    cases hlast
  have hperiod : ∀ name p, periodKey name p ≠ "volume" := periodKey_ne (by decide)
  rw [allAtomicValues, hempty, hvalid, Bool.or_false, if_neg Bool.false_ne_true,
    if_neg (by omega), indicators, ← List.append_assoc, lookupKey_reverse_append,
    ← List.append_assoc, lookupKey_reverse_append, ← List.append_assoc, lookupKey_reverse_append,
    ← List.append_assoc, List.reverse_append, lookupKey_append, hlast]
  · rfl
  · exact Names.ite (by simp [hperiod]) _
  · simp
  · exact Names.ite (by simp) _

/-- On both paths there is a value under each of the keys, and it is the same. -/
theorem lookupKey_lightweightValues (hvalid : invalidConfig cfg = false)
    (hlast : hist.getLast? = some e)
    (hkey : key ∈ priceKeys ∨ key = "volume" ∧ 2 ≤ hist.length) :
    ∃ value, lookupKey (lightweightValues hist e.price e.volume).reverse key = some value ∧
      lookupKey (allAtomicValues cfg hist).reverse key = some value := by
  have hne : hist ≠ [] := by
    rintro rfl
    cases hlast
  have hempty : hist.isEmpty = false := by simpa using hne
  have hprice : (hist.map TickEntry.price).getLast?.getD zero = e.price := by simp [hlast]
  rcases hkey with hkey | ⟨rfl, hlong⟩
  · rw [lookupKey_allAtomicValues hvalid hne hkey, lightweightValues, hempty,
      if_neg Bool.false_ne_true]
    simp only [priceKeys, List.mem_cons, List.not_mem_nil, or_false] at hkey
    rcases hkey with rfl | rfl | rfl | rfl
    · exact ⟨_, rfl, congrArg some hprice⟩
    · exact ⟨_, rfl, rfl⟩
    · exact ⟨_, rfl, rfl⟩
    · exact ⟨_, rfl, rfl⟩
  · rw [lookupKey_volume hvalid hlast hlong, lightweightValues, hempty, if_neg Bool.false_ne_true]
    exact ⟨_, rfl, rfl⟩

end MarketTA

namespace AtomicStore
variable {D : Type} {symbol streamKey : String}

theorem get_setBatch_of_ne (h : symbol ≠ streamKey) (s : AtomicStore D)
    (fields : List (String × ArgType D)) (key : String) :
    (s.setBatch streamKey fields).get symbol key = s.get symbol key := by
  rcases setBatch_cases s streamKey fields with ⟨-, -, heq⟩ | heq
  · rw [heq]
  · rw [heq]
    simp only [get, lookupKey_assignKey, if_neg h]

theorem get_foldl_set_of_ne (h : symbol ≠ streamKey) (writes : List (String × ArgType D))
    (s : AtomicStore D) (key : String) :
    (writes.foldl (fun s w => s.set streamKey w.1 w.2) s).get symbol key = s.get symbol key := by
  induction writes generalizing s with
  | nil => rfl
  | cons w writes ih =>
    rw [List.foldl_cons, ih, set_eq_setBatch, get_setBatch_of_ne h]

end AtomicStore

namespace MarketTickComputer
open MarketTA
variable {D : Type} [DoubleMath D]

def withTA (c : MarketTickComputer D) (enabled : Bool) : MarketTickComputer D :=
  { c with fieldMap := { c.fieldMap with taEnabled := enabled } }

theorem lookupKey_writes {c : MarketTickComputer D} (hvalid : invalidConfig c.cfg = false)
    {hist : List (TickEntry D)} {e : TickEntry D} (hlast : hist.getLast? = some e) {key : String}
    (hkey : key ∈ priceKeys ∨ key = "volume" ∧ 2 ≤ hist.length) :
    ∃ value, ∀ enabled, lookupKey ((c.withTA enabled).writes hist e).reverse key = some value := by
  obtain ⟨value, hlight, hfull⟩ := lookupKey_lightweightValues hvalid hlast hkey
  refine ⟨.double value, fun enabled => ?_⟩
  have hresults : lookupKey ((c.withTA enabled).taResults hist e).reverse key = some value := by
    cases enabled with
    | false => exact hlight
    | true => exact hfull
  rw [writes, List.reverse_append, lookupKey_append, lookupKey_reverse_map, hresults]
  rfl

/-- A tick leaves the other symbols alone, also when it is rejected. -/
theorem get_compute_of_ne (c : MarketTickComputer D) {tick : Event D} {symbol : String}
    (h : symbol ≠ tick.symbol) (store : AtomicStore D) (key : String) :
    (c.compute tick store).2.1.get symbol key = store.get symbol key := by
  unfold compute
  split
  · rfl
  · next price _ =>
    have hquotes := AtomicStore.get_foldl_set_of_ne h (quoteValues (c.entry tick price)) store key
    dsimp only
    split_ifs
    · exact hquotes
    · exact hquotes
    · exact (AtomicStore.get_setBatch_of_ne h _ _ key).trans hquotes

end MarketTickComputer

namespace Dispatcher
open MarketTA
variable {D : Type} [DoubleMath D] {d : Dispatcher D} {c : MarketTickComputer D}
  {tick : Event D} {symbol key : String}

theorem get_syntheticCompute (tick : Event D) (hkey : key ≠ "synthetic.sin" ∧ key ≠ "synthetic.cos")
    (store : AtomicStore D) : (syntheticCompute tick store).get symbol key =
      store.get symbol key := by
  unfold syntheticCompute
  split
  · rfl
  · rw [AtomicStore.set_eq_setBatch, AtomicStore.set_eq_setBatch,
      AtomicStore.get_setBatch_of_notMem (by simpa using hkey.2),
      AtomicStore.get_setBatch_of_notMem (by simpa using hkey.1)]

/-- An operation without an entry for a symbol leaves what the computer wrote for it. -/
theorem get_exec_of_not_accepted (hcomputer : d.tickComputers = [c]) {op : DispatcherOp D}
    (hop : op.accepted c symbol = none) (hunnamed : key ∉ d.functions.names)
    (hkey : key ≠ "synthetic.sin" ∧ key ≠ "synthetic.cos") :
    (d.exec op).1.store.get symbol key = d.store.get symbol key := by
  cases op with
  | registerListener s f node => rfl
  | unregisterListener s f node => rfl
  | onTick tick =>
    cases hsymbol : tick.symbol.isEmpty with
    | true => simp [exec, onTick, hsymbol]
    | false =>
      have hnames : key ∉ (d.compute tick).1.functions.names := by
        rwa [(sameSetup_compute d tick).functions]
      have hafter : (d.exec (.onTick tick)).1.store.get symbol key =
          (d.compute tick).1.store.get symbol key := by
        rw [exec, fst_onTick hsymbol, get_notifyAll (.inl hnames)]
      rw [hafter]
      by_cases htype : tick.type = "tick"
      · rw [compute_tick hcomputer htype]
        by_cases hself : tick.symbol = symbol
        · rw [DispatcherOp.accepted, if_pos hself] at hop
          rw [MarketTickComputer.compute_of_not_accepts htype hsymbol hop]
        · exact c.get_compute_of_ne (Ne.symm hself) d.store key
      · rw [compute, if_neg htype]
        split_ifs
        · exact Function.Iterate.rec
            (fun store : AtomicStore D => store.get symbol key = d.store.get symbol key)
            rfl (fun store h => (get_syntheticCompute tick hkey store).trans h) d.syntheticComputers
        · rfl

theorem functions_after (d : Dispatcher D) (ops : List (DispatcherOp D)) :
    (d.after ops).functions = d.functions := by
  induction ops using List.reverseRecOn with
  | nil => rfl
  | append_singleton ops op ih =>
    rw [after_append, after_singleton, ← ih]
    cases op with
    | registerListener s f node => rfl
    | unregisterListener s f node => rfl
    | onTick tick => exact (sameSetup_onTick (d.after ops) tick).functions

/-- The dispatcher with one tick computer, on one of the two paths. -/
def onPath (d : Dispatcher D) (c : MarketTickComputer D) (taEnabled : Bool) : Dispatcher D :=
  { d with tickComputers := [c.withTA taEnabled] }

variable {ops : List (DispatcherOp D)} {op : DispatcherOp D}

/-- What the store holds after a tick that the computer takes. -/
theorem get_onPath (hnew : c.symbolHistories = [])
    (hcard : (c.acceptedSymbols (ops ++ [.onTick tick])).card ≤ c.maxSymbols) {taEnabled : Bool}
    (hcaps : ((d.onPath c taEnabled).after (ops ++ [.onTick tick])).store.BelowCaps)
    (hunnamed : key ∉ d.functions.names) {e : TickEntry D} (haccepts : c.accepts tick = some e)
    {hist : List (TickEntry D)}
    (hhist : hist = (c.entriesOf tick.symbol (ops ++ [.onTick tick])).rtake c.maxHistory)
    {value : ArgType D}
    (hvalue : lookupKey ((c.withTA taEnabled).writes hist e).reverse key = some value) :
    ((d.onPath c taEnabled).after (ops ++ [.onTick tick])).store.get tick.symbol key =
      some value := by
  obtain ⟨c', hc', htracks⟩ := tracks_after (d := d.onPath c taEnabled) rfl hnew hcard
    (List.prefix_append ops [DispatcherOp.onTick tick])
  have hmem : tick.symbol ∈ (c.withTA taEnabled).acceptedSymbols (ops ++ [.onTick tick]) := by
    apply List.mem_toFinset.mpr
    refine List.mem_filterMap.mpr ⟨.onTick tick, by simp, ?_⟩
    exact congrArg (Option.map (fun _ => tick.symbol)) haccepts
  have haccepts' : c'.accepts tick = some e := (htracks.accepts_eq tick).trans haccepts
  have hextended : c'.extended tick.symbol e = hist :=
    (htracks.extended_eq haccepts).trans hhist.symm
  rw [← htracks.writes_eq, ← hextended] at hvalue
  have hkey : key ∈ (c'.writes (c'.extended tick.symbol e) e).map Prod.fst := by
    have hreverse : key ∈ (c'.writes (c'.extended tick.symbol e) e).reverse.map Prod.fst := by
      rw [mem_keys_iff, hvalue]
      rfl
    rwa [List.map_reverse, List.mem_reverse] at hreverse
  have hnames : key ∉ ((d.onPath c taEnabled).after ops).functions.names := by
    rwa [functions_after]
  rw [after_append, after_singleton] at hcaps ⊢
  rw [exec, get_onTick hc' haccepts' (htracks.admits hmem hcard) hcaps hkey (.inl hnames), hvalue]

theorem get_onPath_of_not_accepted (hnew : c.symbolHistories = [])
    (hcard : (c.acceptedSymbols (ops ++ [op])).card ≤ c.maxSymbols) (taEnabled : Bool)
    (hop : op.accepted c symbol = none) (hunnamed : key ∉ d.functions.names)
    (hkey : key ≠ "synthetic.sin" ∧ key ≠ "synthetic.cos") :
    ((d.onPath c taEnabled).after (ops ++ [op])).store.get symbol key =
      ((d.onPath c taEnabled).after ops).store.get symbol key := by
  obtain ⟨c', hc', htracks⟩ := tracks_after (d := d.onPath c taEnabled) rfl hnew hcard
    (List.prefix_append ops [op])
  have hop' : op.accepted c' symbol = none := by
    cases op with
    | registerListener s f node => rfl
    | unregisterListener s f node => rfl
    | onTick tick =>
      rw [DispatcherOp.accepted] at hop ⊢
      rw [htracks.accepts_eq]
      exact hop
  rw [after_append, after_singleton]
  exact get_exec_of_not_accepted hc' hop' (by rwa [functions_after]) hkey

theorem stored_agrees (hnew : c.symbolHistories = []) (hvalid : invalidConfig c.cfg = false)
    (hcard : (c.acceptedSymbols ops).card ≤ c.maxSymbols)
    (hcaps : ∀ taEnabled pre, pre <+: ops → ((d.onPath c taEnabled).after pre).store.BelowCaps)
    (hunnamed : key ∉ d.functions.names)
    (hkey : key ∈ priceKeys ∨
      key = "volume" ∧ 2 ≤ c.maxHistory ∧ 2 ≤ (c.entriesOf symbol ops).length) :
    ((d.onPath c false).after ops).store.get symbol key =
      ((d.onPath c true).after ops).store.get symbol key := by
  induction ops using List.reverseRecOn with
  | nil => rfl
  | append_singleton ops op ih =>
    have hentries : c.entriesOf symbol (ops ++ [op]) =
        c.entriesOf symbol ops ++ (op.accepted c symbol).toList := by
      rw [MarketTickComputer.entriesOf, List.filterMap_append]
      cases h : op.accepted c symbol <;> simp [MarketTickComputer.entriesOf, h]
    cases haccepted : op.accepted c symbol with
    | none =>
      have hpre : ops <+: ops ++ [op] := List.prefix_append ops [op]
      have hsubset : c.acceptedSymbols ops ⊆ c.acceptedSymbols (ops ++ [op]) := by
        intro s hs
        rw [MarketTickComputer.acceptedSymbols, List.filterMap_append, List.toFinset_append]
        exact Finset.mem_union_left _ hs
      have hother : key ≠ "synthetic.sin" ∧ key ≠ "synthetic.cos" := by
        have hprice : ∀ k ∈ priceKeys, k ≠ "synthetic.sin" ∧ k ≠ "synthetic.cos" := by decide
        rcases hkey with hkey | ⟨rfl, -⟩
        · exact hprice key hkey
        · decide
      rw [haccepted, Option.toList_none, List.append_nil] at hentries
      rw [hentries] at hkey
      rw [get_onPath_of_not_accepted hnew hcard false haccepted hunnamed hother,
        get_onPath_of_not_accepted hnew hcard true haccepted hunnamed hother]
      exact ih ((Finset.card_le_card hsubset).trans hcard)
        (fun taEnabled pre h => hcaps taEnabled pre (h.trans hpre)) hkey
    | some e =>
      cases op with
      | registerListener s f node => cases haccepted
      | unregisterListener s f node => cases haccepted
      | onTick tick =>
        rw [haccepted, Option.toList_some] at hentries
        rw [DispatcherOp.accepted, Option.ite_none_right_eq_some] at haccepted
        obtain ⟨rfl, haccepts⟩ := haccepted
        have hpos : 0 < c.maxHistory := c.maxHistory_pos
        obtain ⟨hist, hhist⟩ : ∃ hist, hist =
          (c.entriesOf tick.symbol (ops ++ [.onTick tick])).rtake c.maxHistory := ⟨_, rfl⟩
        have hlast : hist.getLast? = some e := by
          rw [hhist, List.rtake, List.getLast?_drop, if_neg (by simp [hentries]; omega), hentries,
            List.getLast?_concat]
        have hlong : key ∈ priceKeys ∨ key = "volume" ∧ 2 ≤ hist.length := by
          refine hkey.imp_right (fun h => ⟨h.1, ?_⟩)
          rw [hhist, SlidingHistory.length_rtake]
          exact le_min h.2.1 h.2.2
        obtain ⟨value, hvalue⟩ := MarketTickComputer.lookupKey_writes hvalid hlast hlong
        have hstored : ∀ taEnabled, ((d.onPath c taEnabled).after
            (ops ++ [.onTick tick])).store.get tick.symbol key = some value := fun taEnabled =>
          get_onPath hnew hcard (hcaps taEnabled _ (List.prefix_refl _)) hunnamed haccepts hhist
            (hvalue taEnabled)
        rw [hstored, hstored]

/-- On both paths the computer keeps the same histories and the store has the same prices of every
symbol at all times, and the same volume from the second tick on if two ticks are kept. -/
theorem lightweight_agrees (hnew : c.symbolHistories = []) (hvalid : invalidConfig c.cfg = false)
    (hcard : (c.acceptedSymbols ops).card ≤ c.maxSymbols)
    (hcaps : ∀ taEnabled pre, pre <+: ops → ((d.onPath c taEnabled).after pre).store.BelowCaps) :
    (∃ light suite, ((d.onPath c false).after ops).tickComputers = [light] ∧
      ((d.onPath c true).after ops).tickComputers = [suite] ∧
      ∀ symbol, light.history symbol = suite.history symbol) ∧
    ∀ symbol key, key ∉ d.functions.names →
      (key ∈ priceKeys ∨
        key = "volume" ∧ 2 ≤ c.maxHistory ∧ 2 ≤ (c.entriesOf symbol ops).length) →
      ((d.onPath c false).after ops).store.get symbol key =
        ((d.onPath c true).after ops).store.get symbol key := by
  constructor
  · obtain ⟨light, hlight, htracks⟩ := tracks_after (d := d.onPath c false) rfl hnew hcard
      (List.prefix_refl ops)
    obtain ⟨suite, hsuite, htracks'⟩ := tracks_after (d := d.onPath c true) rfl hnew hcard
      (List.prefix_refl ops)
    refine ⟨light, suite, hlight, hsuite, fun symbol => ?_⟩
    exact (htracks.history symbol).trans (htracks'.history symbol).symm
  · intro symbol key hunnamed hkey
    exact stored_agrees hnew hvalid hcard hcaps hunnamed hkey

theorem lightweight_agrees_twoTicks :
    ((oneVolume.onPath volumeComputer false).after twoTicks).store.get "AAPL" "highPrice" =
        ((oneVolume.onPath volumeComputer true).after twoTicks).store.get "AAPL" "highPrice" ∧
      ((oneVolume.onPath volumeComputer false).after twoTicks).store.get "AAPL" "volume" =
        ((oneVolume.onPath volumeComputer true).after twoTicks).store.get "AAPL" "volume" := by
  have hcaps : ∀ taEnabled pre, pre <+: twoTicks →
      ((oneVolume.onPath volumeComputer taEnabled).after pre).store.BelowCaps := by
    intro taEnabled pre hpre
    rw [← List.mem_inits] at hpre
    simp only [twoTicks, List.inits, List.map_cons, List.map_nil, List.mem_cons, List.not_mem_nil,
      or_false] at hpre
    cases taEnabled <;> rcases hpre with rfl | rfl | rfl <;>
      exact AtomicStore.belowCaps_of_unlimited (by decide +kernel) (by decide +kernel)
  have hcard : (volumeComputer.acceptedSymbols twoTicks).card ≤ volumeComputer.maxSymbols := by
    decide +kernel
  have hagrees := (lightweight_agrees rfl (by decide) hcard hcaps).2 "AAPL"
  constructor
  · exact hagrees "highPrice" (by decide +kernel) (.inl (by decide))
  · refine hagrees "volume" (by decide +kernel) (.inr ⟨rfl, by decide +kernel, ?_⟩)
    decide +kernel

end Dispatcher
end GmaEngine
