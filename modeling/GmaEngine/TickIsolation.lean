import GmaEngine.DispatcherHistory
import GmaEngine.LocalRuns
import GmaEngine.StoreCaps

/-!
# Ticks of different symbols

A tick reads and changes what the Dispatcher, its computers and the store keep for its own symbol.
Only the caps on the number of symbols look at the others, so while these leave room, the values
of a symbol and what its listeners receive depend on the operations about that symbol alone.
-/

namespace GmaEngine
open LocalRuns

section
variable {α : Type} {symbols : Finset String} {entries : List (String × α)} {s : String}

/-- An entry map whose keys are among these symbols. -/
structure KeysIn (symbols : Finset String) (entries : List (String × α)) : Prop where
  nodup : (entries.map Prod.fst).Nodup
  subset : ∀ s ∈ entries.map Prod.fst, s ∈ symbols

theorem KeysIn.empty : KeysIn symbols ([] : List (String × α)) :=
  ⟨List.nodup_nil, fun _ h => absurd h List.not_mem_nil⟩

theorem KeysIn.assignKey (h : KeysIn symbols entries) (hs : s ∈ symbols) (a : α) :
    KeysIn symbols (assignKey entries s a) := by
  refine ⟨nodup_assignKey h.nodup, fun j hj => ?_⟩
  rcases mem_keys_assignKey.mp hj with rfl | hj
  · exact hs
  · exact h.subset j hj

theorem KeysIn.room (h : KeysIn symbols entries) (hs : s ∈ symbols)
    (hnone : lookupKey entries s = none) : entries.length < symbols.card :=
  length_lt_of_lookupKey_none h.nodup h.subset hs hnone

end

/-- What the store keeps for a stream key. -/
structure StorePart (D : Type) where
  fields : Option (List (String × ArgType D))
  maxFieldsPerStreamKey : ℕ

namespace AtomicStore
variable {D ε : Type} {symbols : Finset String} {symbol : String} {owner : ε → String}

def part (s : AtomicStore D) (symbol : String) : StorePart D :=
  ⟨lookupKey s.data symbol, s.maxFieldsPerStreamKey⟩

/-- The store has room for these symbols and keeps no others. -/
structure Roomy (symbols : Finset String) (s : AtomicStore D) : Prop where
  keys : KeysIn symbols s.data
  room : 0 < s.maxStreamKeys → symbols.card ≤ s.maxStreamKeys

theorem Roomy.setBatch_eq {s : AtomicStore D} (h : s.Roomy symbols) (hs : symbol ∈ symbols)
    (fields : List (String × ArgType D)) : s.setBatch symbol fields =
      { s with data := assignKey s.data symbol (s.merged symbol fields) } := by
  rcases setBatch_cases s symbol fields with ⟨hnone, hfull, -⟩ | heq
  · have hlt := h.keys.room hs hnone
    have hroom : full s.maxStreamKeys s.data.length = false :=
      full_eq_false_iff.mpr (fun hcap => hlt.trans_le (h.room hcap))
    rw [hroom] at hfull
    cases hfull
  · exact heq

/-- A batch for a symbol stays with the symbol. -/
theorem local_setBatch (hs : symbol ∈ symbols) (fields : List (String × ArgType D)) :
    LocalWithin (Roomy symbols) part owner symbol
      (fun s : AtomicStore D => (s.setBatch symbol fields, [])) := by
  refine .intro ?_ ?_ ?_ ?_
  · intro s h
    rw [h.setBatch_eq hs]
    exact ⟨h.keys.assignKey hs _, h.room⟩
  · intro s h j hj
    rw [h.setBatch_eq hs, part, part, lookupKey_assignKey, if_neg hj]
  · intro s t h h' heq
    simp only [part, StorePart.mk.injEq] at heq
    rw [h.setBatch_eq hs, h'.setBatch_eq hs]
    simp only [part, lookupKey_assignKey, if_true, merged, heq.1, heq.2, and_self]
  · intro s h e he
    cases he

theorem local_foldl_set (hs : symbol ∈ symbols) (writes : List (String × ArgType D)) :
    LocalWithin (Roomy symbols) part owner symbol
      (fun s : AtomicStore D => (writes.foldl (fun s w => s.set symbol w.1 w.2) s, [])) := by
  induction writes with
  | nil => exact .skip
  | cons w writes ih => exact (local_setBatch hs [w]).andThen ih

end AtomicStore

/-- What a computer keeps for a symbol, with its settings. -/
structure ComputerPart (D : Type) where
  cfg : Config D
  fieldMap : MarketFieldMap
  skipFields : List String
  history : Option (List (TickEntry D))

namespace MarketTickComputer
open AtomicStore
variable {D : Type} [DoubleMath D] {symbols : Finset String} {tick : Event D}

omit [DoubleMath D] in
def part (c : MarketTickComputer D) (symbol : String) : ComputerPart D :=
  ⟨c.cfg, c.fieldMap, c.skipFields, lookupKey c.symbolHistories symbol⟩

/-- The computer has room for these symbols and keeps no others. -/
structure Roomy (symbols : Finset String) (c : MarketTickComputer D) : Prop where
  keys : KeysIn symbols c.symbolHistories
  room : symbols.card ≤ c.maxSymbols

/-- A computer and the store that it writes. -/
def RoomyPair (symbols : Finset String) (x : MarketTickComputer D × AtomicStore D) : Prop :=
  x.1.Roomy symbols ∧ x.2.Roomy symbols

def pairPart (x : MarketTickComputer D × AtomicStore D) (symbol : String) :
    ComputerPart D × StorePart D :=
  (x.1.part symbol, x.2.part symbol)

def computePair (tick : Event D) (x : MarketTickComputer D × AtomicStore D) :
    (MarketTickComputer D × AtomicStore D) × List (String × D) :=
  (((x.1.compute tick x.2).1, (x.1.compute tick x.2).2.1), (x.1.compute tick x.2).2.2)

omit [DoubleMath D] in
/-- A fixed history for the symbol, a local change of the store and fixed results. -/
theorem local_record {symbol : String} (hs : symbol ∈ symbols) (hist : List (TickEntry D))
    {write : AtomicStore D → AtomicStore D} (results : List (String × D))
    (hwrite : LocalWithin (AtomicStore.Roomy symbols) AtomicStore.part
      (fun _ : String × D => symbol) symbol (fun s => (write s, []))) :
    LocalWithin (RoomyPair symbols) pairPart (fun _ : String × D => symbol) symbol (fun x =>
      (({ x.1 with symbolHistories := assignKey x.1.symbolHistories symbol hist }, write x.2),
        results)) := by
  refine .intro ?_ ?_ ?_ (fun _ _ _ _ => rfl)
  · rintro x ⟨hc, hstore⟩
    exact ⟨⟨hc.keys.assignKey hs hist, hc.room⟩, hwrite.keeps _ hstore⟩
  · rintro x ⟨hc, hstore⟩ j hj
    refine Prod.ext ?_ (hwrite.elsewhere hstore hj)
    simp only [pairPart, part, lookupKey_assignKey, if_neg hj]
  · rintro x y ⟨hc, hstore⟩ ⟨hc', hstore'⟩ heq
    have hcomputer := congrArg Prod.fst heq
    simp only [pairPart, part, ComputerPart.mk.injEq] at hcomputer
    refine ⟨Prod.ext ?_ (hwrite.here hstore hstore' (congrArg Prod.snd heq)).1, rfl⟩
    simp only [pairPart, part, lookupKey_assignKey, if_true, hcomputer.1, hcomputer.2.1,
      hcomputer.2.2.1]

/-- The history of the tick's symbol with the tick. -/
def pushed (c : MarketTickComputer D) (tick : Event D) (price : D) : List (TickEntry D) :=
  SlidingHistory.push c.maxHistory ((lookupKey c.symbolHistories tick.symbol).getD [])
    (c.entry tick price)

def results (c : MarketTickComputer D) (tick : Event D) (price : D) : List (String × D) :=
  c.taResults (c.pushed tick price) (c.entry tick price)

/-- The quote of an admitted tick goes to the store before its results. -/
def written (c : MarketTickComputer D) (tick : Event D) (price : D) (store : AtomicStore D) :
    AtomicStore D :=
  let quoted := (quoteValues (c.entry tick price)).foldl (fun s w => s.set tick.symbol w.1 w.2)
    store
  if (c.results tick price).isEmpty then quoted
  else quoted.setBatch tick.symbol ((c.results tick price).map (fun r => (r.1, .double r.2)))

theorem Roomy.compute_eq {c : MarketTickComputer D} (h : c.Roomy symbols)
    (hs : tick.symbol ∈ symbols) {price : D}
    (hprice : extract c.fieldMap.priceFields tick = some price) (store : AtomicStore D) :
    c.compute tick store =
      ({ c with symbolHistories :=
          assignKey c.symbolHistories tick.symbol (c.pushed tick price) },
        c.written tick price store, c.announced (c.results tick price)) := by
  have hadmitted : ((lookupKey c.symbolHistories tick.symbol).isNone &&
      decide (c.maxSymbols ≤ c.symbolHistories.length)) = false := by
    cases hlook : lookupKey c.symbolHistories tick.symbol with
    | some _ => rfl
    | none =>
      have hlt := (h.keys.room hs hlook).trans_le h.room
      simpa using hlt
  rw [compute, hprice]
  simp only [hadmitted, Bool.false_eq_true, if_false]
  rfl

theorem local_written (c : MarketTickComputer D) (hs : tick.symbol ∈ symbols) (price : D) :
    LocalWithin (AtomicStore.Roomy symbols) AtomicStore.part
      (fun _ : String × D => tick.symbol) tick.symbol (fun s => (c.written tick price s, [])) := by
  unfold written
  dsimp only
  split_ifs
  · exact local_foldl_set hs _
  · exact (local_foldl_set hs _).andThen (local_setBatch hs _)

section
variable {c c' : MarketTickComputer D} (h : c.part tick.symbol = c'.part tick.symbol)
include h

theorem pushed_congr (price : D) : c.pushed tick price = c'.pushed tick price := by
  simp only [part, ComputerPart.mk.injEq] at h
  simp only [pushed, maxHistory, entry, timestamp, h]

theorem results_congr (price : D) : c.results tick price = c'.results tick price := by
  rw [results, results, pushed_congr h]
  simp only [part, ComputerPart.mk.injEq] at h
  simp only [taResults, entry, timestamp, h]

theorem announced_congr (price : D) :
    c.announced (c.results tick price) = c'.announced (c'.results tick price) := by
  rw [results_congr h]
  simp only [part, ComputerPart.mk.injEq] at h
  simp only [announced, h]

theorem written_congr (price : D) (store : AtomicStore D) :
    c.written tick price store = c'.written tick price store := by
  rw [written, written, results_congr h]
  simp only [part, ComputerPart.mk.injEq] at h
  simp only [entry, timestamp, h]

end

/-- A tick changes what a computer and the store keep for its symbol. -/
theorem local_compute (hs : tick.symbol ∈ symbols) :
    LocalWithin (RoomyPair symbols) pairPart (fun _ : String × D => tick.symbol) tick.symbol
      (computePair tick) := by
  refine .of_pairs ?_
  rintro ⟨c, store⟩ ⟨c', store'⟩ ⟨hc, -⟩ ⟨hc', -⟩ heq
  have hpart : c.part tick.symbol = c'.part tick.symbol := congrArg Prod.fst heq
  have hmap : c.fieldMap = c'.fieldMap := congrArg ComputerPart.fieldMap hpart
  cases hprice : extract c.fieldMap.priceFields tick with
  | none =>
    have hprice' : extract c'.fieldMap.priceFields tick = none := by rw [← hmap, hprice]
    refine ⟨_, .skip, ?_, ?_⟩
    · simp only [computePair, compute, hprice]
    · simp only [computePair, compute, hprice']
  | some price =>
    have hprice' : extract c'.fieldMap.priceFields tick = some price := by rw [← hmap, hprice]
    refine ⟨_, local_record hs (c.pushed tick price) (c.announced (c.results tick price))
      (local_written c hs price), ?_, ?_⟩
    · rw [computePair, hc.compute_eq hs hprice store]
    · rw [computePair, hc'.compute_eq hs hprice' store', pushed_congr hpart,
        announced_congr hpart, written_congr hpart]

end MarketTickComputer

/-- What the Dispatcher keeps for a symbol, with what does not change in a run. -/
structure DispatcherPart (D : Type) where
  cfg : Config D
  functions : FunctionTable D
  syntheticComputers : ℕ
  listeners : FieldListeners
  histories : Option (List (String × List D))
  computers : List (ComputerPart D)
  store : StorePart D

/-- The symbol that an operation is about. -/
def DispatcherOp.symbol {D : Type} : DispatcherOp D → String
  | registerListener symbol _ _ => symbol
  | unregisterListener symbol _ _ => symbol
  | onTick tick => tick.symbol

namespace Dispatcher
variable {D : Type} {symbols : Finset String} {symbol : String}

def part (d : Dispatcher D) (symbol : String) : DispatcherPart D where
  cfg := d.cfg
  functions := d.functions
  syntheticComputers := d.syntheticComputers
  listeners := d.listeners symbol
  histories := lookupKey d.histories symbol
  computers := d.tickComputers.map (·.part symbol)
  store := d.store.part symbol

/-- Every cap leaves room for these symbols, and no others have left an entry. -/
structure Roomy (symbols : Finset String) (d : Dispatcher D) : Prop where
  histories : KeysIn symbols d.histories
  room : symbols.card ≤ d.maxSymbols
  computers : ∀ c ∈ d.tickComputers, c.Roomy symbols
  store : d.store.Roomy symbols

/-- While there is room, a computation that is local to a symbol, with the symbol's deliveries. -/
abbrev LocalToSymbol (symbols : Finset String) (symbol : String)
    (f : Dispatcher D → Dispatcher D × List (Delivery D)) : Prop :=
  LocalWithin (Roomy symbols) part (fun x : Delivery D => x.value.symbol) symbol f

theorem local_setListeners (change : FieldListeners → FieldListeners) :
    LocalToSymbol symbols symbol
      (fun d : Dispatcher D => (d.setListeners symbol (change (d.listeners symbol)), [])) := by
  refine .intro ?_ ?_ ?_ ?_
  · intro d h
    exact ⟨h.histories, h.room, h.computers, h.store⟩
  · intro d _ j hj
    simp [part, setListeners, hj]
  · intro d d' _ _ heq
    simp only [part, DispatcherPart.mk.injEq] at heq
    simp [part, setListeners, heq]
  · intro d _ x hx
    cases hx

theorem local_setHistory (hs : symbol ∈ symbols) (field : String) (hist : List D) :
    LocalToSymbol symbols symbol
      (fun d : Dispatcher D => (d.setHistory symbol field hist, [])) := by
  refine .intro ?_ ?_ ?_ ?_
  · intro d h
    exact ⟨h.histories.assignKey hs _, h.room, h.computers, h.store⟩
  · intro d _ j hj
    simp [part, setHistory, lookupKey_assignKey, hj]
  · intro d d' _ _ heq
    simp only [part, DispatcherPart.mk.injEq] at heq
    simp [part, setHistory, fieldHistories, lookupKey_assignKey, heq]
  · intro d _ x hx
    cases hx

theorem local_write {write : AtomicStore D → AtomicStore D}
    (hwrite : LocalWithin (AtomicStore.Roomy symbols) AtomicStore.part
      (fun x : Delivery D => x.value.symbol) symbol (fun s => (write s, []))) :
    LocalToSymbol symbols symbol (fun d : Dispatcher D => ({ d with store := write d.store }, [])) := by
  refine .intro ?_ ?_ ?_ ?_
  · intro d h
    exact ⟨h.histories, h.room, h.computers, hwrite.keeps _ h.store⟩
  · intro d h j hj
    simp [part, hwrite.elsewhere h.store hj]
  · intro d d' h h' heq
    simp only [part, DispatcherPart.mk.injEq] at heq
    have hstore := (hwrite.here h.store h'.store heq.2.2.2.2.2.2).1
    simp [part, heq, hstore]
  · intro d _ x hx
    cases hx

theorem local_emit {xs : List (Delivery D)} (hxs : ∀ x ∈ xs, x.value.symbol = symbol) :
    LocalToSymbol symbols symbol (fun d : Dispatcher D => (d, xs)) :=
  .intro (fun _ h => h) (fun _ _ _ _ => rfl) (fun _ _ _ _ heq => ⟨heq, rfl⟩) (fun _ _ => hxs)

section
variable {d d' : Dispatcher D} (h : d.part symbol = d'.part symbol)
include h

theorem listeners_congr : d.listeners symbol = d'.listeners symbol :=
  congrArg DispatcherPart.listeners h

theorem fieldHistories_congr : d.fieldHistories symbol = d'.fieldHistories symbol :=
  congrArg (fun p : DispatcherPart D => p.histories.getD []) h

theorem history_congr (field : String) : d.history symbol field = d'.history symbol field := by
  rw [history, history, fieldHistories_congr h]

theorem notifyListeners_congr (field : String) (value : D) :
    d.notifyListeners symbol field value = d'.notifyListeners symbol field value := by
  rw [notifyListeners, notifyListeners, listeners_congr h]

theorem maxHistory_congr : d.maxHistory = d'.maxHistory :=
  congrArg (fun p : DispatcherPart D => (Max.max 1 p.cfg.taHistoryMax).toNat) h

theorem maxFieldsPerSymbol_congr : d.maxFieldsPerSymbol = d'.maxFieldsPerSymbol :=
  congrArg (fun p : DispatcherPart D => (Max.max 1 p.cfg.maxFieldsPerSymbol).toNat) h

theorem results_congr (hist : List D) : d.results hist = d'.results hist := by
  have hfunctions : d.functions = d'.functions := congrArg DispatcherPart.functions h
  rw [results, results, hfunctions]

end

theorem Roomy.refuses_eq {d : Dispatcher D} (h : d.Roomy symbols) (hs : symbol ∈ symbols)
    (field : String) : d.refuses symbol field =
      ((lookupKey (d.fieldHistories symbol) field).isNone &&
        decide (d.maxFieldsPerSymbol ≤ (d.fieldHistories symbol).length)) := by
  have hadmitted : ((lookupKey d.histories symbol).isNone &&
      decide (d.maxSymbols ≤ d.histories.length)) = false := by
    cases hlook : lookupKey d.histories symbol with
    | some _ => rfl
    | none =>
      have hlt := (h.histories.room hs hlook).trans_le h.room
      simpa using hlt
  rw [refuses, hadmitted, Bool.false_or]

theorem symbol_of_mem_notifyListeners {d : Dispatcher D} {field : String} {value : D}
    {x : Delivery D} (hx : x ∈ d.notifyListeners symbol field value) : x.value.symbol = symbol := by
  obtain ⟨node, -, rfl⟩ := List.mem_map.mp hx
  rfl

section Double
variable {tick : Event D}

/-- The number goes to the history, the results to the store and all values to the listeners. -/
def record (pair : String × NodeId) (symbol : String) (raw : D) (hist : List D)
    (results : List (String × D)) (announced : List (Delivery D)) (d : Dispatcher D) :
    Dispatcher D × List (Delivery D) :=
  let recorded := d.setHistory symbol pair.1 hist
  ({ recorded with store :=
      results.foldl (fun s r => s.set symbol r.1 (.double r.2)) recorded.store },
    announced ++ [⟨pair.1, pair.2, ⟨symbol, .double raw⟩⟩])

theorem local_record (hs : symbol ∈ symbols) (pair : String × NodeId) (raw : D) (hist : List D)
    (results : List (String × D)) {announced : List (Delivery D)}
    (hannounced : ∀ x ∈ announced, x.value.symbol = symbol) :
    LocalToSymbol symbols symbol (record pair symbol raw hist results announced) := by
  have hxs : ∀ x ∈ announced ++ [⟨pair.1, pair.2, ⟨symbol, .double raw⟩⟩],
      x.value.symbol = symbol := by
    intro x hx
    rcases List.mem_append.mp hx with hx | hx
    · exact hannounced x hx
    · rw [List.mem_singleton.mp hx]
  have hwrite : LocalWithin (AtomicStore.Roomy symbols) AtomicStore.part
      (fun x : Delivery D => x.value.symbol) symbol (fun s =>
        (results.foldl (fun s r => s.set symbol r.1 (.double r.2)) s, [])) := by
    have hset : LocalWithin _ _ (fun x : Delivery D => x.value.symbol) _ _ :=
      AtomicStore.local_foldl_set hs (results.map (fun r => (r.1, ArgType.double r.2)))
    simp only [List.foldl_map] at hset
    exact hset
  exact ((local_setHistory hs pair.1 hist).andThen (local_write hwrite)).andThen (local_emit hxs)

variable [Double D]

omit [Double D] in
theorem toNotify_congr {d d' : Dispatcher D} (h : d.part tick.symbol = d'.part tick.symbol) :
    d.toNotify tick = d'.toNotify tick := by
  rw [toNotify, toNotify, listeners_congr h]

/-- One round of the loop over the listeners stays with the symbol. -/
theorem local_notify (hs : tick.symbol ∈ symbols) (pair : String × NodeId) :
    LocalToSymbol symbols tick.symbol (fun d : Dispatcher D => notify tick d pair) := by
  refine .of_pairs (fun d d' h h' heq => ?_)
  cases hraw : tick.number pair.1 with
  | none =>
    refine ⟨_, .skip, ?_, ?_⟩
    · simp only [notify, hraw]
    · simp only [notify, hraw]
  | some raw =>
    have hrefuses : d'.refuses tick.symbol pair.1 = d.refuses tick.symbol pair.1 := by
      rw [h.refuses_eq hs, h'.refuses_eq hs, fieldHistories_congr heq, maxFieldsPerSymbol_congr heq]
    cases hcap : d.refuses tick.symbol pair.1 with
    | true =>
      rw [hcap] at hrefuses
      refine ⟨_, .skip, ?_, ?_⟩
      · simp only [notify, hraw, hcap, if_true]
      · simp only [notify, hraw, hrefuses, if_true]
    | false =>
      rw [hcap] at hrefuses
      let hist := SlidingHistory.push d.maxHistory (d.history tick.symbol pair.1) raw
      have hannounced : ∀ x ∈ (d.results hist).flatMap (fun r =>
          d.notifyListeners tick.symbol r.1 r.2), x.value.symbol = tick.symbol := by
        intro x hx
        obtain ⟨r, -, hx⟩ := List.mem_flatMap.mp hx
        exact symbol_of_mem_notifyListeners hx
      refine ⟨_, local_record hs pair raw hist (d.results hist) hannounced, ?_, ?_⟩
      · simp only [notify, hraw, hcap, Bool.false_eq_true, if_false]
        rfl
      · have hhist : SlidingHistory.push d'.maxHistory (d'.history tick.symbol pair.1) raw =
            hist := by
          rw [← maxHistory_congr heq, ← history_congr heq]
        have hresults : d'.results hist = d.results hist := (results_congr heq hist).symm
        simp only [notify, hraw, hrefuses, Bool.false_eq_true, if_false, hhist]
        simp only [notifyListeners_congr heq, ← hresults]
        rfl

theorem local_notifyAll (hs : tick.symbol ∈ symbols) (pairs : List (String × NodeId)) :
    LocalToSymbol symbols tick.symbol (fun d : Dispatcher D => notifyAll tick d pairs) := by
  induction pairs with
  | nil => exact .skip
  | cons pair pairs ih => exact (local_notify hs pair).andThen ih

end Double

section Math
variable [DoubleMath D] {tick : Event D}

theorem local_syntheticCompute (hs : tick.symbol ∈ symbols) :
    LocalWithin (AtomicStore.Roomy symbols) AtomicStore.part
      (fun x : Delivery D => x.value.symbol) tick.symbol (fun s => (syntheticCompute tick s, [])) := by
  cases hn : tick.number "counter" with
  | none =>
    simp only [syntheticCompute, hn]
    exact .skip
  | some n =>
    simp only [syntheticCompute, hn]
    exact (AtomicStore.local_setBatch hs [_]).andThen (AtomicStore.local_setBatch hs [_])

theorem local_syntheticComputers (hs : tick.symbol ∈ symbols) (n : ℕ) :
    LocalWithin (AtomicStore.Roomy symbols) AtomicStore.part
      (fun x : Delivery D => x.value.symbol) tick.symbol
      (fun s => ((syntheticCompute tick)^[n] s, [])) := by
  induction n with
  | zero => exact .skip
  | succ n ih => exact (local_syntheticCompute hs).andThen ih

/-- The computers and the store that they write one after the other. -/
theorem roomy_runTickComputers (hs : tick.symbol ∈ symbols) {cs : List (MarketTickComputer D)}
    {store : AtomicStore D} (hcs : ∀ c ∈ cs, c.Roomy symbols) (hstore : store.Roomy symbols) :
    let out := runTickComputers tick cs store
    (∀ c ∈ out.1, c.Roomy symbols) ∧ out.2.1.Roomy symbols ∧
      ∀ j, j ≠ tick.symbol →
        out.1.map (·.part j) = cs.map (·.part j) ∧ out.2.1.part j = store.part j := by
  induction cs generalizing store with
  | nil => exact ⟨hcs, hstore, fun _ _ => ⟨rfl, rfl⟩⟩
  | cons c cs ih =>
    obtain ⟨hc, hcs⟩ := List.forall_mem_cons.mp hcs
    have hlocal := MarketTickComputer.local_compute (D := D) hs
    have hpair : MarketTickComputer.RoomyPair symbols (c, store) := ⟨hc, hstore⟩
    obtain ⟨hc', hstore'⟩ := hlocal.keeps _ hpair
    obtain ⟨hrest, hlast, helse⟩ := ih hcs hstore'
    refine ⟨List.forall_mem_cons.mpr ⟨hc', hrest⟩, hlast, fun j hj => ?_⟩
    have hview := hlocal.elsewhere hpair hj
    obtain ⟨hparts, hstores⟩ := helse j hj
    refine ⟨?_, hstores.trans (congrArg Prod.snd hview)⟩
    exact congr_arg₂ List.cons (congrArg Prod.fst hview) hparts

theorem runTickComputers_congr (hs : tick.symbol ∈ symbols) {cs cs' : List (MarketTickComputer D)}
    {store store' : AtomicStore D} (hcs : ∀ c ∈ cs, c.Roomy symbols)
    (hcs' : ∀ c ∈ cs', c.Roomy symbols) (hstore : store.Roomy symbols)
    (hstore' : store'.Roomy symbols)
    (hparts : cs.map (·.part tick.symbol) = cs'.map (·.part tick.symbol))
    (heq : store.part tick.symbol = store'.part tick.symbol) :
    let out := runTickComputers tick cs store
    let out' := runTickComputers tick cs' store'
    out.1.map (·.part tick.symbol) = out'.1.map (·.part tick.symbol) ∧
      out.2.1.part tick.symbol = out'.2.1.part tick.symbol ∧ out.2.2 = out'.2.2 := by
  induction cs generalizing cs' store store' with
  | nil =>
    obtain rfl := List.map_eq_nil_iff.mp hparts.symm
    exact ⟨rfl, heq, rfl⟩
  | cons c cs ih =>
    cases cs' with
    | nil => cases hparts
    | cons c' cs' =>
      obtain ⟨hc, hcs⟩ := List.forall_mem_cons.mp hcs
      obtain ⟨hc', hcs'⟩ := List.forall_mem_cons.mp hcs'
      obtain ⟨hpart, hparts⟩ := List.cons.inj hparts
      have hlocal := MarketTickComputer.local_compute (D := D) hs
      have hpair : MarketTickComputer.RoomyPair symbols (c, store) := ⟨hc, hstore⟩
      have hpair' : MarketTickComputer.RoomyPair symbols (c', store') := ⟨hc', hstore'⟩
      obtain ⟨hview, hevents⟩ := hlocal.here hpair hpair' (Prod.ext hpart heq)
      obtain ⟨hrest, hlast, hannounced⟩ := ih hcs hcs' (hlocal.keeps _ hpair).2
        (hlocal.keeps _ hpair').2 hparts (congrArg Prod.snd hview)
      exact ⟨congr_arg₂ List.cons (congrArg Prod.fst hview) hrest, hlast,
        congr_arg₂ (· ++ ·) hevents hannounced⟩

theorem local_tickComputers (hs : tick.symbol ∈ symbols) :
    LocalToSymbol symbols tick.symbol (fun d : Dispatcher D =>
      let out := runTickComputers tick d.tickComputers d.store
      ({ d with tickComputers := out.1, store := out.2.1 },
        out.2.2.flatMap (fun r => d.notifyListeners tick.symbol r.1 r.2))) := by
  refine .intro ?_ ?_ ?_ ?_
  · intro d h
    obtain ⟨hcs, hstore, -⟩ := roomy_runTickComputers hs h.computers h.store
    exact ⟨h.histories, h.room, hcs, hstore⟩
  · intro d h j hj
    obtain ⟨-, -, helse⟩ := roomy_runTickComputers hs h.computers h.store
    obtain ⟨hparts, hstores⟩ := helse j hj
    simp only [part, hparts, hstores]
  · intro d d' h h' heq
    have hfields := heq
    simp only [part, DispatcherPart.mk.injEq] at hfields
    obtain ⟨hcfg, hfunctions, hsynthetic, hlisteners, hhistories, hcomputers, hstore⟩ := hfields
    obtain ⟨hparts, hstores, hannounced⟩ := runTickComputers_congr hs h.computers h'.computers
      h.store h'.store hcomputers hstore
    refine ⟨?_, ?_⟩
    · simp only [part, hparts, hstores, hcfg, hfunctions, hsynthetic, hlisteners, hhistories]
    · simp only [hannounced, notifyListeners_congr heq]
  · intro d _ x hx
    obtain ⟨r, -, hx⟩ := List.mem_flatMap.mp hx
    exact symbol_of_mem_notifyListeners hx

theorem local_compute (hs : tick.symbol ∈ symbols) :
    LocalToSymbol symbols tick.symbol (fun d : Dispatcher D => d.compute tick) := by
  by_cases htick : tick.type = "tick"
  · simp only [compute, htick, if_true]
    exact local_tickComputers hs
  · by_cases hsynthetic : tick.type = "synthetic.tick"
    · refine .of_pairs (fun d d' _ _ heq => ?_)
      have hcount : d.syntheticComputers = d'.syntheticComputers :=
        congrArg DispatcherPart.syntheticComputers heq
      refine ⟨_, local_write (local_syntheticComputers hs d.syntheticComputers), ?_, ?_⟩
      · simp only [compute, if_neg htick, if_pos hsynthetic]
      · simp only [compute, if_neg htick, if_pos hsynthetic, hcount]
    · simp only [compute, if_neg htick, if_neg hsynthetic]
      exact .skip

theorem local_onTick (htick : tick.symbol.isEmpty = false → tick.symbol ∈ symbols) :
    LocalToSymbol symbols tick.symbol (fun d : Dispatcher D => d.onTick tick) := by
  cases hempty : tick.symbol.isEmpty with
  | true =>
    simp only [onTick, hempty, if_true]
    exact .skip
  | false =>
    simp only [onTick, hempty, Bool.false_eq_true, if_false]
    have hs := htick hempty
    have hnotify : LocalToSymbol symbols tick.symbol
        (fun d : Dispatcher D => notifyAll tick d (d.toNotify tick)) := by
      refine .of_pairs (fun d d' _ _ heq => ⟨_, local_notifyAll hs (d.toNotify tick), rfl, ?_⟩)
      rw [toNotify_congr heq]
    exact (local_compute hs).andThen hnotify

/-- Ticks come with these symbols; listeners may be for any. -/
theorem local_exec {op : DispatcherOp D} (hop : ∀ s, op.tickedSymbol = some s → s ∈ symbols) :
    LocalToSymbol symbols op.symbol (fun d : Dispatcher D => d.exec op) := by
  cases op with
  | registerListener s field node => exact local_setListeners (·.register field node)
  | unregisterListener s field node => exact local_setListeners (·.unregister field node)
  | onTick tick =>
    refine local_onTick (fun hempty => hop tick.symbol ?_)
    rw [DispatcherOp.tickedSymbol, hempty]
    rfl

theorem local_ops {ops : List (DispatcherOp D)} (hticks : tickedSymbols ops ⊆ symbols) :
    ∀ op ∈ ops, LocalToSymbol symbols op.symbol (fun d : Dispatcher D => d.exec op) :=
  fun op hop => local_exec (fun _ hs =>
    hticks (List.mem_toFinset.mpr (List.mem_filterMap.mpr ⟨op, hop, hs⟩)))

/-- While the caps leave room for all symbols that are ticked: what is kept for a symbol after a
run, and what its listeners receive, are those of the run of the operations about that symbol
alone. -/
theorem symbol_isolated {d : Dispatcher D} (hroomy : d.Roomy symbols) {ops : List (DispatcherOp D)}
    (hticks : tickedSymbols ops ⊆ symbols) (symbol : String) :
    (run exec d ops).1.part symbol =
      (run exec d (ops.filter (·.symbol = symbol))).1.part symbol ∧
    (run exec d ops).2.filter (·.value.symbol = symbol) =
      (run exec d (ops.filter (·.symbol = symbol))).2 :=
  run_part_within hroomy (local_ops hticks) symbol

end Math

theorem roomy_of_new {d : Dispatcher D} (hnew : d.histories = []) (hroom : symbols.card ≤ d.maxSymbols)
    (hcomputers : ∀ c ∈ d.tickComputers, c.symbolHistories = [] ∧ symbols.card ≤ c.maxSymbols)
    (hstore : d.store.data = [])
    (hstoreRoom : 0 < d.store.maxStreamKeys → symbols.card ≤ d.store.maxStreamKeys) :
    d.Roomy symbols where
  histories := hnew ▸ .empty
  room := hroom
  computers c hc := ⟨(hcomputers c hc).1 ▸ .empty, (hcomputers c hc).2⟩
  store := ⟨hstore ▸ .empty, hstoreRoom⟩

/-- A dispatcher with the tick computer and one listener on AAPL's price. -/
def computedPrice : Dispatcher ExactDouble :=
  { onePrice with
    tickComputers := [.create { taBBands_stdK := .fin 2 } {} (builtinFunctions ExactDouble)] }

/-- A listener for MSFT comes and ticks for both symbols are mixed. -/
def twoSymbols : List (DispatcherOp ExactDouble) :=
  [.onTick { priceTick 41 (by decide) with symbol := "MSFT" },
    .onTick (priceTick 42 range_fortyTwo), .registerListener "MSFT" "price" 1,
    .onTick { priceTick 42 range_fortyTwo with symbol := "MSFT" },
    .onTick (priceTick 43 range_fortyThree), .unregisterListener "AAPL" "price" 0]

theorem symbol_isolated_twoSymbols :
    (run exec computedPrice twoSymbols).1.part "AAPL" =
      (run exec computedPrice (twoSymbols.filter (·.symbol = "AAPL"))).1.part "AAPL" ∧
    (run exec computedPrice twoSymbols).2.filter (·.value.symbol = "AAPL") =
      (run exec computedPrice (twoSymbols.filter (·.symbol = "AAPL"))).2 ∧
    ((run exec computedPrice twoSymbols).1.store.get "AAPL" "lastPrice").isSome = true := by
  have hroomy : computedPrice.Roomy (tickedSymbols twoSymbols) := by
    refine roomy_of_new rfl (by decide +kernel) ?_ rfl ?_
    · intro c hc
      rw [List.mem_singleton.mp hc]
      exact ⟨rfl, by decide +kernel⟩
    · intro hcap
      cases hcap
  obtain ⟨hpart, hout⟩ := symbol_isolated hroomy (Finset.Subset.refl _) "AAPL"
  exact ⟨hpart, hout, by decide +kernel⟩

end Dispatcher
end GmaEngine
