import GmaEngine.NodeValues
import GmaEngine.ObProvider
import GmaEngine.StoredTickKeys
import GmaEngine.SymbolIsolation
import GmaEngine.TickKeys

/-!
# How an accessor resolves its field

An accessor looks into the AtomicStore first and asks the providers only for what is not
there. Nothing that writes to the store uses a key of the `ob` namespace, so a stored value
never hides the book: an `ob.*` field is always answered from the book of that moment.
-/

namespace GmaEngine

/-- Providers by namespace. They read a state of type `σ`; `none` is an exception. -/
structure AtomicProviderRegistry (σ D : Type) where
  map : List (String × (σ → String → String → Option D)) := []

namespace AtomicProviderRegistry
variable {σ D : Type}

def registerNamespace (reg : AtomicProviderRegistry σ D) (ns : String)
    (fn : σ → String → String → Option D) : AtomicProviderRegistry σ D :=
  ⟨assignKey reg.map ns fn⟩

def clear (_ : AtomicProviderRegistry σ D) : AtomicProviderRegistry σ D := {}

/-- What stands before the first dot of a key. -/
def namespaceOf (key : String) : Option String :=
  if '.' ∈ key.toList then some (String.ofList (key.toList.takeWhile (· ≠ '.'))) else none

def tryResolve (reg : AtomicProviderRegistry σ D) (s : σ) (symbol key : String) : Option D :=
  (namespaceOf key).bind (fun ns => (lookupKey reg.map ns).bind (fun fn => fn s symbol key))

end AtomicProviderRegistry

theorem takeWhile_dot_eq_ob (cs : List Char) :
    ('.' ∈ cs ∧ cs.takeWhile (· ≠ '.') = ['o', 'b']) ↔ ['o', 'b', '.'].isPrefixOf cs = true := by
  rw [List.isPrefixOf_iff_prefix]
  constructor
  · rintro ⟨hdot, hname⟩
    have hcs := List.takeWhile_append_dropWhile (p := (· ≠ '.')) (l := cs)
    rw [hname] at hcs
    cases hrest : cs.dropWhile (· ≠ '.') with
    | nil =>
      rw [hrest] at hcs
      rw [← hcs] at hdot
      simp at hdot
    | cons c rest =>
      have hc : c = '.' := by
        have h := List.head?_dropWhile_not (fun x : Char => decide (x ≠ '.')) cs
        rw [hrest] at h
        simpa using h
      rw [hrest, hc] at hcs
      exact ⟨rest, hcs⟩
  · rintro ⟨rest, rfl⟩
    simp

/-- The keys of the namespace `ob` are those that start with `ob.`. -/
theorem namespaceOf_eq_ob_iff (key : String) :
    AtomicProviderRegistry.namespaceOf key = some "ob" ↔
      TreeBuilder.isPipelineOnlyKey key = true := by
  have hname : ∀ cs : List Char, String.ofList cs = "ob" ↔ cs = ['o', 'b'] := by
    intro cs
    rw [← String.toList_inj, String.toList_ofList]
    rfl
  rw [TreeBuilder.isPipelineOnlyKey, ← takeWhile_dot_eq_ob, ← hname]
  unfold AtomicProviderRegistry.namespaceOf
  split_ifs with hdot <;> simp [hdot]

namespace TreeBuilder
open MarketTA

/-- A key outside the `ob` namespace. -/
def Plain (key : String) : Prop := isPipelineOnlyKey key = false

instance (key : String) : Decidable (Plain key) := inferInstanceAs (Decidable (_ = false))

/-- A period follows a name, so the key starts as the name does. -/
theorem plain_periodKey {name : String} (hname : 2 < name.toList.length) (h : Plain name)
    (period : ℤ) : Plain (periodKey name period) := by
  rw [Plain, isPipelineOnlyKey, Bool.eq_false_iff, Ne, List.isPrefixOf_iff_prefix] at h ⊢
  intro hpre
  refine h (List.prefix_of_prefix_length_le hpre ?_ hname)
  simp only [periodKey, String.toList_append, List.append_assoc]
  exact List.prefix_append _ _

theorem plain_of_isResultKey {key : String} (h : IsResultKey key) : Plain key := by
  have hplain : ∀ name ∈ plainNames, Plain name := by decide
  have hperiod : ∀ name ∈ periodNames, 2 < name.toList.length ∧ Plain name := by decide
  rcases h with h | ⟨name, hname, period, rfl⟩
  · exact hplain key h
  · exact plain_periodKey (hperiod name hname).1 (hperiod name hname).2 period

theorem plain_quoteValues {D : Type} [DoubleMath D] (e : TickEntry D) :
    Names Plain (MarketTickComputer.quoteValues e) := by
  simp only [MarketTickComputer.quoteValues, names_append]
  refine ⟨⟨⟨?_, ?_⟩, ?_⟩, ?_⟩ <;> exact Names.ite (names_cons.mpr ⟨by decide, names_nil⟩) _

end TreeBuilder

namespace AtomicStore
variable {D : Type}

/-- No field of the store is in the `ob` namespace. -/
def KeepsPlain (s : AtomicStore D) : Prop :=
  ∀ symbol field, TreeBuilder.isPipelineOnlyKey field = true → s.get symbol field = none

variable {s : AtomicStore D}

theorem KeepsPlain.setBatch (h : s.KeepsPlain) (symbol : String)
    {fields : List (String × ArgType D)} (hfields : MarketTA.Names TreeBuilder.Plain fields) :
    (s.setBatch symbol fields).KeepsPlain := by
  intro symbol' field hfield
  rw [get_setBatch_of_notMem]
  · exact h symbol' field hfield
  · intro hmem
    obtain ⟨e, he, rfl⟩ := List.mem_map.mp hmem
    rw [hfields e he] at hfield
    cases hfield

theorem KeepsPlain.set (h : s.KeepsPlain) (symbol : String) {field : String}
    (hfield : TreeBuilder.Plain field) (value : ArgType D) :
    (s.set symbol field value).KeepsPlain := by
  rw [set_eq_setBatch]
  exact h.setBatch symbol (MarketTA.names_cons.mpr ⟨hfield, MarketTA.names_nil⟩)

theorem KeepsPlain.foldl_set (h : s.KeepsPlain) (symbol : String)
    {fields : List (String × ArgType D)} (hfields : MarketTA.Names TreeBuilder.Plain fields) :
    (fields.foldl (fun s w => s.set symbol w.1 w.2) s).KeepsPlain := by
  induction fields generalizing s with
  | nil => exact h
  | cons w fields ih =>
    obtain ⟨hw, hrest⟩ := List.forall_mem_cons.mp hfields
    exact ih (h.set symbol hw w.2) hrest

end AtomicStore

namespace Dispatcher
variable {D : Type} [DoubleMath D] {d : Dispatcher D}

/-- No function is named in the `ob` namespace, and no field of the store is in it. -/
structure KeepsPlain (d : Dispatcher D) : Prop where
  names : ∀ name ∈ d.functions.names, TreeBuilder.Plain name
  store : d.store.KeepsPlain

theorem keepsPlain_tickCompute (c : MarketTickComputer D) (tick : Event D) {store : AtomicStore D}
    (h : store.KeepsPlain) : (c.compute tick store).2.1.KeepsPlain := by
  unfold MarketTickComputer.compute
  split
  · exact h
  · next price _ =>
    have hquotes := h.foldl_set tick.symbol (TreeBuilder.plain_quoteValues (c.entry tick price))
    dsimp only
    split_ifs
    · exact hquotes
    · exact hquotes
    · have hresults := (MarketTA.names_taResults c (SlidingHistory.push c.maxHistory
        ((lookupKey c.symbolHistories tick.symbol).getD []) (c.entry tick price))
        (c.entry tick price)).imp (fun _ => TreeBuilder.plain_of_isResultKey)
      exact hquotes.setBatch tick.symbol (hresults.map ArgType.double)

theorem keepsPlain_runTickComputers (tick : Event D) (cs : List (MarketTickComputer D))
    {store : AtomicStore D} (h : store.KeepsPlain) :
    (runTickComputers tick cs store).2.1.KeepsPlain := by
  induction cs generalizing store with
  | nil => exact h
  | cons c cs ih => exact ih (keepsPlain_tickCompute c tick h)

theorem keepsPlain_syntheticCompute (tick : Event D) {store : AtomicStore D}
    (h : store.KeepsPlain) : (syntheticCompute tick store).KeepsPlain := by
  unfold syntheticCompute
  split
  · exact h
  · exact (h.set tick.symbol (by decide) _).set tick.symbol (by decide) _

theorem KeepsPlain.compute (h : d.KeepsPlain) (tick : Event D) : (d.compute tick).1.KeepsPlain := by
  refine ⟨?_, ?_⟩
  · rw [(sameSetup_compute d tick).functions]
    exact h.names
  · unfold Dispatcher.compute
    split_ifs
    · exact keepsPlain_runTickComputers tick d.tickComputers h.store
    · exact Function.Iterate.rec AtomicStore.KeepsPlain h.store
        (fun _ => keepsPlain_syntheticCompute tick) d.syntheticComputers
    · exact h.store

theorem KeepsPlain.exec (h : d.KeepsPlain) (op : DispatcherOp D) : (d.exec op).1.KeepsPlain := by
  cases op with
  | registerListener symbol field node => exact ⟨h.names, h.store⟩
  | unregisterListener symbol field node => exact ⟨h.names, h.store⟩
  | onTick tick =>
    cases hsymbol : tick.symbol.isEmpty with
    | true =>
      have hskip : d.onTick tick = (d, []) := by
        rw [onTick, if_pos hsymbol]
      change (d.onTick tick).1.KeepsPlain
      rw [hskip]
      exact h
    | false =>
      have hcomputed := h.compute tick
      refine ⟨?_, ?_⟩
      · change ∀ name ∈ (d.onTick tick).1.functions.names, _
        rw [(sameSetup_onTick d tick).functions]
        exact h.names
      · change (d.onTick tick).1.store.KeepsPlain
        rw [fst_onTick hsymbol]
        intro symbol field hfield
        rw [get_notifyAll]
        · exact hcomputed.store symbol field hfield
        · refine .inl (fun hname => ?_)
          rw [hcomputed.names field hname] at hfield
          cases hfield

theorem KeepsPlain.after (h : d.KeepsPlain) (ops : List (DispatcherOp D)) :
    (d.after ops).KeepsPlain := by
  induction ops using List.reverseRecOn with
  | nil => exact h
  | append_singleton ops op ih =>
    rw [after_append, after_singleton]
    exact ih.exec op

end Dispatcher

/-- The state that the accessors of a process read. -/
structure EngineState (D : Type) where
  dispatcher : Dispatcher D
  obManager : OrderBookManager D
  providers : AtomicProviderRegistry (OrderBookManager D) D := {}

inductive EngineOp (D : Type) where
  | dispatcher (op : DispatcherOp D)
  | book (op : ManagerOp D)
  /-- `MarketConnector::stop`. -/
  | connectorsStop

def EngineOp.dispatcherOp {D : Type} : EngineOp D → Option (DispatcherOp D)
  | dispatcher op => some op
  | _ => none

def EngineOp.bookOp {D : Type} : EngineOp D → Option (ManagerOp D)
  | book op => some op
  | _ => none

def EngineOp.stops {D : Type} : EngineOp D → Bool
  | connectorsStop => true
  | _ => false

namespace EngineState
variable {D : Type}

/-- `MarketConnector::registerWith`: a new manager, and its provider under `ob`. -/
def registerWith [Double D] (d : Dispatcher D) (allowNegativePrices : Bool) : EngineState D where
  dispatcher := d
  obManager := { allowNegativePrices := allowNegativePrices }
  providers := AtomicProviderRegistry.registerNamespace {} "ob"
    (fun m symbol fullKey => some ((Ob.obProvider m symbol).get fullKey))

/-- The lookup of an accessor. -/
def resolve (e : EngineState D) (symbol field : String) : Option (ArgType D) :=
  (e.dispatcher.store.get symbol field).or
    ((e.providers.tryResolve e.obManager symbol field).map .double)

variable [DoubleMath D]

def exec (e : EngineState D) : EngineOp D → EngineState D
  | .dispatcher op => { e with dispatcher := (e.dispatcher.exec op).1 }
  | .book op => { e with obManager := (e.obManager.exec op).1 }
  | .connectorsStop => { e with providers := e.providers.clear }

def after (e : EngineState D) (ops : List (EngineOp D)) : EngineState D := ops.foldl exec e

/-- The parts of the state do not act on each other. -/
theorem after_eq (e : EngineState D) (ops : List (EngineOp D)) :
    e.after ops = {
      dispatcher := e.dispatcher.after (ops.filterMap EngineOp.dispatcherOp)
      obManager := (e.obManager.runFrom (ops.filterMap EngineOp.bookOp)).1
      providers := if ops.any EngineOp.stops then {} else e.providers } := by
  induction ops generalizing e with
  | nil => rfl
  | cons op ops ih =>
    change (e.exec op).after ops = _
    rw [ih]
    cases op with
    | dispatcher op => rfl
    | book op =>
      simp only [exec, List.filterMap_cons, List.any_cons, EngineOp.dispatcherOp,
        EngineOp.bookOp, EngineOp.stops, Bool.false_or, OrderBookManager.runFrom_cons]
    | connectorsStop =>
      simp only [exec, List.filterMap_cons, List.any_cons, EngineOp.dispatcherOp,
        EngineOp.bookOp, EngineOp.stops, Bool.true_or, if_true, AtomicProviderRegistry.clear,
        ite_self]

theorem tryResolve_registerWith (d : Dispatcher D) (allowNegativePrices : Bool)
    (m : OrderBookManager D) (symbol field : String) :
    (registerWith d allowNegativePrices).providers.tryResolve m symbol field =
      if TreeBuilder.isPipelineOnlyKey field then some ((Ob.obProvider m symbol).get field)
      else none := by
  unfold registerWith AtomicProviderRegistry.tryResolve AtomicProviderRegistry.registerNamespace
  split_ifs with hfield
  · rw [← namespaceOf_eq_ob_iff] at hfield
    rw [hfield]
    rfl
  · rw [← namespaceOf_eq_ob_iff] at hfield
    cases hns : AtomicProviderRegistry.namespaceOf field with
    | none => rfl
    | some ns =>
      have hne : "ob" ≠ ns := by
        rintro rfl
        exact hfield hns
      simp [lookupKey, assignKey, hne]

omit [DoubleMath D] in
theorem tryResolve_empty (m : OrderBookManager D) (symbol field : String) :
    ({} : AtomicProviderRegistry (OrderBookManager D) D).tryResolve m symbol field = none := by
  unfold AtomicProviderRegistry.tryResolve
  cases AtomicProviderRegistry.namespaceOf field <;> rfl

/-- After any run, what an accessor passes on for a field of the `ob` namespace is what the
provider computes from the book of that moment, and nothing once the connectors were stopped; for
any other field it is the stored value. -/
theorem accessor_reads_book (d : Dispatcher D) (allowNegativePrices : Bool)
    (hnames : ∀ name ∈ d.functions.names, TreeBuilder.Plain name)
    (hstore : d.store.data = []) (ops : List (EngineOp D)) (rt : Runtime D)
    (symbol field : String) (downstream : NodeId) :
    let e := (registerWith d allowNegativePrices).after ops
    let m := (OrderBookManager.runFrom { allowNegativePrices := allowNegativePrices }
      (ops.filterMap EngineOp.bookOp)).1
    let stored := (d.after (ops.filterMap EngineOp.dispatcherOp)).store.get symbol field
    let value := if TreeBuilder.isPipelineOnlyKey field then
        if ops.any EngineOp.stops then none
        else some (.double ((Ob.obProvider m symbol).get field))
      else stored
    Runtime.atomicAccessorOnValue e.resolve rt symbol field (some downstream) false =
      (rt, { calls := value.toList.map (fun v => ⟨downstream, ⟨symbol, v⟩⟩) }) := by
  intro e m stored value
  have hplain : d.KeepsPlain := by
    refine ⟨hnames, fun symbol field _ => ?_⟩
    rw [AtomicStore.get, hstore]
    rfl
  have he : e.resolve symbol field = stored.or
      (((if ops.any EngineOp.stops then {}
          else (registerWith d allowNegativePrices).providers).tryResolve m symbol field).map
        .double) := by
    simp only [e, after_eq]
    rfl
  have hvalue : e.resolve symbol field = value := by
    rw [he]
    cases hfield : TreeBuilder.isPipelineOnlyKey field with
    | true =>
      have hstored : stored = none := (hplain.after _).store symbol field hfield
      simp only [value, hstored, hfield, if_true, Option.none_or]
      split_ifs
      · rw [tryResolve_empty, Option.map_none]
      · rw [tryResolve_registerWith, if_pos hfield, Option.map_some]
    | false =>
      simp only [value, hfield, Bool.false_eq_true, if_false]
      split_ifs
      · rw [tryResolve_empty, Option.map_none, Option.or_none]
      · rw [tryResolve_registerWith, hfield, if_neg Bool.false_ne_true, Option.map_none,
          Option.or_none]
  unfold Runtime.atomicAccessorOnValue
  rw [hvalue]
  cases value <;> rfl

/-- The ticks and the book of a short run: a bid at 99, an ask at 101, a tick in between. -/
def quotedRun : List (EngineOp ExactDouble) :=
  [.book (.addGetKey "AAPL" 1 .bid (.fin 99) 10 0 {} false),
    .dispatcher (.onTick (Dispatcher.priceTick 100 (by decide))),
    .book (.addGetKey "AAPL" 2 .ask (.fin 101) 10 0 {} false)]

theorem accessor_reads_spread : (Runtime.atomicAccessorOnValue
    ((registerWith Dispatcher.onePrice false).after quotedRun).resolve {} "AAPL" "ob.spread"
      (some 0) false).2.calls.map (fun c => (c.node, TreeBuilder.toDouble c.value.value)) =
    [(0, .fin 2)] := by
  rw [accessor_reads_book Dispatcher.onePrice false (by decide +kernel) rfl]
  decide +kernel

end EngineState
end GmaEngine
