import GmaEngine.MarketTA

/-!
# The Dispatcher

An event first goes to the computers of its type. Then every listener on a field that the
payload carries as a number gets that number, and each time the history of the field is
extended and all registered functions are evaluated on it. Values are posted to the thread
pool; a delivery is one such post, in the order in which they are made.
-/

namespace GmaEngine

/-- The listeners of one symbol: a `std::map` from fields, in the order of its keys. -/
structure FieldListeners where
  entries : List (String × List NodeId) := []
  sorted : (entries.map Prod.fst).Pairwise (· < ·) := by decide

namespace FieldListeners

theorem sorted_nil : (([] : List (String × List NodeId)).map Prod.fst).Pairwise (· < ·) :=
  List.Pairwise.nil

def insertEntry (field : String) (node : NodeId) :
    List (String × List NodeId) → List (String × List NodeId)
  | [] => [(field, [node])]
  | (f, nodes) :: rest =>
    if field < f then (field, [node]) :: (f, nodes) :: rest
    else if field = f then (f, nodes ++ [node]) :: rest
    else (f, nodes) :: insertEntry field node rest

theorem mem_fields_insertEntry {field f : String} {node : NodeId}
    {entries : List (String × List NodeId)} :
    f ∈ (insertEntry field node entries).map Prod.fst ↔ f = field ∨ f ∈ entries.map Prod.fst := by
  induction entries with
  | nil => simp [insertEntry]
  | cons entry entries ih =>
    simp only [insertEntry]
    split_ifs with hlt heq
    · simp
    · simp [heq]
    · simp only [List.map_cons, List.mem_cons, ih]
      tauto

theorem sorted_insertEntry {field : String} {node : NodeId}
    {entries : List (String × List NodeId)} (h : (entries.map Prod.fst).Pairwise (· < ·)) :
    ((insertEntry field node entries).map Prod.fst).Pairwise (· < ·) := by
  induction entries with
  | nil => simp [insertEntry]
  | cons entry entries ih =>
    obtain ⟨hhead, htail⟩ := List.pairwise_cons.mp h
    simp only [insertEntry]
    split_ifs with hlt heq
    · refine List.pairwise_cons.mpr ⟨?_, h⟩
      intro f hf
      rcases List.mem_cons.mp hf with rfl | hf
      · exact hlt
      · exact hlt.trans (hhead f hf)
    · exact h
    · refine List.pairwise_cons.mpr ⟨?_, ih htail⟩
      intro f hf
      rcases mem_fields_insertEntry.mp hf with rfl | hf
      · exact lt_of_le_of_ne (not_lt.mp hlt) (Ne.symm heq)
      · exact hhead f hf

def register (fl : FieldListeners) (field : String) (node : NodeId) : FieldListeners where
  entries := insertEntry field node fl.entries
  sorted := sorted_insertEntry fl.sorted

/-- A field that loses its last listener leaves the map. -/
def removeEntry (field : String) (node : NodeId) (entry : String × List NodeId) :
    Option (String × List NodeId) :=
  if entry.1 = field then
    let nodes := entry.2.filter (· ≠ node)
    if nodes.isEmpty then none else some (entry.1, nodes)
  else some entry

theorem removeEntry_fst {field : String} {node : NodeId} {entry e : String × List NodeId}
    (h : removeEntry field node entry = some e) : e.1 = entry.1 := by
  simp only [removeEntry] at h
  split_ifs at h
  · rw [← Option.some.inj h]
  · rw [← Option.some.inj h]

theorem fields_removeEntry_sublist {field : String} {node : NodeId}
    (entries : List (String × List NodeId)) :
    ((entries.filterMap (removeEntry field node)).map Prod.fst).Sublist (entries.map Prod.fst) := by
  induction entries with
  | nil => exact List.Sublist.slnil
  | cons entry entries ih =>
    rw [List.filterMap_cons]
    cases h : removeEntry field node entry with
    | none => exact ih.cons _
    | some e =>
      rw [List.map_cons, List.map_cons, removeEntry_fst h]
      exact ih.cons_cons _

def unregister (fl : FieldListeners) (field : String) (node : NodeId) : FieldListeners where
  entries := fl.entries.filterMap (removeEntry field node)
  sorted := fl.sorted.sublist (fields_removeEntry_sublist fl.entries)

def fields (fl : FieldListeners) : List String := fl.entries.map Prod.fst

/-- The listeners of a field. -/
def on (fl : FieldListeners) (field : String) : List NodeId :=
  (lookupKey fl.entries field).getD []

theorem nodup_fields (fl : FieldListeners) : fl.fields.Nodup :=
  fl.sorted.imp (fun h => ne_of_lt h)

end FieldListeners

/-- A value posted to a node, with the field on which the node was found listening. -/
structure Delivery (D : Type) where
  field : String
  node : NodeId
  value : StreamValue D

structure Dispatcher (D : Type) where
  cfg : Config D
  functions : FunctionTable D
  /-- The computers of the event type `tick`. -/
  tickComputers : List (MarketTickComputer D) := []
  /-- The number of computers of the type `synthetic.tick`; they have no state. -/
  syntheticComputers : ℕ := 0
  listeners : String → FieldListeners := fun _ => ⟨[], FieldListeners.sorted_nil⟩
  histories : List (String × List (String × List D)) := []
  store : AtomicStore D := {}

namespace Dispatcher
open Double DoubleMath
variable {D : Type}

def maxHistory (d : Dispatcher D) : ℕ := (Max.max 1 d.cfg.taHistoryMax).toNat
def maxSymbols (d : Dispatcher D) : ℕ := (Max.max 1 d.cfg.maxSymbols).toNat
def maxFieldsPerSymbol (d : Dispatcher D) : ℕ := (Max.max 1 d.cfg.maxFieldsPerSymbol).toNat

theorem maxHistory_pos (d : Dispatcher D) : 0 < d.maxHistory := by
  unfold maxHistory
  omega

def setListeners (d : Dispatcher D) (symbol : String) (fl : FieldListeners) : Dispatcher D :=
  { d with listeners := Function.update d.listeners symbol fl }

def registerListener (d : Dispatcher D) (symbol field : String) (node : NodeId) : Dispatcher D :=
  d.setListeners symbol ((d.listeners symbol).register field node)

def unregisterListener (d : Dispatcher D) (symbol field : String) (node : NodeId) : Dispatcher D :=
  d.setListeners symbol ((d.listeners symbol).unregister field node)

/-- One post for each listener on the field. -/
def notifyListeners (d : Dispatcher D) (symbol field : String) (value : D) : List (Delivery D) :=
  ((d.listeners symbol).on field).map (fun node => ⟨field, node, ⟨symbol, .double value⟩⟩)

def fieldHistories (d : Dispatcher D) (symbol : String) : List (String × List D) :=
  (lookupKey d.histories symbol).getD []

def history (d : Dispatcher D) (symbol field : String) : List D :=
  (lookupKey (d.fieldHistories symbol) field).getD []

def setHistory (d : Dispatcher D) (symbol field : String) (hist : List D) : Dispatcher D :=
  { d with histories :=
      assignKey d.histories symbol (assignKey (d.fieldHistories symbol) field hist) }

/-- A new symbol, or a new field of a symbol, beyond its cap. -/
def refuses (d : Dispatcher D) (symbol field : String) : Bool :=
  (lookupKey d.histories symbol).isNone && decide (d.maxSymbols ≤ d.histories.length) ||
  (lookupKey (d.fieldHistories symbol) field).isNone &&
    decide (d.maxFieldsPerSymbol ≤ (d.fieldHistories symbol).length)

/-- The functions that do not throw on the history, with their results. -/
def results (d : Dispatcher D) (hist : List D) : List (String × D) :=
  d.functions.entries.filterMap (fun fn => (fn.2 hist).map (fn.1, ·))

def computeAndStoreAtomics (d : Dispatcher D) (symbol : String) (hist : List D) :
    Dispatcher D × List (Delivery D) :=
  ({ d with store := (d.results hist).foldl (fun s r => s.set symbol r.1 (.double r.2)) d.store },
    (d.results hist).flatMap (fun r => d.notifyListeners symbol r.1 r.2))

section Double
variable [Double D]

/-- The listeners on fields that the payload has, in the order of the fields. -/
def toNotify (d : Dispatcher D) (tick : Event D) : List (String × NodeId) :=
  (d.listeners tick.symbol).entries.flatMap (fun entry =>
    if (tick.payload.member (cString entry.1)).isSome then entry.2.map (entry.1, ·) else [])

/-- One round of the loop over these listeners. -/
def notify (tick : Event D) (d : Dispatcher D) (pair : String × NodeId) :
    Dispatcher D × List (Delivery D) :=
  match tick.number pair.1 with
  | none => (d, [])
  | some raw =>
    if d.refuses tick.symbol pair.1 then (d, [])
    else
      let hist := SlidingHistory.push d.maxHistory (d.history tick.symbol pair.1) raw
      let atomics := (d.setHistory tick.symbol pair.1 hist).computeAndStoreAtomics tick.symbol hist
      (atomics.1, atomics.2 ++ [⟨pair.1, pair.2, ⟨tick.symbol, .double raw⟩⟩])

def notifyAll (tick : Event D) : Dispatcher D → List (String × NodeId) →
    Dispatcher D × List (Delivery D)
  | d, [] => (d, [])
  | d, pair :: pairs =>
    let first := notify tick d pair
    let rest := notifyAll tick first.1 pairs
    (rest.1, first.2 ++ rest.2)

end Double

section Math
variable [DoubleMath D]

/-- `SyntheticEventComputer::compute`. -/
def syntheticCompute (tick : Event D) (store : AtomicStore D) : AtomicStore D :=
  match tick.number "counter" with
  | none => store
  | some n =>
    (store.set tick.symbol "synthetic.sin" (.double (sin (mul n (ofRat (1 / 10)))))).set
      tick.symbol "synthetic.cos" (.double (cos (mul n (ofRat (1 / 10)))))

def runTickComputers (tick : Event D) : List (MarketTickComputer D) → AtomicStore D →
    List (MarketTickComputer D) × AtomicStore D × List (String × D)
  | [], store => ([], store, [])
  | c :: cs, store =>
    let first := c.compute tick store
    let rest := runTickComputers tick cs first.2.1
    (first.1 :: rest.1, rest.2.1, first.2.2 ++ rest.2.2)

/-- The computers of the event's type, one after the other. -/
def compute (d : Dispatcher D) (tick : Event D) : Dispatcher D × List (Delivery D) :=
  if tick.type = "tick" then
    let out := runTickComputers tick d.tickComputers d.store
    ({ d with tickComputers := out.1, store := out.2.1 },
      out.2.2.flatMap (fun r => d.notifyListeners tick.symbol r.1 r.2))
  else if tick.type = "synthetic.tick" then
    ({ d with store := (syntheticCompute tick)^[d.syntheticComputers] d.store }, [])
  else (d, [])

def onTick (d : Dispatcher D) (tick : Event D) : Dispatcher D × List (Delivery D) :=
  if tick.symbol.isEmpty then (d, [])
  else
    let computed := d.compute tick
    let notified := notifyAll tick computed.1 (computed.1.toNotify tick)
    (notified.1, computed.2 ++ notified.2)

end Math
end Dispatcher

inductive DispatcherOp (D : Type) where
  | registerListener (symbol field : String) (node : NodeId)
  | unregisterListener (symbol field : String) (node : NodeId)
  | onTick (tick : Event D)

namespace Dispatcher
variable {D : Type} [DoubleMath D]

def exec (d : Dispatcher D) : DispatcherOp D → Dispatcher D × List (Delivery D)
  | .registerListener symbol field node => (d.registerListener symbol field node, [])
  | .unregisterListener symbol field node => (d.unregisterListener symbol field node, [])
  | .onTick tick => d.onTick tick

/-- The state after a run. -/
def after (d : Dispatcher D) (ops : List (DispatcherOp D)) : Dispatcher D :=
  ops.foldl (fun d op => (d.exec op).1) d

@[simp] theorem after_nil (d : Dispatcher D) : d.after [] = d := rfl

@[simp] theorem after_append (d : Dispatcher D) (ops ops' : List (DispatcherOp D)) :
    d.after (ops ++ ops') = (d.after ops).after ops' := List.foldl_append

@[simp] theorem after_singleton (d : Dispatcher D) (op : DispatcherOp D) :
    d.after [op] = (d.exec op).1 := rfl

end Dispatcher
end GmaEngine
