import GmaEngine.StoredTickKeys
import GmaEngine.TickKeys

/-!
# What a listener gets from a run

A field whose name neither a function nor the computers use reaches its listeners in one way:
the number that the payload carries is passed on. A listener that is registered once gets every
number that a run brings for its field, in order, and nothing else, whoever else listens.
-/

namespace GmaEngine

namespace FieldListeners

theorem lookupKey_insertEntry {field f : String} {node : NodeId}
    {entries : List (String × List NodeId)} (h : (entries.map Prod.fst).Pairwise (· < ·)) :
    (lookupKey (insertEntry field node entries) f).getD [] =
      if f = field then (lookupKey entries f).getD [] ++ [node]
      else (lookupKey entries f).getD [] := by
  induction entries with
  | nil =>
    rw [insertEntry, lookupKey_cons]
    by_cases hf : f = field
    · simp [hf]
    · simp [hf, Ne.symm hf]
  | cons entry entries ih =>
    obtain ⟨hhead, htail⟩ := List.pairwise_cons.mp h
    simp only [insertEntry]
    by_cases hlt : field < entry.1
    · rw [if_pos hlt, lookupKey_cons]
      by_cases hf : f = field
      · -- the field is new, since the entries are sorted
        have hnew : lookupKey (entry :: entries) f = none := by
          rw [lookupKey_eq_none_iff]
          intro e he
          rcases List.mem_cons.mp he with rfl | he
          · exact hf ▸ hlt.ne'
          · exact hf ▸ (hlt.trans (hhead e.1 (List.mem_map_of_mem he))).ne'
        rw [if_pos hf.symm, if_pos hf, hnew]
        rfl
      · rw [if_neg (Ne.symm hf), if_neg hf]
    · rw [if_neg hlt]
      by_cases heq : field = entry.1
      · subst heq
        rw [if_pos rfl, lookupKey_cons, lookupKey_cons]
        by_cases hf : f = entry.1
        · rw [if_pos hf.symm, if_pos hf.symm, if_pos hf]
          rfl
        · rw [if_neg (Ne.symm hf), if_neg (Ne.symm hf), if_neg hf]
      · rw [if_neg heq, lookupKey_cons, lookupKey_cons]
        by_cases hentry : entry.1 = f
        · have hf : f ≠ field := fun h => heq (hentry.trans h).symm
          rw [if_pos hentry, if_pos hentry, if_neg hf]
        · rw [if_neg hentry, if_neg hentry, ih htail]

theorem on_register (fl : FieldListeners) (field f : String) (node : NodeId) :
    (fl.register field node).on f = if f = field then fl.on f ++ [node] else fl.on f :=
  lookupKey_insertEntry fl.sorted

theorem lookupKey_removeEntry {field f : String} {node : NodeId}
    {entries : List (String × List NodeId)} (hnodup : (entries.map Prod.fst).Nodup) :
    (lookupKey (entries.filterMap (removeEntry field node)) f).getD [] =
      if f = field then ((lookupKey entries f).getD []).filter (· ≠ node)
      else (lookupKey entries f).getD [] := by
  induction entries with
  | nil => simp
  | cons entry entries ih =>
    obtain ⟨hhead, htail⟩ := List.nodup_cons.mp hnodup
    have hrest := ih htail
    rw [List.filterMap_cons, removeEntry, lookupKey_cons]
    by_cases hentry : entry.1 = field
    · subst hentry
      rw [if_pos rfl]
      by_cases hf : f = entry.1
      · subst hf
        have hnone : lookupKey entries entry.1 = none := lookupKey_eq_none_iff.mpr
          (fun e he heq => hhead (heq ▸ List.mem_map_of_mem he))
        rw [if_pos rfl, if_pos rfl, Option.getD_some]
        rw [if_pos rfl, hnone, Option.getD_none, List.filter_nil] at hrest
        cases hempty : entry.2.filter (· ≠ node) with
        | nil => exact hrest
        | cons n nodes =>
          dsimp only [List.isEmpty_cons]
          rw [if_neg Bool.false_ne_true, lookupKey_cons, if_pos rfl]
          rfl
      · rw [if_neg hf] at hrest ⊢
        rw [if_neg (Ne.symm hf), ← hrest]
        cases hempty : entry.2.filter (· ≠ node) with
        | nil => rfl
        | cons n nodes =>
          dsimp only [List.isEmpty_cons]
          rw [if_neg Bool.false_ne_true, lookupKey_cons, if_neg (Ne.symm hf)]
    · rw [if_neg hentry]
      dsimp only
      rw [lookupKey_cons]
      by_cases hf : entry.1 = f
      · rw [if_pos hf, if_pos hf, if_neg (fun h => hentry (hf.trans h))]
      · rw [if_neg hf, if_neg hf, hrest]

theorem on_unregister (fl : FieldListeners) (field f : String) (node : NodeId) :
    (fl.unregister field node).on f =
      if f = field then (fl.on f).filter (· ≠ node) else fl.on f :=
  lookupKey_removeEntry fl.nodup_fields

end FieldListeners

namespace Dispatcher
variable {D : Type}

/-- The values posted to a node. -/
def valuesFor (node : NodeId) (xs : List (Delivery D)) : List (StreamValue D) :=
  (xs.filter (·.node = node)).map Delivery.value

@[simp] theorem valuesFor_nil (node : NodeId) : valuesFor node ([] : List (Delivery D)) = [] := rfl

@[simp] theorem valuesFor_append (node : NodeId) (xs ys : List (Delivery D)) :
    valuesFor node (xs ++ ys) = valuesFor node xs ++ valuesFor node ys := by
  rw [valuesFor, List.filter_append, List.map_append]
  rfl

theorem valuesFor_eq_nil {node : NodeId} {xs : List (Delivery D)} (h : ∀ x ∈ xs, x.node ≠ node) :
    valuesFor node xs = [] := by
  rw [valuesFor, List.filter_eq_nil_iff.mpr (by simpa using h), List.map_nil]

theorem node_of_mem_notifyListeners {d : Dispatcher D} {symbol field : String} {value : D}
    {x : Delivery D} (h : x ∈ d.notifyListeners symbol field value) :
    x.node ∈ (d.listeners symbol).on field := by
  obtain ⟨n, hn, rfl⟩ := List.mem_map.mp h
  exact hn

/-- The node is registered once, and only for this field of this symbol. -/
def RegisteredOnce (d : Dispatcher D) (node : NodeId) (symbol field : String) : Prop :=
  ∀ s f, ((d.listeners s).on f).count node = if s = symbol ∧ f = field then 1 else 0

namespace RegisteredOnce
variable {d : Dispatcher D} {node : NodeId} {symbol field : String}

theorem of_listeners {d' : Dispatcher D} (h : d.RegisteredOnce node symbol field)
    (hsame : d'.listeners = d.listeners) : d'.RegisteredOnce node symbol field := by
  intro s f
  rw [hsame]
  exact h s f

theorem setHistory (h : d.RegisteredOnce node symbol field) (s f : String) (hist : List D) :
    (d.setHistory s f hist).RegisteredOnce node symbol field := h.of_listeners rfl

theorem eq_of_mem (h : d.RegisteredOnce node symbol field) {s f : String}
    (hmem : node ∈ (d.listeners s).on f) : s = symbol ∧ f = field := by
  by_contra hne
  have hcount := h s f
  rw [if_neg hne] at hcount
  exact List.count_eq_zero.mp hcount hmem

/-- Other nodes may come and go. -/
theorem register (h : d.RegisteredOnce node symbol field) (s f : String) {other : NodeId}
    (hother : other ≠ node) : (d.registerListener s f other).RegisteredOnce node symbol field := by
  intro s' f'
  rw [← h s' f']
  simp only [registerListener, setListeners, Function.update_apply]
  split_ifs with hs
  · subst hs
    rw [FieldListeners.on_register]
    split_ifs
    · rw [List.count_append, List.count_singleton, if_neg (by simpa using hother), Nat.add_zero]
    · rfl
  · rfl

theorem unregister (h : d.RegisteredOnce node symbol field) (s f : String) {other : NodeId}
    (hother : other ≠ node) :
    (d.unregisterListener s f other).RegisteredOnce node symbol field := by
  intro s' f'
  rw [← h s' f']
  simp only [unregisterListener, setListeners, Function.update_apply]
  split_ifs with hs
  · subst hs
    rw [FieldListeners.on_unregister]
    split_ifs
    · rw [List.count_filter (by simpa using hother.symm)]
    · rfl
  · rfl

/-- A node that no field lists is registered once by its registration. -/
theorem of_fresh (hfresh : ∀ s f, node ∉ (d.listeners s).on f) :
    (d.registerListener symbol field node).RegisteredOnce node symbol field := by
  intro s f
  simp only [registerListener, setListeners, Function.update_apply]
  by_cases hs : s = symbol
  · subst hs
    rw [if_pos rfl, FieldListeners.on_register]
    by_cases hf : f = field
    · rw [if_pos hf, if_pos ⟨rfl, hf⟩, List.count_append, List.count_eq_zero.mpr (hfresh s f),
        List.count_singleton_self]
    · rw [if_neg hf, if_neg (fun h => hf h.2)]
      exact List.count_eq_zero.mpr (hfresh s f)
  · rw [if_neg hs, if_neg (fun h => hs h.1)]
    exact List.count_eq_zero.mpr (hfresh s f)

end RegisteredOnce

section Math
variable [DoubleMath D] {tick : Event D}

/-- The computers announce no value under this key. -/
def Unannounced (cs : List (MarketTickComputer D)) (key : String) : Prop :=
  ∀ c ∈ cs, ∀ hist e, key ∉ (c.announced (c.taResults hist e)).map Prod.fst

theorem unannounced_of_not_isResultKey {key : String} (h : ¬MarketTA.IsResultKey key)
    (cs : List (MarketTickComputer D)) : Unannounced cs key := by
  intro c _ hist e hmem
  obtain ⟨r, hr, rfl⟩ := List.mem_map.mp hmem
  exact h (MarketTA.names_taResults c hist e r (List.mem_filter.mp hr).1)

theorem fst_compute_computer (tick : Event D) (c : MarketTickComputer D)
    (store : AtomicStore D) :
    ∃ histories, (c.compute tick store).1 = { c with symbolHistories := histories } := by
  unfold MarketTickComputer.compute
  split
  · exact ⟨_, rfl⟩
  · dsimp only
    split_ifs <;> exact ⟨_, rfl⟩

theorem mem_announced_of_compute {c : MarketTickComputer D} {store : AtomicStore D}
    {r : String × D} (h : r ∈ (c.compute tick store).2.2) :
    ∃ hist e, r ∈ c.announced (c.taResults hist e) := by
  unfold MarketTickComputer.compute at h
  split at h
  · cases h
  · dsimp only at h
    split_ifs at h
    · cases h
    · exact ⟨_, _, h⟩
    · exact ⟨_, _, h⟩

variable {key : String}

/-- A tick changes the histories of the computers, not what they may announce. -/
theorem Unannounced.runTickComputers {cs : List (MarketTickComputer D)} (h : Unannounced cs key)
    (store : AtomicStore D) : Unannounced (runTickComputers tick cs store).1 key ∧
      key ∉ (Dispatcher.runTickComputers tick cs store).2.2.map Prod.fst := by
  induction cs generalizing store with
  | nil => exact ⟨h, List.not_mem_nil⟩
  | cons c cs ih =>
    obtain ⟨hc, hcs⟩ := List.forall_mem_cons.mp h
    obtain ⟨hrest, hsilent⟩ := ih hcs (c.compute tick store).2.1
    constructor
    · refine List.forall_mem_cons.mpr ⟨?_, hrest⟩
      obtain ⟨histories, heq⟩ := fst_compute_computer tick c store
      rw [heq]
      exact hc
    · change key ∉ ((c.compute tick store).2.2 ++ _).map Prod.fst
      rw [List.map_append, List.mem_append, not_or]
      refine ⟨?_, hsilent⟩
      intro hmem
      obtain ⟨r, hr, rfl⟩ := List.mem_map.mp hmem
      obtain ⟨hist, e, hr⟩ := mem_announced_of_compute hr
      exact hc hist e (List.mem_map_of_mem hr)

variable {d : Dispatcher D} {node : NodeId} {symbol field : String}

theorem Unannounced.compute (h : Unannounced d.tickComputers key) (tick : Event D) :
    Unannounced (d.compute tick).1.tickComputers key := by
  unfold Dispatcher.compute
  split_ifs
  · exact (h.runTickComputers d.store).1
  · exact h
  · exact h

theorem valuesFor_compute (honce : d.RegisteredOnce node symbol field)
    (h : Unannounced d.tickComputers field) (tick : Event D) :
    valuesFor node (d.compute tick).2 = [] := by
  unfold Dispatcher.compute
  split_ifs
  · apply valuesFor_eq_nil
    intro x hx heq
    obtain ⟨r, hr, hx⟩ := List.mem_flatMap.mp hx
    have hnode := node_of_mem_notifyListeners hx
    rw [heq] at hnode
    exact (h.runTickComputers d.store).2
      (List.mem_map.mpr ⟨r, hr, (honce.eq_of_mem hnode).2⟩)
  · rfl
  · rfl

/-- The value that a number becomes on its way to a listener. -/
def carriedValue (symbol : String) (raw : D) : StreamValue D := ⟨symbol, .double raw⟩

omit [DoubleMath D] in
theorem valuesFor_atomics (honce : d.RegisteredOnce node symbol field)
    (hname : field ∉ d.functions.names) (s : String) (hist : List D) :
    valuesFor node (d.computeAndStoreAtomics s hist).2 = [] := by
  apply valuesFor_eq_nil
  intro x hx heq
  obtain ⟨r, hr, hx⟩ := List.mem_flatMap.mp hx
  have hnode := node_of_mem_notifyListeners hx
  rw [heq] at hnode
  exact hname ((honce.eq_of_mem hnode).2 ▸ fst_mem_names_of_mem_results hr)

theorem valuesFor_notify_of_ne (honce : d.RegisteredOnce node symbol field)
    (hname : field ∉ d.functions.names) {pair : String × NodeId} (hpair : pair.2 ≠ node) :
    valuesFor node (notify tick d pair).2 = [] := by
  unfold notify
  split
  · rfl
  · split_ifs
    · rfl
    · rw [valuesFor_append, valuesFor_atomics (honce.setHistory _ _ _) hname]
      exact valuesFor_eq_nil (by simpa using hpair)

theorem valuesFor_notify (honce : d.RegisteredOnce node symbol field)
    (hname : field ∉ d.functions.names) {f : String} (hroom : d.refuses tick.symbol f = false) :
    valuesFor node (notify tick d (f, node)).2 =
      (tick.number f).toList.map (carriedValue tick.symbol) := by
  unfold notify
  cases tick.number f with
  | none => rfl
  | some raw =>
    simp only [hroom, Bool.false_eq_true, if_false]
    rw [valuesFor_append, valuesFor_atomics (honce.setHistory _ _ _) hname]
    simp [valuesFor, carriedValue]

theorem valuesFor_notifyAll_of_ne (honce : d.RegisteredOnce node symbol field)
    (hname : field ∉ d.functions.names) {pairs : List (String × NodeId)}
    (hpairs : ∀ pair ∈ pairs, pair.2 ≠ node) : valuesFor node (notifyAll tick d pairs).2 = [] := by
  induction pairs generalizing d with
  | nil => rfl
  | cons pair pairs ih =>
    have hsetup := sameSetup_notify tick d pair
    obtain ⟨hpair, hrest⟩ := List.forall_mem_cons.mp hpairs
    rw [notifyAll]
    dsimp only
    rw [valuesFor_append, valuesFor_notify_of_ne honce hname hpair,
      ih (honce.of_listeners hsetup.listeners) (hsetup.functions ▸ hname) hrest]
    rfl

/-- Within the caps the node gets one value for each of its turns in the loop. -/
theorem valuesFor_notifyAll {symbols fields : Finset String} {pairs : List (String × NodeId)}
    (honce : d.RegisteredOnce node symbol field) (hname : field ∉ d.functions.names)
    (hs : tick.symbol ∈ symbols) (hf : ∀ pair ∈ pairs, pair.1 ∈ fields)
    (h : d.Within symbols tick.symbol fields) (hsymbols : symbols.card ≤ d.maxSymbols)
    (hfields : fields.card ≤ d.maxFieldsPerSymbol) :
    valuesFor node (notifyAll tick d pairs).2 = (pairs.filter (·.2 = node)).flatMap
      (fun pair => (tick.number pair.1).toList.map (carriedValue tick.symbol)) := by
  induction pairs generalizing d with
  | nil => rfl
  | cons pair pairs ih =>
    have hsetup := sameSetup_notify tick d pair
    obtain ⟨hpair, hrest⟩ := List.forall_mem_cons.mp hf
    rw [notifyAll]
    dsimp only
    rw [valuesFor_append, ih (honce.of_listeners hsetup.listeners) (hsetup.functions ▸ hname) hrest
      (h.notify hs (fun _ => hpair)) (hsetup.maxSymbols ▸ hsymbols)
      (hsetup.maxFieldsPerSymbol ▸ hfields)]
    obtain ⟨f, n⟩ := pair
    by_cases hn : n = node
    · subst hn
      rw [valuesFor_notify honce hname (h.not_refuses hs hpair hsymbols hfields),
        List.filter_cons_of_pos (by simp), List.flatMap_cons]
    · rw [valuesFor_notify_of_ne honce hname hn, List.filter_cons_of_neg (by simpa using hn),
        List.nil_append]

omit [DoubleMath D] in
/-- The turns of a node are on the fields it is registered for. -/
theorem mem_on_of_mem_toNotify {pair : String × NodeId} (h : pair ∈ d.toNotify tick) :
    pair.2 ∈ (d.listeners tick.symbol).on pair.1 := by
  obtain ⟨entry, hentry, hpair⟩ := List.mem_flatMap.mp h
  split_ifs at hpair
  · obtain ⟨n, hn, rfl⟩ := List.mem_map.mp hpair
    have hlook : lookupKey (d.listeners tick.symbol).entries entry.1 = some entry.2 :=
      (lookupKey_eq_some_iff (d.listeners tick.symbol).nodup_fields).mpr hentry
    rw [FieldListeners.on, hlook]
    exact hn
  · cases hpair

omit [DoubleMath D] in
theorem filter_toNotify (honce : d.RegisteredOnce node symbol field) (hs : tick.symbol = symbol)
    (hhas : (tick.payload.member (cString field)).isSome) :
    (d.toNotify tick).filter (·.2 = node) = [(field, node)] := by
  have hown : ∀ pair ∈ (d.toNotify tick).filter (·.2 = node), pair = (field, node) := by
    intro pair hpair
    obtain ⟨hmem, hnode⟩ := List.mem_filter.mp hpair
    rw [decide_eq_true_eq] at hnode
    have hon := mem_on_of_mem_toNotify hmem
    rw [hnode] at hon
    exact Prod.ext (honce.eq_of_mem hon).2 hnode
  have hcount : ((d.toNotify tick).filter (·.2 = node)).length = 1 := by
    have htoNotify := countP_toNotify (d := d) hhas (fun n => decide (n = node))
    have honly : (d.toNotify tick).countP (fun pair => pair.1 = field ∧ decide (pair.2 = node)) =
        (d.toNotify tick).countP (fun pair => pair.2 = node) := by
      apply List.countP_congr
      intro pair hpair
      have hiff : pair.2 = node → pair.1 = field := by
        intro hnode
        have hon := mem_on_of_mem_toNotify hpair
        rw [hnode] at hon
        exact (honce.eq_of_mem hon).2
      simpa using hiff
    have honce' := honce tick.symbol field
    rw [if_pos ⟨hs, rfl⟩] at honce'
    rw [← List.countP_eq_length_filter, ← honly, htoNotify, ← honce', List.count]
    rfl
  obtain ⟨pair, hpair⟩ := List.length_eq_one_iff.mp hcount
  rw [hpair, hown pair (by rw [hpair]; exact List.mem_singleton_self _)]

theorem Unannounced.onTick (h : Unannounced d.tickComputers key) (tick : Event D) :
    Unannounced (d.onTick tick).1.tickComputers key := by
  cases hsymbol : tick.symbol.isEmpty with
  | true =>
    rw [Dispatcher.onTick, if_pos hsymbol]
    exact h
  | false =>
    rw [fst_onTick hsymbol, tickComputers_notifyAll]
    exact h.compute tick

end Math
end Dispatcher

/-- The operation does not register or unregister the node. -/
def DispatcherOp.spares {D : Type} (node : NodeId) : DispatcherOp D → Prop
  | registerListener _ _ other => other ≠ node
  | unregisterListener _ _ other => other ≠ node
  | onTick _ => True

namespace Dispatcher
variable {D : Type} [DoubleMath D] {d : Dispatcher D} {node : NodeId} {symbol field : String}
  {symbols fields : Finset String}

/-- A node that is registered once for a field that only payloads carry. -/
structure Hears (d : Dispatcher D) (node : NodeId) (symbol field : String) : Prop where
  once : d.RegisteredOnce node symbol field
  unnamed : field ∉ d.functions.names
  unannounced : Unannounced d.tickComputers field

theorem Hears.exec (h : d.Hears node symbol field) {op : DispatcherOp D} (hop : op.spares node) :
    (d.exec op).1.Hears node symbol field := by
  cases op with
  | registerListener s f other => exact ⟨h.once.register s f hop, h.unnamed, h.unannounced⟩
  | unregisterListener s f other => exact ⟨h.once.unregister s f hop, h.unnamed, h.unannounced⟩
  | onTick tick =>
    have hsetup := sameSetup_onTick d tick
    refine ⟨h.once.of_listeners hsetup.listeners, ?_, h.unannounced.onTick tick⟩
    change field ∉ (d.onTick tick).1.functions.names
    rw [hsetup.functions]
    exact h.unnamed

/-- What one operation posts to the node. -/
theorem valuesFor_exec (h : d.Hears node symbol field) {op : DispatcherOp D}
    (hconfined : d.Confined symbols symbol fields) (hop : Confines symbols symbol fields op) :
    valuesFor node (d.exec op).2 = (op.carried symbol field).toList.map (carriedValue symbol) := by
  cases op with
  | registerListener s f other => rfl
  | unregisterListener s f other => rfl
  | onTick tick =>
    change valuesFor node (d.onTick tick).2 = _
    rw [DispatcherOp.carried]
    cases hempty : tick.symbol.isEmpty with
    | true => simp [onTick, hempty]
    | false =>
      have hsetup := sameSetup_compute d tick
      have honce := h.once.of_listeners hsetup.listeners
      have hname : field ∉ (d.compute tick).1.functions.names := hsetup.functions ▸ h.unnamed
      have hsplit : (d.onTick tick).2 = (d.compute tick).2 ++
          (notifyAll tick (d.compute tick).1 ((d.compute tick).1.toNotify tick)).2 := by
        simp only [onTick, hempty, Bool.false_eq_true, if_false]
      rw [hsplit, valuesFor_append, valuesFor_compute h.once h.unannounced, List.nil_append]
      by_cases hs : tick.symbol = symbol
      · subst hs
        rw [if_pos ⟨rfl, rfl⟩, valuesFor_notifyAll honce hname
          (hop.ticked _ (by simp [DispatcherOp.tickedSymbol, hempty]))
          (fun pair hpair => hconfined.listened _ (by
            rw [← hsetup.listeners]
            exact mem_toNotify hpair))
          (hconfined.within.compute tick) (hsetup.maxSymbols ▸ hconfined.symbols_le)
          (hsetup.maxFieldsPerSymbol ▸ hconfined.fields_le)]
        cases hraw : tick.number field with
        | none =>
          apply List.flatMap_eq_nil_iff.mpr
          intro pair hpair
          obtain ⟨hmem, hnode⟩ := List.mem_filter.mp hpair
          have hon := mem_on_of_mem_toNotify hmem
          rw [of_decide_eq_true hnode] at hon
          rw [(honce.eq_of_mem hon).2, hraw]
          rfl
        | some raw =>
          rw [filter_toNotify honce rfl (isSome_member_of_number hraw)]
          simp [hraw]
      · rw [if_neg (fun hand => hs hand.1)]
        apply valuesFor_notifyAll_of_ne honce hname
        intro pair hpair hnode
        have hon := mem_on_of_mem_toNotify hpair
        rw [hnode] at hon
        exact hs (honce.eq_of_mem hon).1

end Dispatcher
end GmaEngine
