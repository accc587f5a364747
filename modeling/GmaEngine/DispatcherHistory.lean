import GmaEngine.Dispatcher

/-!
# The histories of the Dispatcher

The history of a field is extended once for every listener that a tick reaches, so it keeps
one entry per tick exactly as long as there is one listener, or the repeated entries cannot be
told from older ones.
-/

namespace GmaEngine
namespace Dispatcher
variable {D : Type}

@[simp] theorem history_setHistory (d : Dispatcher D) (symbol field : String) (hist : List D)
    (s f : String) : (d.setHistory symbol field hist).history s f =
      if s = symbol ∧ f = field then hist else d.history s f := by
  simp only [history, fieldHistories, setHistory, lookupKey_assignKey]
  by_cases hs : s = symbol
  · subst hs
    rw [if_pos rfl, Option.getD_some, lookupKey_assignKey]
    by_cases hf : f = field <;> simp [hf]
  · simp [hs]

/-- What stays as it is through a whole tick. -/
structure SameSetup (d d' : Dispatcher D) : Prop where
  cfg : d'.cfg = d.cfg
  functions : d'.functions = d.functions
  listeners : d'.listeners = d.listeners

namespace SameSetup

theorem refl (d : Dispatcher D) : SameSetup d d := ⟨rfl, rfl, rfl⟩

theorem trans {d d' d'' : Dispatcher D} (h : SameSetup d d') (h' : SameSetup d' d'') :
    SameSetup d d'' :=
  ⟨h'.cfg.trans h.cfg, h'.functions.trans h.functions, h'.listeners.trans h.listeners⟩

theorem maxHistory {d d' : Dispatcher D} (h : SameSetup d d') : d'.maxHistory = d.maxHistory := by
  simp only [Dispatcher.maxHistory, h.cfg]

theorem maxSymbols {d d' : Dispatcher D} (h : SameSetup d d') : d'.maxSymbols = d.maxSymbols := by
  simp only [Dispatcher.maxSymbols, h.cfg]

theorem maxFieldsPerSymbol {d d' : Dispatcher D} (h : SameSetup d d') :
    d'.maxFieldsPerSymbol = d.maxFieldsPerSymbol := by
  simp only [Dispatcher.maxFieldsPerSymbol, h.cfg]

end SameSetup

section Double
variable [Double D] {tick : Event D}

/-- A round of the loop either passes over the listener or pushes the number it carries. -/
theorem notify_cases (tick : Event D) (d : Dispatcher D) (pair : String × NodeId) :
    ((tick.number pair.1 = none ∨ d.refuses tick.symbol pair.1 = true) ∧
      notify tick d pair = (d, [])) ∨
      ∃ raw hist, tick.number pair.1 = some raw ∧ d.refuses tick.symbol pair.1 = false ∧
        hist = SlidingHistory.push d.maxHistory (d.history tick.symbol pair.1) raw ∧
        notify tick d pair =
          (((d.setHistory tick.symbol pair.1 hist).computeAndStoreAtomics tick.symbol hist).1,
            (d.results hist).flatMap (fun r => d.notifyListeners tick.symbol r.1 r.2) ++
              [⟨pair.1, pair.2, ⟨tick.symbol, .double raw⟩⟩]) := by
  cases hraw : tick.number pair.1 with
  | none => exact .inl ⟨.inl rfl, by simp only [notify, hraw]⟩
  | some raw =>
    cases hrefuses : d.refuses tick.symbol pair.1 with
    | true => exact .inl ⟨.inr rfl, by simp [notify, hraw, hrefuses]⟩
    | false =>
      refine .inr ⟨raw, _, rfl, rfl, rfl, ?_⟩
      simp only [notify, hraw, hrefuses, Bool.false_eq_true, if_false]
      rfl

theorem sameSetup_notify (tick : Event D) (d : Dispatcher D) (pair : String × NodeId) :
    SameSetup d (notify tick d pair).1 := by
  rcases notify_cases tick d pair with ⟨-, h⟩ | ⟨raw, hist, -, -, -, h⟩
  · rw [h]
    exact .refl d
  · rw [h]
    exact ⟨rfl, rfl, rfl⟩

theorem sameSetup_notifyAll (pairs : List (String × NodeId)) (d : Dispatcher D) :
    SameSetup d (notifyAll tick d pairs).1 := by
  induction pairs generalizing d with
  | nil => exact .refl d
  | cons pair pairs ih => exact (sameSetup_notify tick d pair).trans (ih _)

/-- The history of another field, or of another symbol, is not touched. -/
theorem history_notify_of_ne (d : Dispatcher D) {pair : String × NodeId} {symbol field : String}
    (hne : ¬(symbol = tick.symbol ∧ field = pair.1)) :
    (notify tick d pair).1.history symbol field = d.history symbol field := by
  rcases notify_cases tick d pair with ⟨-, h⟩ | ⟨raw, hist, -, -, -, h⟩
  · rw [h]
  · rw [h]
    have hhist := history_setHistory d tick.symbol pair.1 hist symbol field
    rw [if_neg hne] at hhist
    exact hhist

theorem history_notify_self (d : Dispatcher D) {pair : String × NodeId} {raw : D}
    (hraw : tick.number pair.1 = some raw) (hrefuses : d.refuses tick.symbol pair.1 = false) :
    (notify tick d pair).1.history tick.symbol pair.1 =
      SlidingHistory.push d.maxHistory (d.history tick.symbol pair.1) raw := by
  rcases notify_cases tick d pair with ⟨hskip, -⟩ | ⟨raw', hist, hraw', -, hhist, h⟩
  · rw [hraw, hrefuses] at hskip
    simp at hskip
  · cases hraw.symm.trans hraw'
    rw [h, ← hhist]
    have hset := history_setHistory d tick.symbol pair.1 hist tick.symbol pair.1
    rw [if_pos ⟨rfl, rfl⟩] at hset
    exact hset

-- A run stays within the caps when no more symbols are ticked, and no more fields of the symbol
-- are listened to, than there is room for.

/-- The histories hold only these symbols, and of the symbol only these fields. -/
structure Within (d : Dispatcher D) (symbols : Finset String) (symbol : String)
    (fields : Finset String) : Prop where
  nodup_symbols : (d.histories.map Prod.fst).Nodup
  nodup_fields : ((d.fieldHistories symbol).map Prod.fst).Nodup
  mem_symbols : ∀ s ∈ d.histories.map Prod.fst, s ∈ symbols
  mem_fields : ∀ f ∈ (d.fieldHistories symbol).map Prod.fst, f ∈ fields

omit [Double D] in
theorem Within.not_refuses {d : Dispatcher D} {symbols fields : Finset String}
    {symbol field : String} (h : d.Within symbols symbol fields) (hs : symbol ∈ symbols)
    (hf : field ∈ fields) (hsymbols : symbols.card ≤ d.maxSymbols)
    (hfields : fields.card ≤ d.maxFieldsPerSymbol) : d.refuses symbol field = false := by
  have hsym : lookupKey d.histories symbol = none → d.histories.length < d.maxSymbols :=
    fun hnone => (length_lt_of_lookupKey_none h.nodup_symbols h.mem_symbols hs hnone).trans_le hsymbols
  have hfld : lookupKey (d.fieldHistories symbol) field = none →
      (d.fieldHistories symbol).length < d.maxFieldsPerSymbol :=
    fun hnone => (length_lt_of_lookupKey_none h.nodup_fields h.mem_fields hf hnone).trans_le hfields
  simp only [refuses, Bool.or_eq_false_iff, Bool.and_eq_false_iff, decide_eq_false_iff_not, not_le]
  constructor
  · cases hlook : lookupKey d.histories symbol with
    | none => exact .inr (hsym hlook)
    | some _ => exact .inl rfl
  · cases hlook : lookupKey (d.fieldHistories symbol) field with
    | none => exact .inr (hfld hlook)
    | some _ => exact .inl rfl

theorem Within.notify {d : Dispatcher D} {symbols fields : Finset String} {symbol : String}
    {pair : String × NodeId} (h : d.Within symbols symbol fields) (hs : tick.symbol ∈ symbols)
    (hf : tick.symbol = symbol → pair.1 ∈ fields) :
    (notify tick d pair).1.Within symbols symbol fields := by
  rcases notify_cases tick d pair with ⟨-, heq⟩ | ⟨raw, hist, -, -, -, heq⟩
  · rw [heq]
    exact h
  · rw [heq]
    have hfields : (d.setHistory tick.symbol pair.1 hist).fieldHistories symbol =
        if symbol = tick.symbol then assignKey (d.fieldHistories tick.symbol) pair.1 hist
        else d.fieldHistories symbol := by
      simp only [fieldHistories, setHistory, lookupKey_assignKey]
      split_ifs <;> rfl
    refine ⟨nodup_assignKey h.nodup_symbols, ?_, ?_, ?_⟩
    · change ((d.setHistory tick.symbol pair.1 hist).fieldHistories symbol |>.map Prod.fst).Nodup
      rw [hfields]
      split_ifs with hsym
      · rw [← hsym]
        exact nodup_assignKey h.nodup_fields
      · exact h.nodup_fields
    · intro s hmem
      rcases mem_keys_assignKey.mp hmem with rfl | hmem
      · exact hs
      · exact h.mem_symbols s hmem
    · intro f hmem
      change f ∈ ((d.setHistory tick.symbol pair.1 hist).fieldHistories symbol).map Prod.fst at hmem
      rw [hfields] at hmem
      split_ifs at hmem with hsym
      · rcases mem_keys_assignKey.mp hmem with rfl | hmem
        · exact hf hsym.symm
        · exact h.mem_fields f (by rw [hsym]; exact hmem)
      · exact h.mem_fields f hmem

theorem Within.notifyAll {symbols fields : Finset String} {symbol : String}
    {pairs : List (String × NodeId)} (hs : tick.symbol ∈ symbols)
    (hf : tick.symbol = symbol → ∀ pair ∈ pairs, pair.1 ∈ fields) {d : Dispatcher D}
    (h : d.Within symbols symbol fields) :
    (notifyAll tick d pairs).1.Within symbols symbol fields := by
  induction pairs generalizing d with
  | nil => exact h
  | cons pair pairs ih =>
    apply ih (fun heq p hp => hf heq p (List.mem_cons_of_mem _ hp))
    exact h.notify hs (fun heq => hf heq pair List.mem_cons_self)

/-- The number is pushed once for each listener on the field. -/
theorem history_notifyAll {symbols fields : Finset String} {pairs : List (String × NodeId)}
    {field : String} {raw : D} (hraw : tick.number field = some raw)
    (hs : tick.symbol ∈ symbols) (hf : ∀ pair ∈ pairs, pair.1 ∈ fields) {d : Dispatcher D}
    (h : d.Within symbols tick.symbol fields) (hsymbols : symbols.card ≤ d.maxSymbols)
    (hfields : fields.card ≤ d.maxFieldsPerSymbol) :
    (notifyAll tick d pairs).1.history tick.symbol field =
      (List.replicate (pairs.countP (fun pair => pair.1 = field)) raw).foldl
        (SlidingHistory.push d.maxHistory) (d.history tick.symbol field) := by
  induction pairs generalizing d with
  | nil => rfl
  | cons pair pairs ih =>
    have hpair : pair.1 ∈ fields := hf pair List.mem_cons_self
    have hsetup := sameSetup_notify tick d pair
    have hrest := ih (fun p hp => hf p (List.mem_cons_of_mem _ hp)) (h.notify hs (fun _ => hpair))
      (hsetup.maxSymbols ▸ hsymbols) (hsetup.maxFieldsPerSymbol ▸ hfields)
    rw [hsetup.maxHistory] at hrest
    rw [notifyAll, hrest]
    by_cases heq : pair.1 = field
    · subst heq
      rw [history_notify_self d hraw (h.not_refuses hs hpair hsymbols hfields),
        List.countP_cons_of_pos (by simp), List.replicate_succ, List.foldl_cons]
    · rw [history_notify_of_ne d (by rintro ⟨-, rfl⟩; exact heq rfl),
        List.countP_cons_of_neg (by simpa using heq)]

theorem history_notifyAll_of_forall {pairs : List (String × NodeId)} {symbol field : String}
    (hne : ∀ pair ∈ pairs, tick.number pair.1 ≠ none → ¬(symbol = tick.symbol ∧ field = pair.1))
    (d : Dispatcher D) :
    (notifyAll tick d pairs).1.history symbol field = d.history symbol field := by
  induction pairs generalizing d with
  | nil => rfl
  | cons pair pairs ih =>
    rw [notifyAll, ih (fun p hp => hne p (List.mem_cons_of_mem _ hp))]
    by_cases hnum : tick.number pair.1 = none
    · have hskip : notify tick d pair = (d, []) := by simp only [notify, hnum]
      rw [hskip]
    · exact history_notify_of_ne d (hne pair List.mem_cons_self hnum)

omit [Double D] in
/-- How often a field stands among the collected listeners, with nodes of some kind. -/
theorem countP_flatMap_entries {entries : List (String × List NodeId)} {field : String}
    (hnodup : (entries.map Prod.fst).Nodup) (has : String → Bool) (hfield : has field = true)
    (q : NodeId → Bool) :
    (entries.flatMap (fun entry => if has entry.1 then entry.2.map (entry.1, ·) else [])).countP
      (fun pair => pair.1 = field ∧ q pair.2) = ((lookupKey entries field).getD []).countP q := by
  induction entries with
  | nil => rfl
  | cons entry entries ih =>
    obtain ⟨hhead, htail⟩ := List.nodup_cons.mp hnodup
    rw [List.flatMap_cons, List.countP_append, ih htail, lookupKey_cons]
    by_cases heq : entry.1 = field
    · have hnone : lookupKey entries field = none := by
        apply lookupKey_eq_none_iff.mpr
        intro e he hef
        apply hhead
        rw [heq, ← hef]
        exact List.mem_map_of_mem he
      rw [hnone, if_pos heq, if_pos (heq ▸ hfield)]
      simp [List.countP_map, Function.comp_def, heq]
    · rw [if_neg heq]
      have hzero : (if has entry.1 then entry.2.map (entry.1, ·) else []).countP
          (fun pair => pair.1 = field ∧ q pair.2) = 0 := by
        split_ifs
        · simp [List.countP_map, Function.comp_def, heq]
        · rfl
      rw [hzero, Nat.zero_add]

omit [Double D] in
theorem countP_toNotify {d : Dispatcher D} {field : String}
    (hhas : (tick.payload.member (cString field)).isSome) (q : NodeId → Bool) :
    (d.toNotify tick).countP (fun pair => pair.1 = field ∧ q pair.2) =
      ((d.listeners tick.symbol).on field).countP q :=
  countP_flatMap_entries (d.listeners tick.symbol).nodup_fields
    (fun f => (tick.payload.member (cString f)).isSome) hhas q

theorem isSome_member_of_number {field : String} {raw : D} (h : tick.number field = some raw) :
    (tick.payload.member (cString field)).isSome := by
  unfold Event.number at h
  cases hmember : tick.payload.member (cString field) with
  | none => simp [hmember] at h
  | some _ => rfl

omit [Double D] in
theorem mem_toNotify {d : Dispatcher D} {pair : String × NodeId} (h : pair ∈ d.toNotify tick) :
    pair.1 ∈ (d.listeners tick.symbol).fields := by
  obtain ⟨entry, hentry, hpair⟩ := List.mem_flatMap.mp h
  split_ifs at hpair
  · obtain ⟨node, -, rfl⟩ := List.mem_map.mp hpair
    exact List.mem_map_of_mem hentry
  · cases hpair

end Double

section Math
variable [DoubleMath D] {tick : Event D}

theorem sameSetup_compute (d : Dispatcher D) (tick : Event D) : SameSetup d (d.compute tick).1 := by
  unfold compute
  split_ifs <;> exact ⟨rfl, rfl, rfl⟩

theorem histories_compute (d : Dispatcher D) (tick : Event D) :
    (d.compute tick).1.histories = d.histories := by
  unfold compute
  split_ifs <;> rfl

theorem Within.compute {d : Dispatcher D} {symbols fields : Finset String} {symbol : String}
    (h : d.Within symbols symbol fields) (tick : Event D) :
    (d.compute tick).1.Within symbols symbol fields := by
  have hhist := histories_compute d tick
  have hfields : (d.compute tick).1.fieldHistories symbol = d.fieldHistories symbol := by
    simp only [fieldHistories, hhist]
  exact ⟨hhist ▸ h.nodup_symbols, hfields ▸ h.nodup_fields, hhist ▸ h.mem_symbols,
    hfields ▸ h.mem_fields⟩

theorem sameSetup_onTick (d : Dispatcher D) (tick : Event D) : SameSetup d (d.onTick tick).1 := by
  unfold onTick
  split_ifs
  · exact .refl d
  · exact (sameSetup_compute d tick).trans (sameSetup_notifyAll _ _)

theorem fst_onTick {d : Dispatcher D} (hsymbol : tick.symbol.isEmpty = false) :
    (d.onTick tick).1 = (notifyAll tick (d.compute tick).1 (d.toNotify tick)).1 := by
  have hsame : (d.compute tick).1.toNotify tick = d.toNotify tick := by
    simp only [toNotify, (sameSetup_compute d tick).listeners]
  simp only [onTick, hsymbol, Bool.false_eq_true, if_false, hsame]

end Math
end Dispatcher

namespace DispatcherOp
variable {D : Type}

/-- The number that an operation brings for a field of a symbol. Ticks without a symbol are
not taken. -/
def carried [Double D] (symbol field : String) : DispatcherOp D → Option D
  | onTick tick => if tick.symbol = symbol ∧ tick.symbol.isEmpty = false then tick.number field
    else none
  | _ => none

def tickedSymbol : DispatcherOp D → Option String
  | onTick tick => if tick.symbol.isEmpty then none else some tick.symbol
  | _ => none

def listenedField (symbol : String) : DispatcherOp D → Option String
  | registerListener s field _ => if s = symbol then some field else none
  | _ => none

end DispatcherOp

namespace Dispatcher
variable {D : Type} [DoubleMath D]

/-- The numbers that a run brings for a field, in the order of its ticks. -/
def carriedBy (symbol field : String) (ops : List (DispatcherOp D)) : List D :=
  ops.filterMap (DispatcherOp.carried symbol field)

omit [DoubleMath D] in
/-- The symbols that are ticked in a run. -/
def tickedSymbols (ops : List (DispatcherOp D)) : Finset String :=
  (ops.filterMap DispatcherOp.tickedSymbol).toFinset

omit [DoubleMath D] in
/-- The fields of a symbol that are listened to before or in a run. -/
def listenedFields (d : Dispatcher D) (symbol : String) (ops : List (DispatcherOp D)) :
    Finset String :=
  ((d.listeners symbol).fields ++ ops.filterMap (DispatcherOp.listenedField symbol)).toFinset

/-- The caps leave room for all symbols ticked and all fields of the symbol listened to. -/
structure CapsNotReached (d : Dispatcher D) (symbol : String) (ops : List (DispatcherOp D)) :
    Prop where
  symbols : (tickedSymbols ops).card ≤ d.maxSymbols
  fields : (d.listenedFields symbol ops).card ≤ d.maxFieldsPerSymbol

/-- A state within the caps, together with its listeners. -/
structure Confined (d : Dispatcher D) (symbols : Finset String) (symbol : String)
    (fields : Finset String) : Prop where
  within : d.Within symbols symbol fields
  listened : ∀ f ∈ (d.listeners symbol).fields, f ∈ fields
  symbols_le : symbols.card ≤ d.maxSymbols
  fields_le : fields.card ≤ d.maxFieldsPerSymbol

/-- An operation that ticks only these symbols and listens only to these fields of the symbol. -/
structure Confines (symbols : Finset String) (symbol : String) (fields : Finset String)
    (op : DispatcherOp D) : Prop where
  ticked : ∀ s, op.tickedSymbol = some s → s ∈ symbols
  listened : ∀ f, op.listenedField symbol = some f → f ∈ fields

omit [DoubleMath D] in
theorem fields_setListeners (d : Dispatcher D) (s symbol : String) (fl : FieldListeners) :
    ((d.setListeners s fl).listeners symbol).fields =
      if symbol = s then fl.fields else (d.listeners symbol).fields := by
  simp only [setListeners, Function.update_apply]
  split_ifs <;> rfl

section Exec
variable {d : Dispatcher D} {symbols fields : Finset String} {symbol : String}
  {op : DispatcherOp D}

theorem Confined.exec (h : d.Confined symbols symbol fields)
    (hop : Confines symbols symbol fields op) : (d.exec op).1.Confined symbols symbol fields := by
  cases op with
  | registerListener s f node =>
    refine ⟨⟨h.within.nodup_symbols, h.within.nodup_fields, h.within.mem_symbols,
      h.within.mem_fields⟩, ?_, h.symbols_le, h.fields_le⟩
    intro f' hf'
    simp only [Dispatcher.exec, registerListener] at hf'
    rw [fields_setListeners] at hf'
    split_ifs at hf' with hsym
    · rcases FieldListeners.mem_fields_insertEntry.mp hf' with rfl | hmem
      · exact hop.listened f' (by simp [DispatcherOp.listenedField, hsym])
      · exact h.listened f' (by rw [hsym]; exact hmem)
    · exact h.listened f' hf'
  | unregisterListener s f node =>
    refine ⟨⟨h.within.nodup_symbols, h.within.nodup_fields, h.within.mem_symbols,
      h.within.mem_fields⟩, ?_, h.symbols_le, h.fields_le⟩
    intro f' hf'
    simp only [Dispatcher.exec, unregisterListener] at hf'
    rw [fields_setListeners] at hf'
    split_ifs at hf' with hsym
    · apply h.listened f'
      rw [hsym]
      exact (FieldListeners.fields_removeEntry_sublist _).subset hf'
    · exact h.listened f' hf'
  | onTick tick =>
    have hsetup := sameSetup_onTick d tick
    refine ⟨?_, ?_, hsetup.maxSymbols ▸ h.symbols_le, hsetup.maxFieldsPerSymbol ▸ h.fields_le⟩
    · cases hempty : tick.symbol.isEmpty with
      | true =>
        simp only [Dispatcher.exec, Dispatcher.onTick, hempty, if_true]
        exact h.within
      | false =>
        simp only [Dispatcher.exec]
        rw [fst_onTick hempty]
        apply Within.notifyAll (hop.ticked _ (by simp [DispatcherOp.tickedSymbol, hempty]))
        · intro hsym pair hpair
          exact h.listened _ (hsym ▸ mem_toNotify hpair)
        · exact h.within.compute tick
    · simp only [Dispatcher.exec]
      rw [hsetup.listeners]
      exact h.listened

/-- What an operation does to the history of one field. -/
theorem history_exec (h : d.Confined symbols symbol fields)
    (hop : Confines symbols symbol fields op) (field : String) :
    (d.exec op).1.history symbol field = (op.carried symbol field).elim (d.history symbol field)
      (fun raw => (List.replicate ((d.listeners symbol).on field).length raw).foldl
        (SlidingHistory.push d.maxHistory) (d.history symbol field)) := by
  cases op with
  | registerListener s f node => rfl
  | unregisterListener s f node => rfl
  | onTick tick =>
    have hcompute : (d.compute tick).1.history symbol field = d.history symbol field := by
      simp only [history, fieldHistories, histories_compute]
    simp only [Dispatcher.exec, DispatcherOp.carried]
    cases hempty : tick.symbol.isEmpty with
    | true => simp [Dispatcher.onTick, hempty]
    | false =>
      rw [fst_onTick hempty]
      by_cases hsym : tick.symbol = symbol
      · subst hsym
        rw [if_pos ⟨rfl, rfl⟩]
        have hsetup := sameSetup_compute d tick
        cases hraw : tick.number field with
        | none =>
          rw [history_notifyAll_of_forall, hcompute]
          · rfl
          · rintro pair - hnum ⟨-, rfl⟩
            exact hnum hraw
        | some raw =>
          have hcount := countP_toNotify (d := d) (isSome_member_of_number hraw) (fun _ => true)
          simp only [and_true, List.countP_true] at hcount
          rw [history_notifyAll hraw (hop.ticked _ (by simp [DispatcherOp.tickedSymbol, hempty]))
            (fun pair hpair => h.listened _ (mem_toNotify hpair)) (h.within.compute tick)
            (hsetup.maxSymbols ▸ h.symbols_le) (hsetup.maxFieldsPerSymbol ▸ h.fields_le),
            hcount, hcompute, hsetup.maxHistory]
          rfl
      · rw [if_neg (fun hand => hsym hand.1), history_notifyAll_of_forall, hcompute]
        · rfl
        · rintro pair - - ⟨rfl, -⟩
          exact hsym rfl

end Exec

section Run
variable {d : Dispatcher D} {symbol field : String} {ops : List (DispatcherOp D)}

omit [DoubleMath D] in
theorem confines_of_mem {op : DispatcherOp D} (hop : op ∈ ops) :
    Confines (tickedSymbols ops) symbol (d.listenedFields symbol ops) op := by
  refine ⟨?_, ?_⟩
  · intro s hs
    exact List.mem_toFinset.mpr (List.mem_filterMap.mpr ⟨op, hop, hs⟩)
  · intro f hf
    apply List.mem_toFinset.mpr
    exact List.mem_append_right _ (List.mem_filterMap.mpr ⟨op, hop, hf⟩)

theorem Confined.after {symbols fields : Finset String} (hops : ∀ op ∈ ops,
    Confines symbols symbol fields op) {d : Dispatcher D} (h : d.Confined symbols symbol fields) :
    (d.after ops).Confined symbols symbol fields := by
  induction ops generalizing d with
  | nil => exact h
  | cons op ops ih =>
    apply ih (fun o ho => hops o (List.mem_cons_of_mem _ ho))
    exact h.exec (hops op List.mem_cons_self)

omit [DoubleMath D] in
/-- A dispatcher without histories is within the caps of every run that fits them. -/
theorem confined_of_histories_nil (hnew : d.histories = []) (hcaps : d.CapsNotReached symbol ops) :
    d.Confined (tickedSymbols ops) symbol (d.listenedFields symbol ops) := by
  refine ⟨⟨?_, ?_, ?_, ?_⟩, ?_, hcaps.symbols, hcaps.fields⟩
  · simp [hnew]
  · simp [fieldHistories, hnew]
  · simp [hnew]
  · simp [fieldHistories, hnew]
  · intro f hf
    exact List.mem_toFinset.mpr (List.mem_append_left _ hf)

theorem maxHistory_exec (d : Dispatcher D) (op : DispatcherOp D) :
    (d.exec op).1.maxHistory = d.maxHistory := by
  cases op with
  | registerListener s f node => rfl
  | unregisterListener s f node => rfl
  | onTick tick => exact (sameSetup_onTick d tick).maxHistory

theorem maxHistory_after (d : Dispatcher D) (ops : List (DispatcherOp D)) :
    (d.after ops).maxHistory = d.maxHistory := by
  induction ops generalizing d with
  | nil => rfl
  | cons op ops ih => exact (ih _).trans (maxHistory_exec d op)

theorem carriedBy_snoc (pre : List (DispatcherOp D)) (op : DispatcherOp D) :
    carriedBy symbol field (pre ++ [op]) =
      carriedBy symbol field pre ++ (op.carried symbol field).toList := by
  rw [carriedBy, List.filterMap_append]
  cases h : op.carried symbol field <;> simp [h, carriedBy]

/-- How the next operation of a run extends a history that is right so far. -/
theorem history_step {pre : List (DispatcherOp D)} {op : DispatcherOp D} (hnew : d.histories = [])
    (hcaps : d.CapsNotReached symbol ops) (hpre : pre ++ [op] <+: ops)
    (hright : (d.after pre).history symbol field =
      (carriedBy symbol field pre).rtake d.maxHistory) :
    (d.after (pre ++ [op])).history symbol field =
      (op.carried symbol field).elim ((carriedBy symbol field pre).rtake d.maxHistory)
        (fun raw => (carriedBy symbol field pre ++
          List.replicate (((d.after pre).listeners symbol).on field).length raw).rtake
            d.maxHistory) := by
  have hmem : ∀ o ∈ pre ++ [op], o ∈ ops := fun o ho => hpre.subset ho
  have hconfined := (confined_of_histories_nil hnew hcaps).after
    (fun o ho => confines_of_mem (hmem o (List.mem_append_left _ ho)))
  rw [after_append, after_singleton, history_exec hconfined (confines_of_mem (hmem op (by simp))),
    hright, maxHistory_after]
  cases op.carried symbol field with
  | none => rfl
  | some raw => exact SlidingHistory.foldl_push d.maxHistory_pos

/-- In a run within the caps, the history of a field that always has a listener keeps the last
values, one per tick, if and only if every tick that carries the field finds a single listener
on it or finds and leaves a history in which all entries are its own value. -/
theorem history_per_tick_iff (hnew : d.histories = []) (hcaps : d.CapsNotReached symbol ops)
    (hlistened : ∀ pre, pre <+: ops → ((d.after pre).listeners symbol).on field ≠ []) :
    (∀ pre, pre <+: ops → (d.after pre).history symbol field =
        (carriedBy symbol field pre).rtake d.maxHistory) ↔
      ∀ pre op raw, pre ++ [op] <+: ops → op.carried symbol field = some raw →
        (((d.after pre).listeners symbol).on field).length = 1 ∨
          (carriedBy symbol field pre ++ [raw]).rtake d.maxHistory =
            List.replicate d.maxHistory raw := by
  have hpos : ∀ pre, pre <+: ops → 0 < (((d.after pre).listeners symbol).on field).length :=
    fun pre hpre => List.length_pos_iff.mpr (hlistened pre hpre)
  constructor
  · intro hright pre op raw hpre hraw
    have hpre' := (List.prefix_append pre [op]).trans hpre
    have hstep := history_step hnew hcaps hpre (hright pre hpre')
    rw [hright _ hpre, carriedBy_snoc, hraw, Option.toList_some, Option.elim_some] at hstep
    exact (SlidingHistory.rtake_append_replicate_eq_iff (hpos pre hpre')).mp hstep.symm
  · intro hcond pre
    induction pre using List.reverseRecOn with
    | nil =>
      intro _
      simp [history, fieldHistories, hnew, carriedBy]
    | append_singleton pre op ih =>
      intro hpre
      have hpre' := (List.prefix_append pre [op]).trans hpre
      rw [history_step hnew hcaps hpre (ih hpre'), carriedBy_snoc]
      cases hraw : op.carried symbol field with
      | none => simp
      | some raw =>
        rw [Option.elim_some, Option.toList_some]
        exact (SlidingHistory.rtake_append_replicate_eq_iff (hpos pre hpre')).mpr
          (hcond pre op raw hpre hraw)

end Run

/-- A dispatcher with the default settings and one listener on AAPL's price. -/
def onePrice : Dispatcher ExactDouble :=
  let d : Dispatcher ExactDouble :=
    { cfg := { taBBands_stdK := .fin 2 }, functions := builtinFunctions ExactDouble }
  d.registerListener "AAPL" "price" 0

def priceTick (price : ℤ) (h : -2 ^ 63 ≤ price ∧ price < 2 ^ 64) : Event ExactDouble where
  symbol := "AAPL"
  payload := .object [("price", .int (.ofRange price h))]

theorem range_fortyTwo : -2 ^ 63 ≤ (42 : ℤ) ∧ (42 : ℤ) < 2 ^ 64 := by decide

theorem range_fortyThree : -2 ^ 63 ≤ (43 : ℤ) ∧ (43 : ℤ) < 2 ^ 64 := by decide

def twoTicks : List (DispatcherOp ExactDouble) :=
  [.onTick (priceTick 42 (by decide)), .onTick (priceTick 43 (by decide))]

theorem history_per_tick_onePrice : (onePrice.after twoTicks).history "AAPL" "price" =
    (carriedBy "AAPL" "price" twoTicks).rtake onePrice.maxHistory := by
  have hsingle : ∀ pre, pre <+: twoTicks → (((onePrice.after pre).listeners "AAPL").on "price") = [0] := by
    intro pre hpre
    rw [← List.mem_inits] at hpre
    simp only [twoTicks, List.inits, List.map_cons, List.map_nil, List.mem_cons, List.not_mem_nil,
      or_false] at hpre
    rcases hpre with rfl | rfl | rfl <;> decide +kernel
  refine (history_per_tick_iff rfl ⟨by decide +kernel, by decide +kernel⟩ ?_).mpr ?_ _
    (List.prefix_refl twoTicks)
  · intro pre hpre
    rw [hsingle pre hpre]
    simp
  · intro pre op raw hpre _
    rw [hsingle pre ((List.prefix_append pre [op]).trans hpre)]
    exact .inl rfl

/-- Two listeners on the price: a tick leaves two entries. -/
theorem history_two_listeners :
    let d := onePrice.registerListener "AAPL" "price" 1
    let ops := [DispatcherOp.onTick (priceTick 42 (by decide))]
    d.histories = [] ∧ d.CapsNotReached "AAPL" ops ∧
      (∀ pre, pre <+: ops → ((d.after pre).listeners "AAPL").on "price" ≠ []) ∧
      (d.after ops).history "AAPL" "price" = [.fin 42, .fin 42] ∧
      (carriedBy "AAPL" "price" ops).rtake d.maxHistory = [.fin 42] := by
  refine ⟨rfl, ⟨by decide +kernel, by decide +kernel⟩, ?_, by decide +kernel, by decide +kernel⟩
  intro pre hpre
  rw [← List.mem_inits] at hpre
  simp only [List.inits, List.map_cons, List.map_nil, List.mem_cons, List.not_mem_nil,
    or_false] at hpre
  rcases hpre with rfl | rfl <;> decide +kernel

end Dispatcher
end GmaEngine
