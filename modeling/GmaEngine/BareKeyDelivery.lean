import GmaEngine.StoredTickKeys

/-!
# How often a tick reaches a listener

A listener on a key can be reached in three ways: the computer announces the key, the payload
carries it as a number, or a function of that name is evaluated, once for every listener that
the payload reaches. It gets exactly one value when exactly one of these happens, once.
-/

namespace GmaEngine
namespace Dispatcher
variable {D : Type}

/-- A listener that gets past the checks of the loop, with the history its number ends. -/
structure Pass (D : Type) where
  field : String
  node : NodeId
  hist : List D

def Delivery.reaches (key : String) (node : NodeId) (x : Delivery D) : Bool :=
  x.field = key ∧ x.node = node

/-- The function named `key` has a result for the history. -/
def evaluates (d : Dispatcher D) (key : String) (pass : Pass D) : Bool :=
  (d.results pass.hist).any (fun r => r.1 = key)

section Double
variable [Double D] {tick : Event D}

def passOf (tick : Event D) (d : Dispatcher D) (pair : String × NodeId) : Option (Pass D) :=
  (tick.number pair.1).bind (fun raw =>
    if d.refuses tick.symbol pair.1 then none
    else some ⟨pair.1, pair.2,
      SlidingHistory.push d.maxHistory (d.history tick.symbol pair.1) raw⟩)

/-- The listeners that get past the checks, as a function of the histories alone. -/
def passes (tick : Event D) : Dispatcher D → List (String × NodeId) → List (Pass D)
  | _, [] => []
  | d, pair :: pairs =>
    match passOf tick d pair with
    | none => passes tick d pairs
    | some pass => pass :: passes tick (d.setHistory tick.symbol pass.field pass.hist) pairs

theorem passes_congr {d d' : Dispatcher D} (hcfg : d'.cfg = d.cfg)
    (hhist : d'.histories = d.histories) (pairs : List (String × NodeId)) :
    passes tick d' pairs = passes tick d pairs := by
  induction pairs generalizing d d' with
  | nil => rfl
  | cons pair pairs ih =>
    have hfields : ∀ s, d'.fieldHistories s = d.fieldHistories s := by
      intro s
      simp only [fieldHistories, hhist]
    have hrefuses : d'.refuses tick.symbol pair.1 = d.refuses tick.symbol pair.1 := by
      unfold refuses maxSymbols maxFieldsPerSymbol
      rw [hcfg, hhist, hfields]
    have hpass : passOf tick d' pair = passOf tick d pair := by
      simp only [passOf, hrefuses, maxHistory, history, hcfg, hfields]
    simp only [passes, hpass]
    cases passOf tick d pair with
    | none => exact ih hcfg hhist
    | some pass =>
      have hset : (d'.setHistory tick.symbol pass.field pass.hist).histories =
          (d.setHistory tick.symbol pass.field pass.hist).histories := by
        simp only [setHistory, fieldHistories, hhist]
      exact congrArg (pass :: ·) (ih hcfg hset)

omit [Double D] in
theorem countP_notifyListeners (d : Dispatcher D) (symbol field key : String) (value : D)
    (node : NodeId) :
    (d.notifyListeners symbol field value).countP (Delivery.reaches key node) =
      if field = key then ((d.listeners symbol).on key).count node else 0 := by
  rw [notifyListeners, List.countP_map]
  split_ifs with h
  · subst h
    rw [List.count]
    congr 1
    funext n
    by_cases hn : n = node <;> simp [Delivery.reaches, hn]
  · rw [List.countP_eq_zero]
    intro n _
    simp [Delivery.reaches, h]

omit [Double D] in
theorem countP_flatMap_notifyListeners (d : Dispatcher D) (symbol key : String) (node : NodeId)
    (results : List (String × D)) :
    (results.flatMap (fun r => d.notifyListeners symbol r.1 r.2)).countP
        (Delivery.reaches key node) =
      results.countP (fun r => r.1 = key) * ((d.listeners symbol).on key).count node := by
  induction results with
  | nil => simp
  | cons r results ih =>
    rw [List.flatMap_cons, List.countP_append, ih, countP_notifyListeners]
    by_cases h : r.1 = key
    · rw [List.countP_cons_of_pos (by simpa using h), if_pos h, Nat.add_mul]
      omega
    · rw [List.countP_cons_of_neg (by simpa using h), if_neg h, Nat.zero_add]

omit [Double D] in
theorem map_fst_results_sublist (d : Dispatcher D) (hist : List D) :
    ((d.results hist).map Prod.fst).Sublist d.functions.names := by
  rw [results, FunctionTable.names]
  induction d.functions.entries with
  | nil => exact List.Sublist.slnil
  | cons fn fns ih =>
    rw [List.filterMap_cons]
    cases fn.2 hist with
    | none => exact ih.cons _
    | some value => exact ih.cons_cons _

omit [Double D] in
/-- Names are registered once, so a history gives each of them at most one result. -/
theorem countP_results (d : Dispatcher D) (key : String) (pass : Pass D) :
    (d.results pass.hist).countP (fun r => r.1 = key) = if d.evaluates key pass then 1 else 0 := by
  have hnodup := d.functions.nodup.sublist (map_fst_results_sublist d pass.hist)
  have hcount : (d.results pass.hist).countP (fun r => r.1 = key) =
      ((d.results pass.hist).map Prod.fst).count key := by
    rw [List.count, List.countP_map]
    rfl
  rw [hcount, List.Nodup.count hnodup]
  congr 1
  simp [evaluates]

/-- The posts of the loop: function results for all listeners on the key, and the numbers. -/
theorem countP_notifyAll (key : String) (node : NodeId) (pairs : List (String × NodeId))
    (d : Dispatcher D) :
    (notifyAll tick d pairs).2.countP (Delivery.reaches key node) =
      (passes tick d pairs).countP (d.evaluates key) *
          ((d.listeners tick.symbol).on key).count node +
        (passes tick d pairs).countP (fun pass => pass.field = key ∧ pass.node = node) := by
  induction pairs generalizing d with
  | nil => simp [notifyAll, passes]
  | cons pair pairs ih =>
    rw [notifyAll, List.countP_append, ih]
    rcases notify_cases tick d pair with ⟨hskip, heq⟩ | ⟨raw, hist, hraw, hrefuses, hhist, heq⟩
    · have hnone : passOf tick d pair = none := by
        rcases hskip with hnum | hrefuses
        · simp [passOf, hnum]
        · simp [passOf, hrefuses]
      rw [heq]
      simp [passes, hnone]
    · have hpass : passOf tick d pair = some ⟨pair.1, pair.2, hist⟩ := by
        simp [passOf, hraw, hrefuses, hhist]
      have hsetup := sameSetup_notify tick d pair
      have hrest : passes tick (notify tick d pair).1 pairs =
          passes tick (d.setHistory tick.symbol pair.1 hist) pairs := by
        rw [heq]
        apply passes_congr
        · rfl
        · rfl
      have hevaluates : (notify tick d pair).1.evaluates key = d.evaluates key := by
        funext pass
        simp only [evaluates, results, hsetup.functions]
      have hlast : ([⟨pair.1, pair.2, ⟨tick.symbol, .double raw⟩⟩] : List (Delivery D)).countP
          (Delivery.reaches key node) = if pair.1 = key ∧ pair.2 = node then 1 else 0 := by
        simp [Delivery.reaches, List.countP_singleton]
      rw [hrest, hevaluates, hsetup.listeners, heq]
      simp only [passes, hpass]
      rw [List.countP_append, countP_flatMap_notifyListeners,
        countP_results d key ⟨pair.1, pair.2, hist⟩, hlast, List.countP_cons, List.countP_cons]
      simp only [decide_eq_true_eq]
      split_ifs <;> ring

-- Either all listeners on a field get past the checks or none does: a field that is refused stays
-- refused through the rest of the loop, and one that has a history is never refused.

omit [Double D] in
theorem fieldHistories_setHistory (d : Dispatcher D) (symbol field : String) (hist : List D) :
    (d.setHistory symbol field hist).fieldHistories symbol =
      assignKey (d.fieldHistories symbol) field hist := by
  simp only [fieldHistories, setHistory, lookupKey_assignKey, if_true, Option.getD_some]

omit [Double D] in
/-- Once a field of the symbol is taken, another one is refused only for the number of fields. -/
theorem refuses_setHistory {d : Dispatcher D} {symbol field key : String} {hist : List D}
    (htaken : d.refuses symbol field = false) (hrefuses : d.refuses symbol key = true) :
    (d.setHistory symbol field hist).refuses symbol key = true := by
  have hne : key ≠ field := by
    rintro rfl
    rw [htaken] at hrefuses
    cases hrefuses
  simp only [refuses, Bool.or_eq_false_iff, Bool.or_eq_true] at htaken hrefuses ⊢
  rcases hrefuses with hsymbols | hfields
  · rw [htaken.1] at hsymbols
    cases hsymbols
  · refine .inr ?_
    simp only [Bool.and_eq_true, decide_eq_true_eq] at hfields ⊢
    rw [fieldHistories_setHistory, lookupKey_assignKey, if_neg hne, length_assignKey]
    exact ⟨hfields.1, hfields.2.trans (by omega)⟩

theorem passes_of_refuses {key : String} {pairs : List (String × NodeId)} {d : Dispatcher D}
    (h : d.refuses tick.symbol key = true) :
    ∀ pass ∈ passes tick d pairs, pass.field ≠ key := by
  induction pairs generalizing d with
  | nil => simp [passes]
  | cons pair pairs ih =>
    cases hpass : passOf tick d pair with
    | none =>
      simp only [passes, hpass]
      exact ih h
    | some pass =>
      obtain ⟨raw, hraw, hif⟩ := Option.bind_eq_some_iff.mp hpass
      split_ifs at hif with htaken
      obtain rfl := Option.some.inj hif
      rw [Bool.not_eq_true] at htaken
      simp only [passes, hpass, List.mem_cons]
      rintro p (rfl | hp)
      · rintro rfl
        rw [htaken] at h
        cases h
      · exact ih (refuses_setHistory htaken h) p hp

omit [Double D] in
/-- The field of the symbol has a history. -/
def HasHistory (d : Dispatcher D) (symbol field : String) : Prop :=
  (lookupKey (d.fieldHistories symbol) field).isSome

omit [Double D] in
theorem HasHistory.not_refuses {d : Dispatcher D} {symbol field : String}
    (h : d.HasHistory symbol field) : d.refuses symbol field = false := by
  have hsymbol : (lookupKey d.histories symbol).isNone = false := by
    cases hlook : lookupKey d.histories symbol with
    | none =>
      rw [HasHistory, fieldHistories, hlook] at h
      cases h
    | some _ => rfl
  unfold HasHistory at h
  simp [refuses, hsymbol, Option.isNone_eq_false_iff.mpr h]

omit [Double D] in
theorem HasHistory.setHistory {d : Dispatcher D} {symbol key : String}
    (h : d.HasHistory symbol key) (field : String) (hist : List D) :
    (d.setHistory symbol field hist).HasHistory symbol key := by
  rw [HasHistory, fieldHistories_setHistory, lookupKey_assignKey]
  split_ifs
  · rfl
  · exact h

/-- With a history, all listeners on the field get past the checks. -/
theorem countP_passes_of_hasHistory {key : String} {raw : D} (hraw : tick.number key = some raw)
    (node : NodeId) {pairs : List (String × NodeId)} {d : Dispatcher D}
    (h : d.HasHistory tick.symbol key) :
    (passes tick d pairs).countP (fun pass => pass.field = key ∧ pass.node = node) =
      pairs.countP (fun pair => pair.1 = key ∧ pair.2 = node) := by
  induction pairs generalizing d with
  | nil => rfl
  | cons pair pairs ih =>
    rw [List.countP_cons]
    cases hpass : passOf tick d pair with
    | none =>
      have hother : pair.1 ≠ key := by
        rintro rfl
        simp [passOf, hraw, h.not_refuses] at hpass
      simp only [passes, hpass]
      rw [ih h]
      simp [hother]
    | some pass =>
      obtain ⟨raw', -, hif⟩ := Option.bind_eq_some_iff.mp hpass
      split_ifs at hif
      obtain rfl := Option.some.inj hif
      simp only [passes, hpass]
      rw [List.countP_cons, ih (h.setHistory _ _)]

/-- A listener that gets past the checks has a number. -/
theorem number_of_mem_passes {pairs : List (String × NodeId)} {d : Dispatcher D} {pass : Pass D}
    (h : pass ∈ passes tick d pairs) : ∃ raw, tick.number pass.field = some raw := by
  induction pairs generalizing d with
  | nil => cases h
  | cons pair pairs ih =>
    cases hpass : passOf tick d pair with
    | none =>
      simp only [passes, hpass] at h
      exact ih h
    | some p =>
      obtain ⟨raw, hraw, hif⟩ := Option.bind_eq_some_iff.mp hpass
      split_ifs at hif
      obtain rfl := Option.some.inj hif
      simp only [passes, hpass, List.mem_cons] at h
      rcases h with rfl | h
      · exact ⟨raw, hraw⟩
      · exact ih h

omit [Double D] in
theorem countP_of_forall_field_ne {key : String} (node : NodeId) {ps : List (Pass D)}
    (h : ∀ pass ∈ ps, pass.field ≠ key) (n : ℕ) :
    ps.countP (fun pass => pass.field = key ∧ pass.node = node) =
      if ps.any (fun pass => pass.field = key) then n else 0 := by
  have hany : ps.any (fun pass => pass.field = key) = false := by simpa using h
  rw [hany, if_neg (by simp), List.countP_eq_zero]
  intro pass hpass
  simp [h pass hpass]

theorem countP_passes (key : String) (node : NodeId) (pairs : List (String × NodeId))
    (d : Dispatcher D) :
    (passes tick d pairs).countP (fun pass => pass.field = key ∧ pass.node = node) =
      if (passes tick d pairs).any (fun pass => pass.field = key) then
        pairs.countP (fun pair => pair.1 = key ∧ pair.2 = node) else 0 := by
  induction pairs generalizing d with
  | nil => rfl
  | cons pair pairs ih =>
    cases hpass : passOf tick d pair with
    | none =>
      by_cases hkey : pair.1 = key
      · -- the field is not carried, or it is refused from here on
        apply countP_of_forall_field_ne
        rintro pass hmem rfl
        obtain ⟨raw, hraw⟩ := number_of_mem_passes hmem
        cases hrefuses : d.refuses tick.symbol pass.field with
        | true => exact passes_of_refuses hrefuses pass hmem rfl
        | false => simp [passOf, hkey, hraw, hrefuses] at hpass
      · simp only [passes, hpass]
        rw [ih, List.countP_cons]
        simp [hkey]
    | some pass =>
      obtain ⟨raw, hraw, hif⟩ := Option.bind_eq_some_iff.mp hpass
      split_ifs at hif
      obtain rfl := Option.some.inj hif
      simp only [passes, hpass, List.countP_cons, List.any_cons]
      by_cases hkey : pair.1 = key
      · have hhas : (d.setHistory tick.symbol pair.1 (SlidingHistory.push d.maxHistory
            (d.history tick.symbol pair.1) raw)).HasHistory tick.symbol key := by
          rw [HasHistory, fieldHistories_setHistory, lookupKey_assignKey, if_pos hkey.symm]
          rfl
        rw [countP_passes_of_hasHistory (hkey ▸ hraw) node hhas]
        simp [hkey]
      · rw [ih]
        simp [hkey]

end Double

section Math
variable [DoubleMath D] {d : Dispatcher D} {c : MarketTickComputer D} {tick : Event D}

/-- How often the computer announces a key. -/
def announcements (c : MarketTickComputer D) (symbol : String) (e : TickEntry D) (key : String) :
    ℕ :=
  if c.fieldMap.taEnabled && c.skipFields.contains key then 0
  else (c.taResults (c.extended symbol e) e).countP (fun r => r.1 = key)

/-- How often the function of that name is evaluated, and has a result. -/
def evaluations (d : Dispatcher D) (tick : Event D) (key : String) : ℕ :=
  (passes tick d (d.toNotify tick)).countP (d.evaluates key)

/-- The payload's number for the key is passed on. -/
def passesOn (d : Dispatcher D) (tick : Event D) (key : String) : Bool :=
  (passes tick d (d.toNotify tick)).any (fun pass => pass.field = key)

omit [DoubleMath D] in
theorem countP_announced (c : MarketTickComputer D) (results : List (String × D)) (key : String) :
    (c.announced results).countP (fun r => r.1 = key) =
      if c.fieldMap.taEnabled && c.skipFields.contains key then 0
      else results.countP (fun r => r.1 = key) := by
  rw [MarketTickComputer.announced, List.countP_filter]
  split_ifs with hskip
  · rw [List.countP_eq_zero]
    intro r _ hr
    simp only [Bool.and_eq_true, decide_eq_true_eq, Bool.not_eq_true'] at hr
    rw [hr.1, hskip] at hr
    cases hr.2
  · apply List.countP_congr
    intro r _
    rw [Bool.not_eq_true] at hskip
    simp only [Bool.and_eq_true, decide_eq_true_eq, Bool.not_eq_true']
    constructor
    · exact And.left
    · intro hr
      rw [hr]
      exact ⟨rfl, hskip⟩

theorem snd_compute {e : TickEntry D} (haccepts : c.accepts tick = some e)
    (hadmits : c.admits tick.symbol) (store : AtomicStore D) :
    (c.compute tick store).2.2 = c.announced (c.taResults (c.extended tick.symbol e) e) := by
  obtain ⟨-, -, price, hprice, rfl⟩ := MarketTickComputer.accepts_eq_some haccepts
  unfold MarketTickComputer.admits at hadmits
  simp only [MarketTickComputer.compute, hprice, hadmits, Bool.false_eq_true, if_false]
  rfl

/-- The number of values that a listener gets for a tick. -/
theorem countP_onTick {e : TickEntry D} (hcomputer : d.tickComputers = [c])
    (haccepts : c.accepts tick = some e) (hadmits : c.admits tick.symbol) (key : String)
    (node : NodeId) :
    (d.onTick tick).2.countP (Delivery.reaches key node) =
      ((d.listeners tick.symbol).on key).count node *
        (announcements c tick.symbol e key + d.evaluations tick key +
          if d.passesOn tick key then 1 else 0) := by
  obtain ⟨htype, hsymbol, -⟩ := MarketTickComputer.accepts_eq_some haccepts
  have hsetup := sameSetup_compute d tick
  have hannounced : (d.compute tick).2.countP (Delivery.reaches key node) =
      announcements c tick.symbol e key * ((d.listeners tick.symbol).on key).count node := by
    rw [compute, if_pos htype]
    simp only [hcomputer, runTickComputers, List.append_nil]
    rw [countP_flatMap_notifyListeners, snd_compute haccepts hadmits, countP_announced]
    rfl
  have htoNotify : (d.compute tick).1.toNotify tick = d.toNotify tick := by
    simp only [toNotify, hsetup.listeners]
  have hevaluates : (d.compute tick).1.evaluates key = d.evaluates key := by
    funext pass
    simp only [evaluates, results, hsetup.functions]
  have hloop : (notifyAll tick (d.compute tick).1 (d.toNotify tick)).2.countP
      (Delivery.reaches key node) =
      d.evaluations tick key * ((d.listeners tick.symbol).on key).count node +
        if d.passesOn tick key then ((d.listeners tick.symbol).on key).count node else 0 := by
    rw [countP_notifyAll, hevaluates, hsetup.listeners,
      passes_congr hsetup.cfg (histories_compute d tick), countP_passes]
    congr 1
    change (if d.passesOn tick key then _ else 0) = _
    split_ifs with hpasses
    · obtain ⟨pass, hpass, hfield⟩ := List.any_eq_true.mp hpasses
      obtain ⟨raw, hraw⟩ := number_of_mem_passes hpass
      rw [of_decide_eq_true hfield] at hraw
      have hcount := countP_toNotify (d := d) (isSome_member_of_number hraw) (fun n => n == node)
      rw [List.count]
      simpa only [beq_iff_eq] using hcount
    · rfl
  simp only [onTick, hsymbol, Bool.false_eq_true, if_false]
  rw [List.countP_append, hannounced, htoNotify, hloop]
  split_ifs <;> ring

/-- A listener on a key gets exactly one value for a tick with a price if and only if exactly one
thing happens, once: the computer announces the key, a function of that name is evaluated, or the
payload's number for the key is passed on. A node that is registered more than once counts as
that many listeners. -/
theorem delivered_once_iff {e : TickEntry D} (hcomputer : d.tickComputers = [c])
    (haccepts : c.accepts tick = some e) (hadmits : c.admits tick.symbol) {key : String}
    {node : NodeId} (hnode : node ∈ (d.listeners tick.symbol).on key) :
    (d.onTick tick).2.countP (Delivery.reaches key node) =
        ((d.listeners tick.symbol).on key).count node ↔
      announcements c tick.symbol e key + d.evaluations tick key +
        (if d.passesOn tick key then 1 else 0) = 1 := by
  have hpos : 0 < ((d.listeners tick.symbol).on key).count node := List.count_pos_iff.mpr hnode
  rw [countP_onTick hcomputer haccepts hadmits]
  exact Nat.mul_eq_left (by omega)

end Math
/-- A tick of AAPL with a price and a volume. -/
def volumeTick : Event ExactDouble where
  symbol := "AAPL"
  payload := .object [("price", .int ⟨42, by decide, by decide⟩),
    ("volume", .int ⟨100, by decide, by decide⟩)]

theorem volume_delivered_once : (oneVolume.onTick volumeTick).2.countP
    (Delivery.reaches "volume" 0) = ((oneVolume.listeners "AAPL").on "volume").count 0 :=
  (delivered_once_iff (e := volumeComputer.entry volumeTick (.fin 42)) rfl rfl (by decide +kernel)
    (by decide +kernel)).mpr (by decide +kernel)

/-- The computer writes the last price, but a listener on it gets nothing when the payload has
the price under another name. -/
theorem lastPrice_not_delivered :
    let d := oneVolume.registerListener "AAPL" "lastPrice" 1
    let e := volumeComputer.entry volumeTick (.fin 42)
    d.tickComputers = [volumeComputer] ∧ volumeComputer.accepts volumeTick = some e ∧
      volumeComputer.admits "AAPL" ∧
      "lastPrice" ∈ (volumeComputer.writes (volumeComputer.extended "AAPL" e) e).map Prod.fst ∧
      1 ∈ (d.listeners "AAPL").on "lastPrice" ∧
      (d.onTick volumeTick).2.countP (Delivery.reaches "lastPrice" 1) = 0 :=
  ⟨rfl, rfl, by decide +kernel, by decide +kernel, by decide +kernel, by decide +kernel⟩

end Dispatcher
end GmaEngine
