import GmaEngine.StoreCaps
import GmaEngine.StoredTickKeys

/-!
# Ticks of rejected symbols

The quote of a tick is stored before the capacity check. A rejected tick leaves no trace exactly
when the store ignores each of these writes, because its own caps refuse them or because the
values are already there.
-/

namespace GmaEngine

namespace AtomicStore
variable {D : Type}

/-- A new key meets a cap that is reached, or the value is already there. -/
def Ignores (s : AtomicStore D) (streamKey : String) (write : String × ArgType D) : Prop :=
  match lookupKey s.data streamKey with
  | none => full s.maxStreamKeys s.data.length = true
  | some fm =>
    match lookupKey fm write.1 with
    | none => full s.maxFieldsPerStreamKey fm.length = true
    | some value => value = write.2

section
variable {cap : ℕ} {fm : List (String × ArgType D)} (hfm : (fm.map Prod.fst).Nodup)
include hfm

theorem setField_eq_self_iff {write : String × ArgType D} : setField cap fm write = fm ↔
    match lookupKey fm write.1 with
    | none => full cap fm.length = true
    | some value => value = write.2 := by
  rcases setField_cases cap fm write with ⟨hnone, hfull, heq⟩ | ⟨hroom, heq⟩
  · rw [heq, hnone]
    exact ⟨fun _ => hfull, fun _ => rfl⟩
  · rw [heq, assignKey_eq_self_iff hfm]
    cases hlook : lookupKey fm write.1 with
    | none =>
      have hfull := hroom hlook
      constructor
      · intro h
        cases h
      · intro h
        rw [h] at hfull
        cases hfull
    | some value => exact Option.some_inj

/-- Writes under distinct names have no effect together when none has one alone. -/
theorem foldl_setField_eq_self_iff {writes : List (String × ArgType D)}
    (hnames : (writes.map Prod.fst).Nodup) :
    writes.foldl (setField cap) fm = fm ↔ ∀ write ∈ writes, setField cap fm write = fm := by
  induction writes with
  | nil => exact ⟨fun _ write hwrite => (List.not_mem_nil hwrite).elim, fun _ => rfl⟩
  | cons write writes ih =>
    rw [List.map_cons, List.nodup_cons] at hnames
    rw [List.foldl_cons, List.forall_mem_cons]
    constructor
    · intro h
      -- later writes leave the field of the first one alone
      have hlook : lookupKey (setField cap fm write) write.1 = lookupKey fm write.1 := by
        rw [← lookupKey_foldl_setField_of_notMem hnames.1, h]
      have hfirst : setField cap fm write = fm := by
        rcases setField_cases cap fm write with ⟨-, -, heq⟩ | ⟨-, heq⟩
        · exact heq
        · rw [heq, lookupKey_assignKey, if_pos rfl] at hlook
          rw [heq]
          exact (assignKey_eq_self_iff hfm).mpr hlook.symm
      rw [hfirst] at h
      exact ⟨hfirst, (ih hnames.2).mp h⟩
    · rintro ⟨hfirst, hrest⟩
      rw [hfirst]
      exact (ih hnames.2).mpr hrest

end

section
variable {s : AtomicStore D} {streamKey : String} {fields : List (String × ArgType D)}
  (hs : s.Keyed)
include hs

theorem Keyed.setBatch_eq_self_iff (hne : fields ≠ []) (hnames : (fields.map Prod.fst).Nodup) :
    s.setBatch streamKey fields = s ↔ ∀ write ∈ fields, s.Ignores streamKey write := by
  cases hlook : lookupKey s.data streamKey with
  | none =>
    have hignores : (∀ write ∈ fields, s.Ignores streamKey write) ↔
        full s.maxStreamKeys s.data.length = true := by
      simp only [Ignores, hlook]
      obtain ⟨write, hwrite⟩ := List.exists_mem_of_ne_nil fields hne
      exact ⟨fun h => h write hwrite, fun h _ _ => h⟩
    rw [hignores, AtomicStore.setBatch, hlook]
    by_cases hfull : full s.maxStreamKeys s.data.length = true
    · rw [hfull]
      exact ⟨fun _ => rfl, fun _ => rfl⟩
    · rw [Bool.not_eq_true] at hfull
      rw [hfull]
      refine ⟨fun h => ?_, fun h => Bool.noConfusion h⟩
      have hlen := congrArg (fun store => store.data.length) h
      simp [length_assignKey, hlook] at hlen
  | some fm =>
    have hfm := hs.nodup_fields hlook
    have hbatch : s.setBatch streamKey fields =
        { s with data := assignKey s.data streamKey (s.merged streamKey fields) } := by
      refine (setBatch_cases s streamKey fields).resolve_left (fun hrefused => ?_)
      rw [hrefused.1] at hlook
      cases hlook
    have hdata : ∀ data, ({ s with data := data } : AtomicStore D) = s ↔ data = s.data :=
      fun data => ⟨fun h => congrArg AtomicStore.data h, fun h => by rw [h]⟩
    rw [hbatch, hdata, assignKey_eq_self_iff hs.streamKeys, hlook, Option.some_inj, eq_comm, merged,
      hlook, Option.getD_some, foldl_setField_eq_self_iff hfm hnames]
    simp only [Ignores, hlook, setField_eq_self_iff hfm]

theorem Keyed.foldl_set_eq_self_iff (hnames : (fields.map Prod.fst).Nodup) :
    fields.foldl (fun s w => s.set streamKey w.1 w.2) s = s ↔
      ∀ write ∈ fields, s.Ignores streamKey write := by
  by_cases hne : fields = []
  · rw [hne]
    exact ⟨fun _ write hwrite => (List.not_mem_nil hwrite).elim, fun _ => rfl⟩
  · rw [foldl_set hne]
    exact hs.setBatch_eq_self_iff hne hnames

theorem Keyed.foldl_set (streamKey : String) (fields : List (String × ArgType D)) :
    (fields.foldl (fun s w => s.set streamKey w.1 w.2) s).Keyed := by
  induction fields generalizing s with
  | nil => exact hs
  | cons write fields ih => exact ih (hs.setBatch streamKey [write])

end
end AtomicStore

/-- What changes the computer and the store: a tick, a batch of another component, new caps. -/
inductive StoreOp (D : Type) where
  | tick (tick : Event D)
  | setBatch (streamKey : String) (fields : List (String × ArgType D))
  | setCaps (maxStreamKeys maxFieldsPerStreamKey : ℕ)

namespace MarketTickComputer
variable {D : Type} [DoubleMath D]

/-- The new state, and what is announced under which symbol. -/
def exec (s : MarketTickComputer D × AtomicStore D) : StoreOp D →
    (MarketTickComputer D × AtomicStore D) × List (String × String × D)
  | .tick tick =>
    let (c, store, results) := s.1.compute tick s.2
    ((c, store), results.map (fun result => (tick.symbol, result)))
  | .setBatch streamKey fields => ((s.1, s.2.setBatch streamKey fields), [])
  | .setCaps maxStreamKeys maxFieldsPerStreamKey =>
    ((s.1, { s.2 with
      maxStreamKeys := maxStreamKeys, maxFieldsPerStreamKey := maxFieldsPerStreamKey }), [])

def run (s : MarketTickComputer D × AtomicStore D) : List (StoreOp D) →
    (MarketTickComputer D × AtomicStore D) × List (String × String × D)
  | [] => (s, [])
  | op :: ops =>
    let (s', announced) := exec s op
    let (last, rest) := run s' ops
    (last, announced ++ rest)

def after (s : MarketTickComputer D × AtomicStore D) (ops : List (StoreOp D)) :
    MarketTickComputer D × AtomicStore D := (run s ops).1

/-- A tick of a symbol without a history, with the computer at its capacity. -/
def rejects (s : MarketTickComputer D × AtomicStore D) : StoreOp D → Bool
  | .tick tick => !decide (s.1.admits tick.symbol)
  | _ => false

/-- The operations of a run without the rejected ticks. -/
def withoutRejected (s : MarketTickComputer D × AtomicStore D) : List (StoreOp D) →
    List (StoreOp D)
  | [] => []
  | op :: ops =>
    if rejects s op then withoutRejected (exec s op).1 ops
    else op :: withoutRejected (exec s op).1 ops

/-- The tick has no price, or its quote is nothing new to the store. -/
def QuoteIgnored (c : MarketTickComputer D) (store : AtomicStore D) (tick : Event D) : Prop :=
  ∀ price, extract c.fieldMap.priceFields tick = some price →
    ∀ write ∈ quoteValues (c.entry tick price), store.Ignores tick.symbol write

theorem nodup_quoteValues (e : TickEntry D) : ((quoteValues e).map Prod.fst).Nodup := by
  have hall : ["bid", "ask", "spread", "timestamp"].Nodup := by decide
  refine hall.sublist ?_
  have hguard : ∀ (c : Prop) [Decidable c] (write : String × ArgType D),
      ((if c then [write] else []).map Prod.fst).Sublist [write.1] := by
    intro c _ write
    split_ifs
    · exact List.Sublist.refl _
    · exact List.nil_sublist _
  rw [quoteValues, List.map_append, List.map_append, List.map_append]
  exact (((hguard _ _).append (hguard _ _)).append (hguard _ _)).append (hguard _ _)

section
variable {c : MarketTickComputer D} {store : AtomicStore D} {tick : Event D}

/-- Of a rejected tick only the quote reaches the store. -/
theorem compute_of_not_admits (h : ¬ c.admits tick.symbol) (store : AtomicStore D) :
    c.compute tick store = (c, match extract c.fieldMap.priceFields tick with
      | none => store
      | some price =>
        (quoteValues (c.entry tick price)).foldl (fun s w => s.set tick.symbol w.1 w.2) store,
      []) := by
  rw [admits, Bool.not_eq_false] at h
  rw [compute]
  cases extract c.fieldMap.priceFields tick with
  | none => rfl
  | some price => exact if_pos h

theorem compute_eq_self_iff (hstore : store.Keyed) (h : ¬ c.admits tick.symbol) :
    c.compute tick store = (c, store, []) ↔ c.QuoteIgnored store tick := by
  rw [compute_of_not_admits h]
  cases hprice : extract c.fieldMap.priceFields tick with
  | none => simp [QuoteIgnored, hprice]
  | some price =>
    have hquote : c.QuoteIgnored store tick ↔
        ∀ write ∈ quoteValues (c.entry tick price), store.Ignores tick.symbol write := by
      rw [QuoteIgnored, hprice]
      exact ⟨fun hall => hall price rfl, fun hall p hp => Option.some.inj hp ▸ hall⟩
    rw [hquote, ← hstore.foldl_set_eq_self_iff (nodup_quoteValues _)]
    exact ⟨fun heq => congrArg (fun r => r.2.1) heq, fun heq => Prod.ext rfl (Prod.ext heq rfl)⟩

theorem keyed_compute (hstore : store.Keyed) (c : MarketTickComputer D) (tick : Event D) :
    (c.compute tick store).2.1.Keyed := by
  rw [compute]
  split
  · exact hstore
  · dsimp only
    split_ifs
    · exact hstore.foldl_set _ _
    · exact hstore.foldl_set _ _
    · exact (hstore.foldl_set _ _).setBatch _ _

end

section
variable {s : MarketTickComputer D × AtomicStore D}

theorem keyed_exec (hs : s.2.Keyed) (op : StoreOp D) : (exec s op).1.2.Keyed := by
  cases op with
  | tick tick => exact keyed_compute hs s.1 tick
  | setBatch streamKey fields => exact hs.setBatch streamKey fields
  | setCaps maxStreamKeys maxFieldsPerStreamKey => exact ⟨hs.streamKeys, hs.fields⟩

theorem keyed_after (hs : s.2.Keyed) (ops : List (StoreOp D)) : (after s ops).2.Keyed := by
  induction ops generalizing s with
  | nil => exact hs
  | cons op ops ih => exact ih (keyed_exec hs op)

theorem run_cons (s : MarketTickComputer D × AtomicStore D) (op : StoreOp D)
    (ops : List (StoreOp D)) : run s (op :: ops) =
      ((run (exec s op).1 ops).1, (exec s op).2 ++ (run (exec s op).1 ops).2) := rfl

/-- A run in which the quotes of the rejected ticks are ignored is the run without them. -/
theorem run_withoutRejected (hs : s.2.Keyed) (ops : List (StoreOp D))
    (h : ∀ pre tick, pre ++ [.tick tick] <+: ops → ¬ (after s pre).1.admits tick.symbol →
      (after s pre).1.QuoteIgnored (after s pre).2 tick) :
    run s (withoutRejected s ops) = run s ops := by
  induction ops generalizing s with
  | nil => rfl
  | cons op ops ih =>
    have hrest := ih (keyed_exec hs op)
      (fun pre tick hpre => h (op :: pre) tick ((List.prefix_cons_inj op).mpr hpre))
    rw [withoutRejected]
    split_ifs with hrejects
    · cases op with
      | tick tick =>
        have hadmits : ¬ s.1.admits tick.symbol := by simpa [rejects] using hrejects
        have hquote := h [] tick ⟨ops, rfl⟩ hadmits
        have hcompute := (compute_eq_self_iff hs hadmits).mpr hquote
        have hexec : exec s (.tick tick) = (s, []) := by
          rw [exec, hcompute]
          rfl
        rw [hexec] at hrest ⊢
        rw [hrest, run_cons, hexec]
        rfl
      | setBatch streamKey fields => cases hrejects
      | setCaps maxStreamKeys maxFieldsPerStreamKey => cases hrejects
    · rw [run_cons, run_cons, hrest]

end

/-- A rejected tick leaves no trace exactly when the store ignores its quote, and a run all of
whose rejected ticks are so is the run without them. -/
theorem rejected_traceless_iff (cfg : Config D) (fieldMap : MarketFieldMap)
    (table : FunctionTable D) (ops : List (StoreOp D)) :
    let start := (create cfg fieldMap table, ({} : AtomicStore D))
    (∀ tick, ¬ (after start ops).1.admits tick.symbol →
      ((after start ops).1.compute tick (after start ops).2 =
          ((after start ops).1, (after start ops).2, []) ↔
        (after start ops).1.QuoteIgnored (after start ops).2 tick)) ∧
    ((∀ pre tick, pre ++ [.tick tick] <+: ops → ¬ (after start pre).1.admits tick.symbol →
        (after start pre).1.QuoteIgnored (after start pre).2 tick) →
      run start (withoutRejected start ops) = run start ops) := by
  intro start
  have hstart : start.2.Keyed := ⟨List.nodup_nil, fun entry hentry => by cases hentry⟩
  exact ⟨fun tick => compute_eq_self_iff (keyed_after hstart ops), run_withoutRejected hstart ops⟩

def oneSymbol : MarketTickComputer ExactDouble × AtomicStore ExactDouble :=
  (create { taBBands_stdK := .fin 2, maxSymbols := 1 } { bidFields := ["bid"] }
    (builtinFunctions ExactDouble), {})

def priced (symbol : String) : Event ExactDouble where
  symbol := symbol
  payload := .object [("price", .int ⟨7, by decide, by decide⟩)]

def quoted (symbol : String) : Event ExactDouble where
  symbol := symbol
  payload := .object [("price", .int ⟨7, by decide, by decide⟩),
    ("bid", .int ⟨6, by decide, by decide⟩)]

/-- Without a quote the tick of the second symbol is as if it had not occurred. -/
theorem rejected_traceless_priced :
    run oneSymbol [.tick (priced "AAPL")] =
        run oneSymbol [.tick (priced "AAPL"), .tick (priced "MSFT")] ∧
      (after oneSymbol [.tick (priced "AAPL")]).1.compute (priced "MSFT")
        (after oneSymbol [.tick (priced "AAPL")]).2 =
          ((after oneSymbol [.tick (priced "AAPL")]).1,
            (after oneSymbol [.tick (priced "AAPL")]).2, []) := by
  have hquote : (after oneSymbol [.tick (priced "AAPL")]).1.QuoteIgnored
      (after oneSymbol [.tick (priced "AAPL")]).2 (priced "MSFT") := by
    intro price hprice write hwrite
    have hseven : extract (after oneSymbol [.tick (priced "AAPL")]).1.fieldMap.priceFields
        (priced "MSFT") = some (.fin 7) := by decide +kernel
    obtain rfl := Option.some.inj (hseven.symm.trans hprice)
    have hnone : (quoteValues ((after oneSymbol [.tick (priced "AAPL")]).1.entry (priced "MSFT")
        (.fin 7))).isEmpty = true := by decide +kernel
    rw [List.isEmpty_iff.mp hnone] at hwrite
    cases hwrite
  have hboth := fun ops => rejected_traceless_iff oneSymbol.1.cfg oneSymbol.1.fieldMap
    (builtinFunctions ExactDouble) ops
  refine ⟨(hboth [.tick (priced "AAPL"), .tick (priced "MSFT")]).2 ?_,
    ((hboth [.tick (priced "AAPL")]).1 (priced "MSFT") (by decide +kernel)).mpr hquote⟩
  rintro (_ | ⟨op, _ | ⟨op', pre⟩⟩) tick ⟨rest, hrest⟩ hadmits
  · simp only [List.nil_append, List.cons_append, List.cons.injEq, StoreOp.tick.injEq] at hrest
    rw [hrest.1] at hadmits
    exact absurd (by decide +kernel) hadmits
  · simp only [List.nil_append, List.cons_append, List.cons.injEq, StoreOp.tick.injEq] at hrest
    rw [hrest.1, hrest.2.1]
    exact hquote
  · simp at hrest

/-- With a quote it leaves the bid in the store. -/
theorem rejected_leaves_bid : ¬ ∀ (cfg : Config ExactDouble) (fieldMap : MarketFieldMap)
    (table : FunctionTable ExactDouble) (ops : List (StoreOp ExactDouble))
    (tick : Event ExactDouble),
    let start := (create cfg fieldMap table, ({} : AtomicStore ExactDouble))
    ¬ (after start ops).1.admits tick.symbol →
      (after start ops).1.compute tick (after start ops).2 =
        ((after start ops).1, (after start ops).2, []) := by
  intro hall
  have h := hall oneSymbol.1.cfg oneSymbol.1.fieldMap (builtinFunctions ExactDouble)
    [.tick (priced "AAPL")] (quoted "MSFT") (by decide +kernel)
  have hget := congrArg (fun r => (r.2.1.get "MSFT" "bid").isSome) h
  have hbid : (((after oneSymbol [.tick (priced "AAPL")]).1.compute (quoted "MSFT")
      (after oneSymbol [.tick (priced "AAPL")]).2).2.1.get "MSFT" "bid").isSome ≠
        ((after oneSymbol [.tick (priced "AAPL")]).2.get "MSFT" "bid").isSome := by
    decide +kernel
  exact hbid hget

end MarketTickComputer
end GmaEngine
