import GmaEngine.FeedSequencing
import GmaEngine.RestingKeys

/-!
# Resynchronisation

A reset or a gap makes a symbol stale and a snapshot makes it fresh again. A per-order snapshot
replaces the per-order ladders, but an aggregated snapshot leaves them alone: what rested there
before the gap is then served as fresh.
-/

namespace GmaEngine

/-- Where the orders of a symbol can come from: the keys of its most recent snapshot, and those
that were added, one by one or by a snapshot, since its most recent reset or gap. -/
structure Provenance where
  snapshot : List OrderKey := []
  since : List OrderKey := []

namespace OrderBookManager
variable {D : Type}

/-- A number that is not the successor of the last one. -/
def isGap (m : OrderBookManager D) (symbol : String) (seq : UInt64) : Prop :=
  (m.getFeedState symbol).lastSeq ≠ 0 ∧ seq ≠ (m.getFeedState symbol).lastSeq + 1

instance (m : OrderBookManager D) (symbol : String) (seq : UInt64) :
    Decidable (m.isGap symbol seq) := inferInstanceAs (Decidable (_ ∧ _))

section
variable [Double D]

def provenanceAfter (symbol : String) (m : OrderBookManager D) (pv : Provenance) :
    ManagerOp D → Provenance
  | .reset s _ => if s = symbol then { pv with since := [] } else pv
  | .seq s seq => if s = symbol ∧ m.isGap s seq then { pv with since := [] } else pv
  | .snapshotPerOrder s tickOrders _ =>
    if s = symbol then ⟨tickOrders.map Order.key, pv.since ++ tickOrders.map Order.key⟩ else pv
  | .snapshotAggregated s _ _ => if s = symbol then { pv with snapshot := [] } else pv
  | op => { pv with since := pv.since ++ m.brings symbol op }

/-- The provenance of a symbol's orders after a run. -/
def provenance (symbol : String) (ops : List (ManagerOp D)) : Provenance :=
  (ops.foldl (fun x op => ((x.1.exec op).1, provenanceAfter symbol x.1 x.2 op))
    (({} : OrderBookManager D), ({} : Provenance))).2

/-- While the symbol is fresh, every resting order is in the most recent snapshot or was added
since the most recent reset or gap. -/
def Sourced (symbol : String) (ops : List (ManagerOp D)) : Prop :=
  (run ops).1.isStale symbol = false →
    ∀ side price, ∀ o ∈ ((run ops).1.book symbol).queue side price,
      o.key ∈ (provenance symbol ops).snapshot ∨ o.key ∈ (provenance symbol ops).since

/-- An aggregated snapshot that makes the symbol fresh finds no resting order. -/
def LaddersEmptied (symbol : String) (ops : List (ManagerOp D)) : Prop :=
  ∀ before levelsD seq, before ++ [.snapshotAggregated symbol levelsD seq] <+: ops →
    (run before).1.isStale symbol = true →
      ∀ side price, ((run before).1.book symbol).queue side price = []

theorem run_concat (ops : List (ManagerOp D)) (op : ManagerOp D) :
    (run (ops ++ [op])).1 = ((run ops).1.exec op).1 := by
  rw [run, runFrom_concat]
  rfl

theorem provenance_concat (symbol : String) (ops : List (ManagerOp D)) (op : ManagerOp D) :
    provenance symbol (ops ++ [op]) =
      provenanceAfter symbol (run ops).1 (provenance symbol ops) op := by
  have hfst : (ops.foldl (fun x op => ((x.1.exec op).1, provenanceAfter symbol x.1 x.2 op))
      (({} : OrderBookManager D), ({} : Provenance))).1 = (run ops).1 := by
    induction ops using List.reverseRecOn with
    | nil => rfl
    | append_singleton ops op ih => rw [List.foldl_append, run_concat, ← ih]; rfl
  rw [provenance, List.foldl_append, ← hfst]
  rfl

section
variable {m : OrderBookManager D} {symbol : String}

omit [Double D] in
theorem isStale_setFeed (m : OrderBookManager D) (symbol : String) (st : FeedState) :
    (m.setFeed symbol st).isStale symbol = st.stale := by
  simp [isStale, getFeedState, setFeed]

omit [Double D] in
theorem isStale_afterSnapshot (m : OrderBookManager D) (symbol : String) (seq : Option UInt64) :
    (m.afterSnapshot symbol seq).1.isStale symbol = false := by
  rw [isStale, getFeedState, feed_afterSnapshot, Function.update_self]
  rfl

omit [Double D] in
/-- After an offered number a symbol is stale if it was, or if the number makes a gap. -/
theorem isStale_onSeq (m : OrderBookManager D) (symbol : String) (seq : UInt64) :
    (m.onSeq symbol seq).mgr.isStale symbol = true ↔
      m.isStale symbol = true ∨ m.isGap symbol seq := by
  unfold onSeq isGap
  dsimp only
  split_ifs with hstale hnext
  · exact ⟨fun _ => .inl hstale, fun _ => (isStale_setFeed m symbol _).trans hstale⟩
  · rw [isStale_setFeed]
    constructor
    · exact fun h => absurd h hstale
    · rintro (h | ⟨hzero, hne⟩)
      · exact absurd h hstale
      · exact absurd hnext (not_or.mpr ⟨hzero, hne⟩)
  · exact ⟨fun _ => .inr (not_or.mp hnext), fun _ => isStale_setFeed m symbol _⟩

theorem isStale_exec_of_gated {op : ManagerOp D} (h : op.controlsFeed = false) :
    (m.exec op).1.isStale symbol = m.isStale symbol := by
  rw [isStale, isStale, getFeedState_of_feed (congrFun (gated_exec h).feed symbol)]

/-- No add reaches the book of a stale symbol. -/
theorem brings_of_stale (hstale : m.isStale symbol = true) {op : ManagerOp D}
    (hop : op.snapshots symbol = false) : m.brings symbol op = [] := by
  have hclosed : ∀ side price size, m.acceptsAdd symbol side price size = false := by
    intro side price size
    have hgate : m.gate symbol = true := hstale
    rw [acceptsAdd, hgate]
    rfl
  cases op with
  | snapshotPerOrder s orders seq => exact if_neg (of_decide_eq_false hop)
  | add s id side price size priority scope idMissing =>
    simp only [brings, ManagerOp.symbol, Option.some.injEq]
    split_ifs with hs
    · subst hs
      rw [addedKey, hclosed]
      rfl
    · rfl
  | addGetKey s id side price size priority scope idMissing =>
    simp only [brings, ManagerOp.symbol, Option.some.injEq]
    split_ifs with hs
    · subst hs
      rw [addedKey, hclosed]
      rfl
    · rfl
  | addWithVenueKey s venueKey id side price size priority scope idMissing =>
    simp only [brings, ManagerOp.symbol, Option.some.injEq]
    split_ifs with hs
    · subst hs
      rw [addedKey, hclosed]
      rfl
    · rfl
  | _ =>
    simp only [brings, addedKey]
    split_ifs <;> rfl

/-- An operation on the feed of another symbol. -/
theorem provenanceAfter_of_ne {op : ManagerOp D} (hop : op.symbol ≠ some symbol)
    (hfeed : op.controlsFeed = true) (pv : Provenance) : provenanceAfter symbol m pv op = pv := by
  cases op with
  | reset s newEpoch => exact if_neg (fun hs => hop (congrArg some hs))
  | seq s seq => exact if_neg (fun hs => hop (congrArg some hs.1))
  | snapshotPerOrder s orders seq => exact if_neg (fun hs => hop (congrArg some hs))
  | snapshotAggregated s levelsD seq => exact if_neg (fun hs => hop (congrArg some hs))
  | _ => cases hfeed

theorem provenanceAfter_of_gated {op : ManagerOp D} (hfeed : op.controlsFeed = false)
    (pv : Provenance) : provenanceAfter symbol m pv op =
      { pv with since := pv.since ++ m.brings symbol op } := by
  cases op with
  | reset s newEpoch => cases hfeed
  | seq s seq => cases hfeed
  | snapshotPerOrder s orders seq => cases hfeed
  | snapshotAggregated s levelsD seq => cases hfeed
  | _ => rfl

omit [Double D] in
/-- What an operation can be to the feed of a symbol. -/
theorem feed_cases (symbol : String) (op : ManagerOp D) : op.controlsFeed = false ∨
    (op.controlsFeed = true ∧ op.symbol ≠ some symbol ∧ op.snapshots symbol = false) ∨
    (∃ newEpoch, op = .reset symbol newEpoch) ∨ (∃ seq, op = .seq symbol seq) ∨
    (∃ tickOrders seq, op = .snapshotPerOrder symbol tickOrders seq) ∨
    ∃ levelsD seq, op = .snapshotAggregated symbol levelsD seq := by
  by_cases hsym : op.symbol = some symbol
  · cases op with
    | reset s newEpoch =>
      cases hsym
      exact .inr (.inr (.inl ⟨newEpoch, rfl⟩))
    | seq s seq =>
      cases hsym
      exact .inr (.inr (.inr (.inl ⟨seq, rfl⟩)))
    | snapshotPerOrder s orders seq =>
      cases hsym
      exact .inr (.inr (.inr (.inr (.inl ⟨orders, seq, rfl⟩))))
    | snapshotAggregated s levelsD seq =>
      cases hsym
      exact .inr (.inr (.inr (.inr (.inr ⟨levelsD, seq, rfl⟩))))
    | _ => exact .inl rfl
  · cases hfeed : op.controlsFeed with
    | false => exact .inl rfl
    | true =>
      refine .inr (.inl ⟨rfl, hsym, ?_⟩)
      cases op with
      | snapshotPerOrder s orders seq => exact decide_eq_false (fun hs => hsym (congrArg some hs))
      | snapshotAggregated s levelsD seq =>
        exact decide_eq_false (fun hs => hsym (congrArg some hs))
      | _ => rfl

end

/-- A stale symbol has taken no order since the gap. -/
theorem since_eq_nil (symbol : String) (ops : List (ManagerOp D))
    (hstale : (run ops).1.isStale symbol = true) : (provenance symbol ops).since = [] := by
  induction ops using List.reverseRecOn with
  | nil => rfl
  | append_singleton ops op ih =>
    rw [run_concat] at hstale
    rw [provenance_concat]
    rcases feed_cases symbol op with hgated | ⟨hfeed, hsym, hsnap⟩ | ⟨newEpoch, rfl⟩ | ⟨seq, rfl⟩ |
      ⟨orders, seq, rfl⟩ | ⟨levelsD, seq, rfl⟩
    · rw [isStale_exec_of_gated hgated] at hstale
      have hnosnap : op.snapshots symbol = false := by
        cases op <;> first | rfl | cases hgated
      rw [provenanceAfter_of_gated hgated, brings_of_stale hstale hnosnap, ih hstale]
      rfl
    · rw [(untouched_exec hsnap (.inl hsym)).stale] at hstale
      rw [provenanceAfter_of_ne hsym hfeed]
      exact ih hstale
    · rw [provenanceAfter, if_pos rfl]
    · rcases (isStale_onSeq _ symbol seq).mp hstale with hbefore | hgap
      · rw [provenanceAfter]
        split_ifs
        · rfl
        · exact ih hbefore
      · rw [provenanceAfter, if_pos ⟨rfl, hgap⟩]
    · have hfresh : ((run ops).1.exec (.snapshotPerOrder symbol orders seq)).1.isStale symbol =
          false := isStale_afterSnapshot _ symbol seq
      rw [hfresh] at hstale
      cases hstale
    · have hfresh : ((run ops).1.exec (.snapshotAggregated symbol levelsD seq)).1.isStale symbol =
          false := isStale_afterSnapshot _ symbol seq
      rw [hfresh] at hstale
      cases hstale

omit [Double D] in
theorem byId_eq_empty_of_queues {b : OrderBook} (h : b.WF)
    (hempty : ∀ side price, b.queue side price = []) (k : OrderKey) : k ∉ b.byId := by
  intro hk
  obtain ⟨side, price, o, ho, -⟩ := (OrderBook.mem_byId_iff h).mp hk
  rw [hempty side price] at ho
  cases ho

theorem LaddersEmptied.of_prefix {symbol : String} {ops : List (ManagerOp D)} {op : ManagerOp D}
    (h : LaddersEmptied symbol (ops ++ [op])) : LaddersEmptied symbol ops :=
  fun before levelsD seq hpre => h before levelsD seq (hpre.trans (List.prefix_append ops [op]))

/-- In a fresh symbol, all keys have come since the gap. -/
theorem mem_since (symbol : String) (ops : List (ManagerOp D)) (h : LaddersEmptied symbol ops)
    (hfresh : (run ops).1.isStale symbol = false) :
    ∀ k ∈ ((run ops).1.book symbol).byId, k ∈ (provenance symbol ops).since := by
  induction ops using List.reverseRecOn with
  | nil =>
    intro k hk
    exact absurd hk (AList.notMem_empty k)
  | append_singleton ops op ih =>
    intro k hk
    rw [run_concat] at hfresh hk
    rw [provenance_concat]
    have hkeys := mem_byId_exec (run_wf ops) hk
    rcases feed_cases symbol op with hgated | ⟨hfeed, hsym, hsnap⟩ | ⟨newEpoch, rfl⟩ | ⟨seq, rfl⟩ |
      ⟨orders, seq, rfl⟩ | ⟨levelsD, seq, rfl⟩
    · rw [isStale_exec_of_gated hgated] at hfresh
      rw [provenanceAfter_of_gated hgated, List.mem_append]
      exact hkeys.symm.imp_left (ih h.of_prefix hfresh k)
    · have hsame := untouched_exec (m := (run ops).1) hsnap (.inl hsym)
      rw [hsame.stale] at hfresh
      rw [provenanceAfter_of_ne hsym hfeed]
      rw [book, hsame.books] at hk
      exact ih h.of_prefix hfresh k hk
    · rw [show ((run ops).1.exec (.reset symbol newEpoch)).1.isStale symbol = true from
        isStale_setFeed _ symbol _] at hfresh
      cases hfresh
    · have hnot := mt (isStale_onSeq (run ops).1 symbol seq).mpr (Bool.eq_false_iff.mp hfresh)
      obtain ⟨hbefore, hgap⟩ := not_or.mp hnot
      rw [provenanceAfter, if_neg (fun hboth => hgap hboth.2)]
      refine ih h.of_prefix (Bool.eq_false_iff.mpr hbefore) k (hkeys.resolve_left ?_)
      simp [brings, addedKey]
    · rw [provenanceAfter, if_pos rfl]
      exact List.mem_append_right _ ((mem_byId_onSnapshotPerOrder (run_wf ops symbol)).mp hk)
    · have hold : k ∈ ((run ops).1.book symbol).byId := by
        refine hkeys.resolve_left ?_
        simp [brings, addedKey]
      rw [provenanceAfter, if_pos rfl]
      cases hstale : (run ops).1.isStale symbol with
      | false => exact ih h.of_prefix hstale k hold
      | true =>
        have hempty := h ops levelsD seq (List.prefix_refl _) hstale
        exact absurd hold (byId_eq_empty_of_queues (run_wf ops symbol) hempty k)

/-- An aggregated snapshot leaves the per-order ladders alone. -/
theorem queue_onSnapshotAggregated (m : OrderBookManager D) (symbol : String)
    (levelsD : List (LevelSnapshotEntryD D)) (seq : Option UInt64) (side : Side) (price : Price) :
    ((m.exec (.snapshotAggregated symbol levelsD seq)).1.book symbol).queue side price =
      (m.book symbol).queue side price := by
  change (((m.setBook symbol _).afterSnapshot symbol seq).1.book symbol).queue side price = _
  rw [book_afterSnapshot, book_setBook, if_pos rfl]
  have hladder := congrArg OrderBook.ladder
    (OrderBook.applySnapshotAggregated_perOrder (m.book symbol) (levelsD.map (fun e =>
      (⟨e.side, m.toTicks symbol e.price, e.totalSize, e.orderCount⟩ : LevelSnapshotEntry))))
  change (OrderBook.applySnapshotAggregated _ _).ladder = (m.book symbol).ladder at hladder
  simp only [OrderBook.queue, OrderBook.findLevel, hladder]

/-- In every state of a run the resting orders of a symbol, while it is fresh, are those of its
most recent snapshot or were added since its most recent reset or gap, exactly when every
aggregated snapshot that makes the symbol fresh finds its per-order ladders empty. -/
theorem no_order_survives_iff (ops : List (ManagerOp D)) (symbol : String) :
    (∀ before, before <+: ops → Sourced symbol before) ↔ LaddersEmptied symbol ops := by
  constructor
  · intro h before levelsD seq hpre hstale side price
    have hsourced := h _ hpre
    have hfresh : (run (before ++ [.snapshotAggregated symbol levelsD seq])).1.isStale symbol =
        false := by
      rw [run_concat]
      exact isStale_afterSnapshot _ symbol seq
    have hqueue : ((run (before ++ [.snapshotAggregated symbol levelsD seq])).1.book symbol).queue
        side price = ((run before).1.book symbol).queue side price := by
      rw [run_concat, queue_onSnapshotAggregated]
    have hprov := provenance_concat symbol before (.snapshotAggregated symbol levelsD seq)
    rw [provenanceAfter, if_pos rfl] at hprov
    rw [List.eq_nil_iff_forall_not_mem]
    intro o ho
    rw [← hqueue] at ho
    rcases hsourced hfresh side price o ho with hmem | hmem
    · rw [hprov] at hmem
      cases hmem
    · rw [hprov, since_eq_nil symbol before hstale] at hmem
      cases hmem
  · intro h before hpre hfresh side price o ho
    have hwithin : LaddersEmptied symbol before :=
      fun before' levelsD seq hpre' => h before' levelsD seq (hpre'.trans hpre)
    right
    exact mem_since symbol before hwithin hfresh o.key
      ((OrderBook.mem_byId_iff (run_wf before symbol)).mpr ⟨side, price, o, ho, rfl⟩)

end

/-- An order added before a reset rests in the fresh symbol after an aggregated snapshot. -/
def survivingOrder : List (ManagerOp ExactDouble) :=
  [.add "AAPL" 1 .bid (.fin 100) 10 0 {} false, .reset "AAPL" 1, .snapshotAggregated "AAPL" [] none]

theorem order_survives_reset :
    ¬ ∀ (ops : List (ManagerOp ExactDouble)) (symbol : String), Sourced symbol ops := by
  intro h
  have hfresh : (run survivingOrder).1.isStale "AAPL" = false := by decide +kernel
  have hrests : ((run survivingOrder).1.book "AAPL").queue .bid ⟨1000000⟩ =
      [{ id := 1, price := ⟨1000000⟩, size := 10 }] := by decide +kernel
  have hprov : (provenance "AAPL" survivingOrder).snapshot = [] ∧
      (provenance "AAPL" survivingOrder).since = [] := by decide +kernel
  have hsourced := h survivingOrder "AAPL" hfresh .bid ⟨1000000⟩ _
    (hrests ▸ List.mem_singleton_self _)
  rw [hprov.1, hprov.2] at hsourced
  rcases hsourced with hmem | hmem <;> cases hmem

end OrderBookManager
end GmaEngine
