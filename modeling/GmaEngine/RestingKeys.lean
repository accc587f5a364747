import GmaEngine.ManagerRuns

/-!
# The keys that rest in a book

The index of a book holds the keys of the orders that rest in its per-order ladders. An add
brings one key, a per-order snapshot brings those of its orders, and nothing else brings any.
-/

namespace GmaEngine
namespace OrderBook

section
variable {b : OrderBook} {key k : OrderKey}

theorem mem_byId_iff (h : b.WF) : k ∈ b.byId ↔ ∃ s p, ∃ o ∈ b.queue s p, o.key = k := by
  rw [← AList.lookup_isSome]
  constructor
  · intro hk
    obtain ⟨loc, hloc⟩ := Option.isSome_iff_exists.mp hk
    obtain ⟨n, hn, -, hkey⟩ := h.indexed k loc hloc
    exact ⟨loc.side, loc.price, n.order, mem_queue.mpr ⟨n, hn, rfl⟩, hkey⟩
  · rintro ⟨s, p, o, ho, rfl⟩
    obtain ⟨n, hn, rfl⟩ := mem_queue.mp ho
    rw [h.located s p n hn, Option.isSome_some]

theorem mem_byId_deleteImpl (h : b.WF) :
    k ∈ (b.deleteImpl key).1.byId ↔ k ≠ key ∧ k ∈ b.byId := by
  obtain ⟨hnone, he⟩ | ⟨loc, l, n, hk, hl, hn, ha, hkey, he⟩ := deleteImpl_cases h key
  · rw [he]
    refine ⟨fun hmem => ⟨?_, hmem⟩, fun hmem => hmem.2⟩
    rintro rfl
    rw [← AList.lookup_isSome, hnone] at hmem
    cases hmem
  · rw [he, dropKey_byId, AList.mem_erase]

theorem mem_byId_addImpl (h : b.WF) {o : Order} :
    k ∈ (b.addImpl o).1.byId ↔ k = o.key ∨ k ∈ b.byId := by
  have hcleared : k ∈ (b.cleared o.key).byId ↔ k ≠ o.key ∧ k ∈ b.byId := by
    rw [cleared_eq_deleteImpl h]
    exact mem_byId_deleteImpl h
  rw [addImpl_eq h]
  change k ∈ AList.insert o.key _ (b.cleared o.key).byId ↔ _
  rw [AList.mem_insert, hcleared]
  constructor
  · exact fun hmem => hmem.imp_right And.right
  · intro hmem
    by_cases hk : k = o.key
    · exact .inl hk
    · exact .inr ⟨hk, hmem.resolve_left hk⟩

theorem mem_byId_of_updateImpl (h : b.WF) {newPrice : Option Price} {newSize : Option UInt64}
    (hmem : k ∈ (b.updateImpl key newPrice newSize).1.byId) : k ∈ b.byId := by
  obtain ⟨-, he⟩ | ⟨loc, l, n, hk, -, -, -, -, hcase⟩ := updateImpl_cases h key newPrice newSize
  · rwa [he] at hmem
  · obtain ⟨-, he⟩ | ⟨-, -, -, he⟩ | ⟨-, -, -, he⟩ | ⟨-, -, he⟩ := hcase <;> rw [he] at hmem
    · rw [dropKey_byId] at hmem
      exact (AList.mem_erase.mp hmem).2
    · exact hmem
    · exact hmem
    · change k ∈ AList.insert key _ _ at hmem
      rcases (AList.mem_insert _).mp hmem with rfl | hmem
      · rw [← AList.lookup_isSome, hk, Option.isSome_some]
      · change k ∈ (b.unlink loc.side loc.price l loc.it n.order.size).byId at hmem
        rwa [unlink, eraseLevelIfEmpty_byId, setLevel_byId] at hmem

theorem mem_byId_of_priorityImpl (h : b.WF) {newPriority : UInt64}
    (hmem : k ∈ (b.priorityImpl key newPriority).1.byId) : k ∈ b.byId := by
  obtain ⟨-, he⟩ | ⟨loc, l, n, hk, -, -, -, -, hcase⟩ := priorityImpl_cases h key newPriority
  · rwa [he] at hmem
  · obtain ⟨-, he⟩ | ⟨-, he⟩ := hcase
    · rwa [he] at hmem
    · rwa [he] at hmem

theorem mem_byId_of_consumeLoop {nodes : List Node} {byId : AList (fun _ : OrderKey => Locator)}
    {remaining total : UInt64} (hmem : k ∈ (consumeLoop byId remaining total nodes).1) :
    k ∈ byId := by
  induction nodes generalizing byId remaining total with
  | nil => exact hmem
  | cons top rest ih =>
    rw [consumeLoop] at hmem
    by_cases hdone : remaining = 0
    · rwa [if_pos hdone] at hmem
    · rw [if_neg hdone] at hmem
      dsimp only at hmem
      split_ifs at hmem
      all_goals first
        | exact (AList.mem_erase.mp (ih hmem)).2
        | exact hmem

theorem mem_byId_of_applyTrade {tradePrice : Price} {qty : UInt64} {aggr : Aggressor}
    (hmem : k ∈ (b.applyTrade tradePrice qty aggr).1.byId) : k ∈ b.byId := by
  obtain ⟨-, he⟩ | ⟨s, -, -, he⟩ := applyTrade_cases b tradePrice qty aggr
  · rwa [he] at hmem
  · rw [he] at hmem
    obtain ⟨-, he⟩ | ⟨l, -, -, he⟩ := consumeAtLevel_cases b s tradePrice qty
    · rwa [he] at hmem
    · rw [he] at hmem
      dsimp only at hmem
      rw [eraseLevelIfEmpty_byId, setLevel_byId] at hmem
      exact mem_byId_of_consumeLoop hmem

theorem byId_applySnapshotAggregated (b : OrderBook) (levels : List LevelSnapshotEntry) :
    (b.applySnapshotAggregated levels).byId = b.byId := by
  have hsame := congrArg OrderBook.byId (applySnapshotAggregated_perOrder b levels)
  exact hsame

theorem byId_applyLevelSummary (b : OrderBook) (side : Side) (price : Price) (totalSize : UInt64)
    (orderCount : Option UInt32) :
    (b.applyLevelSummary side price totalSize orderCount).1.byId = b.byId := by
  have hsame := congrArg OrderBook.byId
    (applyLevelSummary_perOrder b side price totalSize orderCount)
  exact hsame

theorem mem_byId_applySnapshotPerOrder (h : b.WF) {orders : List Order} :
    k ∈ (b.applySnapshotPerOrder orders).byId ↔ k ∈ orders.map Order.key := by
  induction orders using List.reverseRecOn with
  | nil => exact ⟨fun hmem => absurd hmem (AList.notMem_empty k), fun hmem => by cases hmem⟩
  | append_singleton orders o ih =>
    have hwf : (b.applySnapshotPerOrder orders).WF :=
      OrderBookManager.wf_apply h (.snapshotPerOrder orders)
    have hconcat : b.applySnapshotPerOrder (orders ++ [o]) =
        ((b.applySnapshotPerOrder orders).addImpl o).1 := by
      rw [applySnapshotPerOrder, List.foldl_append]
      rfl
    rw [hconcat, mem_byId_addImpl hwf, ih, List.map_append, List.mem_append, List.map_singleton,
      List.mem_singleton]
    exact or_comm

/-- A scoped add brings the key of its copy of the order. -/
theorem mem_byId_applyAddScoped (h : b.WF) {o : Order} {scope : FeedScope} {idMissing : Bool} :
    k ∈ (b.applyAddScoped o scope idMissing).1.byId ↔
      k = (b.scopedCopy o scope idMissing).2.key ∨ k ∈ b.byId := by
  obtain ⟨m, hm⟩ := scopedCopy_book b o scope idMissing
  have hwf : WF { b with synthCounters := m } := h.congr rfl rfl rfl
  have heq : b.applyAddScoped o scope idMissing =
      (b.scopedCopy o scope idMissing).1.addImpl (b.scopedCopy o scope idMissing).2 := rfl
  rw [heq, hm]
  exact mem_byId_addImpl hwf

end
end OrderBook

namespace OrderBookManager
variable {D : Type}

/-- An operation that brings no key to the book of a symbol. -/
def BringsNone (symbol : String) (m m' : OrderBookManager D) : Prop :=
  ∀ k ∈ (m'.book symbol).byId, k ∈ (m.book symbol).byId

section
variable {m : OrderBookManager D} {s symbol : String}

theorem BringsNone.of_book {m' : OrderBookManager D} (h : m'.book symbol = m.book symbol) :
    BringsNone symbol m m' := by
  intro k hk
  rwa [h] at hk

theorem bringsNone_mutateWithDelta {candidates : List (Side × Price)}
    {mutator : OrderBook → OrderBook × Bool}
    (h : ∀ k ∈ (mutator (m.book s)).1.byId, k ∈ (m.book s).byId) :
    BringsNone symbol m (m.mutateWithDelta s candidates mutator).mgr := by
  intro k hk
  rw [book_mutateWithDelta] at hk
  split_ifs at hk with hs
  · subst hs
    exact h k hk
  · exact hk

variable (hwf : (m.book s).WF)
include hwf

theorem bringsNone_onDeleteKey (key : OrderKey) :
    BringsNone symbol m (m.onDeleteKey s key).mgr := by
  unfold onDeleteKey
  split_ifs
  · exact .of_book rfl
  · exact bringsNone_mutateWithDelta (fun k hk => ((OrderBook.mem_byId_deleteImpl hwf).mp hk).2)

theorem bringsNone_onPriorityKey (key : OrderKey) (newPriority : UInt64) :
    BringsNone symbol m (m.onPriorityKey s key newPriority).mgr := by
  unfold onPriorityKey
  split_ifs
  · exact .of_book rfl
  · exact bringsNone_mutateWithDelta (fun k hk => OrderBook.mem_byId_of_priorityImpl hwf hk)

variable [Double D]

theorem bringsNone_onUpdateKey (key : OrderKey) (newPrice : Option D) (newSize : Option UInt64) :
    BringsNone symbol m (m.onUpdateKey s key newPrice newSize).mgr := by
  unfold onUpdateKey
  split_ifs
  all_goals first
    | exact .of_book rfl
    | exact bringsNone_mutateWithDelta (fun k hk => OrderBook.mem_byId_of_updateImpl hwf hk)

omit hwf in
theorem bringsNone_onTrade (tradePrice : D) (size : UInt64) (aggr : Aggressor) :
    BringsNone symbol m (m.onTrade s tradePrice size aggr).mgr := by
  unfold onTrade
  split_ifs
  · exact .of_book rfl
  · exact .of_book rfl
  · exact bringsNone_mutateWithDelta (fun k hk => OrderBook.mem_byId_of_applyTrade hk)

omit hwf in
theorem bringsNone_onLevelSummary (side : Side) (price : D) (totalSize : UInt64)
    (orderCount : Option UInt32) :
    BringsNone symbol m (m.onLevelSummary s side price totalSize orderCount).mgr := by
  unfold onLevelSummary
  split_ifs
  · exact .of_book rfl
  · exact .of_book rfl
  · refine bringsNone_mutateWithDelta (fun k hk => ?_)
    rwa [OrderBook.byId_applyLevelSummary] at hk

end

section
variable [Double D]

/-- Whether an add reaches the book. -/
def acceptsAdd (m : OrderBookManager D) (symbol : String) (side : Side) (price : D)
    (size : UInt64) : Bool :=
  !m.gate symbol && validSide side && m.validatePrice symbol price && validateSize size

/-- The key that an add brings to the book of its symbol, if it reaches it. -/
def addedKey (m : OrderBookManager D) : ManagerOp D → Option OrderKey
  | .add symbol id side price size priority scope idMissing
  | .addGetKey symbol id side price size priority scope idMissing
  | .addWithVenueKey symbol _ id side price size priority scope idMissing =>
    if m.acceptsAdd symbol side price size then
      some ((m.book symbol).applyAddGetKey (m.addedOrder symbol id side price size priority) scope
        idMissing).2
    else none
  | _ => none

/-- The keys that an operation brings to the book of a symbol. -/
def brings (m : OrderBookManager D) (symbol : String) (op : ManagerOp D) : List OrderKey :=
  match op with
  | .snapshotPerOrder s tickOrders _ => if s = symbol then tickOrders.map Order.key else []
  | op => if op.symbol = some symbol then (m.addedKey op).toList else []

variable {m : OrderBookManager D} {symbol : String}

section
variable {s : String} (id : UInt64) (side : Side) (price : D) (size priority : UInt64)
  (scope : FeedScope) (idMissing : Bool)

/-- Both forms of an add leave the same book. -/
theorem book_onAdd (s' : String) :
    (m.onAdd s id side price size priority scope idMissing).mgr.book s' =
      (m.onAddGetKey s id side price size priority scope idMissing).mgr.book s' ∧
    (m.onAddGetKey s id side price size priority scope idMissing).mgr.book s' =
      if s' = s ∧ m.acceptsAdd s side price size then
        ((m.book s).applyAddScoped (m.addedOrder s id side price size priority) scope idMissing).1
      else m.book s' := by
  unfold onAdd onAddGetKey acceptsAdd
  cases m.gate s with
  | true => simp
  | false =>
    cases validSide side with
    | false => simp
    | true =>
      cases m.validatePrice s price with
      | false => simp
      | true =>
        cases validateSize size with
        | false => simp
        | true =>
          simp only [Bool.not_true, Bool.or_false, Bool.false_eq_true, if_false, Bool.not_false,
            Bool.and_true, and_true, book_mutateWithDelta]
          split_ifs with hs
          · exact ⟨rfl, rfl⟩
          · exact ⟨rfl, rfl⟩

theorem mem_byId_onAddGetKey (hwf : (m.book symbol).WF) {k : OrderKey}
    (hk : k ∈ ((m.onAddGetKey s id side price size priority scope idMissing).mgr.book symbol).byId) :
    k ∈ m.brings symbol (.addGetKey s id side price size priority scope idMissing) ∨
      k ∈ (m.book symbol).byId := by
  rw [(book_onAdd id side price size priority scope idMissing symbol).2] at hk
  split_ifs at hk with hacc
  · obtain ⟨rfl, hacc⟩ := hacc
    refine ((OrderBook.mem_byId_applyAddScoped hwf).mp hk).imp_left ?_
    rintro rfl
    simp only [brings, ManagerOp.symbol, addedKey, hacc, if_true]
    exact List.mem_singleton_self _
  · exact .inr hk

end

/-- A per-order snapshot keeps no key. -/
theorem mem_byId_onSnapshotPerOrder (hwf : (m.book symbol).WF) {orders : List Order}
    {seq : Option UInt64} {k : OrderKey} :
    k ∈ ((m.exec (.snapshotPerOrder symbol orders seq)).1.book symbol).byId ↔
      k ∈ orders.map Order.key := by
  have hbook := book_onSnapshotPerOrder m symbol orders seq symbol
  rw [if_pos rfl] at hbook
  change k ∈ ((m.onSnapshotPerOrder symbol orders seq).mgr.book symbol).byId ↔ _
  rw [hbook]
  exact OrderBook.mem_byId_applySnapshotPerOrder hwf

/-- The keys of a book after an operation are those that it brings and some of those that were
there. -/
theorem mem_byId_exec (hwf : ∀ s, (m.book s).WF) {op : ManagerOp D} {k : OrderKey}
    (hk : k ∈ ((m.exec op).1.book symbol).byId) :
    k ∈ m.brings symbol op ∨ k ∈ (m.book symbol).byId := by
  cases op with
  | snapshotPerOrder s orders seq =>
    by_cases hs : s = symbol
    · subst hs
      left
      rw [brings, if_pos rfl]
      exact (mem_byId_onSnapshotPerOrder (hwf s)).mp hk
    · right
      change k ∈ ((m.onSnapshotPerOrder s orders seq).mgr.book symbol).byId at hk
      rwa [book_onSnapshotPerOrder, if_neg (Ne.symm hs)] at hk
  | snapshotAggregated s levelsD seq =>
    right
    change k ∈ (((m.setBook s _).afterSnapshot s seq).1.book symbol).byId at hk
    rw [book_afterSnapshot, book_setBook] at hk
    split_ifs at hk with hs
    · subst hs
      rwa [OrderBook.byId_applySnapshotAggregated] at hk
    · exact hk
  | add s id side price size priority scope idMissing =>
    change k ∈ ((m.onAdd s id side price size priority scope idMissing).mgr.book symbol).byId at hk
    rw [(book_onAdd id side price size priority scope idMissing symbol).1] at hk
    exact mem_byId_onAddGetKey id side price size priority scope idMissing (hwf symbol) hk
  | addGetKey s id side price size priority scope idMissing =>
    exact mem_byId_onAddGetKey id side price size priority scope idMissing (hwf symbol) hk
  | addWithVenueKey s venueKey id side price size priority scope idMissing =>
    apply mem_byId_onAddGetKey id side price size priority scope idMissing (hwf symbol)
    change k ∈ ((m.onAddWithVenueKey s venueKey id side price size priority scope
      idMissing).mgr.book symbol).byId at hk
    unfold onAddWithVenueKey at hk
    dsimp only at hk
    split_ifs at hk
    · exact hk
    · exact hk
  | setTickSize s tickSize => exact .inr hk
  | setAllowNegativePrices allow => exact .inr hk
  | seq s seq =>
    right
    change k ∈ ((m.onSeq s seq).mgr.book symbol).byId at hk
    unfold onSeq at hk
    dsimp only at hk
    split_ifs at hk <;> exact hk
  | reset s newEpoch => exact .inr hk
  | resolverSetCapacity cap => exact .inr hk
  | resolverPut s venueKey key => exact .inr hk
  | update s id scope newPrice newSize synthetic =>
    exact .inr (bringsNone_onUpdateKey (hwf s) _ newPrice newSize k hk)
  | updateKey s key newPrice newSize =>
    exact .inr (bringsNone_onUpdateKey (hwf s) key newPrice newSize k hk)
  | delete s id scope synthetic =>
    exact .inr (bringsNone_onDeleteKey (hwf s) _ k hk)
  | deleteKey s key =>
    exact .inr (bringsNone_onDeleteKey (hwf s) key k hk)
  | priority s id scope newPriority synthetic =>
    exact .inr (bringsNone_onPriorityKey (hwf s) _ newPriority k hk)
  | priorityKey s key newPriority =>
    exact .inr (bringsNone_onPriorityKey (hwf s) key newPriority k hk)
  | updateByVenueKey s venueKey newPrice newSize =>
    right
    change k ∈ ((m.onUpdateByVenueKey s venueKey newPrice newSize).mgr.book symbol).byId at hk
    unfold onUpdateByVenueKey at hk
    split_ifs at hk
    · exact hk
    · cases hget : m.resolverGet s venueKey with
      | none => rwa [hget] at hk
      | some key =>
        rw [hget] at hk
        exact bringsNone_onUpdateKey (hwf s) key newPrice newSize k hk
  | deleteByVenueKey s venueKey =>
    right
    change k ∈ ((m.onDeleteByVenueKey s venueKey).mgr.book symbol).byId at hk
    unfold onDeleteByVenueKey at hk
    split_ifs at hk
    · exact hk
    · cases hget : m.resolverGet s venueKey with
      | none => rwa [hget] at hk
      | some key =>
        rw [hget] at hk
        exact bringsNone_onDeleteKey (hwf s) key k hk
  | trade s tradePrice size aggr =>
    exact .inr (bringsNone_onTrade tradePrice size aggr k hk)
  | levelSummary s side price totalSize orderCount =>
    exact .inr (bringsNone_onLevelSummary side price totalSize orderCount k hk)

end

end OrderBookManager
end GmaEngine
