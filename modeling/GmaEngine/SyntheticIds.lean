import GmaEngine.GuardedRuns
import GmaEngine.VenueKeyAdds

/-!
# Orders without an id

A scoped add of an order without an id draws a synthetic id from the counter of its scope. The
counters see only their own draws: snapshots, unscoped adds and adds with an id may bring synthetic
orders of their own. As long as the counters stay ahead of these no draw displaces an order; a
synthetic order that a counter has not passed is displaced once the draws arrive at its id.
-/

namespace GmaEngine
namespace OrderBook

/-- The id of the next order of a scope without one. -/
def nextId (b : OrderBook) (scope : FeedScope) : UInt64 :=
  (b.synthCounters.lookup (scopeKey scope)).getD 1

def orderCount (b : OrderBook) : ℕ := b.byId.keys.length

/-- From `b` to `b'` the order has joined the book, under a key of its own and behind the orders
that rest already. -/
structure Joins (b b' : OrderBook) (o : Order) : Prop where
  fresh : ∀ s p, ∀ resting ∈ b.queue s p, resting.key ≠ o.key
  queues : ∀ s p, b'.queue s p = b.queue s p ++ if s = o.side ∧ p = o.price then [o] else []
  count : b'.orderCount = b.orderCount + 1

/-- The counter of its scope, which starts at one, has passed a synthetic key. -/
def Passed (b : OrderBook) (k : OrderKey) : Prop :=
  k.synthetic = true → k.id - 1 < b.nextId ⟨k.feedId, k.epoch⟩ - 1

instance (b : OrderBook) (k : OrderKey) : Decidable (b.Passed k) :=
  inferInstanceAs (Decidable (k.synthetic = true → k.id - 1 < b.nextId ⟨k.feedId, k.epoch⟩ - 1))

/-- The keys that an operation brings without drawing an id. -/
def ownKeys : BookOp → List OrderKey
  | .add o => [makeKey o.id {} o.synthetic]
  | .addScoped o scope idMissing | .addGetKey o scope idMissing =>
    if idMissing ∨ o.id = 0 then [] else [makeKey o.id scope o.synthetic]
  | .snapshotPerOrder orders => orders.map Order.key
  | _ => []

/-- The scope from which an operation draws an id. -/
def drawnFrom : BookOp → Option FeedScope
  | .addScoped o scope idMissing | .addGetKey o scope idMissing =>
    if idMissing ∨ o.id = 0 then some scope else none
  | _ => none

/-- Synthetic orders are brought with ids that their counters have passed, and a counter that has
run through all ids is not drawn from. -/
def keepsAhead (b : OrderBook) (op : BookOp) : Bool :=
  (ownKeys op).all (fun k => b.Passed k) && (drawnFrom op).all (fun scope => b.nextId scope ≠ 0)

/-- The counters are ahead of every synthetic order. -/
def Ahead (b : OrderBook) : Prop := ∀ k ∈ b.byId, b.Passed k

section
variable {b b' : OrderBook}

theorem nextId_of_rest (h : b'.rest = b.rest) (scope : FeedScope) :
    b'.nextId scope = b.nextId scope := by
  rw [nextId, rest_synthCounters h, nextId]

/-- An order joins the book exactly when its key is new there. -/
theorem joins_addImpl_iff (h : b.WF) (o : Order) : b.Joins (b.addImpl o).1 o ↔ o.key ∉ b.byId := by
  constructor
  · intro hjoins hmem
    obtain ⟨s, p, resting, hresting, hkey⟩ := (mem_byId_iff h).mp hmem
    exact hjoins.fresh s p resting hresting hkey
  · intro hnew
    have hfresh : ∀ s p, ∀ resting ∈ b.queue s p, resting.key ≠ o.key := by
      intro s p resting hresting hkey
      exact hnew ((mem_byId_iff h).mpr ⟨s, p, resting, hresting, hkey⟩)
    refine ⟨hfresh, ?_, ?_⟩
    · intro s p
      rw [queue_addImpl h, KeyedQueues.removeKey_eq_self (hfresh s p)]
    · have hnone : b.byId.lookup o.key = none := AList.lookup_eq_none.mpr hnew
      have hcleared : b.cleared o.key = b := by simp [cleared, hnone]
      rw [addImpl_eq h, hcleared, orderCount, orderCount, AList.keys_insert,
        List.erase_of_not_mem hnew, List.length_cons]

/-- The copy of the order that a draw adds. -/
def drawnCopy (b : OrderBook) (o : Order) (scope : FeedScope) : Order :=
  { o with feedId := scope.feedId, epoch := scope.epoch, synthetic := true, id := b.nextId scope }

variable {o : Order} {scope : FeedScope} {idMissing : Bool}

theorem scopedCopy_of_draw (hid : idMissing ∨ o.id = 0) :
    b.scopedCopy o scope idMissing = ((b.nextSyntheticId scope).1, b.drawnCopy o scope) := by
  simp [scopedCopy, hid, drawnCopy, nextSyntheticId, nextId]

theorem scopedCopy_of_id (hid : ¬ (idMissing ∨ o.id = 0)) :
    b.scopedCopy o scope idMissing =
      (b, { o with feedId := scope.feedId, epoch := scope.epoch }) := by
  simp [scopedCopy, hid]

theorem joins_draw_iff (h : b.WF) (hid : idMissing ∨ o.id = 0) :
    b.Joins (b.applyAddScoped o scope idMissing).1 (b.drawnCopy o scope) ↔
      (b.drawnCopy o scope).key ∉ b.byId := by
  have hwf : (b.nextSyntheticId scope).1.WF := h.congr rfl rfl rfl
  rw [applyAddScoped, scopedCopy_of_draw hid]
  have hiff := joins_addImpl_iff hwf (b.drawnCopy o scope)
  exact Iff.trans ⟨fun hj => ⟨hj.fresh, hj.queues, hj.count⟩,
    fun hj => ⟨hj.fresh, hj.queues, hj.count⟩⟩ hiff

theorem nextId_draw (hid : idMissing ∨ o.id = 0) (scope' : FeedScope) :
    (b.applyAddScoped o scope idMissing).1.nextId scope' =
      if scope' = scope then b.nextId scope + 1 else b.nextId scope' := by
  have hrest : (b.applyAddScoped o scope idMissing).1.nextId scope' =
      (b.nextSyntheticId scope).1.nextId scope' := by
    rw [applyAddScoped, scopedCopy_of_draw hid]
    exact nextId_of_rest (addImpl_rest _ _) scope'
  rw [hrest, nextId, nextSyntheticId]
  split_ifs with hs
  · subst hs
    rw [AList.lookup_insert]
    rfl
  · have hne : scopeKey scope' ≠ scopeKey scope := fun he => hs (scopeKey_injective he)
    rw [AList.lookup_insert_ne hne]
    rfl

theorem mem_byId_draw (h : b.WF) (hid : idMissing ∨ o.id = 0) {k : OrderKey} :
    k ∈ (b.applyAddScoped o scope idMissing).1.byId ↔
      k = (b.drawnCopy o scope).key ∨ k ∈ b.byId := by
  rw [mem_byId_applyAddScoped h, scopedCopy_of_draw hid]

theorem Passed.congr {k : OrderKey} (hp : b.Passed k)
    (hnext : ∀ scope, b'.nextId scope = b.nextId scope) : b'.Passed k := by
  intro hsyn
  rw [hnext]
  exact hp hsyn

theorem sub_one_lt_self {c : UInt64} (h : c ≠ 0) : c - 1 < c := by
  have hpos : c.toNat ≠ 0 := fun e => h (UInt64.toNat_inj.mp e)
  have hone : (1 : UInt64).toNat = 1 := rfl
  have hle : (1 : UInt64) ≤ c := by
    rw [UInt64.le_iff_toNat_le]
    omega
  rw [UInt64.lt_iff_toNat_lt, UInt64.toNat_sub_of_le c 1 hle]
  omega

/-- An operation that draws nothing and brings only keys that are passed. -/
theorem Ahead.of_brings (h : b.Ahead) (hnext : ∀ scope, b'.nextId scope = b.nextId scope)
    (hkeys : ∀ k ∈ b'.byId, k ∈ b.byId ∨ b.Passed k) : b'.Ahead := by
  intro k hk
  exact ((hkeys k hk).elim (h k) id).congr hnext

theorem Ahead.draw (h : b.Ahead) (hwf : b.WF) (hid : idMissing ∨ o.id = 0)
    (hleft : b.nextId scope ≠ 0) : (b.applyAddScoped o scope idMissing).1.Ahead := by
  have hlt := sub_one_lt_self hleft
  have hback : b.nextId scope + 1 - 1 = b.nextId scope := by grind
  intro k hk hsyn
  rcases (mem_byId_draw hwf hid).mp hk with rfl | hk
  · have hnext : (b.applyAddScoped o scope idMissing).1.nextId scope = b.nextId scope + 1 := by
      rw [nextId_draw hid, if_pos rfl]
    change b.nextId scope - 1 < (b.applyAddScoped o scope idMissing).1.nextId scope - 1
    rw [hnext, hback]
    exact hlt
  · have hpassed := h k hk hsyn
    rw [nextId_draw hid]
    split_ifs with hs
    · rw [hs] at hpassed
      rw [hback]
      exact UInt64.lt_trans hpassed hlt
    · exact hpassed

theorem Ahead.addImpl (h : b.Ahead) (hwf : b.WF) (hpassed : b.Passed o.key) :
    (b.addImpl o).1.Ahead := by
  refine h.of_brings (nextId_of_rest (addImpl_rest b o)) ?_
  intro k hk
  rcases (mem_byId_addImpl hwf).mp hk with rfl | hk
  · exact .inr hpassed
  · exact .inl hk

theorem Ahead.addScoped (h : b.Ahead) (hwf : b.WF)
    (hguard : b.keepsAhead (.addScoped o scope idMissing) = true) :
    (b.applyAddScoped o scope idMissing).1.Ahead := by
  by_cases hid : idMissing ∨ o.id = 0
  · have hleft : b.nextId scope ≠ 0 := by simpa [keepsAhead, ownKeys, drawnFrom, hid] using hguard
    exact h.draw hwf hid hleft
  · have hpassed : b.Passed (makeKey o.id scope o.synthetic) := by
      simpa [keepsAhead, ownKeys, drawnFrom, hid] using hguard
    rw [applyAddScoped, scopedCopy_of_id hid]
    exact h.addImpl hwf hpassed

theorem nextId_applySnapshotPerOrder (orders : List Order) (scope : FeedScope) :
    (b.applySnapshotPerOrder orders).nextId scope = b.nextId scope := by
  induction orders using List.reverseRecOn with
  | nil => rfl
  | append_singleton orders o ih =>
    rw [applySnapshotPerOrder, List.foldl_append, ← ih]
    exact nextId_of_rest (addImpl_rest _ _) scope

theorem Ahead.snapshot (h : b.Ahead) (hwf : b.WF) {orders : List Order}
    (hguard : b.keepsAhead (.snapshotPerOrder orders) = true) :
    (b.applySnapshotPerOrder orders).Ahead := by
  refine h.of_brings (nextId_applySnapshotPerOrder orders) ?_
  intro k hk
  right
  have hall : ∀ k ∈ orders.map Order.key, b.Passed k := by
    simpa [keepsAhead, ownKeys, drawnFrom] using hguard
  exact hall k ((mem_byId_applySnapshotPerOrder hwf).mp hk)

theorem Ahead.apply (h : b.Ahead) (hwf : b.WF) {op : BookOp} (hguard : b.keepsAhead op = true) :
    (b.apply op).Ahead := by
  have hsame : ∀ b' : OrderBook, b'.rest = b.rest → (∀ k ∈ b'.byId, k ∈ b.byId) → b'.Ahead := by
    intro b' hrest hkeys
    exact h.of_brings (nextId_of_rest hrest) (fun k hk => .inl (hkeys k hk))
  have hperOrder : ∀ b' : OrderBook, b'.perOrder = b.perOrder → b'.Ahead := by
    intro b' he
    have hcounters : b'.synthCounters = b.synthCounters := (congrArg OrderBook.synthCounters he :)
    have hkeys : b'.byId = b.byId := (congrArg OrderBook.byId he :)
    refine h.of_brings (fun scope => by rw [nextId, hcounters, nextId]) ?_
    intro k hk
    rw [hkeys] at hk
    exact .inl hk
  cases op with
  | add o =>
    have hpassed : b.Passed (makeKey o.id {} o.synthetic) := by
      simpa [keepsAhead, ownKeys, drawnFrom] using hguard
    exact Ahead.addImpl (o := { o with feedId := 0, epoch := 0 }) h hwf hpassed
  | addScoped o scope idMissing => exact h.addScoped hwf hguard
  | addGetKey o scope idMissing => exact h.addScoped hwf hguard
  | update id newPrice newSize =>
    exact hsame _ (updateImpl_rest _ _ _ _) (fun k hk => mem_byId_of_updateImpl hwf hk)
  | updateKey key newPrice newSize =>
    exact hsame _ (updateImpl_rest _ _ _ _) (fun k hk => mem_byId_of_updateImpl hwf hk)
  | delete id => exact hsame _ (deleteImpl_rest _ _) (fun k hk => ((mem_byId_deleteImpl hwf).mp hk).2)
  | deleteKey key =>
    exact hsame _ (deleteImpl_rest _ _) (fun k hk => ((mem_byId_deleteImpl hwf).mp hk).2)
  | priority id newPriority =>
    exact hsame _ (priorityImpl_rest _ _ _) (fun k hk => mem_byId_of_priorityImpl hwf hk)
  | priorityKey key newPriority =>
    exact hsame _ (priorityImpl_rest _ _ _) (fun k hk => mem_byId_of_priorityImpl hwf hk)
  | trade tradePrice qty aggr =>
    refine hsame _ ?_ (fun k hk => mem_byId_of_applyTrade hk)
    obtain ⟨-, he⟩ | ⟨s, -, -, he⟩ := applyTrade_cases b tradePrice qty aggr
    · exact congrArg (fun r => r.1.rest) he
    · exact (congrArg (fun r => r.1.rest) he).trans (consumeAtLevel_rest _ _ _ _)
  | snapshotPerOrder orders => exact h.snapshot hwf hguard
  | snapshotAggregated levels => exact hperOrder _ (applySnapshotAggregated_perOrder b levels)
  | levelSummary side price totalSize orderCount =>
    exact hperOrder _ (applyLevelSummary_perOrder b side price totalSize orderCount)

theorem ahead_run {ops : List BookOp}
    (hguard : GuardedRuns.along apply keepsAhead {} ops = true) : (run ops).Ahead := by
  have hinv : (run ops).WF ∧ (run ops).Ahead := by
    refine GuardedRuns.invariant_foldl (P := fun b => b.WF ∧ b.Ahead) ?_ ⟨wf_empty, ?_⟩ hguard
    · intro b op h hop
      exact ⟨OrderBookManager.wf_apply h.1 op, h.2.apply h.1 hop⟩
    · intro k hk
      exact absurd hk (AList.notMem_empty k)
  exact hinv.2

/-- Draws arrive at a synthetic order that rests in front of them, unless one of them displaces an
order before. -/
theorem exists_displacing_draw (h : b.WF) (o : Order) (scope : FeedScope) {id : UInt64} {n : ℕ}
    (hid : id = b.nextId scope + UInt64.ofNat n) (hmem : makeKey id scope true ∈ b.byId) :
    ∃ m, let b := (List.replicate m (BookOp.addScoped o scope true)).foldl apply b
      ¬ b.Joins (b.applyAddScoped o scope true).1 (b.drawnCopy o scope) := by
  induction n generalizing b with
  | zero =>
    refine ⟨0, fun hjoins => (joins_draw_iff h (.inl rfl)).mp hjoins ?_⟩
    have hnext : id = b.nextId scope := hid.trans (UInt64.add_zero _)
    rw [hnext] at hmem
    exact hmem
  | succ n ih =>
    have hwf : (b.applyAddScoped o scope true).1.WF :=
      OrderBookManager.wf_apply h (.addScoped o scope true)
    have hstep : id = (b.applyAddScoped o scope true).1.nextId scope + UInt64.ofNat n := by
      rw [nextId_draw (.inl rfl), if_pos rfl, hid, UInt64.ofNat_add]
      grind
    obtain ⟨m, hm⟩ := ih hwf hstep ((mem_byId_draw h (.inl rfl)).mpr (.inr hmem))
    exact ⟨m + 1, hm⟩

/-- An operation puts the keys that it brings into the book and draws nothing for them. -/
theorem ownKeys_apply (h : b.WF) {op : BookOp} {k : OrderKey} (hk : k ∈ ownKeys op) :
    k ∈ (b.apply op).byId := by
  have hscoped : ∀ (o : Order) (scope : FeedScope) (idMissing : Bool),
      k ∈ ownKeys (.addScoped o scope idMissing) →
      k ∈ (b.applyAddScoped o scope idMissing).1.byId := by
    intro o scope idMissing hk
    by_cases hid : idMissing ∨ o.id = 0
    · simp [ownKeys, hid] at hk
    · rw [applyAddScoped, scopedCopy_of_id hid]
      have hkey : k = makeKey o.id scope o.synthetic := by simpa [ownKeys, hid] using hk
      exact (mem_byId_addImpl h).mpr (.inl hkey)
  cases op with
  | add o => exact (mem_byId_addImpl h).mpr (.inl (List.mem_singleton.mp hk))
  | addScoped o scope idMissing => exact hscoped o scope idMissing hk
  | addGetKey o scope idMissing => exact hscoped o scope idMissing hk
  | snapshotPerOrder orders => exact (mem_byId_applySnapshotPerOrder h).mpr hk
  | _ => cases hk

/-- In every run whose steps keep the counters ahead, a scoped add without an id is given a key of
its own and joins the orders that rest, whichever form of the add it is. Conversely an operation
that brings a synthetic key that its counter has not passed can be followed by such adds of which
the last one does not join. -/
theorem synthetic_adds_join (ops : List BookOp) :
    (GuardedRuns.along apply keepsAhead {} ops = true →
      ∀ (o : Order) (scope : FeedScope) (idMissing : Bool), idMissing ∨ o.id = 0 →
        let b := run ops
        b.Joins (b.applyAddScoped o scope idMissing).1 (b.drawnCopy o scope) ∧
        b.Joins (b.applyAddGetKey o scope idMissing).1 (b.drawnCopy o scope) ∧
        (b.applyAddGetKey o scope idMissing).2 = (b.drawnCopy o scope).key) ∧
    ∀ op : BookOp, ∀ k ∈ ownKeys op, ¬ (run ops).Passed k →
      ∀ o : Order, ∃ m,
        let scope : FeedScope := ⟨k.feedId, k.epoch⟩
        let b := run (ops ++ op :: List.replicate m (.addScoped o scope true))
        ¬ b.Joins (b.applyAddScoped o scope true).1 (b.drawnCopy o scope) := by
  constructor
  · intro hguard o scope idMissing hid
    have hwf := (run_refines ops).wf
    have hnew : ((run ops).drawnCopy o scope).key ∉ (run ops).byId := by
      intro hmem
      exact absurd (ahead_run hguard _ hmem rfl) (UInt64.lt_irrefl _)
    have hjoins := (joins_draw_iff hwf hid).mpr hnew
    refine ⟨hjoins, hjoins, ?_⟩
    rw [applyAddGetKey, scopedCopy_of_draw hid]
  · intro op k hk hpassed o
    obtain ⟨id, feedId, epoch, synthetic⟩ := k
    obtain rfl : synthetic = true := by
      by_contra hsyn
      exact hpassed (fun h => absurd h hsyn)
    have hwf := (run_refines ops).wf
    have hmem := ownKeys_apply hwf hk
    obtain ⟨m, hm⟩ := exists_displacing_draw
      (n := (id - ((run ops).apply op).nextId ⟨feedId, epoch⟩).toNat)
      (OrderBookManager.wf_apply hwf op) o ⟨feedId, epoch⟩ (by rw [UInt64.ofNat_toNat]; grind) hmem
    refine ⟨m, ?_⟩
    have hrun : run (ops ++ op :: List.replicate m (.addScoped o ⟨feedId, epoch⟩ true)) =
        (List.replicate m (BookOp.addScoped o ⟨feedId, epoch⟩ true)).foldl apply
          ((run ops).apply op) := by
      rw [run, List.foldl_append]
      rfl
    dsimp only
    rw [hrun]
    exact hm

theorem passed_snapshot_joins :
    let b := run [.addScoped {} ⟨1, 1⟩ true, .snapshotPerOrder [{ id := 1, price := ⟨100⟩, size := 10,
                                                                  feedId := 1, epoch := 1,
                                                                  synthetic := true }]]
    let o : Order := { price := ⟨101⟩, size := 5 }
    b.Joins (b.applyAddScoped o ⟨1, 1⟩ true).1 (b.drawnCopy o ⟨1, 1⟩) :=
  ((synthetic_adds_join [.addScoped {} ⟨1, 1⟩ true,
    .snapshotPerOrder [{ id := 1, price := ⟨100⟩, size := 10, feedId := 1, epoch := 1,
                         synthetic := true }]]).1 (by decide +kernel)
    { price := ⟨101⟩, size := 5 } ⟨1, 1⟩ true (.inl rfl)).1

/-- A per-order snapshot with a synthetic order of id 1, before any draw of its scope. -/
def syntheticSnapshot : List BookOp :=
  [.snapshotPerOrder [{ id := 1, price := ⟨100⟩, size := 10, feedId := 1, epoch := 1,
                        synthetic := true }]]

/-- The add without an id is given the key of the resting order, which leaves the book. -/
theorem synthetic_add_displaces :
    let b := run syntheticSnapshot
    let o : Order := { price := ⟨101⟩, size := 5 }
    let after := b.applyAddGetKey o ⟨1, 1⟩ true
    after.2 ∈ b.byId ∧ b.queue .bid ⟨100⟩ ≠ [] ∧ after.1.queue .bid ⟨100⟩ = [] ∧
      after.1.orderCount = b.orderCount := by
  decide +kernel

end

end OrderBook
end GmaEngine
