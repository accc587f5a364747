import GmaEngine.QueuePositions
import GmaEngine.TradeConservation

/-!
# Time priority over whole runs

An order keeps its place in the queue of its level until an operation puts it at the end again.
Until then nobody gets ahead of it, whatever happens to the book, and no trade takes from an order
behind it.
-/

namespace GmaEngine
open Std KeyedQueues

namespace OrderBook

/-- The keys at a level, in the order in which trades reach them. -/
def keysAt (b : OrderBook) (s : Side) (p : Price) : List OrderKey := (b.queue s p).map Order.key

/-- An update of the order under `key` leaves the order `o` alive and takes it to another price. -/
def MovesTo (key : OrderKey) (newPrice : Option Price) (newSize : Option UInt64) (o : Order) : Prop :=
  o.key = key ∧ newSize.getD o.size ≠ 0 ∧ newPrice.getD o.price ≠ o.price

/-- The operation puts an order with the key `k` at the end of a queue: it adds one, or it moves
the resting one to another price or to another priority. -/
def Enters (b : OrderBook) (k : OrderKey) : BookOp → Prop
  | .add o => ({ o with feedId := 0, epoch := 0 } : Order).key = k
  | .addScoped o scope idMissing => (b.scopedCopy o scope idMissing).2.key = k
  | .addGetKey o scope idMissing => (b.scopedCopy o scope idMissing).2.key = k
  | .update id newPrice newSize => makeKey id {} false = k ∧
      ∃ s p, ∃ o ∈ b.queue s p, MovesTo k newPrice newSize o
  | .updateKey key newPrice newSize => key = k ∧
      ∃ s p, ∃ o ∈ b.queue s p, MovesTo k newPrice newSize o
  | .priority id newPriority => makeKey id {} false = k ∧
      ∃ s p, ∃ o ∈ b.queue s p, o.key = k ∧ newPriority ≠ o.priority
  | .priorityKey key newPriority => key = k ∧
      ∃ s p, ∃ o ∈ b.queue s p, o.key = k ∧ newPriority ≠ o.priority
  | .snapshotPerOrder orders => k ∈ orders.map Order.key
  | .delete _ => False
  | .deleteKey _ => False
  | .trade .. => False
  | .snapshotAggregated _ => False
  | .levelSummary .. => False

end OrderBook

namespace AbstractBook

def keysAt (a : AbstractBook) (x : Side × Price) : List OrderKey := (a.queues x).map Order.key

/-- Every queue keeps some of its keys in their order, and the newcomers are not called `k`. -/
def KeepsOrder (k : OrderKey) (a a' : AbstractBook) : Prop :=
  ∀ x, ∃ new, k ∉ new ∧ (a'.keysAt x).Sublist (a.keysAt x ++ new)

variable {a : AbstractBook} {k : OrderKey}

theorem KeepsOrder.of_sublist {a' : AbstractBook}
    (h : ∀ x, (a'.keysAt x).Sublist (a.keysAt x)) : KeepsOrder k a a' := by
  intro x
  refine ⟨[], List.not_mem_nil, ?_⟩
  rw [List.append_nil]
  exact h x

theorem KeepsOrder.refl (k : OrderKey) (a : AbstractBook) : KeepsOrder k a a :=
  .of_sublist (fun _ => List.Sublist.refl _)

theorem keysAt_add_sublist (a : AbstractBook) (o : Order) (x : Side × Price) :
    ((a.add o).keysAt x).Sublist (a.keysAt x ++ [o.key]) := by
  rw [keysAt, add_queues, List.map_append]
  refine List.Sublist.append (List.Sublist.map _ removeKey_sublist) ?_
  split_ifs
  · exact List.Sublist.refl _
  · exact List.nil_sublist _

theorem keepsOrder_add {o : Order} (h : o.key ≠ k) : KeepsOrder k a (a.add o) :=
  fun x => ⟨[o.key], by simpa using Ne.symm h, keysAt_add_sublist a o x⟩

theorem keepsOrder_delete (key : OrderKey) : KeepsOrder k a (a.delete key) :=
  .of_sublist (fun _ => List.Sublist.map _ removeKey_sublist)

theorem keepsOrder_update (key : OrderKey) (newPrice : Option Price) (newSize : Option UInt64)
    (h : ¬ (key = k ∧ ∃ x, ∃ o ∈ a.queues x, OrderBook.MovesTo k newPrice newSize o)) :
    KeepsOrder k a (a.update key newPrice newSize) := by
  unfold AbstractBook.update
  cases hfind : find Order.key key a.queues with
  | none => exact .refl k a
  | some o =>
    obtain ⟨⟨x, hx⟩, hkey⟩ := find_spec hfind
    dsimp only
    split_ifs with hsize hprice
    · exact keepsOrder_delete key
    · refine .of_sublist (fun y => ?_)
      change ((modifyKey Order.key key (fun _ => { o with size := newSize.getD o.size })
        (a.queues y)).map Order.key).Sublist (a.keysAt y)
      rw [map_key_modifyKey (by exact hkey)]
      exact List.Sublist.refl _
    · refine keepsOrder_add (fun hk => h ?_)
      have hok : o.key = k := hk
      exact ⟨hkey.symm.trans hok, x, o, hx, hok, hsize, hprice⟩

theorem keepsOrder_priority (key : OrderKey) (newPriority : UInt64)
    (h : ¬ (key = k ∧ ∃ x, ∃ o ∈ a.queues x, o.key = k ∧ newPriority ≠ o.priority)) :
    KeepsOrder k a (a.priority key newPriority) := by
  unfold AbstractBook.priority
  cases hfind : find Order.key key a.queues with
  | none => exact .refl k a
  | some o =>
    obtain ⟨⟨x, hx⟩, hkey⟩ := find_spec hfind
    dsimp only
    split_ifs with hsame
    · exact .refl k a
    · refine keepsOrder_add (fun hk => h ?_)
      have hok : o.key = k := hk
      exact ⟨hkey.symm.trans hok, x, o, hx, hok, Ne.symm hsame⟩

theorem takeFront_keys_sublist (qty : UInt64) (os : List Order) :
    ((OrderBook.takeFront qty os).map Order.key).Sublist (os.map Order.key) := by
  induction os generalizing qty with
  | nil => exact List.Sublist.refl _
  | cons o os ih =>
    unfold OrderBook.takeFront
    split_ifs
    · exact List.Sublist.refl _
    · exact (ih _).trans (List.sublist_cons_self _ _)
    · exact List.Sublist.refl _

theorem keepsOrder_trade (tradePrice : Price) (qty : UInt64) (aggr : Aggressor) :
    KeepsOrder k a (a.trade tradePrice qty aggr) := by
  unfold AbstractBook.trade
  cases a.passive tradePrice aggr with
  | none => exact .refl k a
  | some s =>
    refine .of_sublist (fun x => ?_)
    by_cases hx : x = (s, tradePrice)
    · subst hx
      simpa [keysAt] using takeFront_keys_sublist qty (a.queues (s, tradePrice))
    · simp [keysAt, hx]

/-- A snapshot empties the queues, and its orders come to them one after the other. -/
theorem keysAt_snapshot_sublist (a : AbstractBook) (orders : List Order) (x : Side × Price) :
    ((a.snapshot orders).keysAt x).Sublist (orders.map Order.key) := by
  unfold snapshot
  induction orders using List.reverseRecOn with
  | nil => exact List.Sublist.refl _
  | append_singleton orders o ih =>
    rw [List.foldl_append, List.map_append]
    exact (keysAt_add_sublist _ o x).trans (ih.append (List.Sublist.refl _))

end AbstractBook

namespace OrderBook
open AbstractBook

theorem Refines.keysAt {b : OrderBook} {a : AbstractBook} (h : b.Refines a) (s : Side) (p : Price) :
    b.keysAt s p = a.keysAt (s, p) := congrArg (List.map Order.key) (h.queues s p)

/-- In the abstract book an order stands where it stands in the book. -/
theorem Refines.exists_queue {b : OrderBook} {a : AbstractBook} (h : b.Refines a)
    {P : Order → Prop} :
    (∃ x, ∃ o ∈ a.queues x, P o) ↔ ∃ s p, ∃ o ∈ b.queue s p, P o := by
  simp only [Prod.exists, ← h.queues]

theorem scopedCopy_eq {b : OrderBook} {a : AbstractBook} (h : b.Refines a) (o : Order)
    (scope : FeedScope) (idMissing : Bool) : ∃ a' : AbstractBook, a'.queues = a.queues ∧
      a.addScoped o scope idMissing = a'.add (b.scopedCopy o scope idMissing).2 := by
  by_cases hid : idMissing ∨ o.id = 0
  · refine ⟨{ a with nextId := Function.update a.nextId scope (a.nextId scope + 1) }, rfl, ?_⟩
    simp only [AbstractBook.addScoped, scopedCopy, hid, if_true, nextSyntheticId, h.nextId]
  · refine ⟨a, rfl, ?_⟩
    simp only [AbstractBook.addScoped, scopedCopy, hid, if_false]

/-- An operation that does not put `k` at the end of a queue lets nobody pass it. -/
theorem keepsOrder_apply {b : OrderBook} {a : AbstractBook} (h : b.Refines a) (k : OrderKey)
    (op : BookOp) (hop : ¬ b.Enters k op) : KeepsOrder k a (a.apply op) := by
  have hscoped (o : Order) (scope : FeedScope) (idMissing : Bool)
      (hk : (b.scopedCopy o scope idMissing).2.key ≠ k) :
      KeepsOrder k a (a.addScoped o scope idMissing) := by
    obtain ⟨a', hqueues, hadd⟩ := scopedCopy_eq h o scope idMissing
    rw [hadd]
    intro x
    have hsame : a.keysAt x = a'.keysAt x := congrArg (List.map Order.key) (congrFun hqueues x).symm
    rw [hsame]
    exact keepsOrder_add hk x
  cases op with
  | add o => exact keepsOrder_add hop
  | addScoped o scope idMissing => exact hscoped o scope idMissing hop
  | addGetKey o scope idMissing => exact hscoped o scope idMissing hop
  | update id newPrice newSize =>
    refine keepsOrder_update _ newPrice newSize (fun ⟨hk, hmoves⟩ => hop ⟨hk, ?_⟩)
    exact h.exists_queue.mp hmoves
  | updateKey key newPrice newSize =>
    refine keepsOrder_update key newPrice newSize (fun ⟨hk, hmoves⟩ => hop ⟨hk, ?_⟩)
    exact h.exists_queue.mp hmoves
  | delete id => exact keepsOrder_delete _
  | deleteKey key => exact keepsOrder_delete key
  | priority id newPriority =>
    refine keepsOrder_priority _ newPriority (fun ⟨hk, hmoves⟩ => hop ⟨hk, ?_⟩)
    exact h.exists_queue.mp hmoves
  | priorityKey key newPriority =>
    refine keepsOrder_priority key newPriority (fun ⟨hk, hmoves⟩ => hop ⟨hk, ?_⟩)
    exact h.exists_queue.mp hmoves
  | trade tradePrice qty aggr => exact keepsOrder_trade tradePrice qty aggr
  | snapshotPerOrder orders =>
    exact fun x => ⟨orders.map Order.key, hop,
      (keysAt_snapshot_sublist a orders x).trans (List.sublist_append_right _ _)⟩
  | snapshotAggregated levels => exact .refl k a
  | levelSummary side price totalSize orderCount => exact .refl k a

/-- The step lemma: at every level, an order that did not enter was there before, and only orders
that were ahead of it are. -/
theorem ahead_apply (ops : List BookOp) (op : BookOp) {k : OrderKey}
    (hop : ¬ (run ops).Enters k op) {s : Side} {p : Price}
    (hk : k ∈ (run (ops ++ [op])).keysAt s p) :
    k ∈ (run ops).keysAt s p ∧
      (ahead k ((run (ops ++ [op])).keysAt s p)).Sublist (ahead k ((run ops).keysAt s p)) := by
  have h := run_refines ops
  have hnext : (run (ops ++ [op])).Refines ((AbstractBook.run ops).apply op) := by
    rw [run, List.foldl_append]
    exact h.apply op
  have hnodup : ((run ops).keysAt s p).Nodup := h.wf.queue_nodup s p
  obtain ⟨new, hnew, hsub⟩ := keepsOrder_apply h k op hop (s, p)
  rw [← h.keysAt, ← hnext.keysAt] at hsub
  exact ahead_sublist hnodup hsub hnew hk

/-- The run lemma: as long as nothing puts the order at the end of a queue again. -/
theorem ahead_shrinks (ops later : List BookOp) {k : OrderKey}
    (hstays : ∀ before op after, later = before ++ op :: after →
      ¬ (run (ops ++ before)).Enters k op) {s : Side} {p : Price}
    (hk : k ∈ (run (ops ++ later)).keysAt s p) :
    k ∈ (run ops).keysAt s p ∧
      (ahead k ((run (ops ++ later)).keysAt s p)).Sublist (ahead k ((run ops).keysAt s p)) := by
  induction later using List.reverseRecOn with
  | nil =>
    rw [List.append_nil] at hk ⊢
    exact ⟨hk, List.Sublist.refl _⟩
  | append_singleton later op ih =>
    rw [← List.append_assoc] at hk ⊢
    obtain ⟨hmem, hsub⟩ := ahead_apply (ops ++ later) op (hstays later op [] rfl) hk
    obtain ⟨hmem', hsub'⟩ := ih (fun before op' after heq =>
      hstays before op' (after ++ [op]) (by rw [heq]; simp)) hmem
    exact ⟨hmem', hsub.trans hsub'⟩

theorem map_key_reduceFirst (x : UInt64) (os : List Order) :
    (reduceFirst x os).map Order.key = os.map Order.key := by
  cases os with
  | nil => rfl
  | cons o later => rfl

/-- If a key is left, what was not ahead of it is left as it was. -/
theorem mem_reduceFirst {gone kept : List Order} {x : UInt64} {k : OrderKey} {o : Order}
    (hnodup : ((gone ++ kept).map Order.key).Nodup)
    (hk : k ∈ (reduceFirst x kept).map Order.key) (ho : o ∈ gone ++ kept) (hne : o.key ≠ k)
    (hbehind : o.key ∉ ahead k ((gone ++ kept).map Order.key)) : o ∈ reduceFirst x kept := by
  rw [map_key_reduceFirst] at hk
  rw [List.map_append] at hnodup hbehind
  have hgone : k ∉ gone.map Order.key :=
    fun hin => (List.nodup_append.mp hnodup).2.2 k hin k hk rfl
  rw [ahead_append_of_notMem hgone, List.mem_append, not_or] at hbehind
  have hkept : o ∈ kept := by
    refine (List.mem_append.mp ho).resolve_left (fun hin => hbehind.1 ?_)
    exact List.mem_map_of_mem hin
  cases kept with
  | nil => cases hkept
  | cons first later =>
    rcases List.mem_cons.mp hkept with rfl | hlater
    · rw [List.map_cons, ahead_cons_of_ne hne] at hbehind
      exact absurd List.mem_cons_self hbehind.2
    · exact List.mem_cons_of_mem _ hlater

/-- A trade that leaves an order resting takes nothing from the orders behind it. -/
theorem trade_spares_behind {b : OrderBook} (h : b.WF) {s : Side} {p : Price} {k : OrderKey}
    {o : Order} (tradePrice : Price) (qty : UInt64) (aggr : Aggressor)
    (hrests : k ∈ ((b.applyTrade tradePrice qty aggr).1).keysAt s p) (ho : o ∈ b.queue s p)
    (hne : o.key ≠ k) (hbehind : o.key ∉ ahead k (b.keysAt s p)) :
    o ∈ (b.applyTrade tradePrice qty aggr).1.queue s p := by
  cases hs : b.passiveSide tradePrice aggr with
  | none =>
    have hsame : (b.applyTrade tradePrice qty aggr).1 = b := by simp [applyTrade, hs]
    rw [hsame]
    exact ho
  | some s' =>
    obtain ⟨gone, kept, x, htook, -⟩ := consumeAtLevel_took h s' tradePrice qty
    rw [applyTrade_eq hs qty] at hrests ⊢
    by_cases hlevel : s = s' ∧ p = tradePrice
    · obtain ⟨rfl, rfl⟩ := hlevel
      have hnodup := h.queue_nodup s p
      rw [keysAt, htook.after] at hrests
      rw [keysAt, htook.before] at hbehind
      rw [htook.before] at ho hnodup
      rw [htook.after]
      exact mem_reduceFirst hnodup hrests ho hne hbehind
    · rw [queue, htook.others s p hlevel, ← queue]
      exact ho

/-- Time priority: once an order rests and until an operation puts it at the end of a queue again,
the orders ahead of it at its level are orders that were ahead of it all along. A trade that
leaves it resting takes nothing from any other order of the level. -/
theorem time_priority (ops later : List BookOp) (k : OrderKey)
    (hstays : ∀ before op after, later = before ++ op :: after →
      ¬ (run (ops ++ before)).Enters k op) (s : Side) (p : Price)
    (hk : k ∈ (run (ops ++ later)).keysAt s p) :
    k ∈ (run ops).keysAt s p ∧
    (ahead k ((run (ops ++ later)).keysAt s p)).Sublist (ahead k ((run ops).keysAt s p)) ∧
    ∀ tradePrice qty aggr, k ∈ (run (ops ++ later ++ [.trade tradePrice qty aggr])).keysAt s p →
      ∀ o ∈ (run (ops ++ later)).queue s p, o.key ≠ k →
        o.key ∉ ahead k ((run ops).keysAt s p) →
        o ∈ (run (ops ++ later ++ [.trade tradePrice qty aggr])).queue s p := by
  obtain ⟨hmem, hsub⟩ := ahead_shrinks ops later hstays hk
  refine ⟨hmem, hsub, ?_⟩
  intro tradePrice qty aggr hrests o ho hne hbehind
  have htrade : run (ops ++ later ++ [.trade tradePrice qty aggr]) =
      ((run (ops ++ later)).applyTrade tradePrice qty aggr).1 := by
    rw [run, List.foldl_append]
    rfl
  rw [htrade] at hrests ⊢
  exact trade_spares_behind (run_refines (ops ++ later)).wf tradePrice qty aggr hrests ho hne
    (fun hin => hbehind (hsub.subset hin))

/-- Two bids at one price. -/
def twoBids : List BookOp :=
  [.add { id := 1, price := ⟨100⟩, size := 5 }, .add { id := 2, price := ⟨100⟩, size := 5 }]

/-- The first bid keeps its place while the second grows, and a sale is taken from it alone. -/
theorem time_priority_twoBids :
    { id := 2, price := ⟨100⟩, size := 9 } ∈
      (run (twoBids ++ [.update 2 none (some 9)] ++ [.trade ⟨100⟩ 3 .sell])).queue .bid ⟨100⟩ := by
  refine (time_priority twoBids [.update 2 none (some 9)] ⟨1, 0, 0, false⟩ ?_ .bid ⟨100⟩
    (by decide +kernel)).2.2 ⟨100⟩ 3 .sell (by decide +kernel) _ (by decide +kernel)
    (by decide +kernel) (by decide +kernel)
  intro before op after heq henters
  cases before with
  | nil =>
    cases heq
    exact absurd henters.1 (by decide)
  | cons _ before => simp at heq

end OrderBook
end GmaEngine
