import GmaEngine.OrderBookOperations

/-!
# The order book refines a map of queues

The abstract book is a family of queues indexed by side and price, with the next synthetic
id of every feed scope. Its operations say what the book is for: an add appends, a price
change moves to the back of the new queue, a size change keeps its place, a trade takes
from the front. `OrderBook` implements it, over every sequence of operations.
-/

namespace GmaEngine
open Std KeyedQueues

/-- Every public operation of `OrderBook`, one constructor per overload. -/
inductive BookOp where
  | add (o : Order)
  | addScoped (o : Order) (scope : FeedScope) (idMissing : Bool)
  | addGetKey (o : Order) (scope : FeedScope) (idMissing : Bool)
  | update (id : UInt64) (newPrice : Option Price) (newSize : Option UInt64)
  | updateKey (key : OrderKey) (newPrice : Option Price) (newSize : Option UInt64)
  | delete (id : UInt64)
  | deleteKey (key : OrderKey)
  | priority (id : UInt64) (newPriority : UInt64)
  | priorityKey (key : OrderKey) (newPriority : UInt64)
  | trade (tradePrice : Price) (qty : UInt64) (aggr : Aggressor)
  | snapshotPerOrder (orders : List Order)
  | snapshotAggregated (levels : List LevelSnapshotEntry)
  | levelSummary (side : Side) (price : Price) (totalSize : UInt64) (orderCount : Option UInt32)

namespace OrderBook

def apply (b : OrderBook) : BookOp → OrderBook
  | .add o => (b.applyAdd o).1
  | .addScoped o scope idMissing => (b.applyAddScoped o scope idMissing).1
  | .addGetKey o scope idMissing => (b.applyAddGetKey o scope idMissing).1
  | .update id newPrice newSize => (b.applyUpdate id newPrice newSize).1
  | .updateKey key newPrice newSize => (b.applyUpdateKey key newPrice newSize).1
  | .delete id => (b.applyDelete id).1
  | .deleteKey key => (b.applyDeleteKey key).1
  | .priority id newPriority => (b.applyPriority id newPriority).1
  | .priorityKey key newPriority => (b.applyPriorityKey key newPriority).1
  | .trade tradePrice qty aggr => (b.applyTrade tradePrice qty aggr).1
  | .snapshotPerOrder orders => b.applySnapshotPerOrder orders
  | .snapshotAggregated levels => b.applySnapshotAggregated levels
  | .levelSummary side price totalSize orderCount =>
    (b.applyLevelSummary side price totalSize orderCount).1

/-- The book after a sequence of operations on the empty book. -/
def run (ops : List BookOp) : OrderBook := ops.foldl apply {}

end OrderBook

structure AbstractBook where
  queues : Side × Price → List Order := fun _ => []
  nextId : FeedScope → UInt64 := fun _ => 1

namespace AbstractBook

def place (o : Order) : Side × Price := (o.side, o.price)

def delete (a : AbstractBook) (k : OrderKey) : AbstractBook :=
  { a with queues := remove Order.key k a.queues }

/-- An order with the same key goes first; the new one stands last in its queue. -/
def add (a : AbstractBook) (o : Order) : AbstractBook :=
  { a with queues := append place o (remove Order.key o.key a.queues) }

/-- A missing or zero id is replaced by the next synthetic id of the scope. -/
def addScoped (a : AbstractBook) (o : Order) (scope : FeedScope) (idMissing : Bool) :
    AbstractBook :=
  if idMissing ∨ o.id = 0 then
    ({ a with nextId := Function.update a.nextId scope (a.nextId scope + 1) } : AbstractBook).add
      { o with id := a.nextId scope, feedId := scope.feedId, epoch := scope.epoch,
               synthetic := true }
  else a.add { o with feedId := scope.feedId, epoch := scope.epoch }

noncomputable def update (a : AbstractBook) (k : OrderKey) (newPrice : Option Price)
    (newSize : Option UInt64) : AbstractBook :=
  match find Order.key k a.queues with
  | none => a
  | some o =>
    let size := newSize.getD o.size
    let price := newPrice.getD o.price
    if size = 0 then a.delete k
    else if price = o.price then { a with queues := rewrite Order.key k { o with size := size } a.queues }
    else a.add { o with price := price, size := size }

noncomputable def priority (a : AbstractBook) (k : OrderKey) (newPriority : UInt64) :
    AbstractBook :=
  match find Order.key k a.queues with
  | none => a
  | some o => if o.priority = newPriority then a else a.add { o with priority := newPriority }

open Classical in
/-- The side that a trade takes from. Without an aggressor it is the bid side when some bid
reaches the trade price, else the ask side when some ask does. -/
noncomputable def passive (a : AbstractBook) (tradePrice : Price) : Aggressor → Option Side
  | .buy => some .ask
  | .sell => some .bid
  | .unknown =>
    if ∃ p, a.queues (.bid, p) ≠ [] ∧ tradePrice.ticks ≤ p.ticks then some .bid
    else if ∃ p, a.queues (.ask, p) ≠ [] ∧ p.ticks ≤ tradePrice.ticks then some .ask
    else none

noncomputable def trade (a : AbstractBook) (tradePrice : Price) (qty : UInt64)
    (aggr : Aggressor) : AbstractBook :=
  match a.passive tradePrice aggr with
  | none => a
  | some s =>
    let taken := OrderBook.takeFront qty (a.queues (s, tradePrice))
    { a with queues := Function.update a.queues (s, tradePrice) taken }

def snapshot (a : AbstractBook) (orders : List Order) : AbstractBook :=
  orders.foldl add { a with queues := fun _ => [] }

noncomputable def apply (a : AbstractBook) : BookOp → AbstractBook
  | .add o => a.add { o with feedId := 0, epoch := 0 }
  | .addScoped o scope idMissing => a.addScoped o scope idMissing
  | .addGetKey o scope idMissing => a.addScoped o scope idMissing
  | .update id newPrice newSize => a.update (makeKey id {} false) newPrice newSize
  | .updateKey key newPrice newSize => a.update key newPrice newSize
  | .delete id => a.delete (makeKey id {} false)
  | .deleteKey key => a.delete key
  | .priority id newPriority => a.priority (makeKey id {} false) newPriority
  | .priorityKey key newPriority => a.priority key newPriority
  | .trade tradePrice qty aggr => a.trade tradePrice qty aggr
  | .snapshotPerOrder orders => a.snapshot orders
  | .snapshotAggregated _ => a -- the aggregated ladders are no part of the queues
  | .levelSummary .. => a

noncomputable def run (ops : List BookOp) : AbstractBook := ops.foldl apply {}

theorem add_queues (a : AbstractBook) (o : Order) (s : Side) (p : Price) :
    (a.add o).queues (s, p) = removeKey Order.key o.key (a.queues (s, p)) ++
      if s = o.side ∧ p = o.price then [o] else [] := by
  simp [add, append, remove, place]

end AbstractBook

namespace OrderBook

/-- The part of a book that the core operations leave alone. -/
def rest (b : OrderBook) : ((s : Side) → AggLadder s) × AList (fun _ : UInt64 => UInt64) :=
  (b.ladderAgg, b.synthCounters)

/-- The book without its aggregated ladders. -/
def perOrder (b : OrderBook) : OrderBook := { b with ladderAgg := fun _ => ∅ }

section Frames
variable (b : OrderBook)

@[simp] theorem setLevel_rest (s : Side) (p : Price) (l : PriceLevel) :
    (b.setLevel s p l).rest = b.rest := rfl

@[simp] theorem eraseLevelIfEmpty_rest (s : Side) (p : Price) :
    (b.eraseLevelIfEmpty s p).rest = b.rest := by
  unfold eraseLevelIfEmpty
  split
  · rfl
  · split_ifs <;> rfl

@[simp] theorem unlink_rest (s : Side) (p : Price) (l : PriceLevel) (it : ℕ) (sz : UInt64) :
    (b.unlink s p l it sz).rest = b.rest := by
  simp [unlink]

@[simp] theorem pushBack_rest (s : Side) (p : Price) (o : Order) :
    (b.pushBack s p o).rest = b.rest := rfl

@[simp] theorem withById_rest (m : AList (fun _ : OrderKey => Locator)) :
    { b with byId := m }.rest = b.rest := rfl

@[simp] theorem deleteImpl_rest (k : OrderKey) : (b.deleteImpl k).1.rest = b.rest := by
  unfold deleteImpl
  repeat' split
  all_goals simp

@[simp] theorem addImpl_rest (o : Order) : (b.addImpl o).1.rest = b.rest := by
  unfold addImpl
  split_ifs <;> simp

@[simp] theorem updateImpl_rest (k : OrderKey) (newPrice : Option Price)
    (newSize : Option UInt64) : (b.updateImpl k newPrice newSize).1.rest = b.rest := by
  unfold updateImpl
  repeat' split
  · rfl
  · rfl
  · rfl
  · dsimp only
    split_ifs <;> simp

@[simp] theorem priorityImpl_rest (k : OrderKey) (newPriority : UInt64) :
    (b.priorityImpl k newPriority).1.rest = b.rest := by
  unfold priorityImpl
  repeat' split
  all_goals simp

@[simp] theorem consumeAtLevel_rest (s : Side) (p : Price) (qty : UInt64) :
    (b.consumeAtLevel s p qty).1.rest = b.rest := by
  obtain ⟨-, he⟩ | ⟨l, -, -, he⟩ := consumeAtLevel_cases b s p qty <;> simp [he]

theorem applySnapshotAggregated_perOrder (levels : List LevelSnapshotEntry) :
    (b.applySnapshotAggregated levels).perOrder = b.perOrder := by
  unfold applySnapshotAggregated
  induction levels using List.reverseRecOn with
  | nil => rfl
  | append_singleton es e ih =>
    rw [List.foldl_append, List.foldl_cons, List.foldl_nil]
    split_ifs
    · exact ih
    · exact ih

theorem applyLevelSummary_perOrder (side : Side) (price : Price) (totalSize : UInt64)
    (orderCount : Option UInt32) :
    (b.applyLevelSummary side price totalSize orderCount).1.perOrder = b.perOrder := by
  unfold applyLevelSummary
  split_ifs <;> rfl

end Frames

/-- Distinct scopes have distinct counters. -/
theorem scopeKey_injective : Function.Injective scopeKey := by
  rintro ⟨f, e⟩ ⟨f', e'⟩ h
  have hval : ∀ f e : UInt32, (scopeKey ⟨f, e⟩).toNat = f.toNat * 2 ^ 32 + e.toNat := by
    intro f e
    have hf := f.toNat_lt
    have he := e.toNat_lt
    have hlt : f.toNat <<< 32 < 2 ^ 64 := by
      rw [Nat.shiftLeft_eq]
      omega
    simp only [scopeKey, UInt64.toNat_or, UInt64.toNat_shiftLeft, UInt32.toNat_toUInt64]
    rw [show (32 : UInt64).toNat % 64 = 32 from rfl, Nat.mod_eq_of_lt hlt,
      ← Nat.shiftLeft_add_eq_or_of_lt he, Nat.shiftLeft_eq]
  have hn := congrArg UInt64.toNat h
  rw [hval, hval] at hn
  have he := e.toNat_lt
  have he' := e'.toNat_lt
  have hff : f = f' := UInt32.toNat_inj.mp (by omega)
  have hee : e = e' := UInt32.toNat_inj.mp (by omega)
  rw [hff, hee]

/-- The book implements the abstract book. -/
structure Refines (b : OrderBook) (a : AbstractBook) : Prop where
  wf : b.WF
  queues : ∀ s p, b.queue s p = a.queues (s, p)
  nextId : ∀ scope, (b.synthCounters.lookup (scopeKey scope)).getD 1 = a.nextId scope

section Operations
variable {b : OrderBook} {a : AbstractBook}

theorem rest_synthCounters {b b' : OrderBook} (h : b'.rest = b.rest) :
    b'.synthCounters = b.synthCounters := congrArg Prod.snd h

/-- A core operation refines an abstract one when it keeps the invariant and acts on the
queues alike; the counters are outside its reach. -/
theorem Refines.core (h : b.Refines a) {b' : OrderBook} {Q : Side × Price → List Order}
    (hwf : b'.WF) (hrest : b'.rest = b.rest) (hq : ∀ s p, b'.queue s p = Q (s, p)) :
    b'.Refines { a with queues := Q } :=
  ⟨hwf, hq, by rw [rest_synthCounters hrest]; exact h.nextId⟩

theorem Refines.congr (h : b.Refines a) {b' : OrderBook} (he : b'.perOrder = b.perOrder) :
    b'.Refines a := by
  have hladder : b'.ladder = b.ladder := (congrArg OrderBook.ladder he :)
  have hcounters : b'.synthCounters = b.synthCounters := (congrArg OrderBook.synthCounters he :)
  refine ⟨h.wf.congr hladder (congrArg OrderBook.byId he :) (congrArg OrderBook.nextAddr he :),
    ?_, ?_⟩
  · intro s p
    rw [← h.queues, queue, queue, findLevel, findLevel, hladder]
  · rw [hcounters]
    exact h.nextId

theorem Refines.delete (h : b.Refines a) (k : OrderKey) :
    (b.deleteImpl k).1.Refines (a.delete k) := by
  refine h.core (deleteImpl_wf h.wf k) (by simp) ?_
  intro s p
  rw [queue_deleteImpl h.wf, h.queues]
  rfl

theorem Refines.add (h : b.Refines a) (o : Order) : (b.addImpl o).1.Refines (a.add o) := by
  refine h.core (addImpl_wf h.wf o) (by simp) ?_
  intro s p
  rw [queue_addImpl h.wf, h.queues]
  exact (a.add_queues o s p).symm

/-- The abstract search finds what the index points to. -/
theorem Refines.find (h : b.Refines a) {k : OrderKey} {s : Side} {p : Price} {n : Node}
    (hn : b.At s p n) (hk : n.order.key = k) : find Order.key k a.queues = some n.order := by
  have hmem : n.order ∈ b.queue s p := mem_queue.mpr ⟨n, hn, rfl⟩
  apply find_eq_some (s := (s, p))
  · rwa [← h.queues]
  · exact hk
  · rintro ⟨s', p'⟩ o ho hko
    rw [← h.queues] at ho
    exact (h.wf.queue_key_unique ho hmem (hko.trans hk.symm)).2.2

theorem Refines.find_none (h : b.Refines a) {k : OrderKey} (hk : b.byId.lookup k = none) :
    KeyedQueues.find Order.key k a.queues = none := by
  apply find_eq_none
  rintro ⟨s, p⟩
  rw [← h.queues]
  exact h.wf.queue_key_ne hk s p

theorem Refines.update (h : b.Refines a) (k : OrderKey) (newPrice : Option Price)
    (newSize : Option UInt64) :
    (b.updateImpl k newPrice newSize).1.Refines (a.update k newPrice newSize) := by
  have hwf := updateImpl_wf h.wf k newPrice newSize
  have hrest := updateImpl_rest b k newPrice newSize
  obtain ⟨hk, he⟩ | ⟨loc, l, n, hk, hl, hn, ha, hkey, hcase⟩ :=
    updateImpl_cases h.wf k newPrice newSize
  · simpa only [he, AbstractBook.update, h.find_none hk] using h
  have hat : b.At loc.side loc.price n := ⟨l, hl, hn⟩
  have hfind := h.find hat hkey
  obtain ⟨hs, hp⟩ := h.wf.placed _ _ n hat
  obtain ⟨h0, he⟩ | ⟨h0, hpr, hsz, he⟩ | ⟨h0, hpr, -, he⟩ | ⟨h0, hpr, he⟩ := hcase
  · simp only [AbstractBook.update, hfind, h0, if_true]
    refine h.core hwf hrest ?_
    intro s p
    rw [he, queue_dropKey _ h.wf hk hl hn ha hkey, h.queues]
    rfl
  · -- neither price nor size changes: the abstract rewrite writes the order found
    have hsame : AbstractBook.update a k newPrice newSize = a := by
      have hq : rewrite Order.key k n.order a.queues = a.queues := by
        funext ⟨s, p⟩
        rw [rewrite, modifyKey, ← h.queues]
        conv_rhs => rw [← List.map_id (b.queue s p)]
        apply List.map_congr_left
        intro o ho
        by_cases hok : o.key = k
        · have hmem : n.order ∈ b.queue loc.side loc.price := mem_queue.mpr ⟨n, hat, rfl⟩
          simp [(h.wf.queue_key_unique ho hmem (hok.trans hkey.symm)).2.2]
        · simp [hok]
      simp only [AbstractBook.update, hfind, hpr, hsz, hsz ▸ h0, if_false, if_true, hq]
    rw [hsame, he]
    exact h
  · simp only [AbstractBook.update, hfind, h0, hpr, if_false, if_true]
    refine h.core hwf hrest ?_
    intro s p
    rw [he, queue_writeNode h.wf hk hl hn ha hkey, h.queues]
    rfl
  · simp only [AbstractBook.update, hfind, h0, hpr, if_false]
    refine h.core hwf hrest ?_
    intro s p
    rw [he, queue_moveKey h.wf hk hl hn ha hkey, h.queues, ← hkey, ← hs]
    exact (a.add_queues { n.order with price := newPrice.getD n.order.price,
                                       size := newSize.getD n.order.size } s p).symm

theorem Refines.priority (h : b.Refines a) (k : OrderKey) (newPriority : UInt64) :
    (b.priorityImpl k newPriority).1.Refines (a.priority k newPriority) := by
  have hwf := priorityImpl_wf h.wf k newPriority
  have hrest := priorityImpl_rest b k newPriority
  obtain ⟨hk, he⟩ | ⟨loc, l, n, hk, hl, hn, ha, hkey, hcase⟩ :=
    priorityImpl_cases h.wf k newPriority
  · simpa only [he, AbstractBook.priority, h.find_none hk] using h
  have hat : b.At loc.side loc.price n := ⟨l, hl, hn⟩
  have hfind := h.find hat hkey
  obtain ⟨hs, hp⟩ := h.wf.placed _ _ n hat
  obtain ⟨hpr, he⟩ | ⟨hpr, he⟩ := hcase
  · simpa only [he, AbstractBook.priority, hfind, hpr, if_true] using h
  · simp only [AbstractBook.priority, hfind, hpr, if_false]
    refine h.core hwf hrest ?_
    intro s p
    rw [he, queue_moveToBack h.wf hk hl hn ha hkey, h.queues, ← hkey, ← hs, ← hp]
    exact (a.add_queues { n.order with priority := newPriority } s p).symm

/-- The best price decides whether any price of the side reaches the trade. -/
theorem begin_any_iff (h : b.WF) (s : Side) (reach : Price → Bool)
    (hmono : ∀ p q, ladderCmp s p q = .lt → reach q → reach p) :
    (b.begin s).any (fun l => reach l.1) ↔ ∃ p, b.queue s p ≠ [] ∧ reach p := by
  cases hb : b.begin s with
  | none =>
    have hnone := (begin_eq_none_iff b s).mp hb
    simp [queue, hnone]
  | some first =>
    obtain ⟨p, l⟩ := first
    obtain ⟨hl, hbest⟩ := begin_spec hb
    have hne : b.queue s p ≠ [] := by
      simpa [queue, hl] using h.nonempty s p l hl
    constructor
    · intro hp
      exact ⟨p, hne, hp⟩
    · rintro ⟨q, hq, hreach⟩
      by_cases hqp : q = p
      · exact hqp ▸ hreach
      · cases hl' : b.findLevel s q with
        | none => simp [queue, hl'] at hq
        | some l' => exact hmono p q (hbest q l' hl' hqp) hreach

theorem Refines.passive (h : b.Refines a) (tradePrice : Price) (aggr : Aggressor) :
    b.passiveSide tradePrice aggr = a.passive tradePrice aggr := by
  cases aggr with
  | buy => rfl
  | sell => rfl
  | unknown =>
    have hbid := begin_any_iff h.wf .bid (fun p => tradePrice.ticks ≤ p.ticks) (by
      intro p q hpq hq
      have hlt : q.ticks < p.ticks := compare_lt_iff_lt.mp hpq
      simp only [decide_eq_true_eq] at hq ⊢
      omega)
    have hask := begin_any_iff h.wf .ask (fun p => p.ticks ≤ tradePrice.ticks) (by
      intro p q hpq hq
      have hlt : p.ticks < q.ticks := compare_lt_iff_lt.mp hpq
      simp only [decide_eq_true_eq] at hq ⊢
      omega)
    simp only [h.queues, decide_eq_true_eq] at hbid hask
    classical
    exact if_congr hbid rfl (if_congr hask rfl rfl)

theorem Refines.trade (h : b.Refines a) (tradePrice : Price) (qty : UInt64) (aggr : Aggressor) :
    (b.applyTrade tradePrice qty aggr).1.Refines (a.trade tradePrice qty aggr) := by
  have hp := h.passive tradePrice aggr
  obtain ⟨hnone, he⟩ | ⟨s, hs, h0, he⟩ := applyTrade_cases b tradePrice qty aggr <;> rw [he]
  · have hsame : a.trade tradePrice qty aggr = a := by
      unfold AbstractBook.trade
      rw [← hp]
      rcases hnone with rfl | hnone
      · split
        · rfl
        · simp
      · rw [hnone]
    rw [hsame]
    exact h
  · simp only [AbstractBook.trade, ← hp, hs]
    refine h.core (consumeAtLevel_wf h.wf s tradePrice qty) (by simp) ?_
    intro s' p'
    rw [queue_consumeAtLevel, Function.update_apply, h.queues, h.queues]
    simp [Prod.ext_iff]

/-- A scoped add may draw a synthetic id, and changes nothing else before it adds. -/
theorem scopedCopy_book (b : OrderBook) (o : Order) (scope : FeedScope) (idMissing : Bool) :
    ∃ m, (b.scopedCopy o scope idMissing).1 = { b with synthCounters := m } := by
  by_cases hid : idMissing ∨ o.id = 0
  · exact ⟨(b.nextSyntheticId scope).1.synthCounters, by simp [scopedCopy, nextSyntheticId, hid]⟩
  · exact ⟨b.synthCounters, by simp [scopedCopy, hid]⟩

theorem Refines.addScoped (h : b.Refines a) (o : Order) (scope : FeedScope) (idMissing : Bool) :
    (b.applyAddScoped o scope idMissing).1.Refines (a.addScoped o scope idMissing) := by
  by_cases hid : idMissing ∨ o.id = 0
  · simp only [applyAddScoped, scopedCopy, AbstractBook.addScoped, hid, if_true, nextSyntheticId,
      h.nextId]
    apply Refines.add
    refine ⟨h.wf.congr rfl rfl rfl, h.queues, ?_⟩
    · intro scope'
      by_cases hsc : scope' = scope
      · subst hsc
        simp [AList.lookup_insert]
      · have hne : scopeKey scope' ≠ scopeKey scope := fun he => hsc (scopeKey_injective he)
        simp only [AList.lookup_insert_ne hne, Function.update_of_ne hsc]
        exact h.nextId scope'
  · simp only [applyAddScoped, scopedCopy, AbstractBook.addScoped, hid, if_false]
    exact h.add _

theorem Refines.snapshot (h : b.Refines a) (orders : List Order) :
    (b.applySnapshotPerOrder orders).Refines (a.snapshot orders) := by
  have hclear : b.clearPerOrderUnlocked.Refines { a with queues := fun _ => [] } := by
    refine h.core (wf_clearPerOrderUnlocked b) rfl ?_
    intro s p
    simp [queue, findLevel_clearPerOrderUnlocked]
  unfold applySnapshotPerOrder AbstractBook.snapshot
  induction orders using List.reverseRecOn with
  | nil => exact hclear
  | append_singleton os o ih =>
    rw [List.foldl_append, List.foldl_append]
    exact ih.add o

theorem Refines.apply (h : b.Refines a) (op : BookOp) : (b.apply op).Refines (a.apply op) := by
  cases op with
  | add o => exact h.add { o with feedId := 0, epoch := 0 }
  | addScoped o scope idMissing => exact h.addScoped o scope idMissing
  | addGetKey o scope idMissing => exact h.addScoped o scope idMissing
  | update id newPrice newSize => exact h.update (makeKey id {} false) newPrice newSize
  | updateKey key newPrice newSize => exact h.update key newPrice newSize
  | delete id => exact h.delete (makeKey id {} false)
  | deleteKey key => exact h.delete key
  | priority id newPriority => exact h.priority (makeKey id {} false) newPriority
  | priorityKey key newPriority => exact h.priority key newPriority
  | trade tradePrice qty aggr => exact h.trade tradePrice qty aggr
  | snapshotPerOrder orders => exact h.snapshot orders
  | snapshotAggregated levels => exact h.congr (applySnapshotAggregated_perOrder b levels)
  | levelSummary side price totalSize orderCount =>
    exact h.congr (applyLevelSummary_perOrder b side price totalSize orderCount)

end Operations

theorem run_refines (ops : List BookOp) : (run ops).Refines (AbstractBook.run ops) := by
  unfold run AbstractBook.run
  induction ops using List.reverseRecOn with
  | nil => exact ⟨wf_empty, by simp [queue, findLevel], by simp⟩
  | append_singleton ops op ih =>
    rw [List.foldl_append, List.foldl_append]
    exact ih.apply op

/-- The index entry that belongs to a node standing at a side and price. -/
def indexEntry (x : Side × Price × Node) : OrderKey × Locator :=
  (x.2.2.order.key, ⟨x.1, x.2.1, x.2.2.addr⟩)

/-- Nodes of the ladders and entries of the index are in bijection. -/
theorem WF.bijOn_indexEntry {b : OrderBook} (h : b.WF) :
    Set.BijOn indexEntry {x | b.At x.1 x.2.1 x.2.2} {e | b.byId.lookup e.1 = some e.2} := by
  refine ⟨?_, ?_, ?_⟩
  · rintro ⟨s, p, n⟩ hn
    exact h.located s p n hn
  · rintro ⟨s, p, n⟩ hn ⟨s', p', n'⟩ hn' he
    obtain ⟨hs, hp, hnn⟩ := h.key_unique hn hn' (congrArg Prod.fst he :)
    exact Prod.ext hs (Prod.ext hp hnn)
  · rintro ⟨k, loc⟩ hk
    obtain ⟨n, hn, ha, hkey⟩ := h.indexed k loc hk
    exact ⟨(loc.side, loc.price, n), hn, by simp [indexEntry, ha, hkey]⟩

/-- After every sequence of operations on the empty book, the index and the list nodes are
in bijection, every locator names the side and price of its order and level, no key rests
twice, no level is empty, and the queues are those of the abstract book. -/
theorem run_bijective_and_refines (ops : List BookOp) :
    Set.BijOn indexEntry {x | (run ops).At x.1 x.2.1 x.2.2}
      {e | (run ops).byId.lookup e.1 = some e.2} ∧
    (∀ s p l, (run ops).findLevel s p = some l → (l.orders.map Node.addr).Nodup) ∧
    (∀ k loc, (run ops).byId.lookup k = some loc → ∃ l o,
      (run ops).findLevel loc.side loc.price = some l ∧ l.deref loc.it = some o ∧
      o.side = loc.side ∧ o.price = loc.price ∧ o.key = k) ∧
    (∀ s p, (((run ops).queue s p).map Order.key).Nodup) ∧
    (∀ s p o s' p' o', o ∈ (run ops).queue s p → o' ∈ (run ops).queue s' p' →
      o.key = o'.key → s = s' ∧ p = p') ∧
    (∀ s p l, (run ops).findLevel s p = some l → l.orders ≠ []) ∧
    (fun x : Side × Price => (run ops).queue x.1 x.2) = (AbstractBook.run ops).queues := by
  have h := run_refines ops
  have hwf := h.wf
  refine ⟨hwf.bijOn_indexEntry, hwf.nodup, ?_, hwf.queue_nodup, ?_, hwf.nonempty, ?_⟩
  · intro k loc hk
    obtain ⟨l, n, hl, hn, -, hkey, hderef⟩ := hwf.deref hk
    obtain ⟨hs, hp⟩ := hwf.placed _ _ n ⟨l, hl, hn⟩
    exact ⟨l, n.order, hl, hderef, hs, hp, hkey⟩
  · intro s p o s' p' o' ho ho' hk
    obtain ⟨hs, hp, -⟩ := hwf.queue_key_unique ho ho' hk
    exact ⟨hs, hp⟩
  · funext x
    exact h.queues x.1 x.2

end OrderBook
end GmaEngine
