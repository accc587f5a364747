import GmaEngine.OrderBookInvariant

/-!
# What each book operation does to the queues

The queue of a side and price is the list of orders resting there. Under the locator
invariant every operation acts on all queues by one formula: removing a key, appending an
order, rewriting an order in place, or taking quantity from the front.
-/

namespace GmaEngine
open Std KeyedQueues

namespace OrderBook

def queue (b : OrderBook) (s : Side) (p : Price) : List Order :=
  (b.findLevel s p).elim [] (fun l => l.orders.map Node.order)

/-- Quantity taken from the front of a queue: exhausted orders leave, the next one is
reduced in place. -/
def takeFront : UInt64 → List Order → List Order
  | _, [] => []
  | q, o :: os =>
    if q = 0 then o :: os
    else if o.size ≤ q then takeFront (q - o.size) os
    else { o with size := o.size - q } :: os

theorem mem_queue {b : OrderBook} {s : Side} {p : Price} {o : Order} :
    o ∈ b.queue s p ↔ ∃ n, b.At s p n ∧ n.order = o := by
  unfold queue At
  cases hl : b.findLevel s p with
  | none => simp
  | some l => simp

theorem queue_of_findLevel {b : OrderBook} {s : Side} {p : Price} {l : PriceLevel}
    (hl : b.findLevel s p = some l) : b.queue s p = l.orders.map Node.order := by
  simp [queue, hl]

/-- The queues after a level has been rewritten. -/
theorem queue_relevel (b : OrderBook) (s : Side) (p : Price) (l : PriceLevel) (s' : Side)
    (p' : Price) : ((b.setLevel s p l).eraseLevelIfEmpty s p).queue s' p' =
      if s' = s ∧ p' = p then l.orders.map Node.order else b.queue s' p' := by
  unfold queue
  rw [findLevel_relevel]
  by_cases hsp : s' = s ∧ p' = p
  · by_cases he : l.orders = [] <;> simp [hsp, he]
  · simp [hsp]

theorem queue_setLevel (b : OrderBook) (s : Side) (p : Price) (l : PriceLevel) (s' : Side)
    (p' : Price) : (b.setLevel s p l).queue s' p' =
      if s' = s ∧ p' = p then l.orders.map Node.order else b.queue s' p' := by
  unfold queue
  rw [findLevel_setLevel]
  by_cases hsp : s' = s ∧ p' = p <;> simp [hsp]

theorem queue_pushBack (b : OrderBook) (s : Side) (p : Price) (o : Order) (s' : Side)
    (p' : Price) : (b.pushBack s p o).queue s' p' =
      b.queue s' p' ++ if s' = s ∧ p' = p then [o] else [] := by
  have hq : (b.pushBack s p o).queue s' p' = (b.setLevel s p
      ⟨(b.getOrCreateLevel s p).orders ++ [⟨b.nextAddr, o⟩],
        (b.getOrCreateLevel s p).totalSize + o.size⟩).queue s' p' := rfl
  rw [hq, queue_setLevel]
  by_cases hsp : s' = s ∧ p' = p
  · obtain ⟨rfl, rfl⟩ := hsp
    cases hl : b.findLevel s' p' <;> simp [getOrCreateLevel, queue, hl]
  · simp [hsp]

section Keys
variable {b : OrderBook} {k : OrderKey}

/-- A key unknown to the index rests nowhere. -/
theorem WF.queue_key_ne (h : b.WF) (hk : b.byId.lookup k = none) (s : Side) (p : Price) :
    ∀ o ∈ b.queue s p, o.key ≠ k := by
  intro o ho hko
  obtain ⟨n, hn, rfl⟩ := mem_queue.mp ho
  exact h.not_at_of_lookup_none (hko ▸ hk) hn

/-- A key known to the index rests only at its locator. -/
theorem WF.queue_key_ne_of_ne (h : b.WF) {loc : Locator} (hk : b.byId.lookup k = some loc)
    {s : Side} {p : Price} (hsp : ¬ (s = loc.side ∧ p = loc.price)) :
    ∀ o ∈ b.queue s p, o.key ≠ k := by
  intro o ho hko
  obtain ⟨n, hn, rfl⟩ := mem_queue.mp ho
  have he := (h.located s p n hn).symm.trans (hko ▸ hk)
  cases he
  exact hsp ⟨rfl, rfl⟩

theorem WF.queue_nodup (h : b.WF) (s : Side) (p : Price) : ((b.queue s p).map Order.key).Nodup := by
  cases hl : b.findLevel s p with
  | none => simp [queue, hl]
  | some l => simpa [queue, hl, Function.comp_def] using h.keys_nodup hl

theorem WF.queue_key_unique (h : b.WF) {s s' : Side} {p p' : Price} {o o' : Order}
    (ho : o ∈ b.queue s p) (ho' : o' ∈ b.queue s' p') (hk : o.key = o'.key) :
    s = s' ∧ p = p' ∧ o = o' := by
  obtain ⟨n, hn, rfl⟩ := mem_queue.mp ho
  obtain ⟨n', hn', rfl⟩ := mem_queue.mp ho'
  obtain ⟨hs, hp, he⟩ := h.key_unique hn hn' hk
  exact ⟨hs, hp, by rw [he]⟩

/-- Node lists and queues: filtering by address is removing by key. -/
theorem WF.map_eraseNode (h : b.WF) {s : Side} {p : Price} {l : PriceLevel} {n : Node}
    (hl : b.findLevel s p = some l) (hn : n ∈ l.orders) :
    (l.eraseNode n.addr).map Node.order = removeKey Order.key n.order.key (b.queue s p) := by
  rw [queue_of_findLevel hl, removeKey, List.filter_map, PriceLevel.eraseNode]
  congr 1
  apply List.filter_congr
  intro m hm
  simp [h.addr_iff_key hl hm hn]

theorem WF.map_writeNode (h : b.WF) {s : Side} {p : Price} {l : PriceLevel} {n : Node}
    (hl : b.findLevel s p = some l) (hn : n ∈ l.orders) (o : Order) :
    (l.writeNode n.addr o).map Node.order =
      modifyKey Order.key n.order.key (fun _ => o) (b.queue s p) := by
  rw [queue_of_findLevel hl, modifyKey, PriceLevel.writeNode, List.map_map, List.map_map]
  apply List.map_congr_left
  intro m hm
  by_cases hk : m.order.key = n.order.key
  · simp [hk, (h.addr_iff_key hl hm hn).mpr hk]
  · have ha : m.addr ≠ n.addr := fun ha => hk ((h.addr_iff_key hl hm hn).mp ha)
    simp [hk, ha]

end Keys

/-- Take the order under `k` out of its level and out of the index. -/
def dropKey (b : OrderBook) (k : OrderKey) (loc : Locator) (l : PriceLevel) (sz : UInt64) :
    OrderBook :=
  let b := b.unlink loc.side loc.price l loc.it sz
  { b with byId := b.byId.erase k }

section Unlink
variable {b : OrderBook} {k : OrderKey} {loc : Locator} {l : PriceLevel} {n : Node} {sz : UInt64}

@[simp] theorem dropKey_byId : (b.dropKey k loc l sz).byId = b.byId.erase k := by
  simp [dropKey, unlink]

@[simp] theorem dropKey_nextAddr : (b.dropKey k loc l sz).nextAddr = b.nextAddr := by
  simp [dropKey, unlink]

theorem dropKey_findLevel (s : Side) (p : Price) : (b.dropKey k loc l sz).findLevel s p =
    if s = loc.side ∧ p = loc.price then
      (if l.eraseNode loc.it = [] then none else some ⟨l.eraseNode loc.it, l.shrunk sz⟩)
    else b.findLevel s p :=
  findLevel_relevel b loc.side loc.price ⟨l.eraseNode loc.it, l.shrunk sz⟩ s p

theorem dropKey_wf (sz : UInt64) (h : b.WF) (hk : b.byId.lookup k = some loc)
    (hl : b.findLevel loc.side loc.price = some l) (hn : n ∈ l.orders) (ha : n.addr = loc.it)
    (hkey : n.order.key = k) : (b.dropKey k loc l sz).WF := by
  have hiff : ∀ m ∈ l.orders, m.addr = loc.it ↔ m.order.key = k := by
    intro m hm
    rw [← ha, ← hkey]
    exact h.addr_iff_key hl hm hn
  apply h.relevel hl (· = k) dropKey_findLevel dropKey_nextAddr
  · intro m hm
    obtain ⟨hm, hne⟩ : m ∈ l.orders ∧ m.addr ≠ loc.it := by
      simpa [PriceLevel.eraseNode] using hm
    exact ⟨fun hmk => hne ((hiff m hm).mpr hmk), m, hm, rfl⟩
  · exact (h.nodup _ _ l hl).sublist (List.filter_sublist.map _)
  · intro m hm hmk
    exact ⟨m, by simpa [PriceLevel.eraseNode] using ⟨hm, fun e => hmk ((hiff m hm).mp e)⟩, rfl⟩
  · rintro k' rfl
    exact ⟨by rw [dropKey_byId, AList.lookup_erase], n, hn, hkey⟩
  · intro k' hne
    rw [dropKey_byId, AList.lookup_erase_ne hne]

theorem queue_dropKey (sz : UInt64) (h : b.WF) (hk : b.byId.lookup k = some loc)
    (hl : b.findLevel loc.side loc.price = some l) (hn : n ∈ l.orders) (ha : n.addr = loc.it)
    (hkey : n.order.key = k) (s : Side) (p : Price) :
    (b.dropKey k loc l sz).queue s p = removeKey Order.key k (b.queue s p) := by
  have hq : (b.dropKey k loc l sz).queue s p =
      if s = loc.side ∧ p = loc.price then (l.eraseNode loc.it).map Node.order
      else b.queue s p :=
    queue_relevel b loc.side loc.price ⟨l.eraseNode loc.it, l.shrunk sz⟩ s p
  rw [hq]
  split_ifs with hsp
  · obtain ⟨rfl, rfl⟩ := hsp
    rw [← ha, ← hkey]
    exact h.map_eraseNode hl hn
  · rw [removeKey_eq_self (h.queue_key_ne_of_ne hk hsp)]

end Unlink

/-- `deleteImpl` under the invariant: nothing for an unknown key, else the key is dropped. -/
theorem deleteImpl_cases {b : OrderBook} (h : b.WF) (k : OrderKey) :
    (b.byId.lookup k = none ∧ b.deleteImpl k = (b, false)) ∨
    ∃ loc l n, b.byId.lookup k = some loc ∧ b.findLevel loc.side loc.price = some l ∧
      n ∈ l.orders ∧ n.addr = loc.it ∧ n.order.key = k ∧
      b.deleteImpl k = (b.dropKey k loc l n.order.size, true) := by
  cases hk : b.byId.lookup k with
  | none => exact .inl ⟨rfl, by simp [deleteImpl, hk]⟩
  | some loc =>
    obtain ⟨l, n, hl, hn, ha, hkey, hd⟩ := h.deref hk
    exact .inr ⟨loc, l, n, rfl, hl, hn, ha, hkey, by simp [deleteImpl, hk, hl, hd, dropKey]⟩

theorem deleteImpl_wf {b : OrderBook} (h : b.WF) (k : OrderKey) : (b.deleteImpl k).1.WF := by
  obtain ⟨-, he⟩ | ⟨loc, l, n, hk, hl, hn, ha, hkey, he⟩ := deleteImpl_cases h k
  · rw [he]
    exact h
  · rw [he]
    exact dropKey_wf _ h hk hl hn ha hkey

theorem queue_deleteImpl {b : OrderBook} (h : b.WF) (k : OrderKey) (s : Side) (p : Price) :
    (b.deleteImpl k).1.queue s p = removeKey Order.key k (b.queue s p) := by
  obtain ⟨hk, he⟩ | ⟨loc, l, n, hk, hl, hn, ha, hkey, he⟩ := deleteImpl_cases h k
  · rw [he, removeKey_eq_self (h.queue_key_ne hk s p)]
  · rw [he]
    exact queue_dropKey _ h hk hl hn ha hkey s p

theorem lookup_deleteImpl {b : OrderBook} (h : b.WF) (k : OrderKey) :
    (b.deleteImpl k).1.byId.lookup k = none := by
  obtain ⟨hk, he⟩ | ⟨loc, l, n, hk, hl, hn, ha, hkey, he⟩ := deleteImpl_cases h k
  · rw [he, hk]
  · rw [he, dropKey_byId, AList.lookup_erase]

/-- The book in which an add pushes its order: any order with the same key is gone. -/
def cleared (b : OrderBook) (k : OrderKey) : OrderBook :=
  if (b.byId.lookup k).isSome then (b.deleteImpl k).1 else b

section Add
variable {b : OrderBook} {k : OrderKey}

theorem cleared_eq_deleteImpl (h : b.WF) (k : OrderKey) : b.cleared k = (b.deleteImpl k).1 := by
  unfold cleared
  split_ifs with hs
  · rfl
  · obtain ⟨-, he⟩ | ⟨loc, -, -, hk, -⟩ := deleteImpl_cases h k
    · rw [he]
    · simp [hk] at hs

theorem cleared_wf (h : b.WF) (k : OrderKey) : (b.cleared k).WF := by
  rw [cleared_eq_deleteImpl h]
  exact deleteImpl_wf h k

theorem queue_cleared (h : b.WF) (k : OrderKey) (s : Side) (p : Price) :
    (b.cleared k).queue s p = removeKey Order.key k (b.queue s p) := by
  rw [cleared_eq_deleteImpl h]
  exact queue_deleteImpl h k s p

theorem lookup_cleared (h : b.WF) (k : OrderKey) : (b.cleared k).byId.lookup k = none := by
  rw [cleared_eq_deleteImpl h]
  exact lookup_deleteImpl h k

/-- Since the key has been cleared, `emplace` always inserts. -/
theorem addImpl_eq (h : b.WF) (o : Order) : b.addImpl o =
    ({ (b.cleared o.key).pushBack o.side o.price o with
        byId := (b.cleared o.key).byId.insert o.key ⟨o.side, o.price, (b.cleared o.key).nextAddr⟩ },
      true) := by
  have hdef : b.addImpl o = ({ (b.cleared o.key).pushBack o.side o.price o with
      byId := if ((b.cleared o.key).byId.lookup o.key).isSome then (b.cleared o.key).byId
        else (b.cleared o.key).byId.insert o.key
          ⟨o.side, o.price, (b.cleared o.key).nextAddr⟩ }, true) := rfl
  rw [hdef, lookup_cleared h o.key]
  rfl

theorem addImpl_wf (h : b.WF) (o : Order) : (b.addImpl o).1.WF := by
  rw [addImpl_eq h]
  refine (cleared_wf h o.key).link o (lookup_cleared h o.key) (fun _ _ => rfl) rfl ?_
  intro k
  by_cases hk : k = o.key
  · subst hk
    simp [AList.lookup_insert]
  · simp [AList.lookup_insert_ne hk, hk]

theorem queue_addImpl (h : b.WF) (o : Order) (s : Side) (p : Price) :
    (b.addImpl o).1.queue s p =
      removeKey Order.key o.key (b.queue s p) ++ if s = o.side ∧ p = o.price then [o] else [] := by
  rw [addImpl_eq h, ← queue_cleared h]
  exact queue_pushBack (b.cleared o.key) o.side o.price o s p

end Add

section Update
variable {b : OrderBook} {k : OrderKey} {loc : Locator} {l : PriceLevel} {n : Node}

/-- The book after a price change: the node is unlinked and a fresh one pushed at the new
price, under the same key. -/
def moveKey (b : OrderBook) (k : OrderKey) (loc : Locator) (l : PriceLevel) (sz : UInt64)
    (moved : Order) : OrderBook :=
  let b := b.unlink loc.side loc.price l loc.it sz
  let newIt := b.nextAddr
  let b := b.pushBack loc.side moved.price moved
  { b with byId := b.byId.insert k ⟨loc.side, moved.price, newIt⟩ }

theorem moveKey_wf (h : b.WF) (hk : b.byId.lookup k = some loc)
    (hl : b.findLevel loc.side loc.price = some l) (hn : n ∈ l.orders) (ha : n.addr = loc.it)
    (hkey : n.order.key = k) {sz : UInt64} {moved : Order} (hmk : moved.key = k)
    (hms : moved.side = loc.side) : (b.moveKey k loc l sz moved).WF := by
  subst hmk
  have hdrop := dropKey_wf sz h hk hl hn ha hkey
  refine hdrop.link moved (by rw [dropKey_byId, AList.lookup_erase]) ?_ ?_ ?_
  · intro s p
    rw [hms]
    rfl
  · simp [moveKey, pushBack, unlink]
  · intro k'
    have hnext : (b.unlink loc.side loc.price l loc.it sz).nextAddr = b.nextAddr := by simp [unlink]
    have hbyId : (b.unlink loc.side loc.price l loc.it sz).byId = b.byId := by simp [unlink]
    by_cases hk' : k' = moved.key
    · subst hk'
      simp [moveKey, pushBack, AList.lookup_insert, hms, hnext]
    · simp [moveKey, pushBack, AList.lookup_insert_ne hk', hk', hbyId, AList.lookup_erase_ne hk']

theorem queue_moveKey (h : b.WF) (hk : b.byId.lookup k = some loc)
    (hl : b.findLevel loc.side loc.price = some l) (hn : n ∈ l.orders) (ha : n.addr = loc.it)
    (hkey : n.order.key = k) {sz : UInt64} {moved : Order} (s : Side) (p : Price) :
    (b.moveKey k loc l sz moved).queue s p =
      removeKey Order.key k (b.queue s p) ++
        if s = loc.side ∧ p = moved.price then [moved] else [] := by
  rw [← queue_dropKey sz h hk hl hn ha hkey]
  exact queue_pushBack (b.unlink loc.side loc.price l loc.it sz) loc.side moved.price moved s p

/-- Rewriting a node in place, key, side and price unchanged. -/
theorem writeNode_wf (h : b.WF) (hl : b.findLevel loc.side loc.price = some l)
    (hn : n ∈ l.orders) (ha : n.addr = loc.it) {o : Order} (hkey : o.key = n.order.key)
    (hs : o.side = n.order.side) (hp : o.price = n.order.price) (t : UInt64) :
    (b.setLevel loc.side loc.price ⟨l.writeNode loc.it o, t⟩).WF := by
  have hne : l.writeNode loc.it o ≠ [] := by
    simpa [PriceLevel.writeNode] using List.ne_nil_of_mem hn
  have haddr : (l.writeNode loc.it o).map Node.addr = l.orders.map Node.addr := by
    rw [PriceLevel.writeNode, List.map_map]
    apply List.map_congr_left
    intro m _
    by_cases hm : m.addr = loc.it <;> simp [hm]
  apply h.relevel hl (fun _ => False)
  · intro s' p'
    rw [findLevel_setLevel, if_neg hne]
  · rfl
  · intro m hm
    refine ⟨id, ?_⟩
    obtain ⟨m', hm', rfl⟩ := List.mem_map.mp hm
    by_cases he : m'.addr = loc.it
    · exact ⟨n, hn, by simp [Node.ident, he, ha, hkey, hs, hp]⟩
    · exact ⟨m', hm', by simp [he]⟩
  · simpa [haddr] using h.nodup _ _ l hl
  · intro m hm _
    have hmem : m.addr ∈ (l.writeNode loc.it o).map Node.addr := by
      rw [haddr]
      exact List.mem_map_of_mem hm
    obtain ⟨m', hm', he⟩ := List.mem_map.mp hmem
    exact ⟨m', hm', he⟩
  · intro k hf
    exact hf.elim
  · intro k _
    rfl

theorem queue_writeNode (h : b.WF) (hk : b.byId.lookup k = some loc)
    (hl : b.findLevel loc.side loc.price = some l) (hn : n ∈ l.orders) (ha : n.addr = loc.it)
    (hkey : n.order.key = k) (o : Order) (t : UInt64) (s : Side) (p : Price) :
    (b.setLevel loc.side loc.price ⟨l.writeNode loc.it o, t⟩).queue s p =
      modifyKey Order.key k (fun _ => o) (b.queue s p) := by
  rw [queue_setLevel]
  split_ifs with hsp
  · obtain ⟨rfl, rfl⟩ := hsp
    rw [← ha, ← hkey]
    exact h.map_writeNode hl hn o
  · rw [modifyKey_eq_self (h.queue_key_ne_of_ne hk hsp)]

end Update

/-- The four outcomes of `updateImpl` under the invariant. -/
theorem updateImpl_cases {b : OrderBook} (h : b.WF) (k : OrderKey) (newPrice : Option Price)
    (newSize : Option UInt64) :
    (b.byId.lookup k = none ∧ b.updateImpl k newPrice newSize = (b, false)) ∨
    ∃ loc l n, b.byId.lookup k = some loc ∧ b.findLevel loc.side loc.price = some l ∧
      n ∈ l.orders ∧ n.addr = loc.it ∧ n.order.key = k ∧
      ((newSize.getD n.order.size = 0 ∧
          b.updateImpl k newPrice newSize = (b.dropKey k loc l n.order.size, true)) ∨
        (newSize.getD n.order.size ≠ 0 ∧ newPrice.getD n.order.price = n.order.price ∧
          newSize.getD n.order.size = n.order.size ∧
          b.updateImpl k newPrice newSize = (b, false)) ∨
        (newSize.getD n.order.size ≠ 0 ∧ newPrice.getD n.order.price = n.order.price ∧
          newSize.getD n.order.size ≠ n.order.size ∧
          b.updateImpl k newPrice newSize = (b.setLevel loc.side loc.price
            ⟨l.writeNode loc.it { n.order with size := newSize.getD n.order.size },
              if n.order.size < newSize.getD n.order.size then
                l.totalSize + (newSize.getD n.order.size - n.order.size)
              else l.totalSize - (n.order.size - newSize.getD n.order.size)⟩, true)) ∨
        (newSize.getD n.order.size ≠ 0 ∧ newPrice.getD n.order.price ≠ n.order.price ∧
          b.updateImpl k newPrice newSize = (b.moveKey k loc l n.order.size
            { n.order with price := newPrice.getD n.order.price,
                           size := newSize.getD n.order.size }, true))) := by
  cases hk : b.byId.lookup k with
  | none => exact .inl ⟨rfl, by simp [updateImpl, hk]⟩
  | some loc =>
    obtain ⟨l, n, hl, hn, ha, hkey, hd⟩ := h.deref hk
    refine .inr ⟨loc, l, n, rfl, hl, hn, ha, hkey, ?_⟩
    by_cases h0 : newSize.getD n.order.size = 0
    · exact .inl ⟨h0, by simp [updateImpl, hk, hl, hd, h0, dropKey]⟩
    · by_cases hp : newPrice.getD n.order.price = n.order.price
      · by_cases hs : newSize.getD n.order.size = n.order.size
        · exact .inr (.inl ⟨h0, hp, hs, by simp [updateImpl, hk, hl, hd, hp, hs, hs ▸ h0]⟩)
        · exact .inr (.inr (.inl ⟨h0, hp, hs, by simp [updateImpl, hk, hl, hd, h0, hp, hs]⟩))
      · exact .inr (.inr (.inr ⟨h0, hp, by simp [updateImpl, hk, hl, hd, h0, hp, moveKey]⟩))

theorem updateImpl_wf {b : OrderBook} (h : b.WF) (k : OrderKey) (newPrice : Option Price)
    (newSize : Option UInt64) : (b.updateImpl k newPrice newSize).1.WF := by
  obtain ⟨-, he⟩ | ⟨loc, l, n, hk, hl, hn, ha, hkey, hcase⟩ := updateImpl_cases h k newPrice newSize
  · rw [he]
    exact h
  · obtain ⟨-, he⟩ | ⟨-, -, -, he⟩ | ⟨-, -, -, he⟩ | ⟨-, -, he⟩ := hcase <;> rw [he]
    · exact dropKey_wf _ h hk hl hn ha hkey
    · exact h
    · refine writeNode_wf h hl hn ha ?_ ?_ ?_ _ <;> rfl
    · exact moveKey_wf h hk hl hn ha hkey hkey (h.placed _ _ n ⟨l, hl, hn⟩).1

/-- `priorityImpl` under the invariant: a changed priority sends the order to the back of
its level, whether or not the splice is taken. -/
theorem priorityImpl_cases {b : OrderBook} (h : b.WF) (k : OrderKey) (newPriority : UInt64) :
    (b.byId.lookup k = none ∧ b.priorityImpl k newPriority = (b, false)) ∨
    ∃ loc l n, b.byId.lookup k = some loc ∧ b.findLevel loc.side loc.price = some l ∧
      n ∈ l.orders ∧ n.addr = loc.it ∧ n.order.key = k ∧
      ((n.order.priority = newPriority ∧ b.priorityImpl k newPriority = (b, false)) ∨
        (n.order.priority ≠ newPriority ∧ b.priorityImpl k newPriority =
          (b.setLevel loc.side loc.price ⟨l.eraseNode loc.it ++
            [⟨loc.it, { n.order with priority := newPriority }⟩], l.totalSize⟩, true))) := by
  cases hk : b.byId.lookup k with
  | none => exact .inl ⟨rfl, by simp [priorityImpl, hk]⟩
  | some loc =>
    obtain ⟨l, n, hl, hn, ha, hkey, hd⟩ := h.deref hk
    refine .inr ⟨loc, l, n, rfl, hl, hn, ha, hkey, ?_⟩
    by_cases hp : n.order.priority = newPriority
    · exact .inl ⟨hp, by simp [priorityImpl, hk, hl, hd, hp]⟩
    · refine .inr ⟨hp, ?_⟩
      by_cases hlast : l.orders.getLast?.map Node.addr = some loc.it
      · -- already last: writing in place is the same as moving to the back
        have hback : l.writeNode loc.it { n.order with priority := newPriority } =
            l.eraseNode loc.it ++ [⟨loc.it, { n.order with priority := newPriority }⟩] := by
          obtain ⟨m, hm, hma⟩ := Option.map_eq_some_iff.mp hlast
          obtain ⟨pre, hpre⟩ := List.getLast?_eq_some_iff.mp hm
          have hnd := h.nodup _ _ l hl
          have hothers : ∀ x ∈ pre, x.addr ≠ loc.it := by
            intro x hx hxa
            rw [hpre, List.map_append, List.nodup_append] at hnd
            exact hnd.2.2 x.addr (List.mem_map_of_mem hx) m.addr (by simp) (by rw [hxa, hma])
          rw [PriceLevel.writeNode, PriceLevel.eraseNode, hpre, List.map_append,
            List.filter_append]
          have hmap : pre.map (fun x => if x.addr = loc.it then
              ⟨loc.it, { n.order with priority := newPriority }⟩ else x) = pre := by
            conv_rhs => rw [← List.map_id pre]
            apply List.map_congr_left
            intro x hx
            simp [hothers x hx]
          have hfilter : pre.filter (fun x => x.addr ≠ loc.it) = pre := by
            simpa [List.filter_eq_self] using hothers
          rw [hmap, hfilter]
          simp [hma]
        simp [priorityImpl, hk, hl, hd, hp, hlast, hback]
      · simp [priorityImpl, hk, hl, hd, hp, hlast]

section Priority
variable {b : OrderBook} {k : OrderKey} {loc : Locator} {l : PriceLevel} {n : Node}

theorem moveToBack_wf (h : b.WF) (hl : b.findLevel loc.side loc.price = some l)
    (hn : n ∈ l.orders) (ha : n.addr = loc.it) {o : Order} (hkey : o.key = n.order.key)
    (hs : o.side = n.order.side) (hp : o.price = n.order.price) (t : UInt64) :
    (b.setLevel loc.side loc.price ⟨l.eraseNode loc.it ++ [⟨loc.it, o⟩], t⟩).WF := by
  have hnd := h.nodup _ _ l hl
  apply h.relevel hl (fun _ => False)
  · intro s' p'
    rw [findLevel_setLevel, if_neg (List.append_ne_nil_of_right_ne_nil _ (List.cons_ne_nil _ _))]
  · rfl
  · intro m hm
    refine ⟨id, ?_⟩
    rcases List.mem_append.mp hm with hm | hm
    · exact ⟨m, (List.mem_filter.mp hm).1, rfl⟩
    · obtain rfl : m = ⟨loc.it, o⟩ := by simpa using hm
      exact ⟨n, hn, Node.ident_eq_iff.mpr ⟨ha, hkey.symm, hs.symm, hp.symm⟩⟩
  · rw [List.map_append, List.nodup_append]
    refine ⟨hnd.sublist (List.filter_sublist.map _), by simp, ?_⟩
    intro a ha' a' ha''
    obtain ⟨m, hm, rfl⟩ := List.mem_map.mp ha'
    obtain rfl : a' = loc.it := by simpa using ha''
    simpa using (List.mem_filter.mp hm).2
  · intro m hm _
    by_cases he : m.addr = loc.it
    · exact ⟨⟨loc.it, o⟩, by simp, he.symm⟩
    · exact ⟨m, by simp [PriceLevel.eraseNode, hm, he], rfl⟩
  · intro k hf
    exact hf.elim
  · intro k _
    rfl

theorem queue_moveToBack (h : b.WF) (hk : b.byId.lookup k = some loc)
    (hl : b.findLevel loc.side loc.price = some l) (hn : n ∈ l.orders) (ha : n.addr = loc.it)
    (hkey : n.order.key = k) (o : Order) (t : UInt64) (s : Side) (p : Price) :
    (b.setLevel loc.side loc.price ⟨l.eraseNode loc.it ++ [⟨loc.it, o⟩], t⟩).queue s p =
      removeKey Order.key k (b.queue s p) ++
        if s = loc.side ∧ p = loc.price then [o] else [] := by
  rw [queue_setLevel]
  split_ifs with hsp
  · obtain ⟨rfl, rfl⟩ := hsp
    rw [List.map_append, ← ha, h.map_eraseNode hl hn, hkey]
    rfl
  · rw [removeKey_eq_self (h.queue_key_ne_of_ne hk hsp), List.append_nil]

end Priority

theorem priorityImpl_wf {b : OrderBook} (h : b.WF) (k : OrderKey) (newPriority : UInt64) :
    (b.priorityImpl k newPriority).1.WF := by
  obtain ⟨-, he⟩ | ⟨loc, l, n, hk, hl, hn, ha, hkey, ⟨-, he⟩ | ⟨-, he⟩⟩ :=
    priorityImpl_cases h k newPriority <;> rw [he]
  · exact h
  · exact h
  · refine moveToBack_wf h hl hn ha ?_ ?_ ?_ _ <;> rfl

@[simp] theorem takeFront_zero (os : List Order) : takeFront 0 os = os := by
  cases os <;> simp [takeFront]

/-- The loop drops a prefix of the nodes, with their index entries, and keeps the rest
under their identities; on orders it is `takeFront`. -/
theorem consumeLoop_spec (nodes : List Node) (byId : AList (fun _ : OrderKey => Locator))
    (remaining total : UInt64) :
    (consumeLoop byId remaining total nodes).2.1.map Node.order =
      takeFront remaining (nodes.map Node.order) ∧
    ∃ pre rest, nodes = pre ++ rest ∧
      (∀ k, (consumeLoop byId remaining total nodes).1.lookup k =
        if k ∈ pre.map (fun n => n.order.key) then none else byId.lookup k) ∧
      (consumeLoop byId remaining total nodes).2.1.map Node.ident = rest.map Node.ident := by
  induction nodes generalizing byId remaining total with
  | nil => exact ⟨rfl, [], [], rfl, by simp [consumeLoop], rfl⟩
  | cons top rest ih =>
    by_cases h0 : remaining = 0
    · exact ⟨by simp [consumeLoop, h0], [], top :: rest, rfl, by simp [consumeLoop, h0],
        by simp [consumeLoop, h0]⟩
    by_cases hle : top.order.size ≤ remaining
    · obtain ⟨hmap, pre, rest', hsplit, hlook, hkept⟩ :=
        ih (byId.erase top.order.key) (remaining - top.order.size) (total - top.order.size)
      have hstep : consumeLoop byId remaining total (top :: rest) =
          consumeLoop (byId.erase top.order.key) (remaining - top.order.size)
            (total - top.order.size) rest := by
        simp [consumeLoop, h0, hle]
      rw [hstep]
      refine ⟨by simpa [takeFront, h0, hle] using hmap, top :: pre, rest', by simp [hsplit], ?_, hkept⟩
      intro k
      rw [hlook]
      by_cases hk : k = top.order.key
      · subst hk
        simp [AList.lookup_erase]
      · simp [AList.lookup_erase_ne hk, hk]
    · have hleft : top.order.size - remaining ≠ 0 := by
        intro he
        exact hle (le_of_eq (sub_eq_zero.mp he))
      exact ⟨by simp [consumeLoop, takeFront, h0, hle, hleft], [], top :: rest, rfl,
        by simp [consumeLoop, h0, hle, hleft],
        by simp [consumeLoop, h0, hle, hleft, Node.ident, Order.key]⟩

theorem consumeAtLevel_cases (b : OrderBook) (s : Side) (p : Price) (qty : UInt64) :
    ((b.findLevel s p = none ∨ qty = 0) ∧ b.consumeAtLevel s p qty = (b, 0)) ∨
    ∃ l, b.findLevel s p = some l ∧ qty ≠ 0 ∧ b.consumeAtLevel s p qty =
      ((({ b with byId := (consumeLoop b.byId qty l.totalSize l.orders).1 }).setLevel s p
          ⟨(consumeLoop b.byId qty l.totalSize l.orders).2.1,
            (consumeLoop b.byId qty l.totalSize l.orders).2.2.2⟩).eraseLevelIfEmpty s p,
        qty - (consumeLoop b.byId qty l.totalSize l.orders).2.2.1) := by
  cases hl : b.findLevel s p with
  | none => exact .inl ⟨.inl rfl, by simp [consumeAtLevel, hl]⟩
  | some l =>
    by_cases h0 : qty = 0
    · exact .inl ⟨.inr h0, by simp [consumeAtLevel, hl, h0]⟩
    · exact .inr ⟨l, rfl, h0, by simp [consumeAtLevel, hl, h0]⟩

theorem consumeAtLevel_wf {b : OrderBook} (h : b.WF) (s : Side) (p : Price) (qty : UInt64) :
    (b.consumeAtLevel s p qty).1.WF := by
  obtain ⟨-, he⟩ | ⟨l, hl, -, he⟩ := consumeAtLevel_cases b s p qty <;> rw [he]
  · exact h
  obtain ⟨-, pre, rest, hsplit, hlook, hkept⟩ := consumeLoop_spec l.orders b.byId qty l.totalSize
  have hkeys := h.keys_nodup hl
  rw [hsplit, List.map_append, List.nodup_append] at hkeys
  have haddr : (consumeLoop b.byId qty l.totalSize l.orders).2.1.map Node.addr =
      rest.map Node.addr := by
    simpa [Node.ident, Function.comp_def] using congrArg (List.map Prod.fst) hkept
  apply h.relevel hl (fun k => k ∈ pre.map (fun n => n.order.key))
  · intro s' p'
    exact findLevel_relevel _ s p _ s' p'
  · simp
  · intro n hn
    obtain ⟨m, hm, hid⟩ := List.mem_map.mp (hkept ▸ List.mem_map_of_mem hn)
    refine ⟨?_, m, by simp [hsplit, hm], hid⟩
    rw [← (Node.ident_eq_iff.mp hid).2.1]
    intro hd
    exact hkeys.2.2 _ hd _ (List.mem_map_of_mem hm) rfl
  · rw [haddr]
    exact (h.nodup s p l hl).sublist (by simp [hsplit])
  · intro m hm hd
    have hmr : m ∈ rest := by
      rw [hsplit] at hm
      rcases List.mem_append.mp hm with hm | hm
      · exact absurd (List.mem_map_of_mem hm) hd
      · exact hm
    obtain ⟨n, hn, ha⟩ := List.mem_map.mp (haddr ▸ List.mem_map_of_mem hmr)
    exact ⟨n, hn, ha⟩
  · intro k hd
    obtain ⟨m, hm, hk⟩ := List.mem_map.mp hd
    refine ⟨?_, m, by simp [hsplit, hm], hk⟩
    rw [eraseLevelIfEmpty_byId, setLevel_byId, hlook, if_pos hd]
  · intro k hd
    rw [eraseLevelIfEmpty_byId, setLevel_byId, hlook, if_neg hd]

theorem queue_consumeAtLevel (b : OrderBook) (s : Side) (p : Price) (qty : UInt64) (s' : Side)
    (p' : Price) : (b.consumeAtLevel s p qty).1.queue s' p' =
      if s' = s ∧ p' = p then takeFront qty (b.queue s p) else b.queue s' p' := by
  obtain ⟨hnone, he⟩ | ⟨l, hl, -, he⟩ := consumeAtLevel_cases b s p qty <;> rw [he]
  · split_ifs with hsp
    · obtain ⟨rfl, rfl⟩ := hsp
      rcases hnone with hnone | rfl
      · simp [queue, hnone, takeFront]
      · simp
    · rfl
  · rw [queue_relevel]
    split_ifs with hsp
    · rw [(consumeLoop_spec l.orders b.byId qty l.totalSize).1, queue_of_findLevel hl]
    · rfl

/-- A trade does nothing, or consumes at its price on its passive side. -/
theorem applyTrade_cases (b : OrderBook) (tradePrice : Price) (qty : UInt64) (aggr : Aggressor) :
    ((qty = 0 ∨ b.passiveSide tradePrice aggr = none) ∧
      b.applyTrade tradePrice qty aggr = (b, false)) ∨
    ∃ s, b.passiveSide tradePrice aggr = some s ∧ qty ≠ 0 ∧ b.applyTrade tradePrice qty aggr =
      ((b.consumeAtLevel s tradePrice qty).1, decide (0 < (b.consumeAtLevel s tradePrice qty).2)) := by
  by_cases h0 : qty = 0
  · exact .inl ⟨.inl h0, by simp [applyTrade, h0]⟩
  · cases hs : b.passiveSide tradePrice aggr with
    | none => exact .inl ⟨.inr rfl, by simp [applyTrade, h0, hs]⟩
    | some s => exact .inr ⟨s, rfl, h0, by simp [applyTrade, h0, hs]⟩

end OrderBook
end GmaEngine
