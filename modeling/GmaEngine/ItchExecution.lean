import GmaEngine.ItchAdapter
import GmaEngine.SubscriberMirror

/-!
# What an execution message does to the book

`order_executed` becomes a delete or a size update of the executed order and then a trade at
its price. The trade takes its quantity from the front of the level once more, so the two
together do what the message says exactly when the trade finds nothing to take.
-/

namespace GmaEngine

namespace OrderBook
open KeyedQueues

theorem length_removeKey_takeFront (k : OrderKey) (qty : UInt64) (os : List Order) :
    (removeKey Order.key k (takeFront qty os)).length ≤ (removeKey Order.key k os).length := by
  induction os generalizing qty with
  | nil => rfl
  | cons o os ih =>
    have htail : (removeKey Order.key k os).length ≤ (removeKey Order.key k (o :: os)).length :=
      (List.Sublist.filter _ (List.sublist_cons_self o os)).length_le
    rw [takeFront]
    split_ifs with h0 hle
    · rfl
    · exact (ih (qty - o.size)).trans htail
    · by_cases hk : o.key = k
      · have hk' : ({ o with size := o.size - qty } : Order).key = k := hk
        simp [removeKey, hk, hk']
      · have hk' : ({ o with size := o.size - qty } : Order).key ≠ k := hk
        simp [removeKey, hk, hk']

theorem exists_key_of_mem_takeFront {qty : UInt64} {os : List Order} {x : Order}
    (hx : x ∈ takeFront qty os) : ∃ o ∈ os, o.key = x.key := by
  induction os generalizing qty with
  | nil => cases hx
  | cons o os ih =>
    rw [takeFront] at hx
    split_ifs at hx with h0 hle
    · exact ⟨x, hx, rfl⟩
    · obtain ⟨y, hy, hk⟩ := ih hx
      exact ⟨y, List.mem_cons_of_mem o hy, hk⟩
    · rcases List.mem_cons.mp hx with rfl | hx
      · exact ⟨o, List.mem_cons_self, rfl⟩
      · exact ⟨x, List.mem_cons_of_mem o hx, rfl⟩

/-- A trade that leaves every other order of a queue as it was met the order under `k` first,
or met nothing. -/
theorem head_key_of_takeFront {k : OrderKey} {qty : UInt64} (h0 : qty ≠ 0) {os : List Order}
    (h : removeKey Order.key k (takeFront qty os) = removeKey Order.key k os) :
    os = [] ∨ ∃ o rest, os = o :: rest ∧ o.key = k := by
  cases os with
  | nil => exact .inl rfl
  | cons o os =>
    refine .inr ⟨o, os, rfl, ?_⟩
    by_contra hk
    have hcons : ∀ z, removeKey Order.key k ({ o with size := z } :: os) =
        { o with size := z } :: removeKey Order.key k os := by
      intro z
      exact List.filter_cons_of_pos (decide_eq_true hk)
    rw [hcons o.size, takeFront, if_neg h0] at h
    split_ifs at h with hle
    · have hlen := length_removeKey_takeFront k (qty - o.size) os
      rw [h, List.length_cons] at hlen
      omega
    · rw [hcons] at h
      have hsize : o.size - qty = o.size := congrArg Order.size (List.cons.inj h).1
      have hlt : qty ≤ o.size := (UInt64.le_total o.size qty).resolve_left hle
      have hnat := congrArg UInt64.toNat hsize
      rw [UInt64.toNat_sub_of_le _ _ hlt] at hnat
      have hqty : qty.toNat ≠ 0 := fun e => h0 (UInt64.toNat_inj.mp e)
      have hle' := UInt64.le_iff_toNat_le.mp hlt
      omega

/-- What an execution of `shares` out of `remaining` means for the order under `k` at `(s, p)`
and for the rest of the book. -/
structure Executed (b b' : OrderBook) (k : OrderKey) (s : Side) (p : Price)
    (remaining shares : UInt64) : Prop where
  gone : remaining ≤ shares → ∀ s' p', ∀ o ∈ b'.queue s' p', o.key ≠ k
  reduced : shares < remaining → ∃ o ∈ b'.queue s p, o.key = k ∧ o.size = remaining - shares
  total : (b'.levelSize s p).toNat + min shares.toNat remaining.toNat = (b.levelSize s p).toNat
  others : ∀ s' p', removeKey Order.key k (b'.queue s' p') = removeKey Order.key k (b.queue s' p')

section
variable {b : OrderBook} {k : OrderKey} {s : Side} {p : Price} {o : Order} {shares : UInt64}

theorem consumeAtLevel_of_queue_nil (h : b.WF) {S : Side} {T : Price} (hq : b.queue S T = [])
    (qty : UInt64) : (b.consumeAtLevel S T qty).1 = b := by
  have hnone := h.findLevel_eq_none.mpr hq
  obtain ⟨-, he⟩ | ⟨l, hl, -, -⟩ := consumeAtLevel_cases b S T qty
  · rw [he]
  · rw [hnone] at hl
    cases hl

/-- A filled order: the delete comes first, then the trade at `(S, T)`. -/
theorem executed_filled_iff (h : b.WF) (ho : o ∈ b.queue s p) (h0 : shares ≠ 0)
    (hfill : o.size ≤ shares) (S : Side) (T : Price) :
    Executed b ((b.deleteImpl o.key).1.consumeAtLevel S T shares).1 o.key s p o.size shares ↔
      (∀ x ∈ b.queue S T, x.key = o.key) ∧ o.size ≤ b.levelSize s p ∧
        ((∀ x ∈ b.queue s p, x.key = o.key) → b.levelSize s p = o.size) := by
  have hwf := deleteImpl_wf h o.key
  have hq := queue_deleteImpl h o.key
  have hfind : (b.queue s p).find? (fun x => x.key = o.key) = some o :=
    (find?_eq_some_iff (h.queue_nodup s p)).mpr ⟨ho, rfl⟩
  have hmin : min shares.toNat o.size.toNat = o.size.toNat :=
    min_eq_right (UInt64.le_iff_toNat_le.mp hfill)
  have hnone : ∀ s' p', ∀ x ∈ (b.deleteImpl o.key).1.queue s' p', x.key ≠ o.key := by
    intro s' p' x hx
    rw [hq] at hx
    exact (mem_removeKey.mp hx).2
  -- without a trade the total decides
  have htotal : ((b.deleteImpl o.key).1.levelSize s p).toNat + o.size.toNat =
      (b.levelSize s p).toNat ↔
      o.size ≤ b.levelSize s p ∧
        ((∀ x ∈ b.queue s p, x.key = o.key) → b.levelSize s p = o.size) := by
    rw [levelSize_deleteImpl h, hfind, UInt64.le_iff_toNat_le, ← UInt64.toNat_inj]
    simp only [Option.elim_some, removeKey_eq_nil_iff, PriceLevel.shrunk]
    split_ifs with hone hle
    · rw [UInt64.toNat_zero, forall_prop_of_true hone]
      omega
    · rw [UInt64.toNat_sub_of_le _ _ hle]
      have := UInt64.le_iff_toNat_le.mp hle
      simp only [hone, false_implies, and_true]
      omega
    · have := mt UInt64.le_iff_toNat_le.mpr hle
      rw [UInt64.toNat_zero]
      simp only [hone, false_implies, and_true]
      omega
  constructor
  · intro hex
    have hoth := hex.others S T
    rw [queue_consumeAtLevel, if_pos ⟨rfl, rfl⟩, ← hq] at hoth
    have hnil : (b.deleteImpl o.key).1.queue S T = [] := by
      obtain hnil | ⟨x, rest, hx, hk⟩ :=
        head_key_of_takeFront h0 (hoth.trans (removeKey_eq_self (hnone S T)).symm)
      · exact hnil
      · exact absurd hk (hnone S T x (by rw [hx]; simp))
    refine ⟨?_, htotal.mp ?_⟩
    · rw [hq] at hnil
      exact removeKey_eq_nil_iff.mp hnil
    · have := hex.total
      rwa [consumeAtLevel_of_queue_nil hwf hnil, hmin] at this
  · rintro ⟨hall, hsum⟩
    have hnil : (b.deleteImpl o.key).1.queue S T = [] := by
      rw [hq, removeKey_eq_nil_iff]
      exact hall
    rw [consumeAtLevel_of_queue_nil hwf hnil]
    refine ⟨fun _ => hnone, ?_, ?_, ?_⟩
    · intro hlt
      exact absurd hfill (UInt64.not_le.mpr hlt)
    · rw [hmin]
      exact htotal.mpr hsum
    · intro s' p'
      rw [hq, removeKey_eq_self (fun x hx => (mem_removeKey.mp hx).2)]

/-- A size-only update to a smaller size rewrites the order in its place. -/
theorem updateImpl_resize (h : b.WF) (ho : o ∈ b.queue s p) (h0 : shares ≠ 0)
    (hpart : shares < o.size) :
    (∀ s' p', (b.updateImpl o.key none (some (o.size - shares))).1.queue s' p' =
      modifyKey Order.key o.key (fun _ => { o with size := o.size - shares }) (b.queue s' p')) ∧
    (b.updateImpl o.key none (some (o.size - shares))).1.levelSize s p =
      b.levelSize s p - shares := by
  have hlt := UInt64.lt_iff_toNat_lt.mp hpart
  have hz : shares.toNat ≠ 0 := fun e => h0 (UInt64.toNat_inj.mp e)
  have hrem : (o.size - shares).toNat = o.size.toNat - shares.toNat :=
    UInt64.toNat_sub_of_le _ _ (UInt64.le_of_lt hpart)
  obtain ⟨hk, -⟩ | ⟨loc, l, n, hk, hl, hn, ha, hkey, hcase⟩ :=
    updateImpl_cases h o.key none (some (o.size - shares))
  · exact absurd rfl (h.queue_key_ne hk s p o ho)
  have hmem : n.order ∈ b.queue loc.side loc.price := mem_queue.mpr ⟨n, ⟨l, hl, hn⟩, rfl⟩
  obtain ⟨rfl, rfl, rfl⟩ := h.queue_key_unique ho hmem hkey.symm
  obtain ⟨hbad, -⟩ | ⟨-, -, hbad, -⟩ | ⟨-, -, -, hu⟩ | ⟨-, hbad, -⟩ := hcase
  · have := congrArg UInt64.toNat hbad
    rw [Option.getD_some, hrem, UInt64.toNat_zero] at this
    omega
  · have := congrArg UInt64.toNat hbad
    rw [Option.getD_some, hrem] at this
    omega
  · rw [hu]
    refine ⟨queue_writeNode h hk hl hn ha hkey _ _, ?_⟩
    have hback : n.order.size - (n.order.size - shares) = shares := by
      rw [← UInt64.toNat_inj, UInt64.toNat_sub_of_le, hrem]
      · omega
      · rw [UInt64.le_iff_toNat_le, hrem]
        omega
    have hnlt : ¬ n.order.size < n.order.size - shares := by
      rw [UInt64.lt_iff_toNat_lt, hrem]
      omega
    rw [levelSize_setLevel, if_pos ⟨rfl, rfl⟩, Option.getD_some, if_neg hnlt, hback]
    simp [levelSize, hl]
  · exact absurd rfl hbad

theorem toNat_sub_add_eq_iff (x y : UInt64) : (x - y).toNat + y.toNat = x.toNat ↔ y ≤ x := by
  constructor
  · intro h
    rw [UInt64.le_iff_toNat_le]
    omega
  · intro h
    have hle := UInt64.le_iff_toNat_le.mp h
    rw [UInt64.toNat_sub_of_le _ _ h]
    omega

/-- A trade that meets an order at the front of its queue does not leave its size. -/
theorem size_ne_of_takeFront {os : List Order} (h0 : shares ≠ 0)
    (hnd : ((o :: os).map Order.key).Nodup) {x : Order} (hx : x ∈ takeFront shares (o :: os))
    (hk : x.key = o.key) : x.size ≠ o.size := by
  have hrest : ∀ y ∈ os, y.key ≠ o.key := by
    intro y hy hyk
    rw [List.map_cons, List.nodup_cons] at hnd
    exact hnd.1 (hyk ▸ List.mem_map_of_mem hy)
  rw [takeFront, if_neg h0] at hx
  split_ifs at hx with hle
  · obtain ⟨y, hy, hyk⟩ := exists_key_of_mem_takeFront hx
    exact absurd (hyk.trans hk) (hrest y hy)
  · rcases List.mem_cons.mp hx with rfl | hx
    · intro e
      have hlt : shares ≤ o.size := (UInt64.le_total o.size shares).resolve_left hle
      have hnat := congrArg UInt64.toNat (e : o.size - shares = o.size)
      rw [UInt64.toNat_sub_of_le _ _ hlt] at hnat
      have hz : shares.toNat ≠ 0 := fun e => h0 (UInt64.toNat_inj.mp e)
      have hle' := UInt64.le_iff_toNat_le.mp hlt
      omega
    · exact absurd hk (hrest x hx)

/-- A partial fill: the size update comes first, then the trade at `(S, T)`. -/
theorem executed_partial_iff (h : b.WF) (ho : o ∈ b.queue s p) (h0 : shares ≠ 0)
    (hpart : shares < o.size) (S : Side) (T : Price) :
    Executed b ((b.updateImpl o.key none (some (o.size - shares))).1.consumeAtLevel S T shares).1
        o.key s p o.size shares ↔
      b.queue S T = [] ∧ shares ≤ b.levelSize s p := by
  have hwf := updateImpl_wf h o.key none (some (o.size - shares))
  obtain ⟨hq, hsize⟩ := updateImpl_resize h ho h0 hpart
  generalize (b.updateImpl o.key none (some (o.size - shares))).1 = b₁ at hwf hq hsize ⊢
  have hmin : min shares.toNat o.size.toNat = shares.toNat :=
    min_eq_left (UInt64.lt_iff_toNat_lt.mp hpart).le
  have hothers : ∀ s' p', removeKey Order.key o.key (b₁.queue s' p') =
      removeKey Order.key o.key (b.queue s' p') := by
    intro s' p'
    rw [hq]
    exact removeKey_modifyKey rfl
  have hmem : ({ o with size := o.size - shares } : Order) ∈ b₁.queue s p := by
    rw [hq]
    exact List.mem_map.mpr ⟨o, ho, if_pos rfl⟩
  have hempty : b₁.queue S T = [] ↔ b.queue S T = [] := by
    rw [hq, modifyKey, List.map_eq_nil_iff]
  constructor
  · intro hex
    have hoth := hex.others S T
    rw [queue_consumeAtLevel, if_pos ⟨rfl, rfl⟩, ← hothers] at hoth
    have hnil : b₁.queue S T = [] := by
      obtain hnil | ⟨x, rest, hx, hk⟩ := head_key_of_takeFront h0 hoth
      · exact hnil
      exfalso
      -- the trade met the executed order itself and took its shares once more
      obtain ⟨rfl, rfl, rfl⟩ := hwf.queue_key_unique (hx ▸ List.mem_cons_self) hmem hk
      obtain ⟨y, hy, hyk, hys⟩ := hex.reduced hpart
      rw [queue_consumeAtLevel, if_pos ⟨rfl, rfl⟩, hx] at hy
      have hnd := hwf.queue_nodup S T
      rw [hx] at hnd
      exact size_ne_of_takeFront h0 hnd hy hyk hys
    refine ⟨hempty.mp hnil, (toNat_sub_add_eq_iff _ _).mp ?_⟩
    have := hex.total
    rwa [consumeAtLevel_of_queue_nil hwf hnil, hmin, hsize] at this
  · rintro ⟨hnil, hle⟩
    rw [consumeAtLevel_of_queue_nil hwf (hempty.mpr hnil)]
    refine ⟨?_, fun _ => ⟨_, hmem, rfl, rfl⟩, ?_, hothers⟩
    · intro hfill
      exact absurd hfill (UInt64.not_le.mpr hpart)
    · rw [hmin, hsize]
      exact (toNat_sub_add_eq_iff _ _).mpr hle

end

end OrderBook

namespace ItchAdapter
variable {D : Type} [Double D]

/-- An `order_executed` message. -/
structure IsOrderExecuted (doc : Json D) (orderRef shares : UInt64) : Prop where
  type : (doc.member "type").bind Json.getString = some "order_executed"
  orderRef : (doc.member "orderRef").bind Json.getUint64 = some orderRef
  shares : (doc.member "shares").bind Json.getUint64 = some shares

omit [Double D] in
theorem isObject_of_member {doc : Json D} {name : String} {v : Json D}
    (h : doc.member name = some v) : doc.isObject = true := by
  cases doc <;> first | rfl | cases h

omit [Double D] in
theorem isNumber_of_getUint64 {v : Json D} {n : UInt64} (h : v.getUint64 = some n) :
    v.isNumber = true := by
  cases v <;> first | rfl | cases h

omit [Double D] in
theorem isString_of_getString {v : Json D} {t : String} (h : v.getString = some t) :
    v.isString = true := by
  cases v <;> first | rfl | cases h

/-- An execution of a tracked order is a delete or an update of the order, then a trade. -/
theorem translate_orderExecuted {a : ItchAdapter D} {doc : Json D} {orderRef shares : UInt64}
    (h : IsOrderExecuted doc orderRef shares) {os : OrderState D}
    (hos : a.orders orderRef = some os) :
    ∃ a', a.translate (some doc) = some (a',
      [if os.remainingShares ≤ shares then .obDelete os.symbol orderRef
        else .obUpdate os.symbol orderRef none (some (os.remainingShares - shares)),
       .obTrade os.symbol os.price shares
        (if os.side = Side.bid then Aggressor.sell else Aggressor.buy),
       makeTradeTickEvent os.symbol os.price shares]) := by
  obtain ⟨vt, ht, htype⟩ := Option.bind_eq_some_iff.mp h.type
  obtain ⟨vr, hr, href⟩ := Option.bind_eq_some_iff.mp h.orderRef
  obtain ⟨vs, hs, hshares⟩ := Option.bind_eq_some_iff.mp h.shares
  have hroute : a.translate (some doc) = a.routeOrderExecuted doc := by
    simp [translate, Json.has, isObject_of_member ht, ht, htype, isString_of_getString htype]
  rw [hroute]
  by_cases hfill : os.remainingShares ≤ shares
  · refine ⟨a.eraseOrder orderRef, ?_⟩
    simp [routeOrderExecuted, Json.has, hr, hs, href, hshares, isNumber_of_getUint64 href,
      isNumber_of_getUint64 hshares, hos, hfill]
  · refine ⟨a.setOrder orderRef { os with remainingShares := os.remainingShares - shares }, ?_⟩
    simp [routeOrderExecuted, Json.has, hr, hs, href, hshares, isNumber_of_getUint64 href,
      isNumber_of_getUint64 hshares, hos, hfill]

end ItchAdapter

namespace WsFeedClient
variable {D : Type} [Double D]
open OrderBook ItchAdapter OrderBookManager

theorem wf_dispatchEvent {m : OrderBookManager D} (h : ∀ s, (m.book s).WF) (evt : FeedEvent D)
    (s : String) : ((dispatchEvent m evt).book s).WF := by
  cases evt with
  | tick symbol payload => exact h s
  | obAdd symbol orderId side price size priority =>
    exact wf_exec h (.add symbol orderId side price size priority {} false) s
  | obUpdate symbol orderId newPrice newSize =>
    exact wf_exec h (.update symbol orderId {} newPrice newSize false) s
  | obDelete symbol orderId => exact wf_exec h (.delete symbol orderId {} false) s
  | obTrade symbol price size aggressor => exact wf_exec h (.trade symbol price size aggressor) s
  | obTickSize symbol tickSize => exact wf_exec h (.setTickSize symbol tickSize) s
  | obReset symbol epoch => exact wf_exec h (.reset symbol epoch) s

theorem wf_dispatchEvents {m : OrderBookManager D} (h : ∀ s, (m.book s).WF)
    (events : List (FeedEvent D)) (s : String) : ((events.foldl dispatchEvent m).book s).WF := by
  induction events generalizing m with
  | nil => exact h s
  | cons evt events ih => exact ih (wf_dispatchEvent h evt)

theorem wf_receiveFrom {docs : List (Option (Json D))} {c c' : WsFeedClient D}
    (h : ∀ s, (c.obManager.book s).WF) (hc : docs.foldlM handleMessage c = some c') (s : String) :
    (c'.obManager.book s).WF := by
  induction docs generalizing c with
  | nil =>
    obtain rfl : c = c' := by simpa using hc
    exact h s
  | cons doc docs ih =>
    rw [List.foldlM_cons] at hc
    obtain ⟨c₁, h₁, hrest⟩ := Option.bind_eq_some_iff.mp hc
    obtain ⟨x, -, hx⟩ := Option.bind_eq_some_iff.mp h₁
    obtain rfl : ⟨x.1, x.2.foldl dispatchEvent c.obManager⟩ = c₁ := by simpa using hx
    exact ih (wf_dispatchEvents h x.2) hrest

theorem wf_receive {docs : List (Option (Json D))} {c : WsFeedClient D}
    (hc : receive docs = some c) (s : String) : (c.obManager.book s).WF :=
  wf_receiveFrom (c := {}) (fun _ => wf_empty) hc s

section
variable {m : OrderBookManager D} {symbol : String}

omit [Double D] in
/-- A mutation changes one book and the publication counters, nothing else. -/
theorem mutateWithDelta_frame (m : OrderBookManager D) (symbol : String)
    (candidates : List (Side × Price))
    (mutator : OrderBook → OrderBook × Bool) :
    (m.mutateWithDelta symbol candidates mutator).mgr.feed = m.feed ∧
      (m.mutateWithDelta symbol candidates mutator).mgr.tickSize = m.tickSize ∧
      (m.mutateWithDelta symbol candidates mutator).mgr.allowNegativePrices =
        m.allowNegativePrices := by
  unfold mutateWithDelta maybePublishDelta
  dsimp only
  split_ifs <;> exact ⟨rfl, rfl, rfl⟩

/-- The aggressor of an execution makes the side of the resting order passive. -/
theorem applyTrade_against (b : OrderBook) (T : Price) {shares : UInt64} (h0 : shares ≠ 0)
    (S : Side) :
    (b.applyTrade T shares (if S = Side.bid then Aggressor.sell else Aggressor.buy)).1 =
      (b.consumeAtLevel S T shares).1 := by
  cases S <;> simp [applyTrade, h0, passiveSide]

/-- A trade right after another mutation of the same symbol. -/
theorem book_onTrade_mutateWithDelta (hgate : m.gate symbol = false) {price : D}
    (hprice : m.validatePrice symbol price = true) {shares : UInt64} (h0 : shares ≠ 0) (S : Side)
    (candidates : List (Side × Price)) (mutator : OrderBook → OrderBook × Bool) (s : String) :
    ((m.mutateWithDelta symbol candidates mutator).mgr.onTrade symbol price shares
        (if S = Side.bid then Aggressor.sell else Aggressor.buy)).mgr.book s =
      if s = symbol then
        ((mutator (m.book symbol)).1.consumeAtLevel S (m.toTicks symbol price) shares).1
      else m.book s := by
  obtain ⟨hfeed, htick, hneg⟩ := mutateWithDelta_frame m symbol candidates mutator
  have hbook := book_mutateWithDelta m symbol candidates mutator
  generalize (m.mutateWithDelta symbol candidates mutator).mgr = m₁ at hfeed htick hneg hbook ⊢
  have hg : m₁.gate symbol = false := by rw [← hgate, gate, gate, getFeedState, getFeedState, hfeed]
  have hp : m₁.validatePrice symbol price = true := by
    rw [← hprice, validatePrice, validatePrice, getTickSize, getTickSize, htick, hneg]
  have ht : m₁.toTicks symbol price = m.toTicks symbol price := by
    rw [toTicks, toTicks, getTickSize, getTickSize, htick]
  have hsize : validateSize shares = true := by
    rw [validateSize, decide_eq_true_iff, UInt64.lt_iff_toNat_lt, UInt64.toNat_zero]
    exact Nat.pos_of_ne_zero (fun e => h0 (UInt64.toNat_inj.mp e))
  rw [onTrade, if_neg (by simp [hg]), if_neg (by simp [hp, hsize]), book_mutateWithDelta, ht,
    applyTrade_against _ _ h0, hbook, hbook, if_pos rfl]
  split_ifs <;> rfl

end

/-- What the message says, for the books of all symbols. -/
def OrderExecuted (m m' : OrderBookManager D) (symbol : String) (k : OrderKey) (s : Side)
    (p : Price) (remaining shares : UInt64) : Prop :=
  Executed (m.book symbol) (m'.book symbol) k s p remaining shares ∧
    ∀ other, other ≠ symbol → m'.book other = m.book other

omit [Double D] in
theorem orderExecuted_iff_of_book {m m' : OrderBookManager D} {symbol : String} {b' : OrderBook}
    (hbook : ∀ s, m'.book s = if s = symbol then b' else m.book s) (k : OrderKey) (s : Side)
    (p : Price) (remaining shares : UInt64) :
    OrderExecuted m m' symbol k s p remaining shares ↔
      Executed (m.book symbol) b' k s p remaining shares := by
  have hsymbol := hbook symbol
  rw [if_pos rfl] at hsymbol
  rw [OrderExecuted, hsymbol]
  constructor
  · exact fun h => h.1
  · intro h
    refine ⟨h, ?_⟩
    intro other hne
    rw [hbook, if_neg hne]

/-- Nothing rests at the traded level except an order that the message fills, and the total of
the order's own level has not wrapped: it covers the executed shares, and it is the order's
size where the order is filled and stands alone. -/
def TradeFindsNothing (b : OrderBook) (S : Side) (T : Price) (k : OrderKey) (s : Side) (p : Price)
    (remaining shares : UInt64) : Prop :=
  (∀ x ∈ b.queue S T, x.key = k ∧ remaining ≤ shares) ∧
    min shares.toNat remaining.toNat ≤ (b.levelSize s p).toNat ∧
    (remaining ≤ shares → (∀ x ∈ b.queue s p, x.key = k) → b.levelSize s p = remaining)

/-- In every state that ITCH messages reach, an execution of a tracked resting order does what
it says if and only if the trade that follows finds nothing to take. -/
theorem order_executed_iff (docs : List (Option (Json D))) (c : WsFeedClient D)
    (hreach : receive docs = some c) (orderRef shares : UInt64) (os : OrderState D)
    (hos : c.adapter.orders orderRef = some os) (s : Side) (p : Price) (o : Order)
    (hrest : o ∈ (c.obManager.book os.symbol).queue s p) (hkey : o.key = ⟨orderRef, 0, 0, false⟩)
    (hsize : o.size = os.remainingShares) (hstale : c.obManager.isStale os.symbol = false)
    (hprice : c.obManager.validatePrice os.symbol os.price = true) (h0 : shares ≠ 0)
    (doc : Json D) (hdoc : IsOrderExecuted doc orderRef shares) :
    ∃ c', c.handleMessage (some doc) = some c' ∧
      (OrderExecuted c.obManager c'.obManager os.symbol o.key s p o.size shares ↔
        TradeFindsNothing (c.obManager.book os.symbol) os.side
          (c.obManager.toTicks os.symbol os.price) o.key s p o.size shares) := by
  have hwf := wf_receive hreach os.symbol
  have hgate : c.obManager.gate os.symbol = false := hstale
  have htrade := book_onTrade_mutateWithDelta (m := c.obManager) hgate hprice h0 os.side
  obtain ⟨a', htrans⟩ := translate_orderExecuted hdoc hos
  refine ⟨_, by rw [handleMessage, htrans]; rfl, ?_⟩
  rw [TradeFindsNothing]
  by_cases hfill : o.size ≤ shares
  · rw [if_pos (hsize ▸ hfill)]
    have hdelete : c.obManager.onDelete os.symbol orderRef {} false =
        c.obManager.mutateWithDelta os.symbol ((c.obManager.book os.symbol).locate o.key).toList
          (fun b => b.applyDeleteKey o.key) := by
      rw [onDelete, onDeleteKey, if_neg (by simpa using hgate), hkey]
    have hbook := htrade ((c.obManager.book os.symbol).locate o.key).toList
      (fun b => b.applyDeleteKey o.key)
    rw [← hdelete] at hbook
    refine (orderExecuted_iff_of_book hbook o.key s p o.size shares).trans ?_
    refine (executed_filled_iff hwf hrest h0 hfill os.side _).trans ?_
    rw [min_eq_right (UInt64.le_iff_toNat_le.mp hfill), UInt64.le_iff_toNat_le,
      forall_prop_of_true hfill]
    simp only [hfill, and_true]
  · have hpart : shares < o.size := UInt64.not_le.mp hfill
    rw [if_neg (hsize ▸ hfill), ← hsize]
    have hupdate : c.obManager.onUpdate os.symbol orderRef {} none (some (o.size - shares)) false =
        c.obManager.mutateWithDelta os.symbol
          (updateCandidates (c.obManager.book os.symbol) o.key none)
          (fun b => b.applyUpdateKey o.key none (some (o.size - shares))) := by
      have hlt := UInt64.lt_iff_toNat_lt.mp hpart
      have hvalid : validateSize (o.size - shares) = true := by
        rw [validateSize, decide_eq_true_iff, UInt64.lt_iff_toNat_lt, UInt64.toNat_zero,
          UInt64.toNat_sub_of_le _ _ (UInt64.le_of_lt hpart)]
        omega
      rw [onUpdate, onUpdateKey, if_neg (by simpa using hgate), hkey]
      simp [hvalid]
    have hbook := htrade (updateCandidates (c.obManager.book os.symbol) o.key none)
      (fun b => b.applyUpdateKey o.key none (some (o.size - shares)))
    rw [← hupdate] at hbook
    refine (orderExecuted_iff_of_book hbook o.key s p o.size shares).trans ?_
    refine (executed_partial_iff hwf hrest h0 hpart os.side _).trans ?_
    rw [min_eq_left (UInt64.lt_iff_toNat_lt.mp hpart).le, UInt64.le_iff_toNat_le]
    simp only [hfill, and_false, false_implies, and_true, List.eq_nil_iff_forall_not_mem]

def addBid (orderRef shares : UInt64) : Json ExactDouble :=
  .object [("type", .string "add_order"), ("orderRef", .uint orderRef), ("side", .string "B"),
    ("shares", .uint shares), ("stock", .string "AAPL    "), ("price", .string "100.00")]

def orderExecuted (orderRef shares : UInt64) : Json ExactDouble :=
  .object [("type", .string "order_executed"), ("orderRef", .uint orderRef),
    ("shares", .uint shares)]

/-- The client after two bids at one price. -/
def twoBids : WsFeedClient ExactDouble :=
  (receive [some (addBid 1 10), some (addBid 2 20)]).getD {}

def oneBid : WsFeedClient ExactDouble := (receive [some (addBid 1 10)]).getD {}

theorem receive_oneBid : receive [some (addBid 1 10)] = some oneBid := by
  have hsome : (receive [some (addBid 1 10)]).isSome := by decide +kernel
  obtain ⟨c, hc⟩ := Option.isSome_iff_exists.mp hsome
  rw [oneBid, hc, Option.getD_some]

theorem isOrderExecuted_orderExecuted (orderRef shares : UInt64) :
    IsOrderExecuted (orderExecuted orderRef shares) orderRef shares := by
  have htype : cString "order_executed" = "order_executed" := by decide +kernel
  refine ⟨?_, ?_, ?_⟩
  · exact congrArg some htype
  · exact Json.getUint64_uint (D := ExactDouble) orderRef
  · exact Json.getUint64_uint (D := ExactDouble) shares

theorem order_executed_alone :
    ∃ c', oneBid.handleMessage (some (orderExecuted 1 10)) = some c' ∧
      OrderExecuted oneBid.obManager c'.obManager "AAPL" ⟨1, 0, 0, false⟩ .bid ⟨1000000⟩ 10 10 := by
  obtain ⟨c', hc', hiff⟩ := order_executed_iff [some (addBid 1 10)] oneBid receive_oneBid 1 10
    ⟨"AAPL", 10, .bid, .fin 100⟩ (by decide +kernel) .bid ⟨1000000⟩
    { id := 1, side := .bid, price := ⟨1000000⟩, size := 10, priority := 0 } (by decide +kernel)
    rfl rfl (by decide +kernel) (by decide +kernel) (by decide) (orderExecuted 1 10)
    (isOrderExecuted_orderExecuted 1 10)
  refine ⟨c', hc', hiff.mpr ⟨?_, ?_, ?_⟩⟩
  · decide +kernel
  · decide +kernel
  · intro _ _
    decide +kernel

/-- The first of two bids is filled: the delete takes it, and the trade takes the same ten
shares from the second bid. -/
theorem order_executed_takes_twice :
    twoBids.adapter.orders 1 = some ⟨"AAPL", 10, .bid, .fin 100⟩ ∧
    { id := 1, side := .bid, price := ⟨1000000⟩, size := 10, priority := 0 } ∈
      (twoBids.obManager.book "AAPL").queue .bid ⟨1000000⟩ ∧
    twoBids.obManager.isStale "AAPL" = false ∧
    twoBids.obManager.validatePrice "AAPL" (.fin 100) = true ∧
    ¬ ∃ c', twoBids.handleMessage (some (orderExecuted 1 10)) = some c' ∧
      OrderExecuted twoBids.obManager c'.obManager "AAPL" ⟨1, 0, 0, false⟩ .bid ⟨1000000⟩ 10 10 := by
  refine ⟨by decide +kernel, by decide +kernel, by decide +kernel, by decide +kernel, ?_⟩
  rintro ⟨c', hc', hex, -⟩
  have hafter : (twoBids.handleMessage (some (orderExecuted 1 10))).map
      (fun c => (c.obManager.book "AAPL").levelSize .bid ⟨1000000⟩) = some 10 := by
    decide +kernel
  have hbefore : (twoBids.obManager.book "AAPL").levelSize .bid ⟨1000000⟩ = 30 := by
    decide +kernel
  rw [hc', Option.map_some, Option.some.injEq] at hafter
  have htotal := hex.total
  rw [hafter, hbefore] at htotal
  revert htotal
  decide

end WsFeedClient
end GmaEngine
