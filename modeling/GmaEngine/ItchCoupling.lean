import GmaEngine.ItchTranslation

/-!
# The adapter and the books agree

The ITCH adapter and the order books keep the same orders, linked only by the events that the
adapter emits. As long as no reference is added twice and the manager accepts every order, the
orders that rest are those that the adapter tracks.
-/

namespace GmaEngine
namespace WsFeedClient
variable {D : Type} [Double D]
open OrderBook OrderBookManager ItchAdapter KeyedQueues

/-- What validation and quantisation read of a manager, and its feed states. -/
structure SameSettings (m m' : OrderBookManager D) : Prop where
  feed : m'.feed = m.feed
  tickSize : m'.tickSize = m.tickSize
  negative : m'.allowNegativePrices = m.allowNegativePrices

section
variable {m m' : OrderBookManager D} {symbol : String}

omit [Double D] in
theorem SameSettings.refl (m : OrderBookManager D) : SameSettings m m := ⟨rfl, rfl, rfl⟩

omit [Double D] in
theorem sameSettings_mutateWithDelta (m : OrderBookManager D) (symbol : String)
    (candidates : List (Side × Price)) (mutator : OrderBook → OrderBook × Bool) :
    SameSettings m (m.mutateWithDelta symbol candidates mutator).mgr := by
  obtain ⟨hfeed, htick, hneg⟩ := mutateWithDelta_frame m symbol candidates mutator
  exact ⟨hfeed, htick, hneg⟩

theorem SameSettings.toTicks (h : SameSettings m m') (px : D) :
    m'.toTicks symbol px = m.toTicks symbol px := by
  rw [OrderBookManager.toTicks, OrderBookManager.toTicks, getTickSize, getTickSize, h.tickSize]

theorem SameSettings.acceptsAdd (h : SameSettings m m') (side : Side) (price : D)
    (size : UInt64) : m'.acceptsAdd symbol side price size = m.acceptsAdd symbol side price size := by
  simp only [OrderBookManager.acceptsAdd, gate, getFeedState, validatePrice, getTickSize, h.feed,
    h.tickSize, h.negative]

theorem sameSettings_onAdd (m : OrderBookManager D) (symbol : String) (id : UInt64) (side : Side)
    (price : D) (size priority : UInt64) (scope : FeedScope) (idMissing : Bool) :
    SameSettings m (m.onAdd symbol id side price size priority scope idMissing).mgr := by
  unfold onAdd
  split_ifs
  · exact .refl m
  · exact .refl m
  · exact sameSettings_mutateWithDelta m symbol _ _

theorem sameSettings_onUpdateKey (m : OrderBookManager D) (symbol : String) (key : OrderKey)
    (newPrice : Option D) (newSize : Option UInt64) :
    SameSettings m (m.onUpdateKey symbol key newPrice newSize).mgr := by
  unfold onUpdateKey
  split_ifs
  all_goals first
    | exact .refl m
    | exact sameSettings_mutateWithDelta m symbol _ _

omit [Double D] in
theorem sameSettings_onDeleteKey (m : OrderBookManager D) (symbol : String) (key : OrderKey) :
    SameSettings m (m.onDeleteKey symbol key).mgr := by
  unfold onDeleteKey
  split_ifs
  · exact .refl m
  · exact sameSettings_mutateWithDelta m symbol _ _

theorem sameSettings_onTrade (m : OrderBookManager D) (symbol : String) (tradePrice : D)
    (size : UInt64) (aggr : Aggressor) :
    SameSettings m (m.onTrade symbol tradePrice size aggr).mgr := by
  unfold onTrade
  split_ifs
  · exact .refl m
  · exact .refl m
  · exact sameSettings_mutateWithDelta m symbol _ _

/-- Where no feed message has come, every gate is open. -/
def Unsequenced (m : OrderBookManager D) : Prop := ∀ s, m.feed s = none

omit [Double D] in
theorem Unsequenced.gate (h : Unsequenced m) (s : String) : m.gate s = false := by
  rw [OrderBookManager.gate, getFeedState, h s]
  rfl

variable (h : Unsequenced m) (hwf : ∀ s, (m.book s).WF)
include h

omit [Double D] in
theorem book_onDelete (ref : UInt64) (s : String) :
    ((m.onDelete symbol ref {} false).mgr.book s) =
      if s = symbol then ((m.book symbol).deleteImpl (makeKey ref {} false)).1 else m.book s := by
  rw [onDelete, onDeleteKey, if_neg (by simp [h.gate symbol]), book_mutateWithDelta]
  rfl

theorem book_onUpdate (ref size : UInt64) (hsize : 0 < size) (s : String) :
    ((m.onUpdate symbol ref {} none (some size) false).mgr.book s) =
      if s = symbol then ((m.book symbol).updateImpl (makeKey ref {} false) none (some size)).1
      else m.book s := by
  rw [onUpdate, onUpdateKey, if_neg (by simp [h.gate symbol]), if_neg (by simp),
    if_neg (by simp), if_neg (by simp [validateSize, hsize]), book_mutateWithDelta]
  rfl

end

/-- The order that a tracked order is in the book. -/
def restingOrder (ref : UInt64) (os : OrderState D) (price : Price) : Order :=
  { id := ref, side := os.side, price := price, size := os.remainingShares }

/-- The tick size of a listed stock. -/
def listedTick : D := if Double.gt (kTick : D) (Double.ofRat 0) then kTick else kDefaultTick

/-- The orders that rest are those that the adapter tracks. -/
def SameOrders (c : WsFeedClient D) : Prop :=
  ∀ symbol side price o, o ∈ (c.obManager.book symbol).queue side price ↔
    ∃ ref os, c.adapter.orders ref = some os ∧ os.symbol = symbol ∧ os.side = side ∧
      c.obManager.toTicks symbol os.price = price ∧ o = restingOrder ref os price

structure Coupled (c : WsFeedClient D) : Prop where
  wf : ∀ s, (c.obManager.book s).WF
  unsequenced : Unsequenced c.obManager
  listed : ∀ ref os, c.adapter.orders ref = some os →
    c.obManager.tickSize os.symbol = some listedTick
  same : SameOrders c

section
variable {c : WsFeedClient D} {ref : UInt64} {os : OrderState D}

omit [Double D] in
theorem key_restingOrder (ref : UInt64) (os : OrderState D) (price : Price) :
    (restingOrder ref os price).key = makeKey ref {} false := rfl

omit [Double D] in
theorem makeKey_injective {ref ref' : UInt64} (h : makeKey ref {} false = makeKey ref' {} false) :
    ref = ref' := congrArg OrderKey.id h

theorem toTicks_of_listed {m m' : OrderBookManager D} {symbol : String}
    (h : m'.tickSize symbol = m.tickSize symbol) (px : D) :
    m'.toTicks symbol px = m.toTicks symbol px := by
  rw [OrderBookManager.toTicks, OrderBookManager.toTicks, getTickSize, getTickSize, h]

/-- The order that rests under a tracked reference. -/
theorem Coupled.of_key (h : Coupled c) (hos : c.adapter.orders ref = some os) {symbol : String}
    {side : Side} {price : Price} {o : Order}
    (ho : o ∈ (c.obManager.book symbol).queue side price) (hk : o.key = makeKey ref {} false) :
    symbol = os.symbol ∧ o = restingOrder ref os (c.obManager.toTicks os.symbol os.price) := by
  obtain ⟨ref', os', hos', rfl, -, rfl, rfl⟩ := (h.same symbol side price o).mp ho
  obtain rfl : ref' = ref := makeKey_injective hk
  rw [hos] at hos'
  cases hos'
  exact ⟨rfl, rfl⟩

/-- The orders of a book without those under one reference. -/
theorem Coupled.queue_remove (h : Coupled c) (hos : c.adapter.orders ref = some os)
    (symbol : String) (side : Side) (price : Price) (o : Order) :
    o ∈ ((c.obManager.onDelete os.symbol ref {} false).mgr.book symbol).queue side price ↔
      o ∈ (c.obManager.book symbol).queue side price ∧ o.key ≠ makeKey ref {} false := by
  rw [book_onDelete h.unsequenced]
  split_ifs with hs
  · subst hs
    rw [queue_deleteImpl (h.wf _), mem_removeKey]
  · exact ⟨fun ho => ⟨ho, fun hk => hs (h.of_key hos ho hk).1⟩, And.left⟩

theorem Coupled.remove (h : Coupled c) (hos : c.adapter.orders ref = some os) :
    Coupled ⟨c.adapter.eraseOrder ref, dispatchEvent c.obManager (.obDelete os.symbol ref)⟩ := by
  have hset : SameSettings c.obManager (dispatchEvent c.obManager (.obDelete os.symbol ref)) :=
    sameSettings_onDeleteKey _ _ _
  have hkeep : ∀ ref' os', (c.adapter.eraseOrder ref).orders ref' = some os' ↔
      ref' ≠ ref ∧ c.adapter.orders ref' = some os' := by
    intro ref' os'
    by_cases href : ref' = ref
    · subst href
      simp [eraseOrder]
    · simp [eraseOrder, href]
  refine ⟨wf_dispatchEvent h.wf _, ?_, ?_, ?_⟩
  · intro s
    rw [hset.feed]
    exact h.unsequenced s
  · intro ref' os' hos'
    rw [hset.tickSize]
    exact h.listed ref' os' ((hkeep ref' os').mp hos').2
  · intro symbol side price o
    refine (h.queue_remove hos symbol side price o).trans ?_
    simp only [hset.toTicks, hkeep]
    constructor
    · rintro ⟨ho, hk⟩
      obtain ⟨ref', os', hos', hrest⟩ := (h.same symbol side price o).mp ho
      refine ⟨ref', os', ⟨fun href => hk ?_, hos'⟩, hrest⟩
      rw [hrest.2.2.2, href, key_restingOrder]
    · rintro ⟨ref', os', ⟨href, hos'⟩, hrest⟩
      refine ⟨(h.same symbol side price o).mpr ⟨ref', os', hos', hrest⟩, fun hk => href ?_⟩
      rw [hrest.2.2.2, key_restingOrder] at hk
      exact makeKey_injective hk

/-- No order rests under a reference that is not tracked. -/
theorem Coupled.untracked (h : Coupled c) (hnone : c.adapter.orders ref = none) (symbol : String)
    (side : Side) (price : Price) :
    ∀ o ∈ (c.obManager.book symbol).queue side price, o.key ≠ makeKey ref {} false := by
  intro o ho hk
  obtain ⟨ref', os', hos', -, -, -, rfl⟩ := (h.same symbol side price o).mp ho
  obtain rfl : ref' = ref := makeKey_injective hk
  rw [hnone] at hos'
  cases hos'

theorem Coupled.add (h : Coupled c) (hnone : c.adapter.orders ref = none) (hzero : ref ≠ 0)
    {stock : String} {side : Side} {price : D} {shares : UInt64}
    (haccept : c.obManager.acceptsAdd stock side price shares = true)
    (hlisted : c.obManager.tickSize stock = some listedTick) :
    Coupled ⟨c.adapter.setOrder ref ⟨stock, shares, side, price⟩,
      dispatchEvent c.obManager (.obAdd stock ref side price shares 0)⟩ := by
  have hset : SameSettings c.obManager
      (dispatchEvent c.obManager (.obAdd stock ref side price shares 0)) :=
    sameSettings_onAdd _ _ _ _ _ _ _ _ _
  have hkeep : ∀ ref' os', (c.adapter.setOrder ref ⟨stock, shares, side, price⟩).orders ref' =
      some os' ↔ ref' = ref ∧ os' = ⟨stock, shares, side, price⟩ ∨
        c.adapter.orders ref' = some os' := by
    intro ref' os'
    by_cases href : ref' = ref
    · subst href
      simp [setOrder, hnone, eq_comm]
    · simp [setOrder, href]
  have hcopy : ((c.obManager.book stock).scopedCopy
      (c.obManager.addedOrder stock ref side price shares 0) {} false).2 =
        restingOrder ref ⟨stock, shares, side, price⟩ (c.obManager.toTicks stock price) := by
    simp [scopedCopy, addedOrder, hzero, restingOrder]
  refine ⟨wf_dispatchEvent h.wf _, ?_, ?_, ?_⟩
  · intro s
    rw [hset.feed]
    exact h.unsequenced s
  · intro ref' os' hos'
    rw [hset.tickSize]
    rcases (hkeep ref' os').mp hos' with ⟨-, rfl⟩ | hos'
    · exact hlisted
    · exact h.listed ref' os' hos'
  · intro symbol side' price' o
    simp only [hset.toTicks, hkeep]
    have hbook := book_onAdd (m := c.obManager) (s := stock) ref side price shares 0 {} false symbol
    change o ∈ ((c.obManager.onAdd stock ref side price shares 0 {} false).mgr.book symbol).queue
      side' price' ↔ _
    rw [hbook.1, hbook.2, haccept]
    by_cases hs : symbol = stock
    · subst hs
      rw [if_pos ⟨rfl, rfl⟩, queue_applyAddScoped _ _ _ (h.wf symbol), hcopy, key_restingOrder,
        removeKey_eq_self (h.untracked hnone symbol side' price'), List.mem_append, h.same]
      constructor
      · rintro (⟨ref', os', hos', hrest⟩ | hnew)
        · exact ⟨ref', os', .inr hos', hrest⟩
        · split_ifs at hnew with hplace
          · obtain ⟨rfl, rfl⟩ := hplace
            rw [List.mem_singleton] at hnew
            exact ⟨ref, _, .inl ⟨rfl, rfl⟩, rfl, rfl, rfl, hnew⟩
          · cases hnew
      · rintro ⟨ref', os', ⟨rfl, rfl⟩ | hos', hrest⟩
        · obtain ⟨-, rfl, rfl, rfl⟩ := hrest
          right
          rw [if_pos ⟨rfl, rfl⟩]
          exact List.mem_singleton_self _
        · exact .inl ⟨ref', os', hos', hrest⟩
    · rw [if_neg (fun hboth => hs hboth.1), h.same]
      constructor
      · rintro ⟨ref', os', hos', hrest⟩
        exact ⟨ref', os', .inr hos', hrest⟩
      · rintro ⟨ref', os', ⟨rfl, rfl⟩ | hos', hrest⟩
        · exact absurd hrest.1.symm hs
        · exact ⟨ref', os', hos', hrest⟩

omit [Double D] in
/-- An update to the size that the order has changes no queue. -/
theorem updateImpl_sameSize {b : OrderBook} (hwf : b.WF) {side : Side} {price : Price} {o : Order}
    (ho : o ∈ b.queue side price) : (b.updateImpl o.key none (some o.size)).1 = b ∨ o.size = 0 := by
  obtain ⟨-, he⟩ | ⟨loc, l, n, hk, hl, hn, ha, hkey, hcase⟩ :=
    updateImpl_cases hwf o.key none (some o.size)
  · exact .inl (by rw [he])
  · have hmem : n.order ∈ b.queue loc.side loc.price := mem_queue.mpr ⟨n, ⟨l, hl, hn⟩, rfl⟩
    obtain ⟨rfl, rfl, rfl⟩ := hwf.queue_key_unique ho hmem hkey.symm
    obtain ⟨hzero, -⟩ | ⟨-, -, -, he⟩ | ⟨-, -, hne, -⟩ | ⟨-, hne, -⟩ := hcase
    · exact .inr hzero
    · exact .inl (by rw [he])
    · exact absurd rfl hne
    · exact absurd rfl hne

/-- A reduced order keeps its place. -/
theorem Coupled.queue_reduce (h : Coupled c) (hos : c.adapter.orders ref = some os)
    {shares : UInt64} (hlt : shares < os.remainingShares) (symbol : String) (side : Side)
    (price : Price) :
    ((c.obManager.onUpdate os.symbol ref {} none (some (os.remainingShares - shares)) false).mgr.book
      symbol).queue side price =
        modifyKey Order.key (makeKey ref {} false)
          (fun _ => restingOrder ref { os with remainingShares := os.remainingShares - shares }
            (c.obManager.toTicks os.symbol os.price))
          ((c.obManager.book symbol).queue side price) := by
  have hplaced := (h.same os.symbol os.side (c.obManager.toTicks os.symbol os.price) _).mpr
    ⟨ref, os, hos, rfl, rfl, rfl, rfl⟩
  have hpos : 0 < os.remainingShares - shares := by
    rw [UInt64.lt_iff_toNat_lt] at hlt ⊢
    rw [UInt64.toNat_sub_of_le _ _ (UInt64.le_of_lt (UInt64.lt_iff_toNat_lt.mpr hlt)),
      UInt64.toNat_zero]
    omega
  rw [book_onUpdate h.unsequenced ref _ hpos]
  split_ifs with hs
  · subst hs
    by_cases h0 : shares = 0
    · subst h0
      rw [UInt64.sub_zero] at hpos ⊢
      have hsame := (updateImpl_sameSize (h.wf os.symbol) hplaced).resolve_right
        (fun hzero => UInt64.ne_of_lt hpos hzero.symm)
      change ((c.obManager.book os.symbol).updateImpl (makeKey ref {} false) none
        (some os.remainingShares)).1 = _ at hsame
      rw [hsame, modifyKey, List.map_congr_left (g := id), List.map_id]
      intro x hx
      split_ifs with hk
      · exact (h.of_key hos hx hk).2.symm
      · rfl
    · exact (updateImpl_resize (h.wf os.symbol) hplaced h0 hlt).1 side price
  · rw [modifyKey_eq_self]
    exact fun x hx hk => hs (h.of_key hos hx hk).1

theorem Coupled.reduce (h : Coupled c) (hos : c.adapter.orders ref = some os)
    {shares : UInt64} (hlt : shares < os.remainingShares) :
    Coupled ⟨c.adapter.setOrder ref { os with remainingShares := os.remainingShares - shares },
      dispatchEvent c.obManager
        (.obUpdate os.symbol ref none (some (os.remainingShares - shares)))⟩ := by
  have hset : SameSettings c.obManager (dispatchEvent c.obManager
      (.obUpdate os.symbol ref none (some (os.remainingShares - shares)))) :=
    sameSettings_onUpdateKey _ _ _ _ _
  refine ⟨wf_dispatchEvent h.wf _, ?_, ?_, ?_⟩
  · intro s
    rw [hset.feed]
    exact h.unsequenced s
  · intro ref' os' hos'
    rw [hset.tickSize]
    by_cases href : ref' = ref
    · subst href
      simp only [setOrder, Function.update_self, Option.some.injEq] at hos'
      subst hos'
      exact h.listed ref' os hos
    · simp only [setOrder, Function.update_of_ne href] at hos'
      exact h.listed ref' os' hos'
  · intro symbol side price o
    simp only [hset.toTicks]
    change o ∈ ((c.obManager.onUpdate os.symbol ref {} none _ false).mgr.book symbol).queue
      side price ↔ _
    rw [h.queue_reduce hos hlt, modifyKey, List.mem_map]
    constructor
    · rintro ⟨x, hx, rfl⟩
      obtain ⟨ref', os', hos', hsym, hside, hprice, rfl⟩ := (h.same symbol side price x).mp hx
      by_cases href : ref' = ref
      · subst href
        rw [hos] at hos'
        cases hos'
        subst hsym hprice
        refine ⟨ref', { os with remainingShares := os.remainingShares - shares }, ?_, rfl, hside,
          rfl, if_pos rfl⟩
        simp [setOrder]
      · refine ⟨ref', os', ?_, hsym, hside, hprice, ?_⟩
        · simpa [setOrder, href] using hos'
        · rw [if_neg]
          rw [key_restingOrder]
          exact fun hk => href (makeKey_injective hk)
    · rintro ⟨ref', os', hos', hsym, hside, hprice, rfl⟩
      by_cases href : ref' = ref
      · subst href
        simp only [setOrder, Function.update_self, Option.some.injEq] at hos'
        subst hos' hsym hprice
        exact ⟨restingOrder ref' os _, (h.same os.symbol side _ _).mpr
          ⟨ref', os, hos, rfl, hside, rfl, rfl⟩, if_pos rfl⟩
      · simp only [setOrder, Function.update_of_ne href] at hos'
        refine ⟨restingOrder ref' os' price, ?_, ?_⟩
        · exact (h.same symbol side price _).mpr ⟨ref', os', hos', hsym, hside, hprice, rfl⟩
        · rw [if_neg]
          rw [key_restingOrder]
          exact fun hk => href (makeKey_injective hk)

theorem Coupled.directory (h : Coupled c) {a' : ItchAdapter D}
    (ha : a'.orders = c.adapter.orders) (stock : String) :
    Coupled ⟨a', dispatchEvent c.obManager (.obTickSize stock kTick)⟩ := by
  have htick : ∀ symbol, c.obManager.tickSize symbol = some listedTick →
      (c.obManager.setTickSize stock kTick).tickSize symbol = c.obManager.tickSize symbol := by
    intro symbol hlisted
    by_cases hs : symbol = stock
    · subst hs
      rw [hlisted, setTickSize]
      exact Function.update_self _ _ _
    · exact Function.update_of_ne hs _ _
  refine ⟨h.wf, h.unsequenced, ?_, ?_⟩
  · intro ref' os' hos'
    change a'.orders ref' = some os' at hos'
    rw [ha] at hos'
    exact (htick os'.symbol (h.listed ref' os' hos')).trans (h.listed ref' os' hos')
  · intro symbol side price o
    refine (h.same symbol side price o).trans ?_
    change _ ↔ ∃ ref' os', a'.orders ref' = some os' ∧ _
    rw [ha]
    constructor
    · rintro ⟨ref', os', hos', rfl, hside, hprice, ho⟩
      refine ⟨ref', os', hos', rfl, hside, ?_, ho⟩
      rw [← hprice]
      exact toTicks_of_listed (htick os'.symbol (h.listed ref' os' hos')) os'.price
    · rintro ⟨ref', os', hos', rfl, hside, hprice, ho⟩
      refine ⟨ref', os', hos', rfl, hside, ?_, ho⟩
      rw [← hprice]
      exact (toTicks_of_listed (htick os'.symbol (h.listed ref' os' hos')) os'.price).symm

end

/-- What is asked of a message: it is no trade and no execution, and every order that it adds has
a nonzero reference that is not live, is accepted by the manager, and has a symbol that an earlier
`stock_directory` message lists. -/
structure Admissible (before : List (Option (Json D))) (c : WsFeedClient D)
    (doc : Option (Json D)) : Prop where
  type : messageType doc ≠ some "trade" ∧ messageType doc ≠ some "order_executed"
  adds : ∀ a' events, c.adapter.translate doc = some (a', events) →
    ∀ symbol ref side price size priority,
      FeedEvent.obAdd symbol ref side price size priority ∈ events →
        ref ≠ 0 ∧ (c.adapter.orders ref = none ∨ FeedEvent.obDelete symbol ref ∈ events) ∧
          c.obManager.acceptsAdd symbol side price size = true ∧
          ∃ d ∈ before, directorySymbol d = some symbol

def AdmissibleRun (docs : List (Option (Json D))) : Prop :=
  ∀ before doc after c, docs = before ++ doc :: after → receive before = some c →
    Admissible before c doc

/-- Every symbol of a `stock_directory` message so far has its tick size. -/
def ListedBy (before : List (Option (Json D))) (c : WsFeedClient D) : Prop :=
  ∀ d ∈ before, ∀ symbol, directorySymbol d = some symbol →
    c.obManager.tickSize symbol = some listedTick

section
variable {c c' : WsFeedClient D} {doc : Option (Json D)} {before : List (Option (Json D))}

theorem handleMessage_cases (h : c.handleMessage doc = some c') :
    ∃ events, c.adapter.translate doc = some (c'.adapter, events) ∧
      Translated c.adapter doc c'.adapter events ∧
      c'.obManager = events.foldl dispatchEvent c.obManager := by
  unfold handleMessage at h
  simp only [bind, Option.bind_eq_some_iff] at h
  obtain ⟨⟨adapter, events⟩, htrans, hc⟩ := h
  cases hc
  exact ⟨events, htrans, translated_of_translate htrans, rfl⟩

theorem tickSize_setTickSize (m : OrderBookManager D) (stock symbol : String) :
    (m.setTickSize stock kTick).tickSize symbol =
      if symbol = stock then some listedTick else m.tickSize symbol := by
  rw [setTickSize]
  exact Function.update_apply _ _ _ _

/-- One event of an ITCH message keeps the tick size of a listed symbol. -/
theorem tickSize_dispatchEvent {m : OrderBookManager D} {symbol : String}
    (h : m.tickSize symbol = some listedTick) {evt : FeedEvent D}
    (hevt : ∀ stock tick, evt = .obTickSize stock tick → tick = kTick) :
    (dispatchEvent m evt).tickSize symbol = some listedTick := by
  cases evt with
  | tick stock payload => exact h
  | obAdd stock ref side price size priority =>
    rw [dispatchEvent, (sameSettings_onAdd _ _ _ _ _ _ _ _ _).tickSize, h]
  | obUpdate stock ref newPrice newSize =>
    rw [dispatchEvent, onUpdate, (sameSettings_onUpdateKey _ _ _ _ _).tickSize, h]
  | obDelete stock ref =>
    rw [dispatchEvent, onDelete, (sameSettings_onDeleteKey _ _ _).tickSize, h]
  | obTrade stock price size aggr =>
    rw [dispatchEvent, (sameSettings_onTrade _ _ _ _ _).tickSize, h]
  | obTickSize stock tick =>
    obtain rfl := hevt stock tick rfl
    rw [dispatchEvent, tickSize_setTickSize, h, ite_self]
  | obReset stock epoch => exact h

theorem tickSizes_of_translated {a a' : ItchAdapter D} {events : List (FeedEvent D)}
    (h : Translated a doc a' events) :
    ∀ evt ∈ events, ∀ stock tick, evt = .obTickSize stock tick → tick = kTick := by
  cases h <;> simp [makeTradeTickEvent]

theorem tickSize_foldl {events : List (FeedEvent D)} {m : OrderBookManager D} {symbol : String}
    (h : m.tickSize symbol = some listedTick)
    (hevents : ∀ evt ∈ events, ∀ stock tick, evt = .obTickSize stock tick → tick = kTick) :
    (events.foldl dispatchEvent m).tickSize symbol = some listedTick := by
  induction events generalizing m with
  | nil => exact h
  | cons evt events ih =>
    exact ih (tickSize_dispatchEvent h (hevents evt List.mem_cons_self))
      (fun evt' hevt' => hevents evt' (List.mem_cons_of_mem _ hevt'))

theorem ListedBy.step (h : ListedBy before c) (hmsg : c.handleMessage doc = some c') :
    ListedBy (before ++ [doc]) c' := by
  obtain ⟨events, htrans, hshape, hmgr⟩ := handleMessage_cases hmsg
  intro d hd symbol hdir
  rw [hmgr]
  rcases List.mem_append.mp hd with hd | hd
  · exact tickSize_foldl (h d hd symbol hdir) (tickSizes_of_translated hshape)
  · rw [List.mem_singleton.mp hd] at hdir
    rw [translate_directory hdir htrans, List.foldl_cons, List.foldl_nil, dispatchEvent,
      tickSize_setTickSize, if_pos rfl]

/-- The step lemma. -/
theorem Coupled.step (h : Coupled c) (hlisted : ListedBy before c)
    (hadm : Admissible before c doc) (hmsg : c.handleMessage doc = some c') : Coupled c' := by
  obtain ⟨events, htrans, hshape, hmgr⟩ := handleMessage_cases hmsg
  have hadds := hadm.adds _ _ htrans
  obtain ⟨adapter, mgr⟩ := c'
  dsimp only at htrans hshape hmgr hadds
  subst hmgr
  cases hshape with
  | ignored => exact h
  | directory locate stock =>
    refine h.directory ?_ stock
    rfl
  | trade stock price shares aggr htype => exact absurd htype hadm.type.1
  | filled ref shares os aggr hos htype => exact absurd htype hadm.type.2
  | partlyFilled ref shares os aggr hos htype hlt => exact absurd htype hadm.type.2
  | removed ref os hos => exact h.remove hos
  | reduced ref shares os hos hlt => exact h.reduce hos hlt
  | add stock ref side price shares =>
    obtain ⟨hzero, hfree, haccept, d, hd, hdir⟩ :=
      hadds stock ref side price shares 0 (List.mem_singleton_self _)
    have hnone := hfree.resolve_right (fun hmem => by cases List.mem_singleton.mp hmem)
    exact h.add hnone hzero haccept (hlisted d hd stock hdir)
  | replaced origRef newRef os price shares hos =>
    obtain ⟨hzero, hfree, haccept, d, hd, hdir⟩ :=
      hadds os.symbol newRef os.side price shares 0 (by simp)
    have hset : SameSettings c.obManager
        (dispatchEvent c.obManager (.obDelete os.symbol origRef)) := sameSettings_onDeleteKey _ _ _
    refine (h.remove hos).add ?_ hzero ?_ ?_
    · by_cases href : newRef = origRef
      · subst href
        exact Function.update_self _ _ _
      · refine (Function.update_of_ne href _ _).trans (hfree.resolve_right ?_)
        simpa using href
    · rw [← haccept]
      exact hset.acceptsAdd os.side price shares
    · rw [hset.tickSize]
      exact hlisted d hd os.symbol hdir

theorem receive_concat (docs : List (Option (Json D))) (doc : Option (Json D)) :
    receive (docs ++ [doc]) = (receive docs).bind (fun c => c.handleMessage doc) := by
  rw [receive, List.foldlM_append]
  cases h : docs.foldlM handleMessage ({} : WsFeedClient D) with
  | none =>
    rw [receive, h]
    rfl
  | some c =>
    rw [receive, h]
    simp

theorem coupled_empty : Coupled ({} : WsFeedClient D) := by
  have huntracked : ∀ ref os, ({} : WsFeedClient D).adapter.orders ref ≠ some os := by
    intro ref os hos
    cases hos
  refine ⟨fun _ => wf_empty, fun _ => rfl, fun ref os hos => absurd hos (huntracked ref os), ?_⟩
  intro symbol side price o
  constructor
  · intro ho
    have hnone : (({} : WsFeedClient D).obManager.book symbol).queue side price = [] := by
      simp [book, queue, findLevel]
    rw [hnone] at ho
    cases ho
  · rintro ⟨ref, os, hos, -⟩
    exact absurd hos (huntracked ref os)

theorem coupled_receive {docs : List (Option (Json D))} (hreach : receive docs = some c)
    (hrun : AdmissibleRun docs) : Coupled c ∧ ListedBy docs c := by
  induction docs using List.reverseRecOn generalizing c with
  | nil =>
    cases hreach
    exact ⟨coupled_empty, fun d hd => by cases hd⟩
  | append_singleton docs doc ih =>
    rw [receive_concat] at hreach
    obtain ⟨c₀, hc₀, hmsg⟩ := Option.bind_eq_some_iff.mp hreach
    have hbefore : AdmissibleRun docs := by
      intro before doc' after c₁ hdocs hc₁
      refine hrun before doc' (after ++ [doc]) c₁ ?_ hc₁
      rw [hdocs, List.append_assoc, List.cons_append]
    obtain ⟨hcoupled, hlisted⟩ := ih hc₀ hbefore
    exact ⟨hcoupled.step hlisted (hrun docs doc [] c₀ rfl hc₀) hmsg, hlisted.step hmsg⟩

/-- An `order_cancel` message. -/
structure IsOrderCancel (doc : Json D) (orderRef shares : UInt64) : Prop where
  type : (doc.member "type").bind Json.getString = some "order_cancel"
  orderRef : (doc.member "orderRef").bind Json.getUint64 = some orderRef
  shares : (doc.member "shares").bind Json.getUint64 = some shares

theorem translate_orderCancel {a : ItchAdapter D} {doc : Json D} {ref shares : UInt64}
    (h : IsOrderCancel doc ref shares) {os : OrderState D} (hos : a.orders ref = some os) :
    a.translate (some doc) =
      if os.remainingShares ≤ shares then some (a.eraseOrder ref, [.obDelete os.symbol ref])
      else some (a.setOrder ref { os with remainingShares := os.remainingShares - shares },
        [.obUpdate os.symbol ref none (some (os.remainingShares - shares))]) := by
  obtain ⟨vt, ht, htype⟩ := Option.bind_eq_some_iff.mp h.type
  obtain ⟨vr, hr, href⟩ := Option.bind_eq_some_iff.mp h.orderRef
  obtain ⟨vs, hs, hshares⟩ := Option.bind_eq_some_iff.mp h.shares
  have hroute : a.translate (some doc) = a.routeOrderCancel doc := by
    simp [ItchAdapter.translate, Json.has, isObject_of_member ht, ht, htype,
      isString_of_getString htype]
  rw [hroute]
  split_ifs with hfill
  all_goals
    simp [routeOrderCancel, Json.has, hr, hs, href, hshares, isNumber_of_getUint64 href,
      isNumber_of_getUint64 hshares, hos, hfill]

/-- The shares that rest at a level under a key. -/
def restingShares (b : OrderBook) (side : Side) (price : Price) (k : OrderKey) : ℕ :=
  (((b.queue side price).filter (fun o => o.key = k)).map (fun o => o.size.toNat)).sum

/-- A cancel takes from its order what it can, and nothing from any other order. -/
structure Cancelled (c c' : WsFeedClient D) (ref shares : UInt64) (os : OrderState D) : Prop where
  before : restingShares (c.obManager.book os.symbol) os.side
    (c.obManager.toTicks os.symbol os.price) (makeKey ref {} false) = os.remainingShares.toNat
  taken : restingShares (c'.obManager.book os.symbol) os.side
    (c.obManager.toTicks os.symbol os.price) (makeKey ref {} false) +
      min shares.toNat os.remainingShares.toNat = os.remainingShares.toNat
  others : ∀ symbol side price,
    removeKey Order.key (makeKey ref {} false) ((c'.obManager.book symbol).queue side price) =
      removeKey Order.key (makeKey ref {} false) ((c.obManager.book symbol).queue side price)

theorem Coupled.restingShares_eq (h : Coupled c) {ref : UInt64} {os : OrderState D}
    (hos : c.adapter.orders ref = some os) :
    restingShares (c.obManager.book os.symbol) os.side (c.obManager.toTicks os.symbol os.price)
      (makeKey ref {} false) = os.remainingShares.toNat := by
  have hplaced := (h.same os.symbol os.side (c.obManager.toTicks os.symbol os.price) _).mpr
    ⟨ref, os, hos, rfl, rfl, rfl, rfl⟩
  have hkeys := (h.wf os.symbol).queue_nodup os.side (c.obManager.toTicks os.symbol os.price)
  have honly := filter_key_eq_singleton hkeys hplaced
  rw [restingShares, ← key_restingOrder ref os (c.obManager.toTicks os.symbol os.price), honly]
  rfl

theorem Coupled.restingShares_eq_zero (h : Coupled c) {ref : UInt64}
    (hnone : c.adapter.orders ref = none) (symbol : String) (side : Side) (price : Price) :
    restingShares (c.obManager.book symbol) side price (makeKey ref {} false) = 0 := by
  have hempty : ((c.obManager.book symbol).queue side price).filter
      (fun o => o.key = makeKey ref {} false) = [] := by
    rw [List.filter_eq_nil_iff]
    intro o ho
    simpa using h.untracked hnone symbol side price o ho
  rw [restingShares, hempty]
  rfl

theorem Coupled.cancel (h : Coupled c) {ref shares : UInt64} {os : OrderState D}
    (hos : c.adapter.orders ref = some os) {doc : Json D} (hdoc : IsOrderCancel doc ref shares) :
    ∃ c', c.handleMessage (some doc) = some c' ∧ SameOrders c' ∧ Cancelled c c' ref shares os := by
  have htrans := translate_orderCancel hdoc hos
  by_cases hfill : os.remainingShares ≤ shares
  · rw [if_pos hfill] at htrans
    have hafter := h.remove hos
    have hnone : (c.adapter.eraseOrder ref).orders ref = none := Function.update_self _ _ _
    refine ⟨_, by rw [handleMessage, htrans]; rfl, hafter.same, h.restingShares_eq hos, ?_, ?_⟩
    · have hzero := hafter.restingShares_eq_zero hnone os.symbol os.side
        (c.obManager.toTicks os.symbol os.price)
      exact (congrArg (· + _) hzero).trans
        ((Nat.zero_add _).trans (Nat.min_eq_right (UInt64.le_iff_toNat_le.mp hfill)))
    · intro symbol side price
      change removeKey Order.key _ (((c.obManager.onDelete os.symbol ref {} false).mgr.book
        symbol).queue side price) = _
      rw [book_onDelete h.unsequenced]
      split_ifs with hs
      · subst hs
        rw [queue_deleteImpl (h.wf _), removeKey_eq_self]
        exact fun x hx => (mem_removeKey.mp hx).2
      · rfl
  · rw [if_neg hfill] at htrans
    have hlt := UInt64.not_le.mp hfill
    have hafter := h.reduce hos hlt
    have hset : SameSettings c.obManager (dispatchEvent c.obManager
        (.obUpdate os.symbol ref none (some (os.remainingShares - shares)))) :=
      sameSettings_onUpdateKey _ _ _ _ _
    have hsome : (c.adapter.setOrder ref
        { os with remainingShares := os.remainingShares - shares }).orders ref =
          some { os with remainingShares := os.remainingShares - shares } :=
      Function.update_self _ _ _
    refine ⟨_, by rw [handleMessage, htrans]; rfl, hafter.same, h.restingShares_eq hos, ?_, ?_⟩
    · have hrest := hafter.restingShares_eq hsome
      dsimp only at hrest
      rw [hset.toTicks] at hrest
      have hle := UInt64.le_iff_toNat_le.mp (UInt64.le_of_lt hlt)
      refine (congrArg (· + _) hrest).trans ?_
      rw [UInt64.toNat_sub_of_le _ _ (UInt64.le_of_lt hlt), Nat.min_eq_left hle]
      omega
    · intro symbol side price
      change removeKey Order.key _ (((c.obManager.onUpdate os.symbol ref {} none _ false).mgr.book
        symbol).queue side price) = _
      rw [h.queue_reduce hos hlt]
      exact removeKey_modifyKey (key_restingOrder ref _ _)

/-- In every run of admissible messages the orders that rest in the books are the orders that the
adapter tracks, each resting once, with the same symbol, side, quantised price and remaining size;
and a cancel of any amount takes the smaller of that amount and what remains from its order, and
nothing from any other. -/
theorem adapter_and_books_agree (docs : List (Option (Json D))) (c : WsFeedClient D)
    (hreach : receive docs = some c) (hrun : AdmissibleRun docs) :
    SameOrders c ∧
    (∀ symbol side price, ((c.obManager.book symbol).queue side price).Nodup) ∧
    ∀ doc ref shares os, IsOrderCancel doc ref shares → c.adapter.orders ref = some os →
      ∃ c', c.handleMessage (some doc) = some c' ∧ SameOrders c' ∧
        Cancelled c c' ref shares os := by
  obtain ⟨hcoupled, -⟩ := coupled_receive hreach hrun
  refine ⟨hcoupled.same, ?_, fun doc ref shares os hdoc hos => hcoupled.cancel hos hdoc⟩
  intro symbol side price
  exact List.Nodup.of_map _ ((hcoupled.wf symbol).queue_nodup side price)

end

/-- The order that an event adds. -/
def addition : FeedEvent ExactDouble → Option (String × UInt64 × Side × ExactDouble × UInt64)
  | .obAdd symbol ref side price size _ => some (symbol, ref, side, price, size)
  | _ => none

def listAapl : Json ExactDouble :=
  .object [("type", .string "stock_directory"), ("stockLocate", .uint 1),
    ("stock", .string "AAPL    ")]

def orderCancel (orderRef shares : UInt64) : Json ExactDouble :=
  .object [("type", .string "order_cancel"), ("orderRef", .uint orderRef),
    ("shares", .uint shares)]

def listedBid : List (Option (Json ExactDouble)) := [some listAapl, some (addBid 1 10)]

theorem admissibleRun_listedBid : AdmissibleRun listedBid := by
  intro before doc after c hdocs hc
  rcases before with _ | ⟨d, _ | ⟨d', before⟩⟩
  · obtain ⟨rfl, -⟩ := List.cons.inj hdocs
    refine ⟨by decide +kernel, ?_⟩
    intro a' events htrans symbol ref side price size priority hmem
    have hdir : directorySymbol (some listAapl) = some "AAPL" := by decide +kernel
    rw [translate_directory hdir htrans] at hmem
    cases List.mem_singleton.mp hmem
  · obtain ⟨rfl, htail⟩ := List.cons.inj hdocs
    obtain ⟨rfl, -⟩ := List.cons.inj htail
    refine ⟨by decide +kernel, ?_⟩
    intro a' events htrans symbol ref side price size priority hmem
    have hfacts : ((receive [some listAapl]).bind (fun c =>
        (c.adapter.translate (some (addBid 1 10))).map (fun x => x.2.filterMap addition))) =
          some [("AAPL", 1, .bid, .fin 100, 10)] ∧
        (receive [some listAapl]).map (fun c => (c.adapter.orders 1,
          c.obManager.acceptsAdd "AAPL" .bid (.fin 100) 10)) = some (none, true) := by
      decide +kernel
    rw [hc, Option.bind_some, htrans, Option.map_some, Option.map_some] at hfacts
    obtain ⟨hadded, hstate⟩ := hfacts
    have hadd : (symbol, ref, side, price, size) ∈ events.filterMap addition :=
      List.mem_filterMap.mpr ⟨_, hmem, rfl⟩
    rw [Option.some.inj hadded, List.mem_singleton] at hadd
    obtain ⟨rfl, rfl, rfl, rfl, rfl⟩ : symbol = "AAPL" ∧ ref = 1 ∧ side = .bid ∧
        price = .fin 100 ∧ size = 10 := by simpa using hadd
    obtain ⟨hnone, haccept⟩ := Prod.mk.inj (Option.some.inj hstate)
    exact ⟨by decide, .inl hnone, haccept, some listAapl, List.mem_singleton_self _,
      by decide +kernel⟩
  · obtain ⟨-, htail⟩ := List.cons.inj hdocs
    obtain ⟨-, htail⟩ := List.cons.inj htail
    simp at htail

theorem isOrderCancel_orderCancel (orderRef shares : UInt64) :
    IsOrderCancel (orderCancel orderRef shares) orderRef shares := by
  have htype : cString "order_cancel" = "order_cancel" := by decide +kernel
  refine ⟨?_, ?_, ?_⟩
  · exact congrArg some htype
  · exact Json.getUint64_uint (D := ExactDouble) orderRef
  · exact Json.getUint64_uint (D := ExactDouble) shares

theorem adapter_and_books_agree_listedBid :
    ∃ c, receive listedBid = some c ∧ SameOrders c ∧
      ∃ c', c.handleMessage (some (orderCancel 1 4)) = some c' ∧ SameOrders c' ∧
        Cancelled c c' 1 4 ⟨"AAPL", 10, .bid, .fin 100⟩ := by
  have hsome : (receive listedBid).isSome := by decide +kernel
  obtain ⟨c, hc⟩ := Option.isSome_iff_exists.mp hsome
  have htracked : (receive listedBid).map (fun c => c.adapter.orders 1) =
      some (some ⟨"AAPL", 10, .bid, .fin 100⟩) := by decide +kernel
  rw [hc, Option.map_some] at htracked
  obtain ⟨hsame, -, hcancel⟩ := adapter_and_books_agree listedBid c hc admissibleRun_listedBid
  exact ⟨c, hc, hsame, hcancel _ 1 4 _ (isOrderCancel_orderCancel 1 4) (Option.some.inj htracked)⟩

end WsFeedClient
end GmaEngine
