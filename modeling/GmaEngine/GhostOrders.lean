import GmaEngine.ItchCoupling

/-!
# Ghost orders

An order that rests in a book but that the adapter does not track under its reference and symbol
can never be removed by a later message. The adapter overwrites its entry when a reference comes
again, while a book resolves repeats of its own symbol only, and gives an id of its own to an
order with the reference 0.
-/

namespace GmaEngine
namespace WsFeedClient
variable {D : Type} [Double D]
open OrderBook OrderBookManager ItchAdapter KeyedQueues

/-- An `order_delete` message. -/
structure IsOrderDelete (doc : Json D) (orderRef : UInt64) : Prop where
  type : (doc.member "type").bind Json.getString = some "order_delete"
  orderRef : (doc.member "orderRef").bind Json.getUint64 = some orderRef

/-- The adapter tracks the key for the symbol. -/
def Tracks (a : ItchAdapter D) (symbol : String) (k : OrderKey) : Prop :=
  ∃ ref os, k = makeKey ref {} false ∧ a.orders ref = some os ∧ os.symbol = symbol

/-- Every order that rests is tracked under its reference with the symbol of its book, an
`order_delete` of the reference removes it, and no reference rests in two books. -/
structure NoGhosts (c : WsFeedClient D) : Prop where
  tracked : ∀ symbol side price, ∀ o ∈ (c.obManager.book symbol).queue side price,
    Tracks c.adapter symbol o.key
  removable : ∀ symbol side price, ∀ o ∈ (c.obManager.book symbol).queue side price,
    ∀ doc, IsOrderDelete doc o.id → ∃ c', c.handleMessage (some doc) = some c' ∧
      ∀ side' price', ∀ o' ∈ (c'.obManager.book symbol).queue side' price', o'.key ≠ o.key
  once : ∀ symbol symbol' side side' price price',
    ∀ o ∈ (c.obManager.book symbol).queue side price,
    ∀ o' ∈ (c.obManager.book symbol').queue side' price', o.id = o'.id → symbol = symbol'

/-- An added order has a nonzero reference, or the manager refuses it, and its reference rests in
the book of no other symbol. -/
def SafeAdd (m : OrderBookManager D) (symbol : String) (ref : UInt64) (side : Side) (price : D)
    (size : UInt64) : Prop :=
  (ref = 0 → m.acceptsAdd symbol side price size = false) ∧
    ∀ other, other ≠ symbol → ∀ side' price', ∀ o ∈ (m.book other).queue side' price',
      o.key ≠ makeKey ref {} false

/-- What a message adds is safe in the state that it finds. -/
def SafeMessage (c : WsFeedClient D) (doc : Option (Json D)) : Prop :=
  ∀ a' events, c.adapter.translate doc = some (a', events) →
    ∀ symbol ref side price size priority,
      FeedEvent.obAdd symbol ref side price size priority ∈ events →
        SafeAdd c.obManager symbol ref side price size

/-- The invariant behind `NoGhosts`, on the keys of the books. -/
structure Tracked (c : WsFeedClient D) : Prop where
  wf : ∀ s, (c.obManager.book s).WF
  unsequenced : Unsequenced c.obManager
  keys : ∀ symbol, ∀ k ∈ (c.obManager.book symbol).byId, Tracks c.adapter symbol k

section
variable {a a' : ItchAdapter D} {m m' : OrderBookManager D} {ref : UInt64} {os : OrderState D}

theorem safeAdd_iff (hwf : ∀ s, (m.book s).WF) {symbol : String} {side : Side} {price : D}
    {size : UInt64} : SafeAdd m symbol ref side price size ↔
      (ref = 0 → m.acceptsAdd symbol side price size = false) ∧
        ∀ other, other ≠ symbol → makeKey ref {} false ∉ (m.book other).byId := by
  refine and_congr_right (fun _ => forall_congr' (fun other => imp_congr_right (fun _ => ?_)))
  rw [mem_byId_iff (hwf other)]
  constructor
  · rintro h ⟨side', price', o, ho, hk⟩
    exact h side' price' o ho hk
  · intro h side' price' o ho hk
    exact h ⟨side', price', o, ho, hk⟩

omit [Double D] in
/-- Events that bring no key, while the adapter tracks the same references for the same symbols. -/
theorem Tracked.shrink (h : Tracked ⟨a, m⟩) (hwf : ∀ s, (m'.book s).WF)
    (hfeed : m'.feed = m.feed) (hkeys : ∀ symbol, BringsNone symbol m m')
    (horders : ∀ symbol k, Tracks a symbol k → Tracks a' symbol k) : Tracked ⟨a', m'⟩ := by
  refine ⟨hwf, ?_, fun symbol k hk => horders symbol k (h.keys symbol k (hkeys symbol k hk))⟩
  intro s
  change m'.feed s = none
  rw [hfeed]
  exact h.unsequenced s

omit [Double D] in
theorem tracks_setOrder_of_symbol (hos : a.orders ref = some os) {os' : OrderState D}
    (hsym : os'.symbol = os.symbol) {symbol : String} {k : OrderKey} (h : Tracks a symbol k) :
    Tracks (a.setOrder ref os') symbol k := by
  obtain ⟨ref', os₁, rfl, hos₁, rfl⟩ := h
  by_cases href : ref' = ref
  · subst href
    rw [hos] at hos₁
    cases hos₁
    exact ⟨ref', os', rfl, Function.update_self _ _ _, hsym⟩
  · exact ⟨ref', os₁, rfl, (Function.update_of_ne href _ _).trans hos₁, rfl⟩

theorem Tracked.remove (h : Tracked ⟨a, m⟩) (hos : a.orders ref = some os) :
    Tracked ⟨a.eraseOrder ref, dispatchEvent m (.obDelete os.symbol ref)⟩ := by
  have hset : SameSettings m (dispatchEvent m (.obDelete os.symbol ref)) :=
    sameSettings_onDeleteKey _ _ _
  refine ⟨wf_dispatchEvent h.wf _, ?_, ?_⟩
  · intro s
    rw [hset.feed]
    exact h.unsequenced s
  · intro symbol k hk
    change k ∈ ((m.onDelete os.symbol ref {} false).mgr.book symbol).byId at hk
    rw [book_onDelete h.unsequenced] at hk
    have hold : k ∈ (m.book symbol).byId ∧ (symbol = os.symbol → k ≠ makeKey ref {} false) := by
      split_ifs at hk with hs
      · subst hs
        obtain ⟨hne, hk⟩ := (mem_byId_deleteImpl (h.wf _)).mp hk
        exact ⟨hk, fun _ => hne⟩
      · exact ⟨hk, fun heq => absurd heq hs⟩
    obtain ⟨ref', os', rfl, hos', rfl⟩ := h.keys symbol k hold.1
    refine ⟨ref', os', rfl, (Function.update_of_ne ?_ _ _).trans hos', rfl⟩
    rintro rfl
    rw [hos] at hos'
    cases hos'
    exact hold.2 rfl rfl

/-- The keys of the books after an add. -/
theorem mem_byId_obAdd (hwf : ∀ s, (m.book s).WF) {stock symbol : String} {side : Side} {price : D}
    {shares : UInt64} {k : OrderKey} :
    k ∈ ((dispatchEvent m (.obAdd stock ref side price shares 0)).book symbol).byId ↔
      (symbol = stock ∧ m.acceptsAdd stock side price shares = true ∧
        k = ((m.book stock).scopedCopy (m.addedOrder stock ref side price shares 0) {} false).2.key) ∨
      k ∈ (m.book symbol).byId := by
  have hbook := book_onAdd (m := m) (s := stock) ref side price shares 0 {} false symbol
  change k ∈ ((m.onAdd stock ref side price shares 0 {} false).mgr.book symbol).byId ↔ _
  rw [hbook.1, hbook.2]
  split_ifs with hacc
  · obtain ⟨rfl, hacc⟩ := hacc
    rw [mem_byId_applyAddScoped (hwf symbol)]
    simp [hacc]
  · constructor
    · exact Or.inr
    · rintro (⟨hs, haccept, -⟩ | hk)
      · exact absurd ⟨hs, haccept⟩ hacc
      · exact hk

/-- An order is filed under its reference, but for the reference 0. -/
theorem scopedCopy_key (b : OrderBook) (symbol : String) (side : Side) (price : D)
    (shares : UInt64) :
    (b.scopedCopy (m.addedOrder symbol ref side price shares 0) {} false).2.key =
      if ref = 0 then makeKey (b.nextSyntheticId {}).2 {} true else makeKey ref {} false :=
  (scopedCopy_spec _ _ _ rfl).1.trans (by simp [addKey, addedOrder])

/-- An add keeps every key tracked exactly when it is safe. -/
theorem Tracked.add_iff (h : Tracked ⟨a, m⟩) {stock : String} {side : Side} {price : D}
    {shares : UInt64} :
    Tracked ⟨a.setOrder ref ⟨stock, shares, side, price⟩,
        dispatchEvent m (.obAdd stock ref side price shares 0)⟩ ↔
      SafeAdd m stock ref side price shares := by
  have hset : SameSettings m (dispatchEvent m (.obAdd stock ref side price shares 0)) :=
    sameSettings_onAdd _ _ _ _ _ _ _ _ _
  have hself : (a.setOrder ref ⟨stock, shares, side, price⟩).orders ref =
      some ⟨stock, shares, side, price⟩ := Function.update_self _ _ _
  rw [safeAdd_iff h.wf]
  constructor
  · intro h'
    constructor
    · intro hzero
      by_contra haccept
      obtain ⟨ref', os', hk, -⟩ := h'.keys stock _ ((mem_byId_obAdd h.wf).mpr
        (.inl ⟨rfl, by simpa using haccept, rfl⟩))
      rw [scopedCopy_key, if_pos hzero] at hk
      cases hk
    · intro other hother hk
      obtain ⟨ref', os', hkey, hos', hsym⟩ :=
        h'.keys other _ ((mem_byId_obAdd h.wf).mpr (.inr hk))
      obtain rfl := makeKey_injective hkey
      rw [hself] at hos'
      cases hos'
      exact hother hsym.symm
  · rintro ⟨hzero, hother⟩
    refine ⟨wf_dispatchEvent h.wf _, ?_, ?_⟩
    · intro s
      rw [hset.feed]
      exact h.unsequenced s
    · intro symbol k hk
      rcases (mem_byId_obAdd h.wf).mp hk with ⟨rfl, haccept, rfl⟩ | hold
      · have hne : ref ≠ 0 := by
          intro href
          rw [hzero href] at haccept
          cases haccept
        exact ⟨ref, _, by rw [scopedCopy_key, if_neg hne], hself, rfl⟩
      · obtain ⟨ref', os', rfl, hos', rfl⟩ := h.keys symbol k hold
        by_cases href : ref' = ref
        · subst href
          refine ⟨ref', _, rfl, hself, ?_⟩
          by_contra hne
          exact hother os'.symbol (Ne.symm hne) hold
        · exact ⟨ref', os', rfl, (Function.update_of_ne href _ _).trans hos', rfl⟩

end

section
variable {c c' : WsFeedClient D} {doc : Option (Json D)}

theorem bringsNone_dispatchEvent {m : OrderBookManager D} (hwf : ∀ s, (m.book s).WF)
    {evt : FeedEvent D} (hevt : ∀ stock ref side price size priority,
      evt ≠ .obAdd stock ref side price size priority) (symbol : String) :
    BringsNone symbol m (dispatchEvent m evt) := by
  cases evt with
  | tick stock payload => exact .of_book rfl
  | obAdd stock ref side price size priority =>
    exact absurd rfl (hevt stock ref side price size priority)
  | obUpdate stock ref newPrice newSize => exact bringsNone_onUpdateKey (hwf stock) _ _ _
  | obDelete stock ref => exact bringsNone_onDeleteKey (hwf stock) _
  | obTrade stock price size aggr => exact bringsNone_onTrade _ _ _
  | obTickSize stock tick => exact .of_book rfl
  | obReset stock epoch => exact .of_book rfl

/-- A trade takes shares and brings no key. -/
theorem Tracked.trade {a : ItchAdapter D} {m : OrderBookManager D} (h : Tracked ⟨a, m⟩)
    (symbol : String) (price : D) (shares : UInt64) (aggr : Aggressor) :
    Tracked ⟨a, dispatchEvent m (.obTrade symbol price shares aggr)⟩ :=
  h.shrink (wf_dispatchEvent h.wf _) (sameSettings_onTrade _ _ _ _ _).feed
    (bringsNone_dispatchEvent h.wf (fun _ _ _ _ _ _ heq => by cases heq))
    (fun _ _ htracks => htracks)

theorem Tracked.reduce {a : ItchAdapter D} {m : OrderBookManager D} (h : Tracked ⟨a, m⟩)
    {ref : UInt64} {os : OrderState D} (hos : a.orders ref = some os) (remaining : UInt64) :
    Tracked ⟨a.setOrder ref { os with remainingShares := remaining },
      dispatchEvent m (.obUpdate os.symbol ref none (some remaining))⟩ :=
  h.shrink (wf_dispatchEvent h.wf _) (sameSettings_onUpdateKey _ _ _ _ _).feed
    (bringsNone_dispatchEvent h.wf (fun _ _ _ _ _ _ heq => by cases heq))
    (fun symbol k htracks => by
      have hsym : ({ os with remainingShares := remaining } : OrderState D).symbol = os.symbol := rfl
      exact tracks_setOrder_of_symbol hos hsym htracks)

/-- The delete of a replaced order changes no other book, and no setting. -/
theorem safeAdd_obDelete {m : OrderBookManager D} (h : Unsequenced m) {stock : String}
    {origRef newRef : UInt64} {side : Side} {price : D} {shares : UInt64} :
    SafeAdd (dispatchEvent m (.obDelete stock origRef)) stock newRef side price shares ↔
      SafeAdd m stock newRef side price shares := by
  have hset : SameSettings m (dispatchEvent m (.obDelete stock origRef)) :=
    sameSettings_onDeleteKey _ _ _
  have hbook : ∀ other, other ≠ stock →
      (dispatchEvent m (.obDelete stock origRef)).book other = m.book other :=
    fun other hother => (book_onDelete h origRef other).trans (if_neg hother)
  unfold SafeAdd
  rw [hset.acceptsAdd]
  refine and_congr_right (fun _ => forall_congr' (fun other => ?_))
  constructor
  · intro hall hother
    rw [← hbook other hother]
    exact hall hother
  · intro hall hother
    rw [hbook other hother]
    exact hall hother

/-- The step lemma: tracking survives a message exactly when what it adds is safe. -/
theorem Tracked.step_iff (h : Tracked c) (hmsg : c.handleMessage doc = some c') :
    Tracked c' ↔ SafeMessage c doc := by
  obtain ⟨events, htrans, hshape, hmgr⟩ := handleMessage_cases hmsg
  obtain ⟨adapter, mgr⟩ := c'
  dsimp only at htrans hshape hmgr
  subst hmgr
  have hsafe : SafeMessage c doc ↔ ∀ symbol ref side price size priority,
      FeedEvent.obAdd symbol ref side price size priority ∈ events →
        SafeAdd c.obManager symbol ref side price size := by
    constructor
    · exact fun hall => hall adapter events htrans
    · intro hall a' events' htrans'
      rw [htrans] at htrans'
      cases htrans'
      exact hall
  rw [hsafe]
  cases hshape with
  | ignored => simpa using h
  | directory locate stock =>
    refine iff_of_true (h.shrink h.wf rfl (fun _ => .of_book rfl) ?_) (by simp)
    exact fun _ _ htracks => htracks
  | trade stock price shares aggr htype =>
    exact iff_of_true (h.trade stock price shares aggr) (by simp [makeTradeTickEvent])
  | filled ref shares os aggr hos htype =>
    exact iff_of_true ((h.remove hos).trade os.symbol os.price shares aggr)
      (by simp [makeTradeTickEvent])
  | partlyFilled ref shares os aggr hos htype hlt =>
    exact iff_of_true ((h.reduce hos _).trade os.symbol os.price shares aggr)
      (by simp [makeTradeTickEvent])
  | removed ref os hos => exact iff_of_true (h.remove hos) (by simp)
  | reduced ref shares os hos hlt => exact iff_of_true (h.reduce hos _) (by simp)
  | add stock ref side price shares =>
    refine h.add_iff.trans ?_
    constructor
    · intro hadd symbol ref' side' price' size priority hmem
      cases List.mem_singleton.mp hmem
      exact hadd
    · exact fun hall => hall stock ref side price shares 0 (List.mem_singleton_self _)
  | replaced origRef newRef os price shares hos =>
    refine (h.remove hos).add_iff.trans ((safeAdd_obDelete h.unsequenced).trans ?_)
    constructor
    · intro hadd symbol ref' side' price' size priority hmem
      rcases List.mem_cons.mp hmem with heq | hmem
      · cases heq
      · cases List.mem_singleton.mp hmem
        exact hadd
    · exact fun hall => hall os.symbol newRef os.side price shares 0 (by simp)

omit [Double D] in
theorem tracked_empty : Tracked ({} : WsFeedClient D) :=
  ⟨fun _ => wf_empty, fun _ => rfl, fun _ k hk => absurd hk (AList.notMem_empty k)⟩

theorem translate_orderDelete {a : ItchAdapter D} {doc : Json D} {ref : UInt64}
    (h : IsOrderDelete doc ref) {os : OrderState D} (hos : a.orders ref = some os) :
    a.translate (some doc) = some (a.eraseOrder ref, [.obDelete os.symbol ref]) := by
  obtain ⟨vt, ht, htype⟩ := Option.bind_eq_some_iff.mp h.type
  obtain ⟨vr, hr, href⟩ := Option.bind_eq_some_iff.mp h.orderRef
  have hroute : a.translate (some doc) = a.routeOrderDelete doc := by
    simp [ItchAdapter.translate, Json.has, isObject_of_member ht, ht, htype,
      isString_of_getString htype]
  rw [hroute]
  simp [routeOrderDelete, Json.has, hr, href, isNumber_of_getUint64 href, hos]

theorem Tracked.noGhosts (h : Tracked c) : NoGhosts c := by
  have htracked : ∀ symbol side price, ∀ o ∈ (c.obManager.book symbol).queue side price,
      Tracks c.adapter symbol o.key := fun symbol side price o ho =>
    h.keys symbol o.key ((mem_byId_iff (h.wf symbol)).mpr ⟨side, price, o, ho, rfl⟩)
  refine ⟨htracked, ?_, ?_⟩
  · intro symbol side price o ho doc hdoc
    obtain ⟨ref, os, hkey, hos, rfl⟩ := htracked symbol side price o ho
    obtain rfl : o.id = ref := congrArg OrderKey.id hkey
    refine ⟨_, by rw [handleMessage, translate_orderDelete hdoc hos]; rfl, ?_⟩
    intro side' price' o' ho'
    change o' ∈ ((c.obManager.onDelete os.symbol o.id {} false).mgr.book os.symbol).queue
      side' price' at ho'
    rw [book_onDelete h.unsequenced, if_pos rfl, queue_deleteImpl (h.wf _), mem_removeKey] at ho'
    rw [hkey]
    exact ho'.2
  · intro symbol symbol' side side' price price' o ho o' ho' hid
    obtain ⟨ref, os, hkey, hos, rfl⟩ := htracked symbol side price o ho
    obtain ⟨ref', os', hkey', hos', rfl⟩ := htracked symbol' side' price' o' ho'
    have hrefs : ref = ref' := (congrArg OrderKey.id hkey).symm.trans
      (hid.trans (congrArg OrderKey.id hkey'))
    rw [hrefs, hos'] at hos
    rw [Option.some.inj hos]

theorem NoGhosts.tracked_of (h : NoGhosts c) (hwf : ∀ s, (c.obManager.book s).WF)
    (hfeed : Unsequenced c.obManager) : Tracked c := by
  refine ⟨hwf, hfeed, ?_⟩
  intro symbol k hk
  obtain ⟨side, price, o, ho, rfl⟩ := (mem_byId_iff (hwf symbol)).mp hk
  exact h.tracked symbol side price o ho

theorem feed_dispatchEvent (m : OrderBookManager D) {evt : FeedEvent D}
    (hevt : ∀ symbol epoch, evt ≠ .obReset symbol epoch) : (dispatchEvent m evt).feed = m.feed := by
  cases evt with
  | tick stock payload => rfl
  | obAdd stock ref side price size priority => exact (sameSettings_onAdd _ _ _ _ _ _ _ _ _).feed
  | obUpdate stock ref newPrice newSize => exact (sameSettings_onUpdateKey _ _ _ _ _).feed
  | obDelete stock ref => exact (sameSettings_onDeleteKey _ _ _).feed
  | obTrade stock price size aggr => exact (sameSettings_onTrade _ _ _ _ _).feed
  | obTickSize stock tick => rfl
  | obReset stock epoch => exact absurd rfl (hevt stock epoch)

theorem feed_foldl {events : List (FeedEvent D)} (m : OrderBookManager D)
    (hevents : ∀ evt ∈ events, ∀ symbol epoch, evt ≠ .obReset symbol epoch) :
    (events.foldl dispatchEvent m).feed = m.feed := by
  induction events generalizing m with
  | nil => rfl
  | cons evt events ih =>
    rw [List.foldl_cons, ih _ (fun evt' hevt' => hevents evt' (List.mem_cons_of_mem _ hevt')),
      feed_dispatchEvent m (hevents evt List.mem_cons_self)]

theorem unsequenced_step (h : Unsequenced c.obManager) (hmsg : c.handleMessage doc = some c') :
    Unsequenced c'.obManager := by
  obtain ⟨events, -, hshape, hmgr⟩ := handleMessage_cases hmsg
  generalize c'.adapter = a' at hshape
  intro s
  rw [hmgr, feed_foldl]
  · exact h s
  · cases hshape <;> simp [makeTradeTickEvent]

theorem unsequenced_receive {docs : List (Option (Json D))} (hreach : receive docs = some c) :
    Unsequenced c.obManager := by
  induction docs using List.reverseRecOn generalizing c with
  | nil =>
    cases hreach
    exact fun _ => rfl
  | append_singleton docs doc ih =>
    rw [receive_concat] at hreach
    obtain ⟨c₀, hc₀, hmsg⟩ := Option.bind_eq_some_iff.mp hreach
    exact unsequenced_step (ih hc₀) hmsg

theorem noGhosts_iff_tracked {docs : List (Option (Json D))} (hreach : receive docs = some c) :
    NoGhosts c ↔ Tracked c :=
  ⟨fun h => h.tracked_of (wf_receive hreach) (unsequenced_receive hreach), Tracked.noGhosts⟩

/-- Along a run of ITCH messages there is never a ghost order exactly when every message adds
what is safe in the state that it finds. -/
theorem no_ghost_orders_iff (docs : List (Option (Json D))) :
    (∀ before c, before <+: docs → receive before = some c → NoGhosts c) ↔
      ∀ before doc c c', before ++ [doc] <+: docs → receive before = some c →
        c.handleMessage doc = some c' → SafeMessage c doc := by
  constructor
  · intro h before doc c c' hpre hreach hmsg
    have hreach' : receive (before ++ [doc]) = some c' := by
      rw [receive_concat, hreach, Option.bind_some, hmsg]
    have hbefore := (noGhosts_iff_tracked hreach).mp
      (h before c ((List.prefix_append _ _).trans hpre) hreach)
    exact (hbefore.step_iff hmsg).mp ((noGhosts_iff_tracked hreach').mp (h _ c' hpre hreach'))
  · intro h before c hpre hreach
    rw [noGhosts_iff_tracked hreach]
    induction before using List.reverseRecOn generalizing c with
    | nil =>
      cases hreach
      exact tracked_empty
    | append_singleton before doc ih =>
      have hreach' := hreach
      rw [receive_concat] at hreach'
      obtain ⟨c₀, hc₀, hmsg⟩ := Option.bind_eq_some_iff.mp hreach'
      have hbefore := ih c₀ ((List.prefix_append _ _).trans hpre) hc₀
      exact (hbefore.step_iff hmsg).mpr (h before doc c₀ c hpre hc₀ hmsg)

end

/-- A bid for the same reference in another stock. -/
def addMsft (orderRef shares : UInt64) : Json ExactDouble :=
  .object [("type", .string "add_order"), ("orderRef", .uint orderRef), ("side", .string "B"),
    ("shares", .uint shares), ("stock", .string "MSFT    "), ("price", .string "100.00")]

def sameReference : List (Option (Json ExactDouble)) := [some (addBid 5 10), some (addMsft 5 10)]

/-- The order under the reference 5 rests in both books. -/
theorem ghost_of_sameReference :
    ¬ ∀ (docs : List (Option (Json ExactDouble))) (c : WsFeedClient ExactDouble),
      receive docs = some c → NoGhosts c := by
  intro h
  have hsome : (receive sameReference).isSome := by decide +kernel
  obtain ⟨c, hc⟩ := Option.isSome_iff_exists.mp hsome
  have hrests : (receive sameReference).map (fun c =>
      ((c.obManager.book "AAPL").queue .bid ⟨1000000⟩,
        (c.obManager.book "MSFT").queue .bid ⟨1000000⟩)) =
      some ([{ id := 5, price := ⟨1000000⟩, size := 10 }],
        [{ id := 5, price := ⟨1000000⟩, size := 10 }]) := by decide +kernel
  rw [hc, Option.map_some] at hrests
  obtain ⟨haapl, hmsft⟩ := Prod.mk.inj (Option.some.inj hrests)
  have hsame := (h sameReference c hc).once "AAPL" "MSFT" .bid .bid ⟨1000000⟩ ⟨1000000⟩ _
    (haapl ▸ List.mem_singleton_self _) _ (hmsft ▸ List.mem_singleton_self _) rfl
  exact absurd hsame (by decide)

end WsFeedClient
end GmaEngine
