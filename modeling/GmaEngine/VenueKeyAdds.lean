import GmaEngine.LevelDeltas
import GmaEngine.RestingKeys
import GmaEngine.VenueResolver

/-!
# Adds under a venue key

`onAddWithVenueKey` takes an all-zero key for a rejection. A malformed add answers with that key,
but a stale symbol answers with one that carries the caller's scope: outside scope zero the call
then reports success and files a key under which nothing was added.
-/

namespace GmaEngine

namespace OrderBook

/-- An order with this side, price and size rests under the key. -/
def RestsUnder (b : OrderBook) (k : OrderKey) (side : Side) (price : Price) (size : UInt64) :
    Prop :=
  ∃ o ∈ b.queue side price, o.key = k ∧ o.size = size

instance (b : OrderBook) (k : OrderKey) (side : Side) (price : Price) (size : UInt64) :
    Decidable (b.RestsUnder k side price size) :=
  inferInstanceAs (Decidable (∃ o ∈ b.queue side price, o.key = k ∧ o.size = size))

/-- An add without an id moves the counter of its scope on by one. -/
theorem nextId_applyAddScoped (b : OrderBook) (o : Order) (scope : FeedScope) (idMissing : Bool)
    (hid : idMissing ∨ o.id = 0) :
    ((b.applyAddScoped o scope idMissing).1.synthCounters.lookup (scopeKey scope)).getD 1 =
      (b.synthCounters.lookup (scopeKey scope)).getD 1 + 1 := by
  have hrest : (b.applyAddScoped o scope idMissing).1.synthCounters =
      (b.scopedCopy o scope idMissing).1.synthCounters :=
    rest_synthCounters (addImpl_rest _ _)
  rw [hrest]
  simp [scopedCopy, hid, nextSyntheticId]

theorem addKey_scope (b : OrderBook) (id : UInt64) (scope : FeedScope) (idMissing : Bool) :
    (b.addKey id scope idMissing).feedId = scope.feedId ∧
      (b.addKey id scope idMissing).epoch = scope.epoch := by
  unfold addKey
  split_ifs <;> exact ⟨rfl, rfl⟩

end OrderBook

theorem FeedScope.eq_zero_iff (scope : FeedScope) :
    scope = {} ↔ scope.feedId = 0 ∧ scope.epoch = 0 := by
  cases scope
  simp

/-- The arguments of `onAddWithVenueKey`. -/
structure VenueAdd (D : Type) where
  symbol : String
  venueKey : String
  id : UInt64
  side : Side
  price : D
  size : UInt64
  priority : UInt64
  scope : FeedScope
  idMissing : Bool

namespace OrderBookManager
variable {D : Type} [Double D]

def addVenue (m : OrderBookManager D) (a : VenueAdd D) : Outcome D Bool :=
  m.onAddWithVenueKey a.symbol a.venueKey a.id a.side a.price a.size a.priority a.scope a.idMissing

/-- The order asked for rests in the book of `m'` under the key that its resolver gives; its price
is quantised by `m`. -/
def RestsByVenueKey (m : OrderBookManager D) (a : VenueAdd D) (m' : OrderBookManager D) : Prop :=
  ∃ k, m'.resolverGet a.symbol a.venueKey = some k ∧
    (m'.book a.symbol).RestsUnder k a.side (m.toTicks a.symbol a.price) a.size

structure AllOrNothing (m : OrderBookManager D) (a : VenueAdd D) : Prop where
  reports : (m.addVenue a).ret = true ↔ m.RestsByVenueKey a (m.addVenue a).mgr
  untouched : (m.addVenue a).ret = false →
    (m.addVenue a).mgr.books = m.books ∧ (m.addVenue a).mgr.resolver = m.resolver

/-- When the answer is recognised for what it is. An accepted add is given a key that is not all
zero; a rejected one is answered by the all-zero key, and the order does not rest already. The
last case is a rejection taken for an accepted add. -/
def Recognised (m : OrderBookManager D) (a : VenueAdd D) : Prop :=
  if m.acceptsAdd a.symbol a.side a.price a.size then
    ((m.book a.symbol).addKey a.id a.scope a.idMissing).id ≠ 0 ∨ a.scope ≠ {}
  else if m.gate a.symbol = false ∨ a.scope = {} then ¬ m.RestsByVenueKey a m
  else (m.book a.symbol).RestsUnder ⟨0, a.scope.feedId, a.scope.epoch, true⟩ a.side
    (m.toTicks a.symbol a.price) a.size

section
variable {m : OrderBookManager D} {a : VenueAdd D}

theorem allOrNothing_of_rejected (hcall : m.addVenue a = ⟨false, m, []⟩) :
    m.AllOrNothing a ↔ ¬ m.RestsByVenueKey a m := by
  constructor
  · intro h hrests
    have hret := h.reports
    rw [hcall] at hret
    cases hret.mpr hrests
  · intro h
    refine ⟨?_, ?_⟩
    · rw [hcall]
      exact iff_of_false Bool.false_ne_true h
    · intro _
      rw [hcall]
      exact ⟨rfl, rfl⟩

/-- A key is filed for an answer that is not all zero. -/
theorem addVenue_of_nonzero {out : Outcome D OrderKey}
    (hout : m.onAddGetKey a.symbol a.id a.side a.price a.size a.priority a.scope a.idMissing = out)
    (hkey : ¬ (out.ret.id = 0 ∧ out.ret.feedId = 0 ∧ out.ret.epoch = 0)) :
    m.addVenue a = ⟨true, out.mgr.resolverPut a.symbol a.venueKey out.ret, out.deltas⟩ := by
  unfold addVenue onAddWithVenueKey
  rw [hout]
  exact if_neg hkey

theorem addVenue_of_zero {out : Outcome D OrderKey}
    (hout : m.onAddGetKey a.symbol a.id a.side a.price a.size a.priority a.scope a.idMissing = out)
    (hkey : out.ret.id = 0 ∧ out.ret.feedId = 0 ∧ out.ret.epoch = 0) :
    m.addVenue a = ⟨false, out.mgr, out.deltas⟩ := by
  unfold addVenue onAddWithVenueKey
  rw [hout]
  exact if_pos hkey

theorem onAddGetKey_stale (hgate : m.gate a.symbol = true) :
    m.onAddGetKey a.symbol a.id a.side a.price a.size a.priority a.scope a.idMissing =
      ⟨⟨0, a.scope.feedId, a.scope.epoch, true⟩, m, []⟩ := if_pos hgate

theorem onAddGetKey_malformed (hgate : m.gate a.symbol = false)
    (hacc : m.acceptsAdd a.symbol a.side a.price a.size = false) :
    m.onAddGetKey a.symbol a.id a.side a.price a.size a.priority a.scope a.idMissing =
      ⟨{}, m, []⟩ := by
  unfold onAddGetKey
  unfold acceptsAdd at hacc
  rw [hgate] at hacc ⊢
  cases hside : validSide a.side <;> cases hprice : m.validatePrice a.symbol a.price <;>
    cases hsize : validateSize a.size <;> simp_all

theorem onAddGetKey_accepted (hacc : m.acceptsAdd a.symbol a.side a.price a.size = true) :
    (m.onAddGetKey a.symbol a.id a.side a.price a.size a.priority a.scope a.idMissing).ret =
      (m.book a.symbol).addKey a.id a.scope a.idMissing := by
  have hkey := (OrderBook.scopedCopy_spec (b := m.book a.symbol)
    (m.addedOrder a.symbol a.id a.side a.price a.size a.priority) a.scope a.idMissing rfl).1
  unfold acceptsAdd at hacc
  simp only [Bool.and_eq_true, Bool.not_eq_true'] at hacc
  obtain ⟨⟨⟨hgate, hside⟩, hprice⟩, hsize⟩ := hacc
  simp only [onAddGetKey, hgate, hside, hprice, hsize]
  exact hkey

/-- The order of an accepted add rests under its key. -/
theorem restsUnder_accepted (hwf : (m.book a.symbol).WF)
    (hacc : m.acceptsAdd a.symbol a.side a.price a.size = true) :
    ((m.onAddGetKey a.symbol a.id a.side a.price a.size a.priority a.scope
      a.idMissing).mgr.book a.symbol).RestsUnder
        ((m.book a.symbol).addKey a.id a.scope a.idMissing) a.side
        (m.toTicks a.symbol a.price) a.size := by
  obtain ⟨hkey, hside, hprice, hsize⟩ := OrderBook.scopedCopy_spec (b := m.book a.symbol)
    (m.addedOrder a.symbol a.id a.side a.price a.size a.priority) a.scope a.idMissing rfl
  have hbook := (book_onAdd (m := m) (s := a.symbol) a.id a.side a.price a.size a.priority a.scope
    a.idMissing a.symbol).2
  rw [if_pos ⟨rfl, hacc⟩] at hbook
  refine ⟨_, ?_, hkey, hsize⟩
  rw [hbook, OrderBook.queue_applyAddScoped _ _ _ hwf, if_pos ⟨hside.symm, hprice.symm⟩]
  simp

/-- A synthetic id of zero: the counter of the scope has wrapped, and the add moves it on. -/
theorem book_accepted_ne (hacc : m.acceptsAdd a.symbol a.side a.price a.size = true)
    (hkey : ((m.book a.symbol).addKey a.id a.scope a.idMissing).id = 0) :
    (m.onAddGetKey a.symbol a.id a.side a.price a.size a.priority a.scope
      a.idMissing).mgr.book a.symbol ≠ m.book a.symbol := by
  have hbook := (book_onAdd (m := m) (s := a.symbol) a.id a.side a.price a.size a.priority a.scope
    a.idMissing a.symbol).2
  rw [if_pos ⟨rfl, hacc⟩] at hbook
  rw [hbook]
  generalize m.book a.symbol = b at hkey ⊢
  intro hsame
  by_cases hid : a.idMissing ∨ a.id = 0
  · have hnext : (b.synthCounters.lookup (OrderBook.scopeKey a.scope)).getD 1 = 0 := by
      simpa [OrderBook.addKey, hid, makeKey, OrderBook.nextSyntheticId] using hkey
    have hmoved := OrderBook.nextId_applyAddScoped b
      (m.addedOrder a.symbol a.id a.side a.price a.size a.priority) a.scope a.idMissing hid
    rw [hsame, hnext] at hmoved
    cases hmoved
  · have hzero : a.id = 0 := by simpa [OrderBook.addKey, hid, makeKey] using hkey
    exact hid (.inr hzero)

theorem allOrNothing_accepted_iff (hwf : (m.book a.symbol).WF) (hres : m.ResolverWF)
    (hacc : m.acceptsAdd a.symbol a.side a.price a.size = true) : m.AllOrNothing a ↔
      ((m.book a.symbol).addKey a.id a.scope a.idMissing).id ≠ 0 ∨ a.scope ≠ {} := by
  have hkey := onAddGetKey_accepted hacc
  obtain ⟨hfeed, hepoch⟩ := (m.book a.symbol).addKey_scope a.id a.scope a.idMissing
  by_cases hzero : ((m.book a.symbol).addKey a.id a.scope a.idMissing).id = 0 ∧ a.scope = {}
  · -- taken for a rejection, although the order is in the book
    refine iff_of_false ?_ (by rintro (h | h); exacts [h hzero.1, h hzero.2])
    intro h
    have hcall := addVenue_of_zero (m := m) (a := a) rfl (by
      rw [hkey, hfeed, hepoch]
      exact ⟨hzero.1, (FeedScope.eq_zero_iff _).mp hzero.2⟩)
    have hsame := (h.untouched (by rw [hcall])).1
    rw [hcall] at hsame
    refine book_accepted_ne hacc hzero.1 ?_
    exact congrArg (fun books => (books a.symbol).getD {}) hsame
  · have hnonzero : ((m.book a.symbol).addKey a.id a.scope a.idMissing).id ≠ 0 ∨ a.scope ≠ {} := by
      by_cases hid : ((m.book a.symbol).addKey a.id a.scope a.idMissing).id = 0
      · exact .inr (fun hscope => hzero ⟨hid, hscope⟩)
      · exact .inl hid
    refine iff_of_true ?_ hnonzero
    have hcall := addVenue_of_nonzero (m := m) (a := a) rfl (by
      rw [hkey, hfeed, hepoch]
      exact fun h => hzero ⟨h.1, (FeedScope.eq_zero_iff _).mpr h.2⟩)
    have hrests := restsUnder_accepted hwf hacc
    have hres' : ((m.onAddGetKey a.symbol a.id a.side a.price a.size a.priority a.scope
        a.idMissing).mgr).ResolverWF := by
      intro s l hl
      rw [resolver_onAddGetKey] at hl
      exact hres s l hl
    refine ⟨?_, ?_⟩
    · rw [hcall]
      refine iff_of_true rfl ⟨_, resolverGet_resolverPut hres' _ _ _, ?_⟩
      rw [hkey]
      exact hrests
    · intro hret
      rw [hcall] at hret
      cases hret

theorem allOrNothing_stale_iff (hres : m.ResolverWF) (hgate : m.gate a.symbol = true)
    (hscope : a.scope ≠ {}) : m.AllOrNothing a ↔
      (m.book a.symbol).RestsUnder ⟨0, a.scope.feedId, a.scope.epoch, true⟩ a.side
        (m.toTicks a.symbol a.price) a.size := by
  have hcall := addVenue_of_nonzero (onAddGetKey_stale hgate)
    (fun h => hscope ((FeedScope.eq_zero_iff _).mpr h.2))
  have hget := resolverGet_resolverPut hres a.symbol a.venueKey
    ⟨0, a.scope.feedId, a.scope.epoch, true⟩
  constructor
  · intro h
    have hreports := h.reports
    rw [hcall] at hreports
    obtain ⟨k, hk, hrests⟩ := hreports.mp rfl
    dsimp only at hk
    rw [hget] at hk
    cases hk
    exact hrests
  · intro hrests
    refine ⟨?_, ?_⟩
    · rw [hcall]
      exact iff_of_true rfl ⟨_, hget, hrests⟩
    · intro hret
      rw [hcall] at hret
      cases hret

theorem allOrNothing_iff (hwf : (m.book a.symbol).WF) (hres : m.ResolverWF) :
    m.AllOrNothing a ↔ m.Recognised a := by
  unfold Recognised
  cases hacc : m.acceptsAdd a.symbol a.side a.price a.size with
  | true =>
    rw [if_pos rfl]
    exact allOrNothing_accepted_iff hwf hres hacc
  | false =>
    rw [if_neg Bool.false_ne_true]
    cases hgate : m.gate a.symbol with
    | false =>
      rw [if_pos (.inl rfl)]
      exact allOrNothing_of_rejected
        (addVenue_of_zero (onAddGetKey_malformed hgate hacc) ⟨rfl, rfl, rfl⟩)
    | true =>
      by_cases hscope : a.scope = {}
      · rw [if_pos (.inr hscope)]
        exact allOrNothing_of_rejected (addVenue_of_zero (onAddGetKey_stale hgate)
          ⟨rfl, (FeedScope.eq_zero_iff _).mp hscope⟩)
      · rw [if_neg (by simp [hscope])]
        exact allOrNothing_stale_iff hres hgate hscope

end

/-- A venue-key add on a reachable manager is all or nothing exactly when its answer is
recognised. While the resolver gives a key for the venue key, updates and deletes by venue key are
those of that key; a delete takes the order out wherever it rests. -/
theorem venue_adds_all_or_nothing_iff (ops : List (ManagerOp D)) (a : VenueAdd D) :
    ((run ops).1.AllOrNothing a ↔ (run ops).1.Recognised a) ∧
    ∀ k, (run ops).1.resolverGet a.symbol a.venueKey = some k →
      (run ops).1.gate a.symbol = false →
        (∀ newPrice newSize, (run ops).1.onUpdateByVenueKey a.symbol a.venueKey newPrice newSize =
          (run ops).1.onUpdateKey a.symbol k newPrice newSize) ∧
        (run ops).1.onDeleteByVenueKey a.symbol a.venueKey = (run ops).1.onDeleteKey a.symbol k ∧
        ∀ s p, (((run ops).1.onDeleteByVenueKey a.symbol a.venueKey).mgr.book a.symbol).queue s p =
          KeyedQueues.removeKey Order.key k (((run ops).1.book a.symbol).queue s p) := by
  refine ⟨allOrNothing_iff (run_wf ops a.symbol) (run_resolverWF ops), ?_⟩
  intro k hk hgate
  have hdelete : (run ops).1.onDeleteByVenueKey a.symbol a.venueKey =
      (run ops).1.onDeleteKey a.symbol k := by
    simp [onDeleteByVenueKey, hgate, hk]
  refine ⟨?_, hdelete, ?_⟩
  · intro newPrice newSize
    simp [onUpdateByVenueKey, hgate, hk]
  · intro s p
    rw [hdelete]
    simp only [onDeleteKey, hgate, Bool.false_eq_true, if_false, book_mutateWithDelta, if_true]
    exact OrderBook.queue_deleteImpl (run_wf ops a.symbol) k s p

/-- An add in feed seven, epoch one, while the symbol is stale: it reports success, and nothing
rests under the key that it files. -/
theorem stale_venue_add_reports_success :
    (((run [.reset "AAPL" 1]).1 : OrderBookManager ExactDouble).addVenue
      ⟨"AAPL", "V1", 0, .bid, .fin 100, 10, 0, ⟨7, 1⟩, true⟩).ret = true ∧
    ¬ ((run [.reset "AAPL" 1]).1 : OrderBookManager ExactDouble).AllOrNothing
      ⟨"AAPL", "V1", 0, .bid, .fin 100, 10, 0, ⟨7, 1⟩, true⟩ := by
  have hret : (((run [.reset "AAPL" 1]).1 : OrderBookManager ExactDouble).addVenue
      ⟨"AAPL", "V1", 0, .bid, .fin 100, 10, 0, ⟨7, 1⟩, true⟩).ret = true := by decide +kernel
  refine ⟨hret, ?_⟩
  intro h
  obtain ⟨k, -, o, ho, -⟩ := h.reports.mp hret
  have hempty : ((((run [.reset "AAPL" 1]).1 : OrderBookManager ExactDouble).addVenue
      ⟨"AAPL", "V1", 0, .bid, .fin 100, 10, 0, ⟨7, 1⟩, true⟩).mgr.book "AAPL").queue .bid
        (((run [.reset "AAPL" 1]).1 : OrderBookManager ExactDouble).toTicks "AAPL" (.fin 100)) =
          [] := by
    decide +kernel
  rw [hempty] at ho
  cases ho

end OrderBookManager
end GmaEngine
