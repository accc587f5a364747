import GmaEngine.ItchExecution
import GmaEngine.RestingKeys

/-!
# What a message becomes

Every message that the ITCH adapter translates has one of a few shapes: the change of the
adapter's tables together with the events it emits.
-/

namespace GmaEngine
namespace ItchAdapter
variable {D : Type}

/-- The tick size of every listed stock. -/
def kTick [Double D] : D := Double.ofRat (1 / 100)

def messageType (doc : Option (Json D)) : Option String :=
  doc.bind (fun d => (d.member "type").bind Json.getString)

/-- The symbol that a `stock_directory` message lists. -/
def directorySymbol (doc : Option (Json D)) : Option String :=
  if messageType doc = some "stock_directory" then
    doc.bind (fun d =>
      if d.has "stockLocate" Json.isNumber && d.has "stock" Json.isString then
        ((d.member "stock").bind Json.getString).map trim
      else none)
  else none

/-- One constructor for each shape of a translation. -/
inductive Translated [Double D] (a : ItchAdapter D) (doc : Option (Json D)) :
    ItchAdapter D → List (FeedEvent D) → Prop
  | ignored : Translated a doc a []
  | directory (locate : ℤ) (stock : String) : Translated a doc
      { a with locateToSymbol := Function.update a.locateToSymbol locate (some stock) }
      [.obTickSize stock kTick]
  | trade (stock : String) (price : D) (shares : UInt64) (aggr : Aggressor)
      (htype : messageType doc = some "trade") :
      Translated a doc a [.obTrade stock price shares aggr, makeTradeTickEvent stock price shares]
  | add (stock : String) (orderRef : UInt64) (side : Side) (price : D) (shares : UInt64) :
      Translated a doc (a.setOrder orderRef ⟨stock, shares, side, price⟩)
        [.obAdd stock orderRef side price shares 0]
  | filled (orderRef shares : UInt64) (os : OrderState D) (aggr : Aggressor)
      (hos : a.orders orderRef = some os) (htype : messageType doc = some "order_executed") :
      Translated a doc (a.eraseOrder orderRef) [.obDelete os.symbol orderRef,
        .obTrade os.symbol os.price shares aggr, makeTradeTickEvent os.symbol os.price shares]
  | partlyFilled (orderRef shares : UInt64) (os : OrderState D) (aggr : Aggressor)
      (hos : a.orders orderRef = some os) (htype : messageType doc = some "order_executed")
      (hlt : shares < os.remainingShares) : Translated a doc
        (a.setOrder orderRef { os with remainingShares := os.remainingShares - shares })
        [.obUpdate os.symbol orderRef none (some (os.remainingShares - shares)),
          .obTrade os.symbol os.price shares aggr, makeTradeTickEvent os.symbol os.price shares]
  | removed (orderRef : UInt64) (os : OrderState D) (hos : a.orders orderRef = some os) :
      Translated a doc (a.eraseOrder orderRef) [.obDelete os.symbol orderRef]
  | reduced (orderRef shares : UInt64) (os : OrderState D) (hos : a.orders orderRef = some os)
      (hlt : shares < os.remainingShares) : Translated a doc
        (a.setOrder orderRef { os with remainingShares := os.remainingShares - shares })
        [.obUpdate os.symbol orderRef none (some (os.remainingShares - shares))]
  | replaced (origRef newRef : UInt64) (os : OrderState D) (price : D) (shares : UInt64)
      (hos : a.orders origRef = some os) : Translated a doc
        ((a.eraseOrder origRef).setOrder newRef ⟨os.symbol, shares, os.side, price⟩)
        [.obDelete os.symbol origRef, .obAdd os.symbol newRef os.side price shares 0]

section
variable [Double D] {a a' : ItchAdapter D} {doc : Json D} {events : List (FeedEvent D)}

theorem translated_routeOrderDelete (h : a.routeOrderDelete doc = some (a', events)) :
    Translated a (some doc) a' events := by
  unfold routeOrderDelete at h
  split_ifs at h
  · cases h
    exact .ignored
  · simp only [bind, Option.bind_eq_some_iff] at h
    obtain ⟨_, -, orderRef, -, h⟩ := h
    cases hos : a.orders orderRef with
    | none =>
      rw [hos] at h
      cases h
      exact .ignored
    | some os =>
      rw [hos] at h
      cases h
      exact .removed orderRef os hos

theorem translated_routeOrderCancel (h : a.routeOrderCancel doc = some (a', events)) :
    Translated a (some doc) a' events := by
  unfold routeOrderCancel at h
  split_ifs at h
  · cases h
    exact .ignored
  · simp only [bind, Option.bind_eq_some_iff] at h
    obtain ⟨_, -, orderRef, -, _, -, shares, -, h⟩ := h
    cases hos : a.orders orderRef with
    | none =>
      rw [hos] at h
      cases h
      exact .ignored
    | some os =>
      rw [hos] at h
      dsimp only at h
      split_ifs at h with hle
      · cases h
        exact .removed orderRef os hos
      · cases h
        exact .reduced orderRef shares os hos (UInt64.not_le.mp hle)

theorem translated_routeOrderExecuted (htype : messageType (some doc) = some "order_executed")
    (h : a.routeOrderExecuted doc = some (a', events)) : Translated a (some doc) a' events := by
  unfold routeOrderExecuted at h
  split_ifs at h
  · cases h
    exact .ignored
  · simp only [bind, Option.bind_eq_some_iff] at h
    obtain ⟨_, -, orderRef, -, _, -, shares, -, h⟩ := h
    cases hos : a.orders orderRef with
    | none =>
      rw [hos] at h
      cases h
      exact .ignored
    | some os =>
      rw [hos] at h
      dsimp only at h
      split_ifs at h with hle
      all_goals cases h
      all_goals first
        | exact .filled orderRef shares os _ hos htype
        | exact .partlyFilled orderRef shares os _ hos htype (UInt64.not_le.mp hle)

theorem translated_routeOrderReplace (h : a.routeOrderReplace doc = some (a', events)) :
    Translated a (some doc) a' events := by
  unfold routeOrderReplace at h
  split_ifs at h
  · cases h
    exact .ignored
  · simp only [bind, Option.bind_eq_some_iff] at h
    obtain ⟨_, -, origRef, -, _, -, newRef, -, _, -, shares, -, price, -, h⟩ := h
    cases hos : a.orders origRef with
    | none =>
      rw [hos] at h
      cases h
      exact .ignored
    | some os =>
      rw [hos] at h
      cases h
      exact .replaced origRef newRef os _ shares hos

theorem translated_routeAddOrder (h : a.routeAddOrder doc = some (a', events)) :
    Translated a (some doc) a' events := by
  unfold routeAddOrder at h
  split_ifs at h
  · cases h
    exact .ignored
  · simp only [bind, Option.bind_eq_some_iff] at h
    obtain ⟨resolved, -, h⟩ := h
    cases resolved with
    | none =>
      cases h
      exact .ignored
    | some stock =>
      simp only [Option.bind_eq_some_iff] at h
      obtain ⟨_, -, orderRef, -, _, -, shares, -, price, -, _, -, sideStr, -, h⟩ := h
      cases h
      exact .add stock orderRef _ _ shares

theorem translated_routeTrade (htype : messageType (some doc) = some "trade")
    (h : a.routeTrade doc = some (a', events)) : Translated a (some doc) a' events := by
  unfold routeTrade at h
  by_cases hfields : (!doc.has "price" (fun _ => true) || !doc.has "shares" Json.isNumber) = true
  · rw [if_pos hfields] at h
    cases h
    exact .ignored
  · rw [if_neg hfields] at h
    simp only [bind, Option.bind_eq_some_iff] at h
    obtain ⟨resolved, -, h⟩ := h
    cases resolved with
    | none =>
      cases h
      exact .ignored
    | some stock =>
      simp only [Option.bind_eq_some_iff] at h
      obtain ⟨price, -, _, -, shares, -, h⟩ := h
      split_ifs at h
      · simp only [Option.bind_eq_some_iff] at h
        obtain ⟨_, -, _, -, aggr, -, h⟩ := h
        cases h
        exact .trade stock _ shares aggr htype
      · cases h
        exact .trade stock _ shares .unknown htype

theorem translated_routeStockDirectory (h : a.routeStockDirectory doc = some (a', events)) :
    Translated a (some doc) a' events := by
  unfold routeStockDirectory at h
  split_ifs at h
  · cases h
    exact .ignored
  · simp only [bind, Option.bind_eq_some_iff] at h
    obtain ⟨_, -, locate, -, _, -, stock, -, h⟩ := h
    cases h
    exact .directory locate (trim stock)

theorem translated_of_translate {doc : Option (Json D)}
    (h : a.translate doc = some (a', events)) : Translated a doc a' events := by
  cases doc with
  | none =>
    cases h
    exact .ignored
  | some doc =>
    unfold translate at h
    dsimp only at h
    split_ifs at h
    · cases h
      exact .ignored
    · simp only [bind, Option.bind_eq_some_iff] at h
      obtain ⟨v, hv, type, htype, h⟩ := h
      have hmessage : messageType (some doc) = some type := by
        rw [messageType, Option.bind_some, hv, Option.bind_some, htype]
      split_ifs at h with htrade hadd hmpid hexec hcancel hdelete hreplace hdir
      · exact translated_routeTrade (htrade ▸ hmessage) h
      · exact translated_routeAddOrder h
      · exact translated_routeAddOrder h
      · exact translated_routeOrderExecuted (hexec ▸ hmessage) h
      · exact translated_routeOrderCancel h
      · exact translated_routeOrderDelete h
      · exact translated_routeOrderReplace h
      · exact translated_routeStockDirectory h
      · cases h
        exact .ignored

/-- A `stock_directory` message sets the tick size of the symbol that it lists. -/
theorem translate_directory {doc : Option (Json D)} {symbol : String}
    (hdir : directorySymbol doc = some symbol) (h : a.translate doc = some (a', events)) :
    events = [.obTickSize symbol kTick] := by
  unfold directorySymbol at hdir
  split_ifs at hdir with htype
  cases doc with
  | none => cases hdir
  | some doc =>
    simp only [messageType, Option.bind_some, Option.bind_eq_some_iff] at htype hdir
    obtain ⟨v, hv, htype⟩ := htype
    split_ifs at hdir with hfields
    obtain ⟨hloc, hstock⟩ := Bool.and_eq_true_iff.mp hfields
    have hroute : a.translate (some doc) = a.routeStockDirectory doc := by
      simp [translate, Json.has, isObject_of_member hv, hv, htype, isString_of_getString htype]
    rw [hroute, routeStockDirectory, hloc, hstock] at h
    simp only [Bool.not_true, Bool.or_false, Bool.false_eq_true, if_false, bind,
      Option.bind_eq_some_iff] at h
    obtain ⟨_, -, locate, -, vs, hvs, stock, hgot, h⟩ := h
    rw [hvs, Option.bind_some, hgot, Option.map_some] at hdir
    cases h
    cases hdir
    rfl

end
end ItchAdapter
end GmaEngine
