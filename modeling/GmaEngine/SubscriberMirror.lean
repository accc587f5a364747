import GmaEngine.LevelDeltas

/-!
# A subscriber that mirrors the level totals

A subscriber starts from a depth snapshot and applies the level entries of every delta. It
holds the book's totals after each call as long as every call is visible to it: a per-order
snapshot publishes no level, so it must leave every total as it was, and a trade probes its
level only if the cached total there is not zero.
-/

namespace GmaEngine
open Std

/-- What a subscriber holds: a total per level, zero for a level it does not hold. -/
abbrev Totals := Side → Price → UInt64

namespace Totals

/-- Set a level's total; a total of zero removes the level. -/
def setLevel (M : Totals) (e : LevelDelta) : Totals :=
  fun s p => if s = e.side ∧ p = e.price then e.totalSize else M s p

def applyDelta (M : Totals) (d : BookDelta) : Totals := d.levels.foldl setLevel M

def applyDeltas (M : Totals) (deltas : List BookDelta) : Totals := deltas.foldl applyDelta M

def ofSnapshot (snap : DepthSnapshot) : Totals
  | .bid, p => ((snap.bids.find? (fun l => l.1 = p)).map Prod.snd).getD 0
  | .ask, p => ((snap.asks.find? (fun l => l.1 = p)).map Prod.snd).getD 0

theorem foldl_setLevel_of_not_mem (M : Totals) (levels : List LevelDelta) {s : Side} {p : Price}
    (h : (s, p) ∉ levels.map LevelDelta.place) : levels.foldl setLevel M s p = M s p := by
  induction levels generalizing M with
  | nil => rfl
  | cons e es ih =>
    obtain ⟨hne, hrest⟩ := not_or.mp (mt List.mem_cons.mpr h)
    have hsp : ¬ (s = e.side ∧ p = e.price) := by
      rintro ⟨rfl, rfl⟩
      exact hne rfl
    rw [List.foldl_cons, ih _ hrest, setLevel, if_neg hsp]

theorem foldl_setLevel_of_mem (M : Totals) (levels : List LevelDelta)
    (hnd : (levels.map LevelDelta.place).Nodup) {e : LevelDelta} (he : e ∈ levels) :
    levels.foldl setLevel M e.side e.price = e.totalSize := by
  induction levels generalizing M with
  | nil => cases he
  | cons x xs ih =>
    rw [List.map_cons, List.nodup_cons] at hnd
    rw [List.foldl_cons]
    rcases List.mem_cons.mp he with rfl | hin
    · rw [foldl_setLevel_of_not_mem _ _ hnd.1, setLevel, if_pos ⟨rfl, rfl⟩]
    · exact ih _ hnd.2 hin

end Totals

namespace OrderBookManager
variable {D : Type}
open OrderBook Totals

/-- Applying the entries of a mutation brings the probed levels up to date. -/
theorem foldl_changedLevels (b b' : OrderBook) (candidates : List (Side × Price)) (s : Side)
    (p : Price) : (changedLevels b b' candidates).foldl Totals.setLevel b.levelSize s p =
      if (s, p) ∈ candidates then b'.levelSize s p else b.levelSize s p := by
  by_cases hmem : (s, p) ∈ (changedLevels b b' candidates).map LevelDelta.place
  · obtain ⟨e, he, hpl⟩ := List.mem_map.mp hmem
    obtain ⟨hs, hp⟩ : e.side = s ∧ e.price = p := ⟨congrArg Prod.fst hpl, congrArg Prod.snd hpl⟩
    subst hs hp
    obtain ⟨hc, -, htot⟩ := (mem_changedLevels b b' candidates e).mp he
    rw [foldl_setLevel_of_mem _ _ (nodup_changedLevels b b' candidates) he, htot]
    exact (if_pos hc).symm
  · rw [foldl_setLevel_of_not_mem _ _ hmem]
    split_ifs with hc
    · by_contra hne
      apply hmem
      exact List.mem_map.mpr ⟨⟨s, p, b'.levelSize s p⟩,
        (mem_changedLevels b b' candidates _).mpr ⟨hc, Ne.symm hne, rfl⟩, rfl⟩
    · rfl

/-- A subscriber that held the totals before a mutation holds those after it exactly when
every total outside the candidates is unchanged, and all of them if none was reported. -/
theorem applyDeltas_mutateWithDelta_iff (m : OrderBookManager D) (symbol : String)
    (candidates : List (Side × Price)) (mutator : OrderBook → OrderBook × Bool) {b' : OrderBook}
    {changed : Bool} (hmut : mutator (m.book symbol) = (b', changed)) :
    applyDeltas (m.book symbol).levelSize (m.mutateWithDelta symbol candidates mutator).deltas =
        b'.levelSize ↔
      ∀ s p, (s, p) ∉ candidates ∨ changed = false →
        b'.levelSize s p = (m.book symbol).levelSize s p := by
  cases changed with
  | false =>
    rw [deltas_mutateWithDelta_of_false candidates hmut]
    constructor
    · intro h s p _
      exact (congrFun (congrFun h s) p).symm
    · intro h
      funext s p
      exact (h s p (.inr rfl)).symm
  | true =>
    have happly : applyDeltas (m.book symbol).levelSize
        (m.mutateWithDelta symbol candidates mutator).deltas =
        (changedLevels (m.book symbol) b' candidates).foldl Totals.setLevel
          (m.book symbol).levelSize := by
      cases hd : (m.mutateWithDelta symbol candidates mutator).deltas with
      | nil =>
        rw [((deltas_mutateWithDelta_eq_nil candidates hmut).mp hd).1]
        rfl
      | cons d ds =>
        obtain ⟨hone, hl, -⟩ := mem_deltas_mutateWithDelta candidates hmut
          (hd ▸ List.mem_cons_self : d ∈ (m.mutateWithDelta symbol candidates mutator).deltas)
        rw [hd] at hone
        rw [(List.cons.inj hone).2, applyDeltas, List.foldl_cons, List.foldl_nil, applyDelta, hl]
    rw [happly]
    constructor
    · intro h s p hsp
      have hc : (s, p) ∉ candidates := hsp.resolve_right (by simp)
      have heq := congrFun (congrFun h s) p
      rw [foldl_changedLevels, if_neg hc] at heq
      exact heq.symm
    · intro h
      funext s p
      rw [foldl_changedLevels]
      split_ifs with hc
      · rfl
      · exact (h s p (.inl hc)).symm

/-- A call that publishes exactly its changed levels keeps a mirror right. -/
theorem DeltasExact.mirror {symbol : String} {b b' : OrderBook} {deltas : List BookDelta}
    (h : DeltasExact symbol b b' deltas) : applyDeltas b.levelSize deltas = b'.levelSize := by
  funext s p
  cases hd : deltas with
  | nil =>
    have hsame : b.SameTotals b' := by
      by_contra hne
      exact h.complete hne hd
    exact (hsame s p).symm
  | cons d ds =>
    have hlen := h.single
    rw [hd, List.length_cons] at hlen
    have hds : ds = [] := List.length_eq_zero_iff.mp (by omega)
    obtain ⟨hnd, hex⟩ := h.exact d (by simp [hd])
    subst hds
    by_cases hne : b'.levelSize s p = b.levelSize s p
    · have hnot : (s, p) ∉ d.levels.map LevelDelta.place := by
        intro hin
        obtain ⟨e, he, hpl⟩ := List.mem_map.mp hin
        obtain ⟨hs, hp⟩ : e.side = s ∧ e.price = p :=
          ⟨congrArg Prod.fst hpl, congrArg Prod.snd hpl⟩
        subst hs hp
        exact ((hex e).mp he).1 hne
      exact (foldl_setLevel_of_not_mem _ _ hnot).trans hne.symm
    · have he := (hex ⟨s, p, b'.levelSize s p⟩).mpr ⟨hne, rfl⟩
      exact foldl_setLevel_of_mem _ _ hnd he

end OrderBookManager

namespace OrderBook
open KeyedQueues

/-- Two books with the same queues and the same cached totals. -/
def SameLevels (b b' : OrderBook) : Prop :=
  ∀ s p, b'.queue s p = b.queue s p ∧ b'.levelSize s p = b.levelSize s p

/-- What a deletion leaves of a cached total, from the queue and the total alone. -/
theorem levelSize_deleteImpl {b : OrderBook} (h : b.WF) (k : OrderKey) (s : Side) (p : Price) :
    (b.deleteImpl k).1.levelSize s p =
      ((b.queue s p).find? (fun o => o.key = k)).elim (b.levelSize s p) (fun o =>
        if removeKey Order.key k (b.queue s p) = [] then 0
        else PriceLevel.shrunk ⟨[], b.levelSize s p⟩ o.size) := by
  obtain ⟨hk, hd⟩ | ⟨loc, l, n, hk, hl, hn, ha, hkey, hd⟩ := deleteImpl_cases h k <;> rw [hd]
  · have hnone : (b.queue s p).find? (fun o => o.key = k) = none := by
      simpa using h.queue_key_ne hk s p
    rw [hnone]
    rfl
  · have hsize : (b.dropKey k loc l n.order.size).levelSize s p =
        if s = loc.side ∧ p = loc.price then
          (if l.eraseNode loc.it = [] then 0 else l.shrunk n.order.size)
        else b.levelSize s p :=
      levelSize_relevel b loc.side loc.price ⟨l.eraseNode loc.it, l.shrunk n.order.size⟩ s p
    rw [hsize]
    by_cases hsp : s = loc.side ∧ p = loc.price
    · obtain ⟨rfl, rfl⟩ := hsp
      have hmem : n.order ∈ b.queue loc.side loc.price := mem_queue.mpr ⟨n, ⟨l, hl, hn⟩, rfl⟩
      have hfind := (find?_eq_some_iff (h.queue_nodup loc.side loc.price)).mpr ⟨hmem, hkey⟩
      have herase := h.map_eraseNode hl hn
      rw [ha, hkey] at herase
      have hempty : l.eraseNode loc.it = [] ↔
          removeKey Order.key k (b.queue loc.side loc.price) = [] := by
        rw [← herase, List.map_eq_nil_iff]
      rw [if_pos ⟨rfl, rfl⟩, hfind]
      refine if_congr hempty rfl ?_
      simp [PriceLevel.shrunk, levelSize, hl]
    · have hnone : (b.queue s p).find? (fun o => o.key = k) = none := by
        simpa using h.queue_key_ne_of_ne hk hsp
      rw [if_neg hsp, hnone]
      rfl

theorem sameLevels_addImpl {b b' : OrderBook} (hs : b.SameLevels b') (h : b.WF) (h' : b'.WF)
    (o : Order) : (b.addImpl o).1.SameLevels (b'.addImpl o).1 := by
  intro s p
  obtain ⟨hq, hsz⟩ := hs s p
  refine ⟨by rw [queue_addImpl h, queue_addImpl h', hq], ?_⟩
  have hadd : ∀ {c : OrderBook}, c.WF → (c.addImpl o).1.levelSize s p =
      (c.deleteImpl o.key).1.levelSize s p + if s = o.side ∧ p = o.price then o.size else 0 := by
    intro c hc
    rw [addImpl_eq hc, ← cleared_eq_deleteImpl hc]
    exact levelSize_pushBack (c.cleared o.key) o.side o.price o s p
  rw [hadd h, hadd h', levelSize_deleteImpl h, levelSize_deleteImpl h', hq, hsz]

/-- The totals of a book built from a list of orders alone. -/
def snapshotTotal (orders : List Order) (s : Side) (p : Price) : UInt64 :=
  (applySnapshotPerOrder {} orders).levelSize s p

theorem levelSize_applySnapshotPerOrder (b : OrderBook) (orders : List Order) (s : Side)
    (p : Price) : (b.applySnapshotPerOrder orders).levelSize s p = snapshotTotal orders s p := by
  have key : ∀ os : List Order, (applySnapshotPerOrder {} os).WF ∧ (b.applySnapshotPerOrder os).WF ∧
      (applySnapshotPerOrder {} os).SameLevels (b.applySnapshotPerOrder os) := by
    intro os
    induction os using List.reverseRecOn with
    | nil => exact ⟨wf_clearPerOrderUnlocked _, wf_clearPerOrderUnlocked b, fun _ _ => ⟨rfl, rfl⟩⟩
    | append_singleton os o ih =>
      have hstep : ∀ c : OrderBook, c.applySnapshotPerOrder (os ++ [o]) =
          ((c.applySnapshotPerOrder os).addImpl o).1 := by
        intro c
        simp [applySnapshotPerOrder, List.foldl_append]
      obtain ⟨h, h', hs⟩ := ih
      rw [hstep, hstep]
      exact ⟨addImpl_wf h o, addImpl_wf h' o, sameLevels_addImpl hs h h' o⟩
  exact ((key orders).2.2 s p).2

theorem findLevel_addImpl {b : OrderBook} (h : b.WF) (o : Order)
    (hk : b.byId.lookup o.key = none) {s : Side} {p : Price}
    (hsp : ¬ (s = o.side ∧ p = o.price)) : (b.addImpl o).1.findLevel s p = b.findLevel s p := by
  have hcleared : b.cleared o.key = b := by simp [cleared, hk]
  rw [addImpl_eq h, hcleared]
  exact (findLevel_setLevel b o.side o.price _ s p).trans (if_neg hsp)

theorem WF.lookup_eq_none {b : OrderBook} (h : b.WF) {k : OrderKey}
    (hk : ∀ s p, ∀ o ∈ b.queue s p, o.key ≠ k) : b.byId.lookup k = none := by
  cases hl : b.byId.lookup k with
  | none => rfl
  | some loc =>
    obtain ⟨n, hn, -, hkey⟩ := h.indexed k loc hl
    exact absurd hkey (hk loc.side loc.price n.order (mem_queue.mpr ⟨n, hn, rfl⟩))

end OrderBook

namespace OrderBookManager
variable {D : Type}
open OrderBook Totals

section
variable [Double D] {m : OrderBookManager D} {symbol : String}

/-- No order rests under the key of the add. -/
def FreshKey (b : OrderBook) (id : UInt64) (scope : FeedScope) (idMissing : Bool) : Prop :=
  ∀ s p, ∀ o ∈ b.queue s p, o.key ≠ b.addKey id scope idMissing

theorem deltasExact_onAdd (h : (m.book symbol).WF) (id : UInt64) (side : Side) (price : D)
    (size priority : UInt64) (scope : FeedScope) (idMissing : Bool)
    (hfresh : FreshKey (m.book symbol) id scope idMissing) :
    DeltasExact symbol (m.book symbol)
      ((m.onAdd symbol id side price size priority scope idMissing).mgr.book symbol)
      (m.onAdd symbol id side price size priority scope idMissing).deltas := by
  unfold onAdd
  split_ifs
  · exact deltasExact_nil symbol (.refl _)
  · exact deltasExact_nil symbol (.refl _)
  rw [book_mutateWithDelta, if_pos rfl]
  generalize ho : m.addedOrder symbol id side price size priority = o
  obtain ⟨hside, hid, hsyn⟩ : o.side = side ∧ o.id = id ∧ o.synthetic = false := by
    subst ho
    exact ⟨rfl, rfl, rfl⟩
  refine deltasExact_mutateWithDelta m symbol _ (fun b => b.applyAddScoped o scope idMissing) ?_ ?_
  · intro s p hne
    by_contra hmem
    apply hne
    apply levelSize_eq_of_findLevel
    obtain ⟨c, hc⟩ := scopedCopy_book (m.book symbol) o scope idMissing
    obtain ⟨hkey, hs, hp, -⟩ := scopedCopy_spec (b := m.book symbol) o scope idMissing hsyn
    have hwf : OrderBook.WF { m.book symbol with synthCounters := c } := h.congr rfl rfl rfl
    have hlook : (m.book symbol).byId.lookup
        ((m.book symbol).scopedCopy o scope idMissing).2.key = none := by
      rw [hkey, hid]
      exact h.lookup_eq_none hfresh
    have heq : (m.book symbol).applyAddScoped o scope idMissing =
        ((m.book symbol).scopedCopy o scope idMissing).1.addImpl
          ((m.book symbol).scopedCopy o scope idMissing).2 := rfl
    rw [heq, hc]
    refine findLevel_addImpl hwf _ hlook ?_
    rintro ⟨rfl, rfl⟩
    rw [hs, hp, hside] at hmem
    exact hmem (List.mem_singleton.mpr rfl)
  · intro hf
    cases hf

/-- A trade at a level whose cached total is zero exactly when no size rests there, or one
that takes the whole queue of a level whose cached total is zero. -/
def TradeVisible (b : OrderBook) (tp : Price) (qty : UInt64) (aggr : Aggressor) : Prop :=
  ∀ s, b.passiveSide tp aggr = some s →
    (b.levelSize s tp = 0 ↔ sizeSum (b.queue s tp) = 0) ∨
      (b.levelSize s tp = 0 ∧ takeFront qty (b.queue s tp) = [])

theorem takeFront_eq_nil_of_sizeSum {qty : UInt64} (h0 : qty ≠ 0) {os : List Order}
    (hsum : sizeSum os = 0) : takeFront qty os = [] := by
  induction os with
  | nil => rfl
  | cons o os ih =>
    rw [sizeSum_cons] at hsum
    have hz : o.size = 0 := UInt64.toNat_inj.mp (by rw [UInt64.toNat_zero]; omega)
    have hle : o.size ≤ qty := by rw [hz]; exact UInt64.zero_le
    rw [takeFront, if_neg h0, if_pos hle, hz, sub_zero]
    exact ih (by omega)

theorem mem_tradeCandidates (b : OrderBook) (tp : Price) (s : Side) :
    (s, tp) ∈ tradeCandidates b tp ↔ b.levelSize s tp ≠ 0 := by
  have hpos : ∀ x : UInt64, 0 < x ↔ x ≠ 0 := by
    intro x
    rw [UInt64.lt_iff_toNat_lt, UInt64.toNat_zero, Nat.pos_iff_ne_zero, ne_eq, ne_eq,
      ← UInt64.toNat_inj, UInt64.toNat_zero]
  cases s <;> simp [tradeCandidates, hpos]

/-- The level traded is kept in view exactly when the trade is visible. -/
theorem trade_total_iff {b : OrderBook} (h : b.WF) (tp : Price) {qty : UInt64} (h0 : qty ≠ 0)
    (s : Side) :
    (b.levelSize s tp = 0 ∨ sizeSum (b.queue s tp) = 0 →
      (b.consumeAtLevel s tp qty).1.levelSize s tp = b.levelSize s tp) ↔
    (b.levelSize s tp = 0 ↔ sizeSum (b.queue s tp) = 0) ∨
      (b.levelSize s tp = 0 ∧ takeFront qty (b.queue s tp) = []) := by
  have hafter := levelSize_consumeAtLevel b s tp qty h s tp
  have hcons := consumed_toNat b s tp qty
  have hq : qty.toNat ≠ 0 := fun e => h0 (UInt64.toNat_inj.mp e)
  rw [if_pos ⟨rfl, rfl⟩] at hafter
  rw [hafter]
  by_cases ht : b.levelSize s tp = 0
  · by_cases hsum : sizeSum (b.queue s tp) = 0
    · simp [ht, hsum, takeFront_eq_nil_of_sizeSum h0 hsum]
    · have hc : (b.consumeAtLevel s tp qty).2 ≠ 0 := by
        intro e
        rw [e, UInt64.toNat_zero] at hcons
        omega
      by_cases hempty : takeFront qty (b.queue s tp) = []
      · simp [ht, hempty]
      · simp [ht, hsum, hempty, hc]
  · by_cases hsum : sizeSum (b.queue s tp) = 0
    · simp [ht, hsum, takeFront_eq_nil_of_sizeSum h0 hsum, Ne.symm ht]
    · simp [ht, hsum]

theorem mirror_onTrade_iff (h : (m.book symbol).WF) (tradePrice : D) (size : UInt64)
    (aggr : Aggressor) :
    applyDeltas (m.book symbol).levelSize (m.onTrade symbol tradePrice size aggr).deltas =
        ((m.onTrade symbol tradePrice size aggr).mgr.book symbol).levelSize ↔
      (m.gate symbol = false ∧ m.validatePrice symbol tradePrice ∧ validateSize size →
        TradeVisible (m.book symbol) (m.toTicks symbol tradePrice) size aggr) := by
  unfold onTrade
  split_ifs with hgate hvalid
  · simp [hgate, applyDeltas]
  · have hbad : ¬ (m.validatePrice symbol tradePrice ∧ validateSize size) := by
      simpa [Bool.or_eq_true, imp_iff_not_or] using hvalid
    constructor
    · intro _ hok
      exact absurd hok.2 hbad
    · intro _
      rfl
  have hok : m.gate symbol = false ∧ m.validatePrice symbol tradePrice ∧ validateSize size := by
    simpa using And.intro hgate hvalid
  have h0 : size ≠ 0 := by
    intro e
    have hsz := hok.2.2
    rw [e] at hsz
    exact absurd hsz (by decide)
  rw [book_mutateWithDelta, if_pos rfl]
  generalize m.toTicks symbol tradePrice = tp
  have hiff := applyDeltas_mutateWithDelta_iff m symbol (tradeCandidates (m.book symbol) tp)
    (fun b => b.applyTrade tp size aggr) Prod.mk.eta.symm
  rw [hiff, forall_prop_of_true hok, TradeVisible]
  obtain ⟨hnone, ht⟩ | ⟨s, hs, -, ht⟩ := applyTrade_cases (m.book symbol) tp size aggr
  · rw [ht]
    constructor
    · intro _ s hs
      rw [hnone.resolve_left h0] at hs
      cases hs
    · intro _ s p _
      rfl
  · rw [ht]
    have htotal := trade_total_iff h tp h0 s
    have hcons := consumed_toNat (m.book symbol) s tp size
    have hq : size.toNat ≠ 0 := fun e => h0 (UInt64.toNat_inj.mp e)
    have hzero : decide (0 < ((m.book symbol).consumeAtLevel s tp size).2) = false ↔
        sizeSum ((m.book symbol).queue s tp) = 0 := by
      rw [decide_eq_false_iff_not, UInt64.lt_iff_toNat_lt, UInt64.toNat_zero]
      omega
    constructor
    · intro hall s' hs'
      obtain rfl : s = s' := by simpa using hs.symm.trans hs'
      refine htotal.mp ?_
      rintro (ht0 | hsum)
      · exact hall s tp (.inl (fun hmem => (mem_tradeCandidates _ _ _).mp hmem ht0))
      · exact hall s tp (.inr (hzero.mpr hsum))
    · intro hvis s' p' hor
      by_cases hsp : s' = s ∧ p' = tp
      · obtain ⟨rfl, rfl⟩ := hsp
        refine htotal.mpr (hvis s' hs) ?_
        rcases hor with hnot | hflag
        · left
          by_contra hne
          exact hnot ((mem_tradeCandidates _ _ _).mpr hne)
        · exact .inr (hzero.mp hflag)
      · exact levelSize_eq_of_findLevel (findLevel_consumeAtLevel _ _ _ _ hsp)

/-- The calls of a mirrored run on one symbol. -/
inductive MirrorCall (symbol : String) : ManagerOp D → Prop
  | add (id : UInt64) (side : Side) (price : D) (size priority : UInt64) (scope : FeedScope)
      (idMissing : Bool) :
      MirrorCall symbol (.add symbol id side price size priority scope idMissing)
  | order {op : ManagerOp D} (h : OrderCall symbol op) : MirrorCall symbol op
  | snapshotPerOrder (tickOrders : List Order) (snapshotSeq : Option UInt64) :
      MirrorCall symbol (.snapshotPerOrder symbol tickOrders snapshotSeq)

/-- Adds come under keys that rest nowhere. -/
def AddsFresh (m : OrderBookManager D) (symbol : String) : ManagerOp D → Prop
  | .add _ id _ _ _ _ scope idMissing => FreshKey (m.book symbol) id scope idMissing
  | _ => True

/-- A snapshot gives every level the total it already has; an accepted trade is visible. -/
def Visible (m : OrderBookManager D) (symbol : String) : ManagerOp D → Prop
  | .snapshotPerOrder _ tickOrders _ =>
    ∀ s p, snapshotTotal tickOrders s p = (m.book symbol).levelSize s p
  | .trade _ tradePrice size aggr =>
    m.gate symbol = false ∧ m.validatePrice symbol tradePrice ∧ validateSize size →
      TradeVisible (m.book symbol) (m.toTicks symbol tradePrice) size aggr
  | _ => True

/-- The subscriber holds the book's totals now and after each of the operations. -/
def Tracks (m : OrderBookManager D) (symbol : String) (M : Totals) : List (ManagerOp D) → Prop
  | [] => M = (m.book symbol).levelSize
  | op :: ops => M = (m.book symbol).levelSize ∧
      Tracks (m.exec op).1 symbol
        (M.applyDeltas ((m.exec op).2.filter (fun d => d.symbol = symbol))) ops

theorem Tracks.now {M : Totals} {ops : List (ManagerOp D)} (h : Tracks m symbol M ops) :
    M = (m.book symbol).levelSize := by
  cases ops with
  | nil => exact h
  | cons op ops => exact h.1

/-- One call keeps the mirror right exactly when it is visible. -/
theorem mirror_exec_iff (h : (m.book symbol).WF) {op : ManagerOp D} (hcall : MirrorCall symbol op)
    (hfresh : m.AddsFresh symbol op) :
    applyDeltas (m.book symbol).levelSize (m.exec op).2 =
      ((m.exec op).1.book symbol).levelSize ↔ m.Visible symbol op := by
  have hexact : ∀ {x : OrderBookManager D × List BookDelta},
      DeltasExact symbol (m.book symbol) (x.1.book symbol) x.2 →
      (applyDeltas (m.book symbol).levelSize x.2 = (x.1.book symbol).levelSize ↔ True) :=
    fun hd => iff_true_intro hd.mirror
  cases hcall with
  | add id side price size priority scope idMissing =>
    exact hexact (deltasExact_onAdd h id side price size priority scope idMissing hfresh)
  | order hop =>
    cases hop with
    | update id scope newPrice newSize synthetic =>
      exact hexact (deltasExact_onUpdateKey h _ newPrice newSize)
    | updateKey key newPrice newSize => exact hexact (deltasExact_onUpdateKey h key newPrice newSize)
    | delete id scope synthetic => exact hexact (deltasExact_onDeleteKey h _)
    | deleteKey key => exact hexact (deltasExact_onDeleteKey h key)
    | priority id scope newPriority synthetic =>
      exact hexact (deltasExact_onPriorityKey h _ newPriority)
    | priorityKey key newPriority => exact hexact (deltasExact_onPriorityKey h key newPriority)
    | trade tradePrice size aggr => exact mirror_onTrade_iff h tradePrice size aggr
  | snapshotPerOrder tickOrders snapshotSeq =>
    have hbook : ((m.exec (.snapshotPerOrder symbol tickOrders snapshotSeq)).1.book symbol) =
        (m.book symbol).applySnapshotPerOrder tickOrders :=
      (book_onSnapshotPerOrder m symbol tickOrders snapshotSeq symbol).trans (if_pos rfl)
    have hquiet : ∀ (M : Totals) (ds : List BookDelta), (∀ d ∈ ds, d.levels = []) →
        M.applyDeltas ds = M := by
      intro M ds hds
      induction ds with
      | nil => rfl
      | cons d ds ih =>
        have hd : M.applyDelta d = M := by rw [applyDelta, hds d (by simp), List.foldl_nil]
        rw [applyDeltas, List.foldl_cons, hd]
        exact ih (fun d' hd' => hds d' (by simp [hd']))
    have hlevels := levels_afterSnapshot (m.setBook symbol
      ((m.book symbol).applySnapshotPerOrder tickOrders)) symbol snapshotSeq
    rw [hbook]
    have hsame := hquiet (m.book symbol).levelSize
      (m.exec (.snapshotPerOrder symbol tickOrders snapshotSeq)).2 hlevels
    rw [hsame]
    constructor
    · intro he s p
      rw [← levelSize_applySnapshotPerOrder (m.book symbol), ← he]
    · intro hvis
      funext s p
      rw [levelSize_applySnapshotPerOrder]
      exact (hvis s p).symm

theorem filter_deltas {op : ManagerOp D} (hcall : MirrorCall symbol op) :
    (m.exec op).2.filter (fun d => d.symbol = symbol) = (m.exec op).2 := by
  have hop : op.symbol = some symbol := by
    cases hcall with
    | add => rfl
    | order hop => cases hop <;> rfl
    | snapshotPerOrder => rfl
  rw [List.filter_eq_self]
  intro d hd
  exact decide_eq_true (exec_named m hop d hd)

theorem tracks_iff (h : ∀ s, (m.book s).WF) (ops : List (ManagerOp D))
    (hcalls : ∀ op ∈ ops, MirrorCall symbol op)
    (hfresh : Along (fun m op => m.AddsFresh symbol op) m ops) :
    Tracks m symbol (m.book symbol).levelSize ops ↔
      Along (fun m op => m.Visible symbol op) m ops := by
  induction ops generalizing m with
  | nil => exact iff_of_true rfl trivial
  | cons op ops ih =>
    have hcall := hcalls op (by simp)
    have hstep := mirror_exec_iff (h symbol) hcall hfresh.1
    have hrest := ih (wf_exec h op) (fun op' hop' => hcalls op' (by simp [hop'])) hfresh.2
    rw [Tracks, Along, filter_deltas hcall]
    constructor
    · rintro ⟨-, ht⟩
      have hnow := ht.now
      rw [hnow] at ht
      exact ⟨hstep.mp hnow, hrest.mp ht⟩
    · rintro ⟨hv, hvs⟩
      rw [hstep.mpr hv]
      exact ⟨rfl, hrest.mpr hvs⟩

end

/-- A depth snapshot with room for every level holds exactly the totals. -/
theorem ofSnapshot_buildSnapshot (m : OrderBookManager D) (symbol : String) (n : ℕ)
    (hn : ∀ s, ((m.book symbol).ladder s).toList.length ≤ n) :
    ofSnapshot (m.buildSnapshot symbol n) = (m.book symbol).levelSize := by
  have hside : ∀ s p, ((((m.book symbol).forEachLevel s n).find? (fun l => l.1 = p)).map
      Prod.snd).getD 0 = (m.book symbol).levelSize s p := by
    intro s p
    generalize hb : m.book symbol = b at hn
    have hnd : ((b.ladder s).toList.map Prod.fst).Nodup := by
      rw [ExtTreeMap.map_fst_toList_eq_keys]
      exact ExtTreeMap.nodup_keys
    rw [forEachLevel, List.take_of_length_le (hn s), List.find?_map, levelSize]
    cases hl : b.findLevel s p with
    | none =>
      have hnone : (b.ladder s).toList.find? ((fun l => l.1 = p) ∘
          fun l : Price × PriceLevel => (l.1, l.2.totalSize)) = none := by
        rw [List.find?_eq_none]
        rintro ⟨q, l⟩ hmem hq
        have hfind : b.findLevel s q = some l :=
          ExtTreeMap.mem_toList_iff_getElem?_eq_some.mp hmem
        obtain rfl : q = p := by simpa using hq
        rw [hl] at hfind
        cases hfind
      rw [hnone]
      rfl
    | some l =>
      have hmem : (p, l) ∈ (b.ladder s).toList :=
        ExtTreeMap.mem_toList_iff_getElem?_eq_some.mpr hl
      have hsome := (KeyedQueues.find?_eq_some_iff hnd).mpr ⟨hmem, rfl⟩
      have hcomp : (b.ladder s).toList.find? ((fun l => l.1 = p) ∘
          fun l : Price × PriceLevel => (l.1, l.2.totalSize)) = some (p, l) := hsome
      rw [hcomp]
      rfl
  funext s p
  cases s with
  | bid => exact hside .bid p
  | ask => exact hside .ask p

variable [Double D]

/-- A subscriber that starts from a complete depth snapshot and applies every later delta
holds the book's totals after each call of a run if and only if every per-order snapshot
gives each level the total it already has and every trade is visible. -/
theorem mirror_tracks_iff (pre ops : List (ManagerOp D)) (symbol : String) (n : ℕ)
    (hn : ∀ s, (((run pre).1.book symbol).ladder s).toList.length ≤ n)
    (hcalls : ∀ op ∈ ops, MirrorCall symbol op)
    (hfresh : Along (fun m op => m.AddsFresh symbol op) (run pre).1 ops) :
    Tracks (run pre).1 symbol (ofSnapshot ((run pre).1.buildSnapshot symbol n)) ops ↔
      Along (fun m op => m.Visible symbol op) (run pre).1 ops := by
  rw [ofSnapshot_buildSnapshot _ symbol n hn]
  exact tracks_iff (run_wf pre) ops hcalls hfresh

/-- The bid is traded in part, resized and deleted. -/
def tradedBid : List (ManagerOp ExactDouble) :=
  [.trade "AAPL" (.fin 100) 4 .sell, .update "AAPL" 1 {} none (some 3) false,
    .delete "AAPL" 1 {} false]

theorem mirror_tracks_tradedBid :
    Tracks (run restingBid).1 "AAPL" (ofSnapshot ((run restingBid).1.buildSnapshot "AAPL" 10))
      tradedBid := by
  have hcalls : ∀ op ∈ tradedBid, MirrorCall "AAPL" op := by
    intro op hop
    simp only [tradedBid, List.mem_cons, List.not_mem_nil, or_false] at hop
    rcases hop with rfl | rfl | rfl
    · exact .order (.trade _ _ _)
    · exact .order (.update _ _ _ _ _)
    · exact .order (.delete _ _ _)
  have hiff := mirror_tracks_iff restingBid tradedBid "AAPL" 10
    (by intro s; cases s <;> decide +kernel) hcalls ⟨trivial, trivial, trivial, trivial⟩
  refine hiff.mpr ⟨?_, trivial, trivial, trivial⟩
  rintro - s -
  left
  cases s <;> decide +kernel

/-- An empty snapshot takes the resting bid away, and the subscriber keeps it. -/
theorem mirror_keeps_stale_level :
    ¬ Tracks (run restingBid).1 "AAPL" (ofSnapshot ((run restingBid).1.buildSnapshot "AAPL" 10))
      [.snapshotPerOrder "AAPL" [] none] := by
  rintro ⟨-, ht⟩
  have hlevel := congrFun (congrFun ht .bid) ⟨1000000⟩
  revert hlevel
  decide +kernel

end OrderBookManager
end GmaEngine
