import GmaEngine.GuardedRuns
import GmaEngine.LevelTotals

/-!
# The check of a book's invariants

`checkInvariants` adds up the sizes of each level in 64 bits and compares the sum with the cached
total. Adding, resizing and trading move both by the same amount, wrapping alike; taking an order
out of a level stops the cached total at zero. The drift of a level is the difference.
-/

namespace GmaEngine
open Std KeyedQueues

namespace OrderBook

def sum64 (nodes : List Node) : UInt64 := nodes.foldl (fun sum n => sum + n.order.size) 0

def checkSide (b : OrderBook) (s : Side) : Bool :=
  (b.ladder s).toList.all (fun l => sum64 l.2.orders = l.2.totalSize)

/-- What is wrong with an entry of the index. -/
def checkLocator (b : OrderBook) (key : OrderKey) (loc : Locator) : Option String :=
  match b.findLevel loc.side loc.price with
  | none => some "per-order: locator references missing level"
  | some l =>
    -- a dangling iterator, which the locator invariant excludes, is counted as no match
    if (l.deref loc.it).map Order.key = some key then none
    else some "per-order: locator iterator does not match key"

def checkAgg (b : OrderBook) (s : Side) : Bool :=
  (b.ladderAgg s).toList.all (fun l => l.2.totalSize ≠ 0)

/-- The reason why the check fails; `none` when it returns `true`. -/
def checkInvariants (b : OrderBook) : Option String :=
  if !b.checkSide .bid || !b.checkSide .ask then
    some "per-order: level.totalSize mismatch with order sum"
  else
    match b.byId.entries.findSome? (fun entry => b.checkLocator entry.1 entry.2) with
    | some why => some why
    | none =>
      if !b.checkAgg .bid || !b.checkAgg .ask then some "aggregated: zero-size level present"
      else none

/-- How far the cached total of a level is from the sum of its sizes. -/
def drift (b : OrderBook) (s : Side) (p : Price) : UInt64 :=
  b.levelSize s p - UInt64.ofNat (sizeSum (b.queue s p))

def AggFilled (b : OrderBook) : Prop := ∀ s p l, b.findAggLevel s p = some l → l.totalSize ≠ 0

theorem sum64_eq (nodes : List Node) :
    sum64 nodes = UInt64.ofNat (sizeSum (nodes.map Node.order)) := by
  have hfrom : ∀ sum : UInt64, nodes.foldl (fun sum n => sum + n.order.size) sum =
      sum + UInt64.ofNat (sizeSum (nodes.map Node.order)) := by
    induction nodes with
    | nil => simp
    | cons n nodes ih =>
      intro sum
      rw [List.foldl_cons, ih, List.map_cons, sizeSum_cons, UInt64.ofNat_add, UInt64.ofNat_toNat]
      grind
  rw [sum64, hfrom, zero_add]

theorem checkSide_iff (b : OrderBook) (s : Side) :
    b.checkSide s = true ↔ ∀ p, b.drift s p = 0 := by
  unfold checkSide
  rw [List.all_eq_true, forall_mem_toList_iff]
  constructor
  · intro hall p
    cases hl : b.findLevel s p with
    | none => simp [drift, levelSize, queue, hl]
    | some l =>
      have hp := hall p l hl
      rw [decide_eq_true_eq, sum64_eq] at hp
      rw [drift, levelSize, queue_of_findLevel hl, hl, hp]
      exact sub_self _
  · intro hdrift p l hl
    have hp := hdrift p
    have hl' : b.findLevel s p = some l := hl
    rw [drift, levelSize, queue_of_findLevel hl', hl'] at hp
    rw [decide_eq_true_eq, sum64_eq]
    exact (sub_eq_zero.mp hp).symm

theorem checkAgg_iff (b : OrderBook) (s : Side) :
    b.checkAgg s = true ↔ ∀ p l, b.findAggLevel s p = some l → l.totalSize ≠ 0 := by
  unfold checkAgg
  rw [List.all_eq_true, forall_mem_toList_iff]
  simp only [decide_eq_true_eq]
  exact Iff.rfl

/-- The index passes under the locator invariant. -/
theorem checkLocator_eq_none {b : OrderBook} (h : b.WF) {key : OrderKey} {loc : Locator}
    (hk : b.byId.lookup key = some loc) : b.checkLocator key loc = none := by
  obtain ⟨l, n, hl, -, -, hkey, hderef⟩ := h.deref hk
  simp [checkLocator, hl, hderef, hkey]

theorem checkInvariants_eq_none_iff {b : OrderBook} (h : b.WF) :
    b.checkInvariants = none ↔ (∀ s p, b.drift s p = 0) ∧ b.AggFilled := by
  have hindex : b.byId.entries.findSome? (fun entry => b.checkLocator entry.1 entry.2) = none := by
    rw [List.findSome?_eq_none_iff]
    intro entry hentry
    exact checkLocator_eq_none h (AList.mem_lookup_iff.mpr hentry)
  have hsides : (∀ s p, b.drift s p = 0) ↔
      b.checkSide .bid = true ∧ b.checkSide .ask = true := by
    rw [checkSide_iff, checkSide_iff]
    exact Side.forall_iff
  have haggs : b.AggFilled ↔ b.checkAgg .bid = true ∧ b.checkAgg .ask = true := by
    rw [checkAgg_iff, checkAgg_iff]
    exact Side.forall_iff
  unfold checkInvariants
  rw [hindex, hsides, haggs]
  cases b.checkSide .bid <;> cases b.checkSide .ask <;> cases b.checkAgg .bid <;>
    cases b.checkAgg .ask <;> simp

section Drift
variable {b : OrderBook} {k : OrderKey} {loc : Locator} {l : PriceLevel} {n : Node}

theorem drift_of_queue_nil (h : b.WF) {s : Side} {p : Price} (hq : b.queue s p = []) :
    b.drift s p = 0 := by
  rw [drift, h.levelSize_eq_zero hq, hq]
  rfl

theorem drift_pushBack (b : OrderBook) (s : Side) (p : Price) (o : Order) (s' : Side)
    (p' : Price) : (b.pushBack s p o).drift s' p' = b.drift s' p' := by
  unfold drift
  rw [levelSize_pushBack, queue_pushBack]
  split_ifs
  · rw [sizeSum_append, sizeSum_cons, sizeSum_nil, add_zero, UInt64.ofNat_add, UInt64.ofNat_toNat]
    grind
  · rw [List.append_nil, add_zero]

theorem drift_consumeAtLevel (h : b.WF) (s : Side) (p : Price) (qty : UInt64) (s' : Side)
    (p' : Price) : (b.consumeAtLevel s p qty).1.drift s' p' =
      if s' = s ∧ p' = p ∧ takeFront qty (b.queue s p) = [] then 0 else b.drift s' p' := by
  unfold drift
  rw [levelSize_consumeAtLevel b s p qty h, queue_consumeAtLevel]
  by_cases hsp : s' = s ∧ p' = p
  · obtain ⟨rfl, rfl⟩ := hsp
    by_cases hempty : takeFront qty (b.queue s' p') = []
    · simp [hempty]
    · have hconsumed := consumed_toNat b s' p' qty
      have hsum := sizeSum_takeFront qty (b.queue s' p')
      have hsplit : sizeSum (b.queue s' p') =
          sizeSum (takeFront qty (b.queue s' p')) + (b.consumeAtLevel s' p' qty).2.toNat := by
        omega
      have hwords := congrArg UInt64.ofNat hsplit
      rw [UInt64.ofNat_add, UInt64.ofNat_toNat] at hwords
      rw [if_pos ⟨rfl, rfl⟩, if_neg hempty, if_pos ⟨rfl, rfl⟩, if_neg (fun he => hempty he.2.2),
        hwords]
      grind
  · rw [if_neg hsp, if_neg hsp, if_neg (fun he => hsp ⟨he.1, he.2.1⟩)]

theorem drift_priorityImpl (h : b.WF) (k : OrderKey) (newPriority : UInt64) (s : Side)
    (p : Price) : (b.priorityImpl k newPriority).1.drift s p = b.drift s p := by
  have hsum : sizeSum ((b.priorityImpl k newPriority).1.queue s p) = sizeSum (b.queue s p) := by
    obtain ⟨-, hu⟩ | ⟨loc, l, n, hk, hl, hn, ha, hkey, ⟨-, hu⟩ | ⟨-, hu⟩⟩ :=
      priorityImpl_cases h k newPriority <;> rw [hu]
    rw [queue_moveToBack h hk hl hn ha hkey]
    by_cases hsp : s = loc.side ∧ p = loc.price
    · obtain ⟨rfl, rfl⟩ := hsp
      have hmem : n.order ∈ b.queue loc.side loc.price := mem_queue.mpr ⟨n, ⟨l, hl, hn⟩, rfl⟩
      have hremove := sizeSum_remove h hmem
      rw [hkey] at hremove
      simp only [and_self, if_true, sizeSum_append, sizeSum_cons, sizeSum_nil]
      omega
    · rw [if_neg hsp, List.append_nil, removeKey_eq_self (h.queue_key_ne_of_ne hk hsp)]
  rw [drift, drift, levelSize_priorityImpl h, hsum]

/-- Resized in place, an order moves the total by the difference of its sizes. -/
theorem drift_writeNode (h : b.WF) (hk : b.byId.lookup k = some loc)
    (hl : b.findLevel loc.side loc.price = some l) (hn : n ∈ l.orders) (ha : n.addr = loc.it)
    (hkey : n.order.key = k) (size : UInt64) (s : Side) (p : Price) :
    (b.setLevel loc.side loc.price ⟨l.writeNode loc.it { n.order with size := size },
      if n.order.size < size then l.totalSize + (size - n.order.size)
      else l.totalSize - (n.order.size - size)⟩).drift s p = b.drift s p := by
  unfold drift
  rw [levelSize_setLevel, queue_writeNode h hk hl hn ha hkey]
  by_cases hsp : s = loc.side ∧ p = loc.price
  · obtain ⟨rfl, rfl⟩ := hsp
    have hmem : n.order ∈ b.queue loc.side loc.price := mem_queue.mpr ⟨n, ⟨l, hl, hn⟩, rfl⟩
    have hsum := congrArg UInt64.ofNat (sizeSum_rewrite h hmem { n.order with size := size })
    rw [hkey, UInt64.ofNat_add, UInt64.ofNat_add, UInt64.ofNat_toNat, UInt64.ofNat_toNat] at hsum
    have htotal : (if n.order.size < size then l.totalSize + (size - n.order.size)
        else l.totalSize - (n.order.size - size)) = l.totalSize + size - n.order.size := by
      split_ifs <;> grind
    rw [if_pos ⟨rfl, rfl⟩, htotal, levelSize, hl]
    grind
  · rw [if_neg hsp, modifyKey_eq_self (h.queue_key_ne_of_ne hk hsp)]

end Drift

/-- No cached total is off. -/
def Balanced (b : OrderBook) : Prop := ∀ s p, b.drift s p = 0

section Balance
variable {b : OrderBook} {k : OrderKey} {loc : Locator} {l : PriceLevel} {n : Node}

theorem balanced_congr {b' : OrderBook} (hladder : b'.ladder = b.ladder) :
    b'.Balanced ↔ b.Balanced := by
  simp only [Balanced, drift, levelSize, queue, findLevel, hladder]

theorem balanced_of_drift_eq {b' : OrderBook} (hdrift : ∀ s p, b'.drift s p = b.drift s p) :
    b'.Balanced ↔ b.Balanced := by
  simp only [Balanced, hdrift]

theorem balanced_empty : Balanced {} := by
  intro s p
  exact drift_of_queue_nil wf_empty rfl

theorem balanced_clearPerOrderUnlocked (b : OrderBook) : b.clearPerOrderUnlocked.Balanced :=
  (balanced_congr rfl).mpr balanced_empty

theorem levelSize_dropKey (b : OrderBook) (k : OrderKey) (loc : Locator) (l : PriceLevel)
    (sz : UInt64) (s : Side) (p : Price) : (b.dropKey k loc l sz).levelSize s p =
      if s = loc.side ∧ p = loc.price then (if l.eraseNode loc.it = [] then 0 else l.shrunk sz)
      else b.levelSize s p :=
  levelSize_relevel b loc.side loc.price ⟨l.eraseNode loc.it, l.shrunk sz⟩ s p

/-- The level that loses the order stays right exactly when its total covers the size. -/
theorem drift_dropKey_iff (h : b.WF) (hb : b.drift loc.side loc.price = 0)
    (hk : b.byId.lookup k = some loc) (hl : b.findLevel loc.side loc.price = some l)
    (hn : n ∈ l.orders) (ha : n.addr = loc.it) (hkey : n.order.key = k) :
    (b.dropKey k loc l n.order.size).drift loc.side loc.price = 0 ↔
      n.order.size ≤ l.totalSize := by
  have hmem : n.order ∈ b.queue loc.side loc.price := mem_queue.mpr ⟨n, ⟨l, hl, hn⟩, rfl⟩
  have hsum := congrArg UInt64.ofNat (sizeSum_remove h hmem)
  rw [hkey, UInt64.ofNat_add, UInt64.ofNat_toNat] at hsum
  rw [drift, levelSize, hl, Option.elim_some] at hb
  have herase := h.map_eraseNode hl hn
  rw [ha, hkey] at herase
  rw [drift, levelSize_dropKey, if_pos ⟨rfl, rfl⟩, queue_dropKey _ h hk hl hn ha hkey]
  by_cases hempty : l.eraseNode loc.it = []
  · -- the only order of its level: the total is its size
    rw [hempty, List.map_nil] at herase
    rw [← herase, sizeSum_nil] at hsum ⊢
    have hall : l.totalSize = n.order.size := by grind
    simp [hempty, hall]
  · rw [if_neg hempty, PriceLevel.shrunk]
    split_ifs with hle
    · simp only [hle, iff_true]
      grind
    · -- the total stops at zero while the other sizes do not add up to it
      simp only [hle, iff_false]
      intro hzero
      have hall : l.totalSize = n.order.size := by grind
      exact hle (le_of_eq hall.symm)

theorem balanced_dropKey_iff (h : b.WF) (hb : b.Balanced) (hk : b.byId.lookup k = some loc)
    (hl : b.findLevel loc.side loc.price = some l) (hn : n ∈ l.orders) (ha : n.addr = loc.it)
    (hkey : n.order.key = k) :
    (b.dropKey k loc l n.order.size).Balanced ↔ n.order.size ≤ l.totalSize := by
  have hthere := drift_dropKey_iff h (hb loc.side loc.price) hk hl hn ha hkey
  constructor
  · intro hbalanced
    exact hthere.mp (hbalanced loc.side loc.price)
  · intro hle s p
    by_cases hsp : s = loc.side ∧ p = loc.price
    · obtain ⟨rfl, rfl⟩ := hsp
      exact hthere.mpr hle
    · rw [drift, levelSize_dropKey, if_neg hsp, queue_dropKey _ h hk hl hn ha hkey,
        removeKey_eq_self (h.queue_key_ne_of_ne hk hsp)]
      exact hb s p

/-- Taking the order out of its level would take more than the cached total holds. -/
def clampsAt (b : OrderBook) (key : OrderKey) : Bool :=
  match b.byId.lookup key with
  | none => false
  | some loc =>
    match b.findLevel loc.side loc.price with
    | none => false
    | some l => (l.deref loc.it).any (fun ord => l.totalSize < ord.size)

/-- The update takes the order out of its level: the size becomes zero or the price changes. -/
def unlinks (b : OrderBook) (key : OrderKey) (newPrice : Option Price) (newSize : Option UInt64) :
    Bool :=
  match b.byId.lookup key with
  | none => false
  | some loc =>
    match b.findLevel loc.side loc.price with
    | none => false
    | some l => (l.deref loc.it).any (fun ord =>
        newSize.getD ord.size = 0 || newPrice.getD ord.price ≠ ord.price)

/-- Some order that a snapshot repeats is clamped when its first copy is taken out. -/
def clampsAlong (b : OrderBook) : List Order → Bool
  | [] => false
  | o :: orders => b.clampsAt o.key || (b.addImpl o).1.clampsAlong orders

/-- The operation takes an order out of a level whose cached total is below its size. -/
def clamps (b : OrderBook) : BookOp → Bool
  | .add o => b.clampsAt ({ o with feedId := 0, epoch := 0 } : Order).key
  | .addScoped o scope idMissing => b.clampsAt (b.scopedCopy o scope idMissing).2.key
  | .addGetKey o scope idMissing => b.clampsAt (b.scopedCopy o scope idMissing).2.key
  | .update id newPrice newSize =>
    b.unlinks (makeKey id {} false) newPrice newSize && b.clampsAt (makeKey id {} false)
  | .updateKey key newPrice newSize => b.unlinks key newPrice newSize && b.clampsAt key
  | .delete id => b.clampsAt (makeKey id {} false)
  | .deleteKey key => b.clampsAt key
  | .snapshotPerOrder orders => b.clearPerOrderUnlocked.clampsAlong orders
  | .priority _ _ => false
  | .priorityKey _ _ => false
  | .trade _ _ _ => false
  | .snapshotAggregated _ => false
  | .levelSummary _ _ _ _ => false

theorem WF.deref_addr (h : b.WF) {s : Side} {p : Price} (hl : b.findLevel s p = some l)
    (hn : n ∈ l.orders) : l.deref n.addr = some n.order := by
  have hfind : l.orders.find? (fun m => m.addr = n.addr) = some n :=
    (find?_eq_some_iff (h.nodup _ _ l hl)).mpr ⟨hn, rfl⟩
  simp [PriceLevel.deref, hfind]

theorem clampsAt_of_lookup_none (hk : b.byId.lookup k = none) : b.clampsAt k = false := by
  simp [clampsAt, hk]

theorem clampsAt_eq_false_iff (h : b.WF) (hk : b.byId.lookup k = some loc)
    (hl : b.findLevel loc.side loc.price = some l) (hn : n ∈ l.orders) (ha : n.addr = loc.it) :
    b.clampsAt k = false ↔ n.order.size ≤ l.totalSize := by
  have hderef := h.deref_addr hl hn
  rw [ha] at hderef
  simp [clampsAt, hk, hl, hderef]

theorem unlinks_eq (h : b.WF) (hk : b.byId.lookup k = some loc)
    (hl : b.findLevel loc.side loc.price = some l) (hn : n ∈ l.orders) (ha : n.addr = loc.it)
    (newPrice : Option Price) (newSize : Option UInt64) :
    b.unlinks k newPrice newSize = (decide (newSize.getD n.order.size = 0) ||
      decide (newPrice.getD n.order.price ≠ n.order.price)) := by
  have hderef := h.deref_addr hl hn
  rw [ha] at hderef
  simp [unlinks, hk, hl, hderef]

theorem balanced_deleteImpl_iff (h : b.WF) (hb : b.Balanced) (k : OrderKey) :
    (b.deleteImpl k).1.Balanced ↔ b.clampsAt k = false := by
  obtain ⟨hk, hd⟩ | ⟨loc, l, n, hk, hl, hn, ha, hkey, hd⟩ := deleteImpl_cases h k <;> rw [hd]
  · exact iff_of_true hb (clampsAt_of_lookup_none hk)
  · rw [clampsAt_eq_false_iff h hk hl hn ha]
    exact balanced_dropKey_iff h hb hk hl hn ha hkey

theorem balanced_pushBack_iff (b : OrderBook) (s : Side) (p : Price) (o : Order) :
    (b.pushBack s p o).Balanced ↔ b.Balanced :=
  balanced_of_drift_eq (drift_pushBack b s p o)

theorem balanced_addImpl_iff (h : b.WF) (hb : b.Balanced) (o : Order) :
    (b.addImpl o).1.Balanced ↔ b.clampsAt o.key = false := by
  have hpush : (b.addImpl o).1.Balanced ↔
      ((b.cleared o.key).pushBack o.side o.price o).Balanced := by
    rw [addImpl_eq h]
    exact balanced_congr rfl
  rw [hpush, balanced_pushBack_iff, cleared_eq_deleteImpl h]
  exact balanced_deleteImpl_iff h hb o.key

theorem balanced_updateImpl_iff (h : b.WF) (hb : b.Balanced) (k : OrderKey)
    (newPrice : Option Price) (newSize : Option UInt64) :
    (b.updateImpl k newPrice newSize).1.Balanced ↔
      (b.unlinks k newPrice newSize && b.clampsAt k) = false := by
  obtain ⟨hk, hu⟩ | ⟨loc, l, n, hk, hl, hn, ha, hkey, hcase⟩ :=
    updateImpl_cases h k newPrice newSize
  · rw [hu, clampsAt_of_lookup_none hk, Bool.and_false]
    exact iff_of_true hb rfl
  have hclamp := clampsAt_eq_false_iff h hk hl hn ha
  have hdrop := balanced_dropKey_iff h hb hk hl hn ha hkey
  rw [← hclamp] at hdrop
  rw [unlinks_eq h hk hl hn ha]
  obtain ⟨h0, hu⟩ | ⟨h0, hpr, -, hu⟩ | ⟨h0, hpr, -, hu⟩ | ⟨h0, hpr, hu⟩ := hcase <;> rw [hu]
  · simpa [h0] using hdrop
  · simpa [h0, hpr] using hb
  · have hwrite := balanced_of_drift_eq
      (drift_writeNode h hk hl hn ha hkey (newSize.getD n.order.size))
    simpa [h0, hpr] using hwrite.mpr hb
  · have hmove : ∀ o : Order, (b.moveKey k loc l n.order.size o).Balanced ↔
        (b.dropKey k loc l n.order.size).Balanced := fun o =>
      (balanced_congr (b := (b.dropKey k loc l n.order.size).pushBack loc.side o.price o) rfl).trans
        (balanced_pushBack_iff _ _ _ _)
    simpa [h0, hpr, hmove] using hdrop

theorem balanced_priorityImpl (h : b.WF) (hb : b.Balanced) (k : OrderKey) (newPriority : UInt64) :
    (b.priorityImpl k newPriority).1.Balanced :=
  (balanced_of_drift_eq (drift_priorityImpl h k newPriority)).mpr hb

theorem balanced_applyTrade (h : b.WF) (hb : b.Balanced) (tradePrice : Price) (qty : UInt64)
    (aggr : Aggressor) : (b.applyTrade tradePrice qty aggr).1.Balanced := by
  obtain ⟨-, ht⟩ | ⟨s, -, -, ht⟩ := applyTrade_cases b tradePrice qty aggr <;> rw [ht]
  · exact hb
  · intro s' p'
    rw [drift_consumeAtLevel h]
    split_ifs
    · rfl
    · exact hb s' p'

theorem balanced_applyAddScoped_iff (h : b.WF) (hb : b.Balanced) (o : Order) (scope : FeedScope)
    (idMissing : Bool) : (b.applyAddScoped o scope idMissing).1.Balanced ↔
      b.clampsAt (b.scopedCopy o scope idMissing).2.key = false := by
  have heq : b.applyAddScoped o scope idMissing =
      (b.scopedCopy o scope idMissing).1.addImpl (b.scopedCopy o scope idMissing).2 := rfl
  obtain ⟨m, hm⟩ := scopedCopy_book b o scope idMissing
  have hwf : WF { b with synthCounters := m } := h.congr rfl rfl rfl
  have hbalanced : Balanced { b with synthCounters := m } := (balanced_congr rfl).mpr hb
  rw [heq, hm, balanced_addImpl_iff hwf hbalanced]
  rfl

/-- The adds of a snapshot, from any book in balance. -/
theorem balanced_foldl_addImpl (orders : List Order) (h : b.WF) (hb : b.Balanced)
    (hclamp : b.clampsAlong orders = false) :
    (orders.foldl (fun b o => (b.addImpl o).1) b).Balanced := by
  induction orders generalizing b with
  | nil => exact hb
  | cons o orders ih =>
    rw [clampsAlong, Bool.or_eq_false_iff] at hclamp
    exact ih (addImpl_wf h o) ((balanced_addImpl_iff h hb o).mpr hclamp.1) hclamp.2

end Balance

section Aggregated
variable {b : OrderBook}

theorem aggFilled_congr (hb : b.AggFilled) {b' : OrderBook} (hrest : b'.rest = b.rest) :
    b'.AggFilled := by
  have hagg : b'.ladderAgg = b.ladderAgg := congrArg Prod.fst hrest
  simpa only [AggFilled, findAggLevel, hagg] using hb

theorem aggFilled_clear (b : OrderBook) : b.clearAggregatedUnlocked.AggFilled := by
  intro s p l hl
  simp [clearAggregatedUnlocked, findAggLevel] at hl

theorem aggFilled_setAggLevel (hb : b.AggFilled) (s : Side) (p : Price) {l : LevelAgg}
    (hl : l.totalSize ≠ 0) : (b.setAggLevel s p l).AggFilled := by
  intro s' p' l' hl'
  rw [findAggLevel_setAggLevel] at hl'
  split_ifs at hl' with hsp
  · cases hl'
    exact hl
  · exact hb s' p' l' hl'

theorem aggFilled_eraseAggLevel (hb : b.AggFilled) (s : Side) (p : Price) :
    (b.eraseAggLevel s p).AggFilled := by
  intro s' p' l' hl'
  rw [findAggLevel_eraseAggLevel] at hl'
  split_ifs at hl' with hsp
  exact hb s' p' l' hl'

/-- A snapshot skips the levels of total zero. -/
theorem aggFilled_applySnapshotAggregated (b : OrderBook) (levels : List LevelSnapshotEntry) :
    (b.applySnapshotAggregated levels).AggFilled := by
  unfold applySnapshotAggregated
  induction levels using List.reverseRecOn with
  | nil => exact aggFilled_clear b
  | append_singleton levels e ih =>
    rw [List.foldl_append, List.foldl_cons, List.foldl_nil]
    split_ifs with hzero
    · exact ih
    · exact aggFilled_setAggLevel ih e.side e.price hzero

theorem aggFilled_applyLevelSummary (hb : b.AggFilled) (side : Side) (price : Price)
    (totalSize : UInt64) (orderCount : Option UInt32) :
    (b.applyLevelSummary side price totalSize orderCount).1.AggFilled := by
  unfold applyLevelSummary
  split_ifs with hzero
  · exact aggFilled_eraseAggLevel hb side price
  · exact aggFilled_setAggLevel hb side price hzero

theorem aggFilled_applyAddScoped (hb : b.AggFilled) (o : Order) (scope : FeedScope)
    (idMissing : Bool) : (b.applyAddScoped o scope idMissing).1.AggFilled := by
  have heq : b.applyAddScoped o scope idMissing =
      (b.scopedCopy o scope idMissing).1.addImpl (b.scopedCopy o scope idMissing).2 := rfl
  obtain ⟨m, hm⟩ := scopedCopy_book b o scope idMissing
  rw [heq, hm]
  exact aggFilled_congr (b := { b with synthCounters := m }) hb (addImpl_rest _ _)

theorem aggFilled_applyTrade (hb : b.AggFilled) (tradePrice : Price) (qty : UInt64)
    (aggr : Aggressor) : (b.applyTrade tradePrice qty aggr).1.AggFilled := by
  obtain ⟨-, ht⟩ | ⟨s, -, -, ht⟩ := applyTrade_cases b tradePrice qty aggr <;> rw [ht]
  · exact hb
  · exact aggFilled_congr hb (consumeAtLevel_rest b s tradePrice qty)

theorem aggFilled_applySnapshotPerOrder (hb : b.AggFilled) (orders : List Order) :
    (b.applySnapshotPerOrder orders).AggFilled := by
  unfold applySnapshotPerOrder
  induction orders using List.reverseRecOn with
  | nil => exact hb
  | append_singleton orders o ih =>
    rw [List.foldl_append, List.foldl_cons, List.foldl_nil]
    exact aggFilled_congr ih (addImpl_rest _ o)

theorem aggFilled_apply (hb : b.AggFilled) (op : BookOp) : (b.apply op).AggFilled := by
  cases op with
  | add o => exact aggFilled_congr hb (addImpl_rest b _)
  | addScoped o scope idMissing => exact aggFilled_applyAddScoped hb o scope idMissing
  | addGetKey o scope idMissing => exact aggFilled_applyAddScoped hb o scope idMissing
  | update id newPrice newSize => exact aggFilled_congr hb (updateImpl_rest b _ newPrice newSize)
  | updateKey key newPrice newSize =>
    exact aggFilled_congr hb (updateImpl_rest b key newPrice newSize)
  | delete id => exact aggFilled_congr hb (deleteImpl_rest b _)
  | deleteKey key => exact aggFilled_congr hb (deleteImpl_rest b key)
  | priority id newPriority => exact aggFilled_congr hb (priorityImpl_rest b _ newPriority)
  | priorityKey key newPriority => exact aggFilled_congr hb (priorityImpl_rest b key newPriority)
  | trade tradePrice qty aggr => exact aggFilled_applyTrade hb tradePrice qty aggr
  | snapshotPerOrder orders => exact aggFilled_applySnapshotPerOrder hb orders
  | snapshotAggregated levels => exact aggFilled_applySnapshotAggregated b levels
  | levelSummary side price totalSize orderCount =>
    exact aggFilled_applyLevelSummary hb side price totalSize orderCount

end Aggregated

/-- What the check needs of a book. -/
structure Sound (b : OrderBook) : Prop where
  wf : b.WF
  balanced : b.Balanced
  aggFilled : b.AggFilled

section Runs
variable {b : OrderBook}

theorem sound_empty : Sound {} := by
  refine ⟨wf_empty, balanced_empty, ?_⟩
  intro s p l hl
  simp [findAggLevel] at hl

theorem Sound.checkInvariants (h : b.Sound) : b.checkInvariants = none :=
  (checkInvariants_eq_none_iff h.wf).mpr ⟨h.balanced, h.aggFilled⟩

/-- A per-order snapshot, which clears the book before it adds. -/
def replaces : BookOp → Bool
  | .snapshotPerOrder _ => true
  | _ => false

/-- Adds, trades and changes in place never lose the balance; an order taken out loses it when
it is clamped. -/
theorem balanced_apply_iff (h : b.WF) (hb : b.Balanced) (op : BookOp)
    (hop : replaces op = false) : (b.apply op).Balanced ↔ b.clamps op = false := by
  cases op with
  | add o => exact balanced_addImpl_iff h hb _
  | addScoped o scope idMissing => exact balanced_applyAddScoped_iff h hb o scope idMissing
  | addGetKey o scope idMissing => exact balanced_applyAddScoped_iff h hb o scope idMissing
  | update id newPrice newSize => exact balanced_updateImpl_iff h hb _ newPrice newSize
  | updateKey key newPrice newSize => exact balanced_updateImpl_iff h hb key newPrice newSize
  | delete id => exact balanced_deleteImpl_iff h hb _
  | deleteKey key => exact balanced_deleteImpl_iff h hb key
  | priority id newPriority => exact iff_of_true (balanced_priorityImpl h hb _ newPriority) rfl
  | priorityKey key newPriority =>
    exact iff_of_true (balanced_priorityImpl h hb key newPriority) rfl
  | trade tradePrice qty aggr =>
    exact iff_of_true (balanced_applyTrade h hb tradePrice qty aggr) rfl
  | snapshotPerOrder orders => cases hop
  | snapshotAggregated levels =>
    have hladder := congrArg OrderBook.ladder (applySnapshotAggregated_perOrder b levels)
    exact iff_of_true ((balanced_congr hladder).mpr hb) rfl
  | levelSummary side price totalSize orderCount =>
    have hladder := congrArg OrderBook.ladder
      (applyLevelSummary_perOrder b side price totalSize orderCount)
    exact iff_of_true ((balanced_congr hladder).mpr hb) rfl

theorem balanced_apply (h : b.WF) (hb : b.Balanced) (op : BookOp) (hclamp : b.clamps op = false) :
    (b.apply op).Balanced := by
  cases hop : replaces op with
  | false => exact (balanced_apply_iff h hb op hop).mpr hclamp
  | true =>
    cases op with
    | snapshotPerOrder orders =>
      exact balanced_foldl_addImpl orders (wf_clearPerOrderUnlocked b)
        (balanced_clearPerOrderUnlocked b) hclamp
    | _ => cases hop

theorem run_wf (ops : List BookOp) : (run ops).WF := (run_refines ops).wf

/-- No operation of the run clamps a total. -/
def clampFree (ops : List BookOp) : Bool :=
  GuardedRuns.along apply (fun b op => !b.clamps op) {} ops

theorem run_append (before after : List BookOp) :
    run (before ++ after) = after.foldl apply (run before) := List.foldl_append

theorem run_sound (ops : List BookOp) (hfree : clampFree ops = true) : (run ops).Sound := by
  induction ops using List.reverseRecOn with
  | nil => exact sound_empty
  | append_singleton ops op ih =>
    have hbefore := ih (GuardedRuns.along_of_append hfree)
    have hclamp : (!(run ops).clamps op) = true := GuardedRuns.along_iff.mp hfree ops op [] rfl
    have hlast : run (ops ++ [op]) = (run ops).apply op := run_append ops [op]
    refine ⟨run_wf (ops ++ [op]), ?_, ?_⟩ <;> rw [hlast]
    · exact balanced_apply hbefore.wf hbefore.balanced op (by simpa using hclamp)
    · exact aggFilled_apply hbefore.aggFilled op

/-- A run that clamps no total passes the check after every operation, and without per-order
snapshots no other run does. -/
theorem checkInvariants_along_run (ops : List BookOp) :
    (clampFree ops = true →
      ∀ before after, ops = before ++ after → (run before).checkInvariants = none) ∧
    ((∀ op ∈ ops, replaces op = false) →
      (∀ before after, ops = before ++ after → (run before).checkInvariants = none) →
      clampFree ops = true) := by
  constructor
  · rintro hfree before after rfl
    exact (run_sound before (GuardedRuns.along_of_append hfree)).checkInvariants
  · intro hops hall
    rw [clampFree, GuardedRuns.along_iff]
    rintro before op after rfl
    have hbefore := (checkInvariants_eq_none_iff (run_wf before)).mp (hall before _ rfl)
    have hlast : run (before ++ [op]) = (run before).apply op := run_append before [op]
    have hafter := (checkInvariants_eq_none_iff (run_wf (before ++ [op]))).mp
      (hall (before ++ [op]) after (by simp))
    rw [hlast] at hafter
    have hclamp := (balanced_apply_iff (run_wf before) hbefore.1 op (hops op (by simp))).mp hafter.1
    change (!(run before).clamps op) = true
    rw [hclamp]
    rfl

/-- Two sizes that add up past 64 bits leave a total of one; deleting the order of size two stops
it at zero. -/
theorem checkInvariants_fails_past_64_bits :
    (run [.add { id := 1, price := ⟨100⟩, size := 18446744073709551615 },
      .add { id := 2, price := ⟨100⟩, size := 2 }, .delete 2]).checkInvariants =
        some "per-order: level.totalSize mismatch with order sum" := by
  decide +kernel

end Runs

end OrderBook
end GmaEngine
