import GmaEngine.OrderBookRefinement

/-!
# Cached level totals

Every level caches the total of its order sizes in a 64-bit word. The cache is exact as long
as no level sum leaves that range, the intermediate books of a snapshot included; without
that proviso, this module says which levels an operation can touch at all.
-/

namespace GmaEngine
open Std KeyedQueues

namespace OrderBook

def sizeSum (os : List Order) : ℕ := (os.map (fun o => o.size.toNat)).sum

@[simp] theorem sizeSum_nil : sizeSum [] = 0 := rfl

@[simp] theorem sizeSum_cons (o : Order) (os : List Order) :
    sizeSum (o :: os) = o.size.toNat + sizeSum os := by simp [sizeSum]

@[simp] theorem sizeSum_append (os os' : List Order) :
    sizeSum (os ++ os') = sizeSum os + sizeSum os' := by simp [sizeSum]

/-- Every cached total is the sum of the sizes resting at its level. -/
def Exact (b : OrderBook) : Prop := ∀ s p, (b.levelSize s p).toNat = sizeSum (b.queue s p)

def SumsFit (b : OrderBook) : Prop := ∀ s p, sizeSum (b.queue s p) < 2 ^ 64

/-- It is enough to look at the levels of the two ladders. -/
theorem sumsFit_iff (b : OrderBook) : b.SumsFit ↔
    (∀ l ∈ (b.ladder .bid).toList, sizeSum (l.2.orders.map Node.order) < 2 ^ 64) ∧
      ∀ l ∈ (b.ladder .ask).toList, sizeSum (l.2.orders.map Node.order) < 2 ^ 64 := by
  have hside : ∀ s, (∀ p, sizeSum (b.queue s p) < 2 ^ 64) ↔
      ∀ l ∈ (b.ladder s).toList, sizeSum (l.2.orders.map Node.order) < 2 ^ 64 := by
    intro s
    rw [forall_mem_toList_iff]
    constructor
    · intro h p l hl
      have hp := h p
      rwa [queue_of_findLevel hl] at hp
    · intro h p
      cases hl : b.findLevel s p with
      | none => simp [queue, hl]
      | some l =>
        rw [queue_of_findLevel hl]
        exact h p l hl
  exact Side.forall_iff.trans (and_congr (hside .bid) (hside .ask))

instance (b : OrderBook) : Decidable b.SumsFit := decidable_of_iff' _ b.sumsFit_iff

/-- The level sums stay below `2 ^ 64` while the operation runs: in the book after it and,
for a per-order snapshot, after each of the orders it adds. -/
def Fits (b : OrderBook) : BookOp → Prop
  | .snapshotPerOrder orders => ∀ os, os <+: orders → (b.applySnapshotPerOrder os).SumsFit
  | op => (b.apply op).SumsFit

section Writes
variable (b : OrderBook)

theorem levelSize_setLevel (s : Side) (p : Price) (l : PriceLevel) (s' : Side) (p' : Price) :
    (b.setLevel s p l).levelSize s' p' =
      if s' = s ∧ p' = p then l.totalSize else b.levelSize s' p' := by
  unfold levelSize
  rw [findLevel_setLevel]
  split_ifs <;> rfl

theorem levelSize_relevel (s : Side) (p : Price) (l : PriceLevel) (s' : Side) (p' : Price) :
    ((b.setLevel s p l).eraseLevelIfEmpty s p).levelSize s' p' =
      if s' = s ∧ p' = p then (if l.orders = [] then 0 else l.totalSize)
      else b.levelSize s' p' := by
  unfold levelSize
  rw [findLevel_relevel]
  split_ifs <;> rfl

theorem levelSize_pushBack (s : Side) (p : Price) (o : Order) (s' : Side) (p' : Price) :
    (b.pushBack s p o).levelSize s' p' =
      b.levelSize s' p' + if s' = s ∧ p' = p then o.size else 0 := by
  have hset : (b.pushBack s p o).levelSize s' p' = (b.setLevel s p
      ⟨(b.getOrCreateLevel s p).orders ++ [⟨b.nextAddr, o⟩],
        (b.getOrCreateLevel s p).totalSize + o.size⟩).levelSize s' p' := rfl
  have hcreate : (b.getOrCreateLevel s p).totalSize = b.levelSize s p := by
    unfold getOrCreateLevel levelSize
    cases b.findLevel s p <;> rfl
  rw [hset, levelSize_setLevel]
  split_ifs with hsp
  · obtain ⟨rfl, rfl⟩ := hsp
    rw [hcreate]
  · simp

end Writes

/-- A side and price at which nothing rests has no level. -/
theorem WF.findLevel_eq_none {b : OrderBook} (h : b.WF) {s : Side} {p : Price} :
    b.findLevel s p = none ↔ b.queue s p = [] := by
  cases hl : b.findLevel s p with
  | none => simp [queue, hl]
  | some l => simpa [queue, hl] using h.nonempty s p l hl

theorem WF.levelSize_eq_zero {b : OrderBook} (h : b.WF) {s : Side} {p : Price}
    (hq : b.queue s p = []) : b.levelSize s p = 0 := by
  simp [levelSize, h.findLevel_eq_none.mpr hq]

section Exactness
variable {b : OrderBook} {k : OrderKey} {loc : Locator} {l : PriceLevel} {n : Node}

theorem Exact.total (he : b.Exact) {s : Side} {p : Price} (hl : b.findLevel s p = some l) :
    l.totalSize.toNat = sizeSum (l.orders.map Node.order) := by
  have h := he s p
  rwa [levelSize, queue, hl] at h

theorem exact_empty : Exact {} := by
  intro s p
  simp [levelSize, queue, findLevel]

/-- The orders at a node's level add up to its size and the rest. -/
theorem sizeSum_remove (h : b.WF) {s : Side} {p : Price} {o : Order} (ho : o ∈ b.queue s p) :
    o.size.toNat + sizeSum (removeKey Order.key o.key (b.queue s p)) = sizeSum (b.queue s p) :=
  sum_removeKey (f := fun o => UInt64.toNat o.size) (h.queue_nodup s p) ho

theorem sizeSum_rewrite (h : b.WF) {s : Side} {p : Price} {o : Order} (ho : o ∈ b.queue s p)
    (o' : Order) :
    o.size.toNat + sizeSum (modifyKey Order.key o.key (fun _ => o') (b.queue s p)) =
      sizeSum (b.queue s p) + o'.size.toNat :=
  sum_modifyKey (f := fun o => UInt64.toNat o.size) (h.queue_nodup s p) ho

theorem exact_dropKey (h : b.WF) (he : b.Exact) (hk : b.byId.lookup k = some loc)
    (hl : b.findLevel loc.side loc.price = some l) (hn : n ∈ l.orders) (ha : n.addr = loc.it)
    (hkey : n.order.key = k) : (b.dropKey k loc l n.order.size).Exact := by
  intro s p
  rw [queue_dropKey _ h hk hl hn ha hkey]
  have hsize : (b.dropKey k loc l n.order.size).levelSize s p =
      if s = loc.side ∧ p = loc.price then
        (if l.eraseNode loc.it = [] then 0 else l.shrunk n.order.size)
      else b.levelSize s p :=
    levelSize_relevel b loc.side loc.price ⟨l.eraseNode loc.it, l.shrunk n.order.size⟩ s p
  rw [hsize]
  by_cases hsp : s = loc.side ∧ p = loc.price
  · obtain ⟨rfl, rfl⟩ := hsp
    have hmem : n.order ∈ b.queue loc.side loc.price := mem_queue.mpr ⟨n, ⟨l, hl, hn⟩, rfl⟩
    have hsum := sizeSum_remove h hmem
    have htot := he.total hl
    have hq := queue_of_findLevel hl
    have herase := h.map_eraseNode hl hn
    rw [← hq] at htot
    rw [hkey] at hsum herase
    rw [ha] at herase
    rw [if_pos ⟨rfl, rfl⟩]
    split_ifs with hempty
    · rw [← herase, hempty]
      rfl
    · have hle : n.order.size ≤ l.totalSize := by
        rw [UInt64.le_iff_toNat_le]
        omega
      rw [PriceLevel.shrunk, if_pos hle, UInt64.toNat_sub_of_le _ _ hle]
      omega
  · rw [if_neg hsp, removeKey_eq_self (h.queue_key_ne_of_ne hk hsp)]
    exact he s p

theorem exact_pushBack (he : b.Exact) (s : Side) (p : Price) (o : Order)
    (hfit : sizeSum (b.queue s p) + o.size.toNat < 2 ^ 64) : (b.pushBack s p o).Exact := by
  intro s' p'
  rw [levelSize_pushBack, queue_pushBack]
  split_ifs with hsp
  · obtain ⟨rfl, rfl⟩ := hsp
    have h := he s' p'
    rw [UInt64.toNat_add, h, sizeSum_append, sizeSum_cons, sizeSum_nil, add_zero]
    exact Nat.mod_eq_of_lt hfit
  · simpa using he s' p'

theorem exact_deleteImpl (h : b.WF) (he : b.Exact) (k : OrderKey) : (b.deleteImpl k).1.Exact := by
  obtain ⟨-, hd⟩ | ⟨loc, l, n, hk, hl, hn, ha, hkey, hd⟩ := deleteImpl_cases h k <;> rw [hd]
  · exact he
  · exact exact_dropKey h he hk hl hn ha hkey

theorem exact_addImpl (h : b.WF) (he : b.Exact) (o : Order) (hfit : (b.addImpl o).1.SumsFit) :
    (b.addImpl o).1.Exact := by
  have hcleared : (b.cleared o.key).Exact := by
    rw [cleared_eq_deleteImpl h]
    exact exact_deleteImpl h he o.key
  have hq := hfit o.side o.price
  rw [queue_addImpl h, ← queue_cleared h] at hq
  rw [addImpl_eq h]
  exact exact_pushBack hcleared o.side o.price o (by simpa using hq)

theorem exact_updateImpl (h : b.WF) (he : b.Exact) (k : OrderKey) (newPrice : Option Price)
    (newSize : Option UInt64) (hfit : (b.updateImpl k newPrice newSize).1.SumsFit) :
    (b.updateImpl k newPrice newSize).1.Exact := by
  obtain ⟨-, hu⟩ | ⟨loc, l, n, hk, hl, hn, ha, hkey, hcase⟩ :=
    updateImpl_cases h k newPrice newSize
  · rw [hu]
    exact he
  have hmem : n.order ∈ b.queue loc.side loc.price := mem_queue.mpr ⟨n, ⟨l, hl, hn⟩, rfl⟩
  obtain ⟨-, hu⟩ | ⟨-, -, -, hu⟩ | ⟨-, hpr, hsz, hu⟩ | ⟨-, hpr, hu⟩ := hcase <;> rw [hu] at hfit ⊢
  · exact exact_dropKey h he hk hl hn ha hkey
  · exact he
  · -- resized in place: the total moves by the difference
    intro s p
    have hq := hfit s p
    rw [queue_writeNode h hk hl hn ha hkey] at hq ⊢
    rw [levelSize_setLevel]
    by_cases hsp : s = loc.side ∧ p = loc.price
    · obtain ⟨rfl, rfl⟩ := hsp
      have htot := he.total hl
      rw [← queue_of_findLevel hl] at htot
      have hsum := sizeSum_rewrite h hmem { n.order with size := newSize.getD n.order.size }
      rw [hkey] at hsum
      dsimp only at hsum hq ⊢
      have hrem := sizeSum_remove h hmem
      rw [if_pos ⟨rfl, rfl⟩]
      have hsz' : (newSize.getD n.order.size).toNat ≠ n.order.size.toNat :=
        fun e => hsz (UInt64.toNat_inj.mp e)
      split_ifs with hlt
      · rw [UInt64.lt_iff_toNat_lt] at hlt
        rw [UInt64.toNat_add, UInt64.toNat_sub_of_le _ _ (UInt64.le_iff_toNat_le.mpr hlt.le),
          Nat.mod_eq_of_lt]
        · omega
        · omega
      · rw [UInt64.lt_iff_toNat_lt] at hlt
        have hle : newSize.getD n.order.size ≤ n.order.size :=
          UInt64.le_iff_toNat_le.mpr (by omega)
        have hle' : n.order.size - newSize.getD n.order.size ≤ l.totalSize := by
          rw [UInt64.le_iff_toNat_le, UInt64.toNat_sub_of_le _ _ hle]
          omega
        rw [UInt64.toNat_sub_of_le _ _ hle', UInt64.toNat_sub_of_le _ _ hle]
        omega
    · rw [if_neg hsp, modifyKey_eq_self (h.queue_key_ne_of_ne hk hsp)]
      exact he s p
  · have hdrop := exact_dropKey h he hk hl hn ha hkey
    have hq := hfit loc.side (newPrice.getD n.order.price)
    rw [queue_moveKey h hk hl hn ha hkey, ← queue_dropKey n.order.size h hk hl hn ha hkey] at hq
    exact exact_pushBack hdrop loc.side _ _ (by simpa using hq)

theorem exact_priorityImpl (h : b.WF) (he : b.Exact) (k : OrderKey) (newPriority : UInt64) :
    (b.priorityImpl k newPriority).1.Exact := by
  obtain ⟨-, hu⟩ | ⟨loc, l, n, hk, hl, hn, ha, hkey, ⟨-, hu⟩ | ⟨-, hu⟩⟩ :=
    priorityImpl_cases h k newPriority <;> rw [hu]
  · exact he
  · exact he
  · intro s p
    rw [queue_moveToBack h hk hl hn ha hkey, levelSize_setLevel]
    by_cases hsp : s = loc.side ∧ p = loc.price
    · obtain ⟨rfl, rfl⟩ := hsp
      have hmem : n.order ∈ b.queue loc.side loc.price := mem_queue.mpr ⟨n, ⟨l, hl, hn⟩, rfl⟩
      have hsum := sizeSum_remove h hmem
      have htot := he.total hl
      rw [← queue_of_findLevel hl] at htot
      rw [hkey] at hsum
      simp only [and_self, if_true, sizeSum_append, sizeSum_cons, sizeSum_nil]
      omega
    · rw [if_neg hsp, if_neg hsp, List.append_nil,
        removeKey_eq_self (h.queue_key_ne_of_ne hk hsp)]
      exact he s p

end Exactness

section Consumption

theorem sizeSum_takeFront (q : UInt64) (os : List Order) :
    sizeSum (takeFront q os) = sizeSum os - q.toNat := by
  induction os generalizing q with
  | nil => simp [takeFront]
  | cons o os ih =>
    unfold takeFront
    split_ifs with h0 hle
    · simp [h0]
    · rw [ih, UInt64.toNat_sub_of_le _ _ hle, sizeSum_cons]
      have hle' := UInt64.le_iff_toNat_le.mp hle
      omega
    · have hle' : ¬ o.size.toNat ≤ q.toNat := fun h => hle (UInt64.le_iff_toNat_le.mpr h)
      have hq : q ≤ o.size := UInt64.le_iff_toNat_le.mpr (by omega)
      rw [sizeSum_cons, sizeSum_cons]
      dsimp only
      rw [UInt64.toNat_sub_of_le _ _ hq]
      omega

/-- What the loop leaves of the quantity, and what it takes from the cached total. -/
theorem consumeLoop_amounts (nodes : List Node) (byId : AList (fun _ : OrderKey => Locator))
    (remaining total : UInt64) :
    (consumeLoop byId remaining total nodes).2.2.1.toNat =
      remaining.toNat - sizeSum (nodes.map Node.order) ∧
    (consumeLoop byId remaining total nodes).2.2.2 =
      total - (remaining - (consumeLoop byId remaining total nodes).2.2.1) := by
  induction nodes generalizing byId remaining total with
  | nil => simp [consumeLoop]
  | cons top rest ih =>
    by_cases h0 : remaining = 0
    · simp [consumeLoop, h0]
    by_cases hle : top.order.size ≤ remaining
    · have hstep : consumeLoop byId remaining total (top :: rest) =
          consumeLoop (byId.erase top.order.key) (remaining - top.order.size)
            (total - top.order.size) rest := by
        simp [consumeLoop, h0, hle]
      obtain ⟨hrem, htot⟩ := ih (byId.erase top.order.key) (remaining - top.order.size)
        (total - top.order.size)
      rw [hstep]
      constructor
      · rw [hrem, UInt64.toNat_sub_of_le _ _ hle, List.map_cons, sizeSum_cons]
        omega
      · rw [htot]
        grind
    · have hlt : ¬ top.order.size.toNat ≤ remaining.toNat :=
        fun h => hle (UInt64.le_iff_toNat_le.mpr h)
      have hleft : top.order.size - remaining ≠ 0 := fun he => hle (le_of_eq (sub_eq_zero.mp he))
      constructor
      · simp [consumeLoop, h0, hle, hleft]
        omega
      · simp [consumeLoop, h0, hle, hleft]

variable (b : OrderBook) (s : Side) (p : Price) (qty : UInt64)

/-- The quantity taken is what there is, up to the quantity asked for. -/
theorem consumed_toNat :
    (b.consumeAtLevel s p qty).2.toNat = min qty.toNat (sizeSum (b.queue s p)) := by
  obtain ⟨hnone, he⟩ | ⟨l, hl, -, he⟩ := consumeAtLevel_cases b s p qty <;> rw [he]
  · rcases hnone with hnone | rfl
    · simp [queue, hnone]
    · simp
  · obtain ⟨hrem, -⟩ := consumeLoop_amounts l.orders b.byId qty l.totalSize
    rw [queue_of_findLevel hl]
    dsimp only
    have hle : (consumeLoop b.byId qty l.totalSize l.orders).2.2.1 ≤ qty := by
      rw [UInt64.le_iff_toNat_le, hrem]
      omega
    rw [UInt64.toNat_sub_of_le _ _ hle, hrem]
    omega

/-- A level that is not emptied loses the quantity taken from its cached total. -/
theorem levelSize_consumeAtLevel (h : b.WF) (s' : Side) (p' : Price) :
    (b.consumeAtLevel s p qty).1.levelSize s' p' =
      if s' = s ∧ p' = p then
        (if takeFront qty (b.queue s p) = [] then 0
          else b.levelSize s p - (b.consumeAtLevel s p qty).2)
      else b.levelSize s' p' := by
  obtain ⟨hnone, he⟩ | ⟨l, hl, h0, he⟩ := consumeAtLevel_cases b s p qty <;> rw [he]
  · split_ifs with hsp hempty
    · obtain ⟨rfl, rfl⟩ := hsp
      rcases hnone with hnone | rfl
      · simp [levelSize, hnone]
      · rw [takeFront_zero] at hempty
        exact h.levelSize_eq_zero hempty
    · obtain ⟨rfl, rfl⟩ := hsp
      simp
    · rfl
  · rw [levelSize_relevel]
    obtain ⟨-, htot⟩ := consumeLoop_amounts l.orders b.byId qty l.totalSize
    have hmap := (consumeLoop_spec l.orders b.byId qty l.totalSize).1
    have hiff : (consumeLoop b.byId qty l.totalSize l.orders).2.1 = [] ↔
        takeFront qty (b.queue s p) = [] := by
      rw [queue_of_findLevel hl, ← hmap, List.map_eq_nil_iff]
    have hsize : b.levelSize s p = l.totalSize := by simp [levelSize, hl]
    split_ifs with hsp hempty hempty' hempty'
    · rfl
    · exact absurd (hiff.mp hempty) hempty'
    · exact absurd (hiff.mpr hempty') hempty
    · rw [hsize]
      exact htot
    · rfl

theorem total_consumeAtLevel {b : OrderBook} (h : b.WF) (s : Side) (p : Price) (qty : UInt64)
    (he : (b.levelSize s p).toNat = sizeSum (b.queue s p)) :
    ((b.consumeAtLevel s p qty).1.levelSize s p).toNat =
      sizeSum ((b.consumeAtLevel s p qty).1.queue s p) := by
  rw [levelSize_consumeAtLevel b s p qty h, queue_consumeAtLevel]
  simp only [and_self, if_true]
  split_ifs with hempty
  · simp [hempty]
  · have hcons := consumed_toNat b s p qty
    have hle : (b.consumeAtLevel s p qty).2 ≤ b.levelSize s p := by
      rw [UInt64.le_iff_toNat_le]
      omega
    rw [UInt64.toNat_sub_of_le _ _ hle, sizeSum_takeFront]
    omega

theorem exact_consumeAtLevel {b : OrderBook} (h : b.WF) (he : b.Exact) (s : Side) (p : Price)
    (qty : UInt64) : (b.consumeAtLevel s p qty).1.Exact := by
  intro s' p'
  by_cases hsp : s' = s ∧ p' = p
  · obtain ⟨rfl, rfl⟩ := hsp
    exact total_consumeAtLevel h s' p' qty (he s' p')
  · rw [levelSize_consumeAtLevel b s p qty h, queue_consumeAtLevel, if_neg hsp, if_neg hsp]
    exact he s' p'

end Consumption

section Runs
variable {b : OrderBook}

theorem exact_congr (he : b.Exact) {b' : OrderBook} (hladder : b'.ladder = b.ladder) :
    b'.Exact := by
  intro s p
  have h := he s p
  simp only [levelSize, queue, findLevel, hladder] at h ⊢
  exact h

theorem exact_applyTrade (h : b.WF) (he : b.Exact) (tradePrice : Price) (qty : UInt64)
    (aggr : Aggressor) : (b.applyTrade tradePrice qty aggr).1.Exact := by
  obtain ⟨-, ht⟩ | ⟨s, -, -, ht⟩ := applyTrade_cases b tradePrice qty aggr <;> rw [ht]
  · exact he
  · exact exact_consumeAtLevel h he s tradePrice qty

theorem exact_applyAddScoped (h : b.WF) (he : b.Exact) (o : Order) (scope : FeedScope)
    (idMissing : Bool) (hfit : (b.applyAddScoped o scope idMissing).1.SumsFit) :
    (b.applyAddScoped o scope idMissing).1.Exact := by
  have heq : b.applyAddScoped o scope idMissing =
      (b.scopedCopy o scope idMissing).1.addImpl (b.scopedCopy o scope idMissing).2 := rfl
  obtain ⟨m, hm⟩ := scopedCopy_book b o scope idMissing
  have hwf : WF { b with synthCounters := m } := h.congr rfl rfl rfl
  have hex : Exact { b with synthCounters := m } := exact_congr he rfl
  rw [heq, hm] at hfit ⊢
  exact exact_addImpl hwf hex _ hfit

theorem exact_applySnapshotPerOrder (orders : List Order)
    (hfit : ∀ os, os <+: orders → (b.applySnapshotPerOrder os).SumsFit) :
    (b.applySnapshotPerOrder orders).WF ∧ (b.applySnapshotPerOrder orders).Exact := by
  induction orders using List.reverseRecOn with
  | nil =>
    refine ⟨wf_clearPerOrderUnlocked b, ?_⟩
    intro s p
    simp [applySnapshotPerOrder, clearPerOrderUnlocked, levelSize, queue, findLevel]
  | append_singleton os o ih =>
    have hstep : b.applySnapshotPerOrder (os ++ [o]) =
        ((b.applySnapshotPerOrder os).addImpl o).1 := by
      simp [applySnapshotPerOrder, List.foldl_append]
    have hlast := hfit (os ++ [o]) (List.prefix_refl _)
    obtain ⟨hwf, hex⟩ := ih (fun os' hos' => hfit os' (hos'.trans (List.prefix_append _ _)))
    rw [hstep] at hlast ⊢
    exact ⟨addImpl_wf hwf o, exact_addImpl hwf hex o hlast⟩

theorem exact_apply (h : b.WF) (he : b.Exact) (op : BookOp) (hfit : b.Fits op) :
    (b.apply op).Exact := by
  cases op with
  | add o => exact exact_addImpl h he _ hfit
  | addScoped o scope idMissing => exact exact_applyAddScoped h he o scope idMissing hfit
  | addGetKey o scope idMissing => exact exact_applyAddScoped h he o scope idMissing hfit
  | update id newPrice newSize => exact exact_updateImpl h he _ newPrice newSize hfit
  | updateKey key newPrice newSize => exact exact_updateImpl h he key newPrice newSize hfit
  | delete id => exact exact_deleteImpl h he _
  | deleteKey key => exact exact_deleteImpl h he key
  | priority id newPriority => exact exact_priorityImpl h he _ newPriority
  | priorityKey key newPriority => exact exact_priorityImpl h he key newPriority
  | trade tradePrice qty aggr => exact exact_applyTrade h he tradePrice qty aggr
  | snapshotPerOrder orders => exact (exact_applySnapshotPerOrder orders hfit).2
  | snapshotAggregated levels =>
    exact exact_congr he (congrArg OrderBook.ladder (applySnapshotAggregated_perOrder b levels) :)
  | levelSummary side price totalSize orderCount =>
    have hp := applyLevelSummary_perOrder b side price totalSize orderCount
    exact exact_congr he (congrArg OrderBook.ladder hp :)

end Runs

section Untouched
variable {b : OrderBook}

theorem locate_eq_some {k : OrderKey} {loc : Locator} (hk : b.byId.lookup k = some loc) :
    b.locate k = some (loc.side, loc.price) := by simp [locate, hk]

theorem findLevel_deleteImpl (h : b.WF) (k : OrderKey) {s : Side} {p : Price}
    (hsp : b.locate k ≠ some (s, p)) : (b.deleteImpl k).1.findLevel s p = b.findLevel s p := by
  obtain ⟨-, hd⟩ | ⟨loc, l, n, hk, hl, hn, ha, hkey, hd⟩ := deleteImpl_cases h k <;> rw [hd]
  rw [locate_eq_some hk] at hsp
  rw [dropKey_findLevel, if_neg]
  rintro ⟨rfl, rfl⟩
  exact hsp rfl

/-- An update touches the level of its order and, on that side, the level of the new price. -/
theorem findLevel_updateImpl (h : b.WF) (k : OrderKey) (newPrice : Option Price)
    (newSize : Option UInt64) {s : Side} {p : Price} (hsp : b.locate k ≠ some (s, p))
    (hnew : ∀ q, b.locate k = some (s, q) → newPrice ≠ some p) :
    (b.updateImpl k newPrice newSize).1.findLevel s p = b.findLevel s p := by
  obtain ⟨-, hu⟩ | ⟨loc, l, n, hk, hl, hn, ha, hkey, hcase⟩ :=
    updateImpl_cases h k newPrice newSize
  · rw [hu]
  rw [locate_eq_some hk] at hsp hnew
  have hne : ¬ (s = loc.side ∧ p = loc.price) := by
    rintro ⟨rfl, rfl⟩
    exact hsp rfl
  obtain ⟨-, hu⟩ | ⟨-, -, -, hu⟩ | ⟨-, -, -, hu⟩ | ⟨-, hpr, hu⟩ := hcase <;> rw [hu]
  · rw [dropKey_findLevel, if_neg hne]
  · rw [findLevel_setLevel, if_neg hne]
  · have hmove : ∀ (o : Order), (b.moveKey k loc l n.order.size o).findLevel s p =
        ((b.dropKey k loc l n.order.size).pushBack loc.side o.price o).findLevel s p :=
      fun _ => rfl
    rw [hmove]
    have hnew' : ¬ (s = loc.side ∧ p = newPrice.getD n.order.price) := by
      rintro ⟨rfl, rfl⟩
      cases newPrice with
      | none => exact hpr rfl
      | some q => exact hnew loc.price rfl rfl
    have hpush := findLevel_setLevel (b.dropKey k loc l n.order.size) loc.side
      (newPrice.getD n.order.price)
    exact (hpush _ s p).trans (by rw [if_neg hnew', dropKey_findLevel, if_neg hne])

/-- A priority change touches no total. -/
theorem levelSize_priorityImpl (h : b.WF) (k : OrderKey) (newPriority : UInt64) (s : Side)
    (p : Price) : (b.priorityImpl k newPriority).1.levelSize s p = b.levelSize s p := by
  obtain ⟨-, hu⟩ | ⟨loc, l, n, hk, hl, hn, ha, hkey, ⟨-, hu⟩ | ⟨-, hu⟩⟩ :=
    priorityImpl_cases h k newPriority <;> rw [hu]
  rw [levelSize_setLevel]
  split_ifs with hsp
  · obtain ⟨rfl, rfl⟩ := hsp
    simp [levelSize, hl]
  · rfl

theorem findLevel_consumeAtLevel (b : OrderBook) (s : Side) (p : Price) (qty : UInt64) {s' : Side}
    {p' : Price} (hsp : ¬ (s' = s ∧ p' = p)) :
    (b.consumeAtLevel s p qty).1.findLevel s' p' = b.findLevel s' p' := by
  obtain ⟨-, he⟩ | ⟨l, -, -, he⟩ := consumeAtLevel_cases b s p qty <;> rw [he]
  rw [findLevel_relevel, if_neg hsp]
  rfl

end Untouched

end OrderBook
end GmaEngine
