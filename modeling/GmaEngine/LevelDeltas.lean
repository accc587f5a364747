import GmaEngine.DeltaPublication

/-!
# Level deltas of per-order calls

Updates, deletes, priority changes and trades probe every level that they can change, so
their deltas list exactly the changed levels. An add probes only the level it adds to: it
misses the level from which it first removes an order resting under the same key.
-/

namespace GmaEngine

namespace OrderBook

def PositiveSizes (b : OrderBook) : Prop := ∀ s p, ∀ o ∈ b.queue s p, 0 < o.size

theorem positiveSizes_iff (b : OrderBook) : b.PositiveSizes ↔
    (∀ l ∈ (b.ladder .bid).toList, ∀ n ∈ l.2.orders, 0 < n.order.size) ∧
      ∀ l ∈ (b.ladder .ask).toList, ∀ n ∈ l.2.orders, 0 < n.order.size := by
  have hside : ∀ s, (∀ p, ∀ o ∈ b.queue s p, 0 < o.size) ↔
      ∀ l ∈ (b.ladder s).toList, ∀ n ∈ l.2.orders, 0 < n.order.size := by
    intro s
    rw [forall_mem_toList_iff]
    constructor
    · intro h p l hl n hn
      exact h p n.order (mem_queue.mpr ⟨n, ⟨l, hl, hn⟩, rfl⟩)
    · intro h p o ho
      obtain ⟨n, ⟨l, hl, hn⟩, rfl⟩ := mem_queue.mp ho
      exact h p l hl n hn
  exact Side.forall_iff.trans (and_congr (hside .bid) (hside .ask))

instance (b : OrderBook) : Decidable b.PositiveSizes := decidable_of_iff' _ b.positiveSizes_iff

theorem SameTotals.refl (b : OrderBook) : b.SameTotals b := fun _ _ => rfl

theorem PositiveSizes.queue_eq_nil {b : OrderBook} (h : b.PositiveSizes) {s : Side} {p : Price}
    (hsum : sizeSum (b.queue s p) = 0) : b.queue s p = [] := by
  cases hq : b.queue s p with
  | nil => rfl
  | cons o os =>
    have ho := h s p o (by simp [hq])
    rw [UInt64.lt_iff_toNat_lt, UInt64.toNat_zero] at ho
    rw [hq, sizeSum_cons] at hsum
    omega

theorem levelSize_eq_of_findLevel {b b' : OrderBook} {s : Side} {p : Price}
    (h : b'.findLevel s p = b.findLevel s p) : b'.levelSize s p = b.levelSize s p := by
  rw [levelSize, levelSize, h]

/-- A total that a trade changes is a nonzero one at its price, and the trade reports it. -/
theorem trade_touches {b : OrderBook} (h : b.WF) (he : b.Exact) (hpos : b.PositiveSizes)
    (tp : Price) (qty : UInt64) (aggr : Aggressor) (s : Side) (p : Price)
    (hne : (b.applyTrade tp qty aggr).1.levelSize s p ≠ b.levelSize s p) :
    p = tp ∧ 0 < b.levelSize s p ∧ (b.applyTrade tp qty aggr).2 = true := by
  obtain ⟨-, ht⟩ | ⟨s', hs, h0, ht⟩ := applyTrade_cases b tp qty aggr <;> rw [ht] at hne ⊢
  · exact absurd rfl hne
  have hsp : s = s' ∧ p = tp := by
    by_contra hsp
    exact hne (levelSize_eq_of_findLevel (findLevel_consumeAtLevel b s' tp qty hsp))
  obtain ⟨rfl, rfl⟩ := hsp
  have hsum : sizeSum (b.queue s p) ≠ 0 := by
    intro hsum
    have hq := hpos.queue_eq_nil hsum
    rw [levelSize_consumeAtLevel b s p qty h, hq] at hne
    simp [takeFront, h.levelSize_eq_zero hq] at hne
  have hsize := he s p
  have hcons := consumed_toNat b s p qty
  have hq : qty.toNat ≠ 0 := fun hq => h0 (UInt64.toNat_inj.mp hq)
  refine ⟨rfl, ?_, ?_⟩
  · rw [UInt64.lt_iff_toNat_lt, UInt64.toNat_zero]
    omega
  · rw [decide_eq_true_eq, UInt64.lt_iff_toNat_lt, UInt64.toNat_zero]
    omega

end OrderBook

namespace OrderBookManager
variable {D : Type}
open OrderBook

/-- What a call on `symbol` that takes its book from `b` to `b'` has to publish: at most one
delta, which lists exactly the changed levels; one if some level changed, and none if neither
a level nor the top of book did. -/
structure DeltasExact (symbol : String) (b b' : OrderBook) (deltas : List BookDelta) : Prop where
  single : deltas.length ≤ 1
  named : ∀ d ∈ deltas, d.symbol = symbol
  exact : ∀ d ∈ deltas, LevelsExact b b' d.levels
  complete : ¬ b.SameTotals b' → deltas ≠ []
  silent : b.SameTotals b' → b.SameTop b' → deltas = []

theorem deltasExact_nil (symbol : String) {b b' : OrderBook} (h : b.SameTotals b') :
    DeltasExact symbol b b' [] :=
  ⟨by simp, by simp, by simp, fun hne => absurd h hne, fun _ _ => rfl⟩

theorem newTop_eq_none {b b' : OrderBook} (h : b.SameTop b') (s : Side) : newTop b b' s = none := by
  rw [newTop, if_pos (h s)]

/-- A mutation whose candidates cover its changes publishes exactly them. -/
theorem deltasExact_mutateWithDelta (m : OrderBookManager D) (symbol : String)
    (candidates : List (Side × Price)) (mutator : OrderBook → OrderBook × Bool)
    (hcover : ∀ s p, (mutator (m.book symbol)).1.levelSize s p ≠ (m.book symbol).levelSize s p →
      (s, p) ∈ candidates)
    (hfalse : (mutator (m.book symbol)).2 = false →
      (m.book symbol).SameTotals (mutator (m.book symbol)).1) :
    DeltasExact symbol (m.book symbol) (mutator (m.book symbol)).1
      (m.mutateWithDelta symbol candidates mutator).deltas := by
  generalize hx : mutator (m.book symbol) = x at hcover hfalse
  obtain ⟨b', changed⟩ := x
  cases changed with
  | false =>
    rw [deltas_mutateWithDelta_of_false candidates hx]
    exact deltasExact_nil symbol (hfalse rfl)
  | true =>
    have hexact := (levelsExact_changedLevels_iff (m.book symbol) b' candidates).mpr hcover
    have hnil := deltas_mutateWithDelta_eq_nil candidates hx
    have hmem := fun d => mem_deltas_mutateWithDelta candidates (d := d) hx
    refine ⟨?_, ?_, ?_, ?_, ?_⟩
    · cases hd : (m.mutateWithDelta symbol candidates mutator).deltas with
      | nil => simp
      | cons d ds =>
        have h := (hmem d (by simp [hd])).1
        rw [hd] at h
        simp [(List.cons.inj h).2]
    · intro d hd
      rw [mutateWithDelta_eq, hx, if_pos rfl, maybePublishDelta] at hd
      split_ifs at hd
      · cases hd
      · rw [List.mem_singleton.mp hd]
    · intro d hd
      rw [(hmem d hd).2.1]
      exact hexact
    · intro hne hd
      exact hne (hexact.eq_nil_iff.mp (hnil.mp hd).1)
    · intro hsame htop
      exact hnil.mpr ⟨hexact.eq_nil_iff.mpr hsame, newTop_eq_none htop .bid,
        newTop_eq_none htop .ask⟩

section
variable {m : OrderBookManager D} {symbol : String}

theorem deltasExact_onDeleteKey (h : (m.book symbol).WF) (key : OrderKey) :
    DeltasExact symbol (m.book symbol) ((m.onDeleteKey symbol key).mgr.book symbol)
      (m.onDeleteKey symbol key).deltas := by
  unfold onDeleteKey
  split_ifs
  · exact deltasExact_nil symbol (.refl _)
  · rw [book_mutateWithDelta, if_pos rfl]
    refine deltasExact_mutateWithDelta m symbol _ (fun b => b.applyDeleteKey key) ?_ ?_
    · intro s p hne
      by_contra hmem
      have hloc : (m.book symbol).locate key ≠ some (s, p) := fun he => hmem (by simp [he])
      exact hne (levelSize_eq_of_findLevel (findLevel_deleteImpl h key hloc))
    · intro hf
      obtain ⟨-, he⟩ | ⟨loc, l, n, -, -, -, -, -, he⟩ := deleteImpl_cases h key
      · rw [applyDeleteKey, he]
        exact .refl _
      · rw [applyDeleteKey, he] at hf
        cases hf

theorem deltasExact_onPriorityKey (h : (m.book symbol).WF) (key : OrderKey)
    (newPriority : UInt64) :
    DeltasExact symbol (m.book symbol) ((m.onPriorityKey symbol key newPriority).mgr.book symbol)
      (m.onPriorityKey symbol key newPriority).deltas := by
  unfold onPriorityKey
  split_ifs
  · exact deltasExact_nil symbol (.refl _)
  · rw [book_mutateWithDelta, if_pos rfl]
    have hsame := levelSize_priorityImpl h key newPriority
    refine deltasExact_mutateWithDelta m symbol _ (fun b => b.applyPriorityKey key newPriority)
      ?_ ?_
    · intro s p hne
      exact absurd (hsame s p) hne
    · intro _
      exact hsame

variable [Double D]

theorem deltasExact_onUpdateKey (h : (m.book symbol).WF) (key : OrderKey) (newPrice : Option D)
    (newSize : Option UInt64) :
    DeltasExact symbol (m.book symbol)
      ((m.onUpdateKey symbol key newPrice newSize).mgr.book symbol)
      (m.onUpdateKey symbol key newPrice newSize).deltas := by
  unfold onUpdateKey
  split_ifs
  · exact deltasExact_nil symbol (.refl _)
  · exact deltasExact_nil symbol (.refl _)
  · exact deltasExact_nil symbol (.refl _)
  · exact deltasExact_nil symbol (.refl _)
  · rw [book_mutateWithDelta, if_pos rfl]
    generalize newPrice.map (m.toTicks symbol) = p
    refine deltasExact_mutateWithDelta m symbol _ (fun b => b.applyUpdateKey key p newSize) ?_ ?_
    · intro s q hne
      by_contra hmem
      have hloc : (m.book symbol).locate key ≠ some (s, q) :=
        fun he => hmem (by simp [updateCandidates, he])
      have hnew : ∀ q', (m.book symbol).locate key = some (s, q') → p ≠ some q := by
        rintro q' he rfl
        exact hmem (by simp [updateCandidates, he])
      exact hne (levelSize_eq_of_findLevel (findLevel_updateImpl h key p newSize hloc hnew))
    · intro hf
      obtain ⟨-, he⟩ | ⟨loc, l, n, -, -, -, -, -, hcase⟩ := updateImpl_cases h key p newSize
      · rw [applyUpdateKey, he]
        exact .refl _
      · obtain ⟨-, he⟩ | ⟨-, -, -, he⟩ | ⟨-, -, -, he⟩ | ⟨-, -, he⟩ := hcase <;>
          rw [applyUpdateKey, he] at hf ⊢
        · cases hf
        · exact .refl _
        · cases hf
        · cases hf

/-- Under exact totals and positive sizes, a trade finds its level among the probed ones. -/
theorem deltasExact_onTrade (h : (m.book symbol).WF) (he : (m.book symbol).Exact)
    (hpos : (m.book symbol).PositiveSizes) (tradePrice : D) (size : UInt64) (aggr : Aggressor) :
    DeltasExact symbol (m.book symbol)
      ((m.onTrade symbol tradePrice size aggr).mgr.book symbol)
      (m.onTrade symbol tradePrice size aggr).deltas := by
  unfold onTrade
  split_ifs
  · exact deltasExact_nil symbol (.refl _)
  · exact deltasExact_nil symbol (.refl _)
  rw [book_mutateWithDelta, if_pos rfl]
  generalize m.toTicks symbol tradePrice = tp
  have htouched := trade_touches h he hpos tp size aggr
  refine deltasExact_mutateWithDelta m symbol _ (fun b => b.applyTrade tp size aggr) ?_ ?_
  · intro s p hne
    obtain ⟨rfl, hpos, -⟩ := htouched s p hne
    cases s <;> simp [tradeCandidates, hpos]
  · intro hf s p
    by_contra hne
    rw [(htouched s p hne).2.2] at hf
    cases hf

/-- Both overloads of `onUpdate`, `onDelete` and `onPriority`, and `onTrade`. -/
inductive OrderCall (symbol : String) : ManagerOp D → Prop
  | update (id : UInt64) (scope : FeedScope) (newPrice : Option D) (newSize : Option UInt64)
      (synthetic : Bool) : OrderCall symbol (.update symbol id scope newPrice newSize synthetic)
  | updateKey (key : OrderKey) (newPrice : Option D) (newSize : Option UInt64) :
      OrderCall symbol (.updateKey symbol key newPrice newSize)
  | delete (id : UInt64) (scope : FeedScope) (synthetic : Bool) :
      OrderCall symbol (.delete symbol id scope synthetic)
  | deleteKey (key : OrderKey) : OrderCall symbol (.deleteKey symbol key)
  | priority (id : UInt64) (scope : FeedScope) (newPriority : UInt64) (synthetic : Bool) :
      OrderCall symbol (.priority symbol id scope newPriority synthetic)
  | priorityKey (key : OrderKey) (newPriority : UInt64) :
      OrderCall symbol (.priorityKey symbol key newPriority)
  | trade (tradePrice : D) (size : UInt64) (aggr : Aggressor) :
      OrderCall symbol (.trade symbol tradePrice size aggr)

theorem deltasExact_exec {op : ManagerOp D} (hop : OrderCall symbol op) (h : (m.book symbol).WF)
    (he : (m.book symbol).Exact) (hpos : (m.book symbol).PositiveSizes) :
    DeltasExact symbol (m.book symbol) ((m.exec op).1.book symbol) (m.exec op).2 := by
  cases hop with
  | update id scope newPrice newSize synthetic =>
    exact deltasExact_onUpdateKey h _ newPrice newSize
  | updateKey key newPrice newSize => exact deltasExact_onUpdateKey h key newPrice newSize
  | delete id scope synthetic => exact deltasExact_onDeleteKey h _
  | deleteKey key => exact deltasExact_onDeleteKey h key
  | priority id scope newPriority synthetic => exact deltasExact_onPriorityKey h _ newPriority
  | priorityKey key newPriority => exact deltasExact_onPriorityKey h key newPriority
  | trade tradePrice size aggr => exact deltasExact_onTrade h he hpos tradePrice size aggr

/-- In a reachable manager with positive sizes and fitting level sums, updates, deletes,
priority changes and trades publish exactly the levels they change; and over every run the
deltas of a symbol are numbered from one upwards. -/
theorem order_deltas_exact_and_numbered :
    (∀ (ops : List (ManagerOp D)) (op : ManagerOp D) (symbol : String), FitsRun symbol ops →
      ((run ops).1.book symbol).PositiveSizes → OrderCall symbol op →
      DeltasExact symbol ((run ops).1.book symbol) (((run ops).1.exec op).1.book symbol)
        ((run ops).1.exec op).2) ∧
    ∀ (ops : List (ManagerOp D)) (symbol : String),
      ((run ops).2.filter (fun d => d.symbol = symbol)).map BookDelta.seq =
        (List.range ((run ops).2.filter (fun d => d.symbol = symbol)).length).map
          (fun i => UInt64.ofNat (i + 1)) := by
  constructor
  · intro ops op symbol hfit hpos hop
    exact deltasExact_exec hop (run_wf ops symbol) (run_exact ops symbol hfit) hpos
  · intro ops symbol
    exact (run_seq ops symbol).1

end

/-- One bid of ten at price 100 rests in the book of `AAPL`. -/
def restingBid : List (ManagerOp ExactDouble) := [.add "AAPL" 1 .bid (.fin 100) 10 0 {} false]

theorem fitsRun_restingBid : FitsRun "AAPL" restingBid :=
  ⟨⟨by decide +kernel, fun _ _ h => nomatch h⟩, trivial⟩

theorem order_deltas_exact_restingBid :
    DeltasExact "AAPL" ((run restingBid).1.book "AAPL")
      (((run restingBid).1.exec (.trade "AAPL" (.fin 100) 4 .sell)).1.book "AAPL")
      ((run restingBid).1.exec (.trade "AAPL" (.fin 100) 4 .sell)).2 :=
  order_deltas_exact_and_numbered.1 restingBid _ "AAPL" fitsRun_restingBid
    (by decide +kernel) (.trade _ _ _)

end OrderBookManager

namespace OrderBook

/-- The key under which a scoped add files its order. -/
def addKey (b : OrderBook) (id : UInt64) (scope : FeedScope) (idMissing : Bool) : OrderKey :=
  if idMissing ∨ id = 0 then makeKey (b.nextSyntheticId scope).2 scope true
  else makeKey id scope false

section
variable {b : OrderBook} (o : Order) (scope : FeedScope) (idMissing : Bool)

theorem scopedCopy_spec (hsyn : o.synthetic = false) :
    (b.scopedCopy o scope idMissing).2.key = b.addKey o.id scope idMissing ∧
      (b.scopedCopy o scope idMissing).2.side = o.side ∧
      (b.scopedCopy o scope idMissing).2.price = o.price ∧
      (b.scopedCopy o scope idMissing).2.size = o.size := by
  by_cases hid : idMissing ∨ o.id = 0
  · simp [scopedCopy, addKey, hid, makeKey, Order.key]
  · simp [scopedCopy, addKey, hid, makeKey, Order.key, hsyn]

/-- A scoped add removes what rests under its key and appends its copy of the order. -/
theorem queue_applyAddScoped (h : b.WF) (s : Side) (p : Price) :
    (b.applyAddScoped o scope idMissing).1.queue s p =
      KeyedQueues.removeKey Order.key (b.scopedCopy o scope idMissing).2.key (b.queue s p) ++
        if s = (b.scopedCopy o scope idMissing).2.side ∧
            p = (b.scopedCopy o scope idMissing).2.price then
          [(b.scopedCopy o scope idMissing).2] else [] := by
  obtain ⟨m, hm⟩ := scopedCopy_book b o scope idMissing
  have hwf : WF { b with synthCounters := m } := h.congr rfl rfl rfl
  have heq : b.applyAddScoped o scope idMissing =
      (b.scopedCopy o scope idMissing).1.addImpl (b.scopedCopy o scope idMissing).2 := rfl
  rw [heq, hm]
  exact queue_addImpl hwf _ s p

end

end OrderBook

namespace OrderBookManager
variable {D : Type} [Double D]
open OrderBook

/-- One delta with exactly the changed levels, or none when no level changed. -/
def AddDeltasExact (b b' : OrderBook) (deltas : List BookDelta) : Prop :=
  (b.SameTotals b' → deltas = []) ∧
    (¬ b.SameTotals b' → ∃ d, deltas = [d] ∧ LevelsExact b b' d.levels)

section Added
variable {b b' : OrderBook} {o : Order}

/-- `b'` is `b` after an add of `o`: the order resting under its key is gone, and `o` stands
last at its place. -/
def Added (b b' : OrderBook) (o : Order) : Prop :=
  ∀ s p, b'.queue s p = KeyedQueues.removeKey Order.key o.key (b.queue s p) ++
    if s = o.side ∧ p = o.price then [o] else []

theorem sameTotal_iff (he : b.Exact) (he' : b'.Exact) (s : Side) (p : Price) :
    b'.levelSize s p = b.levelSize s p ↔ sizeSum (b'.queue s p) = sizeSum (b.queue s p) := by
  rw [← he s p, ← he' s p, UInt64.toNat_inj]

/-- Away from the place of the new order, the total stays unless a sized order leaves. -/
theorem Added.elsewhere (hadd : Added b b' o) (h : b.WF) (he : b.Exact) (he' : b'.Exact)
    {s : Side} {p : Price} (hsp : ¬ (s = o.side ∧ p = o.price)) :
    b'.levelSize s p = b.levelSize s p ↔ ∀ x ∈ b.queue s p, x.key = o.key → x.size = 0 := by
  have hq := hadd s p
  rw [if_neg hsp, List.append_nil] at hq
  rw [sameTotal_iff he he', hq]
  constructor
  · intro hsum x hx hk
    have hrem := sizeSum_remove h hx
    rw [hk] at hrem
    exact UInt64.toNat_inj.mp (by rw [UInt64.toNat_zero]; omega)
  · intro hzero
    by_cases hex : ∃ x ∈ b.queue s p, x.key = o.key
    · obtain ⟨x, hx, hk⟩ := hex
      have hrem := sizeSum_remove h hx
      rw [hk, hzero x hx hk, UInt64.toNat_zero] at hrem
      omega
    · have hnone : ∀ x ∈ b.queue s p, x.key ≠ o.key := fun x hx hk => hex ⟨x, hx, hk⟩
      rw [KeyedQueues.removeKey_eq_self hnone]

/-- An add that changes no total replaces an order in its own level, and so changes no top. -/
theorem Added.sameTop (hadd : Added b b' o) (h : b.WF) (h' : b'.WF) (he : b.Exact)
    (he' : b'.Exact) (hpos : 0 < o.size) (hsame : b.SameTotals b') : b.SameTop b' := by
  have hx : ∃ x ∈ b.queue o.side o.price, x.key = o.key := by
    by_contra hex
    have hnone : ∀ x ∈ b.queue o.side o.price, x.key ≠ o.key := fun x hx hk => hex ⟨x, hx, hk⟩
    have hsum := (sameTotal_iff he he' o.side o.price).mp (hsame o.side o.price)
    rw [hadd, KeyedQueues.removeKey_eq_self hnone] at hsum
    rw [UInt64.lt_iff_toNat_lt, UInt64.toNat_zero] at hpos
    simp only [and_self, if_true, sizeSum_append, sizeSum_cons, sizeSum_nil] at hsum
    omega
  obtain ⟨x, hx, hk⟩ := hx
  have hnil : ∀ s p, b'.queue s p = [] ↔ b.queue s p = [] := by
    intro s p
    rw [hadd]
    by_cases hsp : s = o.side ∧ p = o.price
    · obtain ⟨rfl, rfl⟩ := hsp
      simp [List.ne_nil_of_mem hx]
    · have hnone : ∀ y ∈ b.queue s p, y.key ≠ o.key := by
        intro y hy hyk
        obtain ⟨hs, hp, -⟩ := h.queue_key_unique hy hx (hyk.trans hk.symm)
        exact hsp ⟨hs, hp⟩
      rw [if_neg hsp, List.append_nil, KeyedQueues.removeKey_eq_self hnone]
  intro s
  apply top_eq_of_levels _ (hsame s)
  intro p
  have hiff : b'.findLevel s p = none ↔ b.findLevel s p = none := by
    rw [h.findLevel_eq_none, h'.findLevel_eq_none, hnil]
  rw [Bool.eq_iff_iff, ← not_iff_not]
  simpa using hiff

omit [Double D] in
/-- The deltas of an add that probes only the level it adds to. -/
theorem Added.deltas_iff (hadd : Added b b' o) (m : OrderBookManager D) (symbol : String)
    (mutator : OrderBook → OrderBook × Bool) (hb : m.book symbol = b)
    (hmut : mutator b = (b', true)) (h : b.WF) (h' : b'.WF) (he : b.Exact) (he' : b'.Exact)
    (hpos : 0 < o.size) :
    AddDeltasExact b b' (m.mutateWithDelta symbol [(o.side, o.price)] mutator).deltas ↔
      ∀ s p, ∀ x ∈ b.queue s p, x.key = o.key → (s = o.side ∧ p = o.price) ∨ x.size = 0 := by
  subst hb
  constructor
  · rintro ⟨-, hexact⟩ s p x hx hk
    by_contra hor
    obtain ⟨hsp, hsize⟩ := not_or.mp hor
    have hne : b'.levelSize s p ≠ (m.book symbol).levelSize s p :=
      fun hsame => hsize ((hadd.elsewhere h he he' hsp).mp hsame x hx hk)
    obtain ⟨d, hd, hlevels⟩ := hexact (fun hsame => hne (hsame s p))
    obtain ⟨-, hl, -⟩ := mem_deltas_mutateWithDelta [(o.side, o.price)] hmut (d := d) (by simp [hd])
    have hmem := (hlevels.2 ⟨s, p, b'.levelSize s p⟩).mpr ⟨hne, rfl⟩
    rw [hl, mem_changedLevels] at hmem
    exact hsp (by simpa [LevelDelta.place] using hmem.1)
  · intro hcond
    have hdeltas : DeltasExact symbol (m.book symbol) (mutator (m.book symbol)).1
        (m.mutateWithDelta symbol [(o.side, o.price)] mutator).deltas := by
      apply deltasExact_mutateWithDelta
      · intro s p hne
        by_contra hmem
        have hsp : ¬ (s = o.side ∧ p = o.price) := fun e => hmem (by simp [e])
        rw [hmut] at hne
        refine hne ((hadd.elsewhere h he he' hsp).mpr ?_)
        intro x hx hk
        exact (hcond s p x hx hk).resolve_left hsp
      · intro hf
        rw [hmut] at hf
        cases hf
    rw [hmut] at hdeltas
    refine ⟨?_, ?_⟩
    · intro hsame
      exact hdeltas.silent hsame (hadd.sameTop h h' he he' hpos hsame)
    · intro hne
      obtain ⟨d, hd⟩ := List.exists_mem_of_ne_nil _ (hdeltas.complete hne)
      exact ⟨d, (mem_deltas_mutateWithDelta _ hmut hd).1, hdeltas.exact d hd⟩

end Added

/-- An accepted add publishes exactly the levels it changes if and only if no order of
nonzero size rests under its key at another place. -/
theorem add_deltas_exact_iff (ops : List (ManagerOp D)) (symbol : String) (id : UInt64)
    (side : Side) (price : D) (size priority : UInt64) (scope : FeedScope) (idMissing : Bool)
    (op : ManagerOp D)
    (hop : op = .add symbol id side price size priority scope idMissing ∨
      op = .addGetKey symbol id side price size priority scope idMissing)
    (hstale : (run ops).1.isStale symbol = false)
    (hprice : (run ops).1.validatePrice symbol price = true) (hsize : validateSize size = true)
    (hfit : FitsRun symbol (ops ++ [op])) :
    AddDeltasExact ((run ops).1.book symbol) (((run ops).1.exec op).1.book symbol)
        ((run ops).1.exec op).2 ↔
      ∀ s p, ∀ o ∈ ((run ops).1.book symbol).queue s p,
        o.key = ((run ops).1.book symbol).addKey id scope idMissing →
        (s = side ∧ p = (run ops).1.toTicks symbol price) ∨ o.size = 0 := by
  obtain ⟨hfit, hlast⟩ := (along_concat _ {} ops op).mp hfit
  have h := run_wf ops symbol
  have h' := wf_exec (run_wf ops) op symbol
  have he := run_exact ops symbol hfit
  have he' := exact_exec h he op hlast
  generalize (run ops).1 = m at *
  have hside : validSide side = true := by cases side <;> rfl
  have hgate : m.gate symbol = false := hstale
  have hpos : 0 < size := by simpa [validateSize] using hsize
  generalize ho : m.addedOrder symbol id side price size priority = o at *
  have hplace : o.side = side ∧ o.price = m.toTicks symbol price ∧ o.size = size ∧ o.id = id ∧
      o.synthetic = false := by
    subst ho
    exact ⟨rfl, rfl, rfl, rfl, rfl⟩
  obtain ⟨hos, hop', hosz, hoid, hosyn⟩ := hplace
  -- both entry points run the same mutation
  have hout : m.exec op = (m.mutateWithDelta symbol [(o.side, o.price)]
      (fun b => b.applyAddScoped o scope idMissing)).effect := by
    rcases hop with rfl | rfl
    · simp [exec, onAdd, hgate, hside, hprice, hsize, ho, hos]
    · simp [exec, onAddGetKey, hgate, hside, hprice, hsize, ho, hos, Outcome.effect]
      exact ⟨rfl, rfl⟩
  obtain ⟨hkey, hs, hp, hsz⟩ := scopedCopy_spec (b := m.book symbol) o scope idMissing hosyn
  have hbook : (m.exec op).1.book symbol = ((m.book symbol).applyAddScoped o scope idMissing).1 := by
    rw [hout, Outcome.effect, book_mutateWithDelta, if_pos rfl]
  have hadd : Added (m.book symbol) ((m.exec op).1.book symbol)
      ((m.book symbol).scopedCopy o scope idMissing).2 := by
    intro s p
    rw [hbook]
    exact queue_applyAddScoped o scope idMissing h s p
  have hmut : (m.book symbol).applyAddScoped o scope idMissing =
      ((m.exec op).1.book symbol, true) := Prod.ext hbook.symm rfl
  have hiff := hadd.deltas_iff m symbol (fun b => b.applyAddScoped o scope idMissing) rfl hmut
    h h' he he' (by rw [hsz, hosz]; exact hpos)
  rw [hs, hp, hkey, hos, hop', hoid] at hiff
  rw [← hiff, hout, hos, hop']
  rfl

theorem add_deltas_exact_fresh :
    AddDeltasExact ((run restingBid).1.book "AAPL")
      (((run restingBid).1.exec (.add "AAPL" 2 .ask (.fin 101) 5 0 {} false)).1.book "AAPL")
      ((run restingBid).1.exec (.add "AAPL" 2 .ask (.fin 101) 5 0 {} false)).2 := by
  have hfit : FitsRun "AAPL" (restingBid ++ [.add "AAPL" 2 .ask (.fin 101) 5 0 {} false]) :=
    ⟨⟨by decide +kernel, fun _ _ h => nomatch h⟩, ⟨by decide +kernel, fun _ _ h => nomatch h⟩,
      trivial⟩
  have hiff := add_deltas_exact_iff restingBid "AAPL" 2 .ask (.fin 101) 5 0 {} false
    (.add "AAPL" 2 .ask (.fin 101) 5 0 {} false) (.inl rfl) (by decide +kernel)
    (by decide +kernel) (by decide +kernel) hfit
  refine hiff.mpr ?_
  intro s p o ho hk
  exact absurd hk ((run_wf restingBid "AAPL").queue_key_ne (by decide +kernel) s p o ho)

/-- The bid under id 1 is added again as an ask: the bid level loses its total, and the one
delta published names the ask level only. -/
theorem add_readd_misses_level :
    (run restingBid).1.isStale "AAPL" = false ∧
    (run restingBid).1.validatePrice "AAPL" (.fin 101) = true ∧
    FitsRun "AAPL" (restingBid ++ [.add "AAPL" 1 .ask (.fin 101) 5 0 {} false]) ∧
    ¬ AddDeltasExact ((run restingBid).1.book "AAPL")
      (((run restingBid).1.exec (.add "AAPL" 1 .ask (.fin 101) 5 0 {} false)).1.book "AAPL")
      ((run restingBid).1.exec (.add "AAPL" 1 .ask (.fin 101) 5 0 {} false)).2 := by
  have hfit : FitsRun "AAPL" (restingBid ++ [.add "AAPL" 1 .ask (.fin 101) 5 0 {} false]) :=
    ⟨⟨by decide +kernel, fun _ _ h => nomatch h⟩, ⟨by decide +kernel, fun _ _ h => nomatch h⟩,
      trivial⟩
  refine ⟨by decide +kernel, by decide +kernel, hfit, ?_⟩
  rintro ⟨-, hexact⟩
  have hbefore : ((run restingBid).1.book "AAPL").levelSize .bid ⟨1000000⟩ = 10 := by
    decide +kernel
  have hafter : (((run restingBid).1.exec (.add "AAPL" 1 .ask (.fin 101) 5 0 {} false)).1.book
      "AAPL").levelSize .bid ⟨1000000⟩ = 0 := by decide +kernel
  have hdeltas : ((run restingBid).1.exec (.add "AAPL" 1 .ask (.fin 101) 5 0 {} false)).2 =
      [⟨"AAPL", 2, [⟨.ask, ⟨1010000⟩, 5⟩], none, some (⟨1010000⟩, 5)⟩] := by decide +kernel
  have hne : (0 : UInt64) ≠ 10 := by decide
  obtain ⟨d, hd, hlevels⟩ := hexact (by
    intro hsame
    have h := hsame .bid ⟨1000000⟩
    rw [hbefore, hafter] at h
    exact hne h)
  rw [hdeltas] at hd
  obtain rfl := (List.cons.inj hd).1
  have hmem := (hlevels.2 ⟨.bid, ⟨1000000⟩, 0⟩).mpr (by
    rw [hbefore, hafter]
    exact ⟨hne, rfl⟩)
  revert hmem
  decide

end OrderBookManager
end GmaEngine
