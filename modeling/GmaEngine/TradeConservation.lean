import GmaEngine.LevelTotals

/-!
# Trades take from the front

A trade takes what it asks for, as far as there is, from the level at its price on the passive
side. The orders taken whole are a prefix of the queue and leave the index; the next one is
reduced in place; nothing else changes.
-/

namespace GmaEngine
open Std KeyedQueues

namespace OrderBook

/-- The first order of a queue with its size reduced. -/
def reduceFirst (x : UInt64) : List Order → List Order
  | [] => []
  | o :: later => { o with size := o.size - x } :: later

@[simp] theorem reduceFirst_zero (os : List Order) : reduceFirst 0 os = os := by
  cases os with
  | nil => rfl
  | cons o later => simp [reduceFirst]

/-- At the level of side `s` and price `p`, `b'` has lost the orders `gone` and the amount `x` of
the order after them, and is otherwise `b`. -/
structure Took (b b' : OrderBook) (s : Side) (p : Price) (gone kept : List Order) (x : UInt64) :
    Prop where
  before : b.queue s p = gone ++ kept
  after : b'.queue s p = reduceFirst x kept
  /-- The amount taken from the next order is nothing or leaves something of it. -/
  partly : x = 0 ∨ ∃ o later, kept = o :: later ∧ x < o.size
  index : ∀ k, b'.byId.lookup k = if k ∈ gone.map Order.key then none else b.byId.lookup k
  level : b'.findLevel s p = none ↔ b'.queue s p = []
  others : ∀ s' p', ¬ (s' = s ∧ p' = p) → b'.findLevel s' p' = b.findLevel s' p'
  rest : b'.rest = b.rest

@[simp] theorem length_reduceFirst (x : UInt64) (os : List Order) :
    (reduceFirst x os).length = os.length := by
  cases os with
  | nil => rfl
  | cons o later => rfl

/-- What is taken from the front, by induction on the queue: an exhausted order joins those
gone. -/
theorem takeFront_split (q : UInt64) (os : List Order) : ∃ gone kept x, os = gone ++ kept ∧
    takeFront q os = reduceFirst x kept ∧
    (x = 0 ∨ ∃ o later, kept = o :: later ∧ x < o.size) ∧
    sizeSum gone + x.toNat = min q.toNat (sizeSum os) := by
  induction os generalizing q with
  | nil => exact ⟨[], [], 0, rfl, by simp [takeFront, reduceFirst], .inl rfl, by simp⟩
  | cons o os ih =>
    unfold takeFront
    split_ifs with h0 hle
    · exact ⟨[], o :: os, 0, rfl, (reduceFirst_zero _).symm, .inl rfl, by simp [h0]⟩
    · obtain ⟨gone, kept, x, hsplit, htake, hpartly, hsum⟩ := ih (q - o.size)
      refine ⟨o :: gone, kept, x, by rw [hsplit]; rfl, htake, hpartly, ?_⟩
      have hle' := UInt64.le_iff_toNat_le.mp hle
      rw [UInt64.toNat_sub_of_le _ _ hle] at hsum
      rw [sizeSum_cons, sizeSum_cons]
      omega
    · have hlt : q < o.size := not_le.mp hle
      refine ⟨[], o :: os, q, rfl, rfl, .inr ⟨o, os, rfl, hlt⟩, ?_⟩
      have hlt' := UInt64.lt_iff_toNat_lt.mp hlt
      rw [sizeSum_cons, sizeSum_nil]
      omega

section Trade
variable {b : OrderBook}

theorem consumeAtLevel_took (h : b.WF) (s : Side) (p : Price) (qty : UInt64) :
    ∃ gone kept x, Took b (b.consumeAtLevel s p qty).1 s p gone kept x ∧
      sizeSum gone + x.toNat = min qty.toNat (sizeSum (b.queue s p)) := by
  have hwf := consumeAtLevel_wf h s p qty
  have hothers : ∀ s' p', ¬ (s' = s ∧ p' = p) →
      (b.consumeAtLevel s p qty).1.findLevel s' p' = b.findLevel s' p' :=
    fun s' p' hsp => findLevel_consumeAtLevel b s p qty hsp
  have hrest := consumeAtLevel_rest b s p qty
  obtain ⟨hnone, he⟩ | ⟨l, hl, -, he⟩ := consumeAtLevel_cases b s p qty
  · rw [he] at hwf hothers hrest ⊢
    refine ⟨[], b.queue s p, 0, ⟨rfl, (reduceFirst_zero _).symm, .inl rfl, by simp,
      hwf.findLevel_eq_none, hothers, hrest⟩, ?_⟩
    rcases hnone with hnone | rfl
    · simp [queue, hnone]
    · simp
  · obtain ⟨gone, kept, x, hsplit, htake, hpartly, hsum⟩ :=
      takeFront_split qty (l.orders.map Node.order)
    obtain ⟨hmap, pre, nodes, hnodes, hlook, hkept⟩ :=
      consumeLoop_spec l.orders b.byId qty l.totalSize
    have hqueue := queue_of_findLevel hl
    -- the nodes that the loop drops are those of the orders gone
    have hpre : pre.map Node.order = gone := by
      have hlen : nodes.length = kept.length := by
        have hident := congrArg List.length hkept
        have horders := congrArg List.length (hmap.trans htake)
        rw [List.length_map, List.length_map] at hident
        rw [List.length_map, length_reduceFirst] at horders
        omega
      rw [hnodes, List.map_append] at hsplit
      exact (List.append_inj' hsplit (by rw [List.length_map, hlen])).1
    rw [hqueue]
    refine ⟨gone, kept, x, ⟨hqueue.trans hsplit, ?_, hpartly, ?_, hwf.findLevel_eq_none, hothers,
      hrest⟩, hsum⟩
    · rw [queue_consumeAtLevel, if_pos ⟨rfl, rfl⟩, hqueue]
      exact htake
    · intro k
      rw [he, ← hpre, List.map_map]
      simpa using hlook k

/-- The sizes resting at the level, before and after. -/
theorem Took.conserves {b' : OrderBook} {s : Side} {p : Price} {gone kept : List Order}
    {x : UInt64} (h : Took b b' s p gone kept x) :
    sizeSum (b'.queue s p) + (sizeSum gone + x.toNat) = sizeSum (b.queue s p) := by
  have hkept : sizeSum (reduceFirst x kept) + x.toNat = sizeSum kept := by
    obtain rfl | ⟨o, later, rfl, hlt⟩ := h.partly
    · simp
    · have hlt' := UInt64.lt_iff_toNat_lt.mp hlt
      have hle : x ≤ o.size := UInt64.le_iff_toNat_le.mpr hlt'.le
      rw [reduceFirst, sizeSum_cons, sizeSum_cons, UInt64.toNat_sub_of_le _ _ hle]
      omega
  rw [h.before, h.after, sizeSum_append]
  omega

theorem applyTrade_eq {tradePrice : Price} {aggr : Aggressor} {s : Side}
    (hs : b.passiveSide tradePrice aggr = some s) (qty : UInt64) :
    b.applyTrade tradePrice qty aggr = ((b.consumeAtLevel s tradePrice qty).1,
      decide (0 < (b.consumeAtLevel s tradePrice qty).2)) := by
  by_cases h0 : qty = 0
  · obtain ⟨-, he⟩ | ⟨l, -, hne, -⟩ := consumeAtLevel_cases b s tradePrice qty
    · rw [he]
      simp [applyTrade, h0]
    · exact absurd h0 hne
  · simp [applyTrade, hs, h0]

/-- A trade on a reachable book. Without a passive side it does nothing. Otherwise it removes
`min qty total` from the level at its price: a prefix of the queue goes whole, the next order is
reduced, and it reports whether that was anything. A cached total that was right stays right. -/
theorem applyTrade_takes_from_front (ops : List BookOp) (tradePrice : Price) (qty : UInt64)
    (aggr : Aggressor) :
    match (run ops).passiveSide tradePrice aggr with
    | none => (run ops).applyTrade tradePrice qty aggr = (run ops, false)
    | some s =>
      let before := (run ops).queue s tradePrice
      let removed := min qty.toNat (sizeSum before)
      let b' := ((run ops).applyTrade tradePrice qty aggr).1
      (∃ gone kept x, Took (run ops) b' s tradePrice gone kept x ∧
        sizeSum gone + x.toNat = removed) ∧
      sizeSum (b'.queue s tradePrice) + removed = sizeSum before ∧
      (((run ops).applyTrade tradePrice qty aggr).2 = true ↔ 0 < removed) ∧
      (((run ops).levelSize s tradePrice).toNat = sizeSum before →
        (b'.levelSize s tradePrice).toNat = sizeSum (b'.queue s tradePrice)) := by
  have hwf := (run_refines ops).wf
  generalize run ops = b at hwf ⊢
  cases hs : b.passiveSide tradePrice aggr with
  | none => simp [applyTrade, hs]
  | some s =>
    dsimp only
    have hresult : 0 < (b.consumeAtLevel s tradePrice qty).2 ↔
        0 < (b.consumeAtLevel s tradePrice qty).2.toNat := UInt64.lt_iff_toNat_lt
    obtain ⟨gone, kept, x, htook, hsum⟩ := consumeAtLevel_took hwf s tradePrice qty
    rw [applyTrade_eq hs qty]
    dsimp only
    rw [decide_eq_true_iff, hresult, consumed_toNat, ← hsum]
    exact ⟨⟨gone, kept, x, htook, rfl⟩, htook.conserves, Iff.rfl,
      total_consumeAtLevel hwf s tradePrice qty⟩

end Trade

end OrderBook
end GmaEngine
