import GmaEngine.SubscriberMirror

/-!
# A subscriber that keeps the top of book

The bid and ask fields of a delta are optional, so that a side left alone and a side that
became empty look the same. A subscriber that replaces a side whenever its field is present
is right after each call exactly when no call empties a side and no trade removes the best
level without reporting a change.
-/

namespace GmaEngine

/-- What a subscriber holds: the best price of each side with its total. -/
abbrev Tops := Side → Option (Price × UInt64)

namespace BookDelta

def top (d : BookDelta) : Tops
  | .bid => d.bid
  | .ask => d.ask

end BookDelta

namespace Tops

/-- A field that is present replaces the side. -/
def applyDelta (T : Tops) (d : BookDelta) : Tops := fun s => (d.top s).or (T s)

def applyDeltas (T : Tops) (deltas : List BookDelta) : Tops := deltas.foldl applyDelta T

end Tops

namespace OrderBookManager
variable {D : Type}
open OrderBook KeyedQueues

/-- A field is present in some delta. -/
def Announces (deltas : List BookDelta) (s : Side) : Prop := ∃ d ∈ deltas, (d.top s).isSome

/-- Every side whose top changed is not empty, and the change was reported. -/
def TopsVisible (b b' : OrderBook) (changed : Bool) : Prop :=
  ∀ s, b'.top s ≠ b.top s → b'.top s ≠ none ∧ changed = true

theorem newTop_isSome (b b' : OrderBook) (s : Side) :
    (newTop b b' s).isSome ↔ b'.top s ≠ b.top s ∧ b'.top s ≠ none := by
  unfold newTop
  split_ifs with h
  · simp [h]
  · simp [h, Option.isSome_iff_ne_none]

section
variable (m : OrderBookManager D) (symbol : String) (candidates : List (Side × Price))
  (mutator : OrderBook → OrderBook × Bool) {b' : OrderBook}

theorem top_of_mem_deltas (hmut : mutator (m.book symbol) = (b', true)) {d : BookDelta}
    (hd : d ∈ (m.mutateWithDelta symbol candidates mutator).deltas) (s : Side) :
    d.top s = newTop (m.book symbol) b' s := by
  obtain ⟨-, -, hbid, hask⟩ := mem_deltas_mutateWithDelta candidates hmut hd
  cases s with
  | bid => exact hbid
  | ask => exact hask

theorem announces_mutateWithDelta_iff {changed : Bool}
    (hmut : mutator (m.book symbol) = (b', changed)) (s : Side) :
    Announces (m.mutateWithDelta symbol candidates mutator).deltas s ↔
      changed = true ∧ b'.top s ≠ (m.book symbol).top s ∧ b'.top s ≠ none := by
  rw [← newTop_isSome]
  cases changed with
  | false =>
    rw [deltas_mutateWithDelta_of_false candidates hmut]
    simp [Announces]
  | true =>
    constructor
    · rintro ⟨d, hd, hsome⟩
      rw [top_of_mem_deltas m symbol candidates mutator hmut hd] at hsome
      exact ⟨rfl, hsome⟩
    · rintro ⟨-, hsome⟩
      have hne : (m.mutateWithDelta symbol candidates mutator).deltas ≠ [] := by
        intro hnil
        obtain ⟨-, hbid, hask⟩ := (deltas_mutateWithDelta_eq_nil candidates hmut).mp hnil
        cases s with
        | bid => simp [hbid] at hsome
        | ask => simp [hask] at hsome
      obtain ⟨d, hd⟩ := List.exists_mem_of_ne_nil _ hne
      exact ⟨d, hd, by rw [top_of_mem_deltas m symbol candidates mutator hmut hd]; exact hsome⟩

theorem applyDeltas_tops {changed : Bool} (hmut : mutator (m.book symbol) = (b', changed)) :
    Tops.applyDeltas (m.book symbol).top (m.mutateWithDelta symbol candidates mutator).deltas =
      fun s => if changed then (newTop (m.book symbol) b' s).or ((m.book symbol).top s)
        else (m.book symbol).top s := by
  cases changed with
  | false =>
    rw [deltas_mutateWithDelta_of_false candidates hmut]
    rfl
  | true =>
    funext s
    rw [if_pos rfl]
    cases hd : (m.mutateWithDelta symbol candidates mutator).deltas with
    | nil =>
      obtain ⟨-, hbid, hask⟩ := (deltas_mutateWithDelta_eq_nil candidates hmut).mp hd
      cases s with
      | bid => simp [hbid, Tops.applyDeltas]
      | ask => simp [hask, Tops.applyDeltas]
    | cons d ds =>
      have hmem : d ∈ (m.mutateWithDelta symbol candidates mutator).deltas := by simp [hd]
      have hone := (mem_deltas_mutateWithDelta candidates hmut hmem).1
      rw [hd] at hone
      rw [(List.cons.inj hone).2, Tops.applyDeltas, List.foldl_cons, List.foldl_nil,
        Tops.applyDelta, top_of_mem_deltas m symbol candidates mutator hmut hmem]

/-- After a mutation the fields are present exactly for the changed sides, and the subscriber
is right, if and only if every change is visible. -/
theorem tops_mutateWithDelta_iff {changed : Bool}
    (hmut : mutator (m.book symbol) = (b', changed)) :
    ((∀ s, Announces (m.mutateWithDelta symbol candidates mutator).deltas s ↔
        b'.top s ≠ (m.book symbol).top s) ∧
      Tops.applyDeltas (m.book symbol).top (m.mutateWithDelta symbol candidates mutator).deltas =
        b'.top) ↔ TopsVisible (m.book symbol) b' changed := by
  constructor
  · rintro ⟨hiff, -⟩ s hne
    obtain ⟨hc, -, hsome⟩ := (announces_mutateWithDelta_iff m symbol candidates mutator hmut s).mp
      ((hiff s).mpr hne)
    exact ⟨hsome, hc⟩
  · intro hvis
    refine ⟨?_, ?_⟩
    · intro s
      rw [announces_mutateWithDelta_iff m symbol candidates mutator hmut]
      constructor
      · exact fun h => h.2.1
      · intro hne
        exact ⟨(hvis s hne).2, hne, (hvis s hne).1⟩
    · rw [applyDeltas_tops m symbol candidates mutator hmut]
      funext s
      by_cases hsame : b'.top s = (m.book symbol).top s
      · cases changed <;> simp [newTop, hsame]
      · obtain ⟨hsome, hc⟩ := hvis s hsame
        obtain ⟨x, hx⟩ := Option.ne_none_iff_exists'.mp hsome
        have hx' : ¬ some x = (m.book symbol).top s := fun e => hsame (hx.trans e)
        simp [hc, newTop, hx, hx']

end

/-- The order under `k` rests on side `s` and nothing else does. -/
def Sole (b : OrderBook) (k : OrderKey) (s : Side) : Prop :=
  (∃ p, ∃ o ∈ b.queue s p, o.key = k) ∧ ∀ p, ∀ o ∈ b.queue s p, o.key = k

section
variable {b b' : OrderBook}

theorem top_eq_none_iff_queues (h : b.WF) (s : Side) :
    b.top s = none ↔ ∀ p, b.queue s p = [] := by
  rw [top_eq_none_iff]
  exact forall_congr' (fun p => h.findLevel_eq_none)

/-- Removing a key from a side empties it exactly when the key was alone there. -/
theorem removal_visible_iff (h : b.WF) (h' : b'.WF) {k : OrderKey} {s : Side}
    (hq : ∀ p, b'.queue s p = removeKey Order.key k (b.queue s p)) :
    (b'.top s ≠ b.top s → b'.top s ≠ none) ↔ ¬ Sole b k s := by
  constructor
  · rintro hvis ⟨⟨p, o, ho, -⟩, hall⟩
    have hnone : b'.top s = none := by
      rw [top_eq_none_iff_queues h']
      intro q
      rw [hq, removeKey, List.filter_eq_nil_iff]
      intro x hx
      simp [hall q x hx]
    have hsome : b.top s ≠ none := by
      intro hb
      rw [(top_eq_none_iff_queues h s).mp hb p] at ho
      cases ho
    exact hvis (fun e => hsome (e ▸ hnone)) hnone
  · intro hsole hne hnone
    rw [top_eq_none_iff_queues h'] at hnone
    have hall : ∀ p, ∀ o ∈ b.queue s p, o.key = k := by
      intro p o ho
      by_contra hk
      have hmem : o ∈ b'.queue s p := by
        rw [hq]
        exact mem_removeKey.mpr ⟨ho, hk⟩
      rw [hnone p] at hmem
      cases hmem
    have hb : b.top s ≠ none := by
      intro hb
      exact hne (by rw [hb, top_eq_none_iff_queues h']; exact hnone)
    rw [ne_eq, top_eq_none_iff_queues h] at hb
    obtain ⟨p, hp⟩ := not_forall.mp hb
    obtain ⟨o, ho⟩ := List.exists_mem_of_ne_nil _ hp
    exact hsole ⟨⟨p, o, ho, hall p o ho⟩, hall⟩

theorem top_ne_none_of_queue (h : b.WF) {s : Side} {p : Price} (hq : b.queue s p ≠ []) :
    b.top s ≠ none := by
  intro hnone
  exact hq ((top_eq_none_iff_queues h s).mp hnone p)

theorem top_eq_of_findLevel {s : Side} (hl : ∀ p, b'.findLevel s p = b.findLevel s p) :
    b'.top s = b.top s :=
  top_eq_of_levels (fun p => by rw [hl p]) (fun p => levelSize_eq_of_findLevel (hl p))

theorem topsVisible_refl (b : OrderBook) (changed : Bool) : TopsVisible b b changed :=
  fun _ hne => absurd rfl hne

theorem deleteImpl_visible_iff (h : b.WF) (k : OrderKey) :
    TopsVisible b (b.deleteImpl k).1 (b.deleteImpl k).2 ↔ ∀ s, ¬ Sole b k s := by
  have hrem : ∀ s, ((b.deleteImpl k).1.top s ≠ b.top s → (b.deleteImpl k).1.top s ≠ none) ↔
      ¬ Sole b k s := fun s => removal_visible_iff h (deleteImpl_wf h k) (queue_deleteImpl h k s)
  have hflag : ∀ s, (b.deleteImpl k).1.top s ≠ b.top s → (b.deleteImpl k).2 = true := by
    intro s hne
    obtain ⟨-, he⟩ | ⟨loc, l, n, -, -, -, -, -, he⟩ := deleteImpl_cases h k
    · rw [he] at hne
      exact absurd rfl hne
    · rw [he]
  constructor
  · intro hvis s
    exact (hrem s).mp (fun hne => (hvis s hne).1)
  · intro hsole s hne
    exact ⟨(hrem s).mpr (hsole s) hne, hflag s hne⟩

/-- An update empties a side only when it deletes the sole order there. -/
theorem updateImpl_visible_iff (h : b.WF) (k : OrderKey) (newPrice : Option Price)
    (newSize : Option UInt64) :
    TopsVisible b (b.updateImpl k newPrice newSize).1 (b.updateImpl k newPrice newSize).2 ↔
      ∀ s, Sole b k s → ∀ p, ∀ o ∈ b.queue s p, newSize.getD o.size ≠ 0 := by
  have hwf := updateImpl_wf h k newPrice newSize
  obtain ⟨hk, hu⟩ | ⟨loc, l, n, hk, hl, hn, ha, hkey, hcase⟩ :=
    updateImpl_cases h k newPrice newSize
  · rw [hu]
    refine iff_of_true (topsVisible_refl b false) ?_
    rintro s ⟨⟨p, o, ho, hok⟩, -⟩
    exact absurd hok (h.queue_key_ne hk s p o ho)
  have hmem : n.order ∈ b.queue loc.side loc.price := mem_queue.mpr ⟨n, ⟨l, hl, hn⟩, rfl⟩
  -- the one order under the key decides the right-hand side
  have hsize : newSize.getD n.order.size ≠ 0 →
      ∀ s, Sole b k s → ∀ p, ∀ o ∈ b.queue s p, newSize.getD o.size ≠ 0 := by
    rintro hz s ⟨-, hall⟩ p o ho
    obtain ⟨-, -, rfl⟩ := h.queue_key_unique ho hmem ((hall p o ho).trans hkey.symm)
    exact hz
  obtain ⟨h0, hu⟩ | ⟨h0, -, -, hu⟩ | ⟨h0, -, -, hu⟩ | ⟨h0, hpr, hu⟩ := hcase <;> rw [hu] at hwf ⊢
  · have hrem := fun s => removal_visible_iff h hwf (k := k) (s := s)
      (queue_dropKey n.order.size h hk hl hn ha hkey s)
    constructor
    · intro hvis s hsole
      exact absurd hsole ((hrem s).mp (fun hne => (hvis s hne).1))
    · intro hcond s hne
      refine ⟨(hrem s).mpr (fun hsole => ?_) hne, rfl⟩
      obtain ⟨p, o, ho, hok⟩ := hsole.1
      obtain ⟨-, -, rfl⟩ := h.queue_key_unique ho hmem (hok.trans hkey.symm)
      exact hcond s hsole p _ ho h0
  · exact iff_of_true (topsVisible_refl b false) (hsize h0)
  · refine iff_of_true (fun s hne => ⟨?_, rfl⟩) (hsize h0)
    intro hnone
    apply hne
    rw [hnone, eq_comm, top_eq_none_iff_queues h]
    rw [top_eq_none_iff_queues hwf] at hnone
    intro p
    have hp := hnone p
    rw [queue_writeNode h hk hl hn ha hkey, modifyKey, List.map_eq_nil_iff] at hp
    exact hp
  · refine iff_of_true (fun s hne => ⟨?_, rfl⟩) (hsize h0)
    by_cases hs : s = loc.side
    · subst hs
      apply top_ne_none_of_queue hwf (p := newPrice.getD n.order.price)
      rw [queue_moveKey h hk hl hn ha hkey]
      simp
    · intro hnone
      apply hne
      rw [hnone, eq_comm, top_eq_none_iff_queues h]
      rw [top_eq_none_iff_queues hwf] at hnone
      intro p
      have hp := hnone p
      rw [queue_moveKey h hk hl hn ha hkey, removeKey_eq_self
        (h.queue_key_ne_of_ne hk (fun e => hs e.1))] at hp
      exact (List.append_eq_nil_iff.mp hp).1

theorem priorityImpl_visible (h : b.WF) (k : OrderKey) (newPriority : UInt64) :
    TopsVisible b (b.priorityImpl k newPriority).1 (b.priorityImpl k newPriority).2 := by
  intro s hne
  exfalso
  apply hne
  refine top_eq_of_levels ?_ (levelSize_priorityImpl h k newPriority s)
  intro p
  obtain ⟨-, hu⟩ | ⟨loc, l, n, hk, hl, hn, ha, hkey, ⟨-, hu⟩ | ⟨-, hu⟩⟩ :=
    priorityImpl_cases h k newPriority <;> rw [hu]
  rw [findLevel_setLevel]
  split_ifs with hsp
  · rw [hsp.1, hsp.2, hl]
    rfl
  · rfl

/-- An add empties a side only when it takes the sole order of the other side away. -/
theorem applyAddScoped_visible_iff (h : b.WF) (o : Order) (scope : FeedScope) (idMissing : Bool)
    (hsyn : o.synthetic = false) :
    TopsVisible b (b.applyAddScoped o scope idMissing).1 true ↔
      ∀ s, s ≠ o.side → ¬ Sole b (b.addKey o.id scope idMissing) s := by
  obtain ⟨hkey, hside, hprice, -⟩ := scopedCopy_spec (b := b) o scope idMissing hsyn
  have hwf : (b.applyAddScoped o scope idMissing).1.WF := wf_apply h (.addScoped o scope idMissing)
  have hq := queue_applyAddScoped o scope idMissing h
  have hrem : ∀ s, s ≠ o.side →
      (((b.applyAddScoped o scope idMissing).1.top s ≠ b.top s →
        (b.applyAddScoped o scope idMissing).1.top s ≠ none) ↔
      ¬ Sole b (b.addKey o.id scope idMissing) s) := by
    intro s hs
    apply removal_visible_iff h hwf
    intro p
    rw [hq, hkey, hside, if_neg (fun e => hs e.1), List.append_nil]
  constructor
  · intro hvis s hs
    exact (hrem s hs).mp (fun hne => (hvis s hne).1)
  · intro hsole s hne
    refine ⟨?_, rfl⟩
    by_cases hs : s = o.side
    · subst hs
      apply top_ne_none_of_queue hwf (p := o.price)
      rw [hq, hside, hprice, if_pos ⟨rfl, rfl⟩]
      simp
    · exact (hrem s hs).mpr (hsole s hs) hne

/-- A trade that takes a whole level leaves another level on the side, and if only zero sizes
rested there, the level was not the best. -/
def TradeKeepsTop (b : OrderBook) (tp : Price) (qty : UInt64) (aggr : Aggressor) : Prop :=
  ∀ s, b.passiveSide tp aggr = some s → b.queue s tp ≠ [] → takeFront qty (b.queue s tp) = [] →
    (∃ p, p ≠ tp ∧ b.queue s p ≠ []) ∧
      (sizeSum (b.queue s tp) = 0 → (b.top s).map Prod.fst ≠ some tp)

/-- A level that disappears without being the best leaves the top as it was. -/
theorem top_eq_of_erased {s : Side} {tp : Price}
    (hl : ∀ p, p ≠ tp → b'.findLevel s p = b.findLevel s p) (herased : b'.findLevel s tp = none)
    (hbest : (b.top s).map Prod.fst ≠ some tp) : b'.top s = b.top s := by
  cases ht : b.top s with
  | none =>
    rw [top_eq_none_iff] at ht ⊢
    intro p
    by_cases hp : p = tp
    · rw [hp, herased]
    · rw [hl p hp, ht p]
  | some x =>
    obtain ⟨p, z⟩ := x
    have hp : p ≠ tp := by
      rintro rfl
      exact hbest (by rw [ht]; rfl)
    obtain ⟨⟨hsome, hz⟩, hfirst⟩ := top_eq_some_iff.mp ht
    refine top_eq_some_iff.mpr ⟨⟨by rw [hl p hp]; exact hsome, ?_⟩, ?_⟩
    · rw [levelSize_eq_of_findLevel (hl p hp), hz]
    · intro q hq hne
      have hqt : q ≠ tp := by
        rintro rfl
        rw [herased] at hq
        cases hq
      exact hfirst q (by rw [← hl q hqt]; exact hq) hne

theorem consumeAtLevel_visible_iff (h : b.WF) (s : Side) (tp : Price) {qty : UInt64}
    (h0 : qty ≠ 0) :
    TopsVisible b (b.consumeAtLevel s tp qty).1 (decide (0 < (b.consumeAtLevel s tp qty).2)) ↔
      (b.queue s tp ≠ [] → takeFront qty (b.queue s tp) = [] →
        (∃ p, p ≠ tp ∧ b.queue s p ≠ []) ∧
          (sizeSum (b.queue s tp) = 0 → (b.top s).map Prod.fst ≠ some tp)) := by
  have hwf := consumeAtLevel_wf h s tp qty
  have hqueue := queue_consumeAtLevel b s tp qty
  have hother : ∀ {s' : Side} {p : Price}, ¬ (s' = s ∧ p = tp) →
      (b.consumeAtLevel s tp qty).1.findLevel s' p = b.findLevel s' p :=
    fun hsp => findLevel_consumeAtLevel b s tp qty hsp
  have hflag : decide (0 < (b.consumeAtLevel s tp qty).2) = true ↔
      sizeSum (b.queue s tp) ≠ 0 := by
    have hcons := consumed_toNat b s tp qty
    have hq : qty.toNat ≠ 0 := fun e => h0 (UInt64.toNat_inj.mp e)
    rw [decide_eq_true_iff, UInt64.lt_iff_toNat_lt, UInt64.toNat_zero]
    omega
  have hside : ∀ s', s' ≠ s → (b.consumeAtLevel s tp qty).1.top s' = b.top s' :=
    fun s' hs' => top_eq_of_findLevel (fun p => hother (fun e => hs' e.1))
  constructor
  · intro hvis hne hempty
    have herased : (b.consumeAtLevel s tp qty).1.findLevel s tp = none := by
      rw [hwf.findLevel_eq_none, hqueue, if_pos ⟨rfl, rfl⟩, hempty]
    -- a level that goes away was the best one, or the top did not move
    have hchanged : (b.top s).map Prod.fst = some tp →
        (b.consumeAtLevel s tp qty).1.top s ≠ b.top s := by
      intro hbest hsame
      obtain ⟨⟨p, z⟩, ht, rfl⟩ := Option.map_eq_some_iff.mp hbest
      rw [ht, top_eq_some_iff, herased] at hsame
      cases hsame.1.1
    have hsome : b.top s ≠ none := top_ne_none_of_queue h hne
    refine ⟨?_, fun hsum hbest => hflag.mp (hvis s (hchanged hbest)).2 hsum⟩
    by_contra hall
    have honly : ∀ p, p ≠ tp → b.queue s p = [] := by
      intro p hp
      by_contra hq
      exact hall ⟨p, hp, hq⟩
    have hnone : (b.consumeAtLevel s tp qty).1.top s = none := by
      rw [top_eq_none_iff_queues hwf]
      intro p
      rw [hqueue]
      split_ifs with hsp
      · exact hempty
      · exact honly p (fun e => hsp ⟨rfl, e⟩)
    exact (hvis s (fun e => hsome (e ▸ hnone))).1 hnone
  · intro hcond s' hchange
    obtain rfl : s' = s := by
      by_contra hs'
      exact hchange (hside s' hs')
    by_cases hempty : takeFront qty (b.queue s' tp) = []
    · by_cases hq : b.queue s' tp = []
      · exfalso
        apply hchange
        apply top_eq_of_findLevel
        intro p
        by_cases hp : p = tp
        · rw [hp, hwf.findLevel_eq_none.mpr (by rw [hqueue, if_pos ⟨rfl, rfl⟩, hempty]),
            h.findLevel_eq_none.mpr hq]
        · exact hother (fun e => hp e.2)
      · obtain ⟨⟨p, hp, hpq⟩, hzero⟩ := hcond hq hempty
        refine ⟨?_, ?_⟩
        · apply top_ne_none_of_queue hwf (p := p)
          rw [hqueue, if_neg (fun e => hp e.2)]
          exact hpq
        · rw [hflag]
          intro hsum
          refine hchange (top_eq_of_erased (fun q hq => hother (fun e => hq e.2)) ?_ (hzero hsum))
          rw [hwf.findLevel_eq_none, hqueue, if_pos ⟨rfl, rfl⟩, hempty]
    · refine ⟨?_, hflag.mpr (fun hsum => hempty (takeFront_eq_nil_of_sizeSum h0 hsum))⟩
      apply top_ne_none_of_queue hwf (p := tp)
      rw [hqueue, if_pos ⟨rfl, rfl⟩]
      exact hempty

theorem applyTrade_visible_iff (h : b.WF) (tp : Price) {qty : UInt64} (h0 : qty ≠ 0)
    (aggr : Aggressor) :
    TopsVisible b (b.applyTrade tp qty aggr).1 (b.applyTrade tp qty aggr).2 ↔
      TradeKeepsTop b tp qty aggr := by
  obtain ⟨hnone, ht⟩ | ⟨s, hs, -, ht⟩ := applyTrade_cases b tp qty aggr <;> rw [ht]
  · refine iff_of_true (topsVisible_refl b false) ?_
    intro s hs
    rw [hnone.resolve_left h0] at hs
    cases hs
  · rw [consumeAtLevel_visible_iff h s tp h0]
    constructor
    · intro hcond s' hs'
      obtain rfl : s = s' := by simpa using hs.symm.trans hs'
      exact hcond
    · intro hcond
      exact hcond s hs

end

/-- The fields of a call are present exactly for the sides whose top it changed, and they
bring the subscriber up to date. -/
def TopStep (b b' : OrderBook) (deltas : List BookDelta) : Prop :=
  (∀ s, Announces deltas s ↔ b'.top s ≠ b.top s) ∧ Tops.applyDeltas b.top deltas = b'.top

theorem topStep_refl (b : OrderBook) : TopStep b b [] :=
  ⟨fun s => by simp [Announces], rfl⟩

/-- The calls of a run on one symbol. -/
inductive TopCall (symbol : String) : ManagerOp D → Prop
  | add (id : UInt64) (side : Side) (price : D) (size priority : UInt64) (scope : FeedScope)
      (idMissing : Bool) :
      TopCall symbol (.add symbol id side price size priority scope idMissing)
  | order {op : ManagerOp D} (h : OrderCall symbol op) : TopCall symbol op

section
variable [Double D]

/-- No accepted call takes the last order of a side away: an add under the key of the sole
order of the other side, a new price for a sole order of size zero, a delete of a sole order,
a trade that takes the only level of the passive side. A trade does not take a best level of
zero sizes either, which it would not report. -/
def KeepsSides (m : OrderBookManager D) (symbol : String) : ManagerOp D → Prop
  | .add _ id side price size _ scope idMissing =>
    m.gate symbol = false ∧ m.validatePrice symbol price ∧ validateSize size →
      ∀ s, s ≠ side → ¬ Sole (m.book symbol) ((m.book symbol).addKey id scope idMissing) s
  | .update _ id scope newPrice newSize synthetic =>
    m.gate symbol = false ∧ newSize = none ∧ newPrice.any (m.validatePrice symbol) →
      ∀ s, Sole (m.book symbol) ⟨id, scope.feedId, scope.epoch, synthetic⟩ s →
        ∀ p, ∀ o ∈ (m.book symbol).queue s p, o.size ≠ 0
  | .updateKey _ key newPrice newSize =>
    m.gate symbol = false ∧ newSize = none ∧ newPrice.any (m.validatePrice symbol) →
      ∀ s, Sole (m.book symbol) key s → ∀ p, ∀ o ∈ (m.book symbol).queue s p, o.size ≠ 0
  | .delete _ id scope synthetic =>
    m.gate symbol = false →
      ∀ s, ¬ Sole (m.book symbol) ⟨id, scope.feedId, scope.epoch, synthetic⟩ s
  | .deleteKey _ key => m.gate symbol = false → ∀ s, ¬ Sole (m.book symbol) key s
  | .trade _ tradePrice size aggr =>
    m.gate symbol = false ∧ m.validatePrice symbol tradePrice ∧ validateSize size →
      TradeKeepsTop (m.book symbol) (m.toTicks symbol tradePrice) size aggr
  | _ => True

section
variable {m : OrderBookManager D} {symbol : String}

omit [Double D] in
theorem topStep_mutateWithDelta_iff (candidates : List (Side × Price))
    (mutator : OrderBook → OrderBook × Bool) :
    TopStep (m.book symbol) ((m.mutateWithDelta symbol candidates mutator).mgr.book symbol)
        (m.mutateWithDelta symbol candidates mutator).deltas ↔
      TopsVisible (m.book symbol) (mutator (m.book symbol)).1 (mutator (m.book symbol)).2 := by
  rw [book_mutateWithDelta, if_pos rfl]
  exact tops_mutateWithDelta_iff m symbol candidates mutator Prod.mk.eta.symm

theorem topStep_onAdd_iff (h : (m.book symbol).WF) (id : UInt64) (side : Side) (price : D)
    (size priority : UInt64) (scope : FeedScope) (idMissing : Bool) :
    TopStep (m.book symbol)
        ((m.onAdd symbol id side price size priority scope idMissing).mgr.book symbol)
        (m.onAdd symbol id side price size priority scope idMissing).deltas ↔
      m.KeepsSides symbol (.add symbol id side price size priority scope idMissing) := by
  have hside : validSide side = true := by cases side <;> rfl
  rw [onAdd, KeepsSides]
  split_ifs with hgate hvalid
  · exact iff_of_true (topStep_refl _) (fun hok => absurd (hgate.symm.trans hok.1) (by simp))
  · refine iff_of_true (topStep_refl _) ?_
    rintro ⟨-, hpx, hsz⟩
    simp [hside, hpx, hsz] at hvalid
  · have hok : m.gate symbol = false ∧ m.validatePrice symbol price ∧ validateSize size := by
      simpa [hside] using And.intro hgate hvalid
    rw [topStep_mutateWithDelta_iff, forall_prop_of_true hok]
    exact applyAddScoped_visible_iff h (m.addedOrder symbol id side price size priority) scope
      idMissing rfl

theorem topStep_onUpdateKey_iff (h : (m.book symbol).WF) (key : OrderKey) (newPrice : Option D)
    (newSize : Option UInt64) :
    TopStep (m.book symbol) ((m.onUpdateKey symbol key newPrice newSize).mgr.book symbol)
        (m.onUpdateKey symbol key newPrice newSize).deltas ↔
      m.KeepsSides symbol (.updateKey symbol key newPrice newSize) := by
  rw [onUpdateKey, KeepsSides]
  split_ifs with hgate hnone hpx hsz
  · exact iff_of_true (topStep_refl _) (fun hok => absurd (hgate.symm.trans hok.1) (by simp))
  · refine iff_of_true (topStep_refl _) ?_
    rintro ⟨-, -, hany⟩
    cases newPrice with
    | none => cases hany
    | some px => cases hnone
  · refine iff_of_true (topStep_refl _) ?_
    rintro ⟨-, -, hany⟩
    cases newPrice with
    | none => cases hany
    | some px => simp_all
  · refine iff_of_true (topStep_refl _) ?_
    rintro ⟨-, rfl, -⟩
    cases hsz
  · rw [topStep_mutateWithDelta_iff]
    have hvis := updateImpl_visible_iff h key (newPrice.map (m.toTicks symbol)) newSize
    cases newSize with
    | none =>
      have hok : m.gate symbol = false ∧ (none : Option UInt64) = none ∧
          newPrice.any (m.validatePrice symbol) := by
        cases newPrice with
        | none => simp at hnone
        | some px => simpa using And.intro hgate hpx
      rw [forall_prop_of_true hok]
      exact hvis
    | some sz =>
      have hne : sz ≠ 0 := by
        rintro rfl
        exact hsz rfl
      exact iff_of_true (hvis.mpr (fun _ _ _ _ _ => hne)) (fun hok => nomatch hok.2.1)

omit [Double D] in
theorem topStep_onDeleteKey_iff (h : (m.book symbol).WF) (key : OrderKey) :
    TopStep (m.book symbol) ((m.onDeleteKey symbol key).mgr.book symbol)
        (m.onDeleteKey symbol key).deltas ↔
      (m.gate symbol = false → ∀ s, ¬ Sole (m.book symbol) key s) := by
  unfold onDeleteKey
  split_ifs with hgate
  · exact iff_of_true (topStep_refl _) (fun hok => absurd (hgate.symm.trans hok) (by simp))
  · rw [topStep_mutateWithDelta_iff, forall_prop_of_true (by simpa using hgate)]
    exact deleteImpl_visible_iff h key

omit [Double D] in
theorem topStep_onPriorityKey (h : (m.book symbol).WF) (key : OrderKey) (newPriority : UInt64) :
    TopStep (m.book symbol) ((m.onPriorityKey symbol key newPriority).mgr.book symbol)
      (m.onPriorityKey symbol key newPriority).deltas := by
  unfold onPriorityKey
  split_ifs
  · exact topStep_refl _
  · rw [topStep_mutateWithDelta_iff]
    exact priorityImpl_visible h key newPriority

theorem topStep_onTrade_iff (h : (m.book symbol).WF) (tradePrice : D) (size : UInt64)
    (aggr : Aggressor) :
    TopStep (m.book symbol) ((m.onTrade symbol tradePrice size aggr).mgr.book symbol)
        (m.onTrade symbol tradePrice size aggr).deltas ↔
      m.KeepsSides symbol (.trade symbol tradePrice size aggr) := by
  rw [onTrade, KeepsSides]
  split_ifs with hgate hvalid
  · exact iff_of_true (topStep_refl _) (fun hok => absurd (hgate.symm.trans hok.1) (by simp))
  · refine iff_of_true (topStep_refl _) ?_
    rintro ⟨-, hpx, hsz⟩
    simp [hpx, hsz] at hvalid
  · have hok : m.gate symbol = false ∧ m.validatePrice symbol tradePrice ∧ validateSize size := by
      simpa using And.intro hgate hvalid
    have h0 : size ≠ 0 := by
      rintro rfl
      exact absurd hok.2.2 (by decide)
    rw [topStep_mutateWithDelta_iff, forall_prop_of_true hok]
    exact applyTrade_visible_iff h _ h0 aggr

theorem topStep_exec_iff (h : (m.book symbol).WF) {op : ManagerOp D} (hcall : TopCall symbol op) :
    TopStep (m.book symbol) ((m.exec op).1.book symbol) (m.exec op).2 ↔ m.KeepsSides symbol op := by
  cases hcall with
  | add id side price size priority scope idMissing =>
    exact topStep_onAdd_iff h id side price size priority scope idMissing
  | order hop =>
    cases hop with
    | update id scope newPrice newSize synthetic => exact topStep_onUpdateKey_iff h _ newPrice newSize
    | updateKey key newPrice newSize => exact topStep_onUpdateKey_iff h key newPrice newSize
    | delete id scope synthetic => exact topStep_onDeleteKey_iff h _
    | deleteKey key => exact topStep_onDeleteKey_iff h key
    | priority id scope newPriority synthetic =>
      exact iff_of_true (topStep_onPriorityKey h _ newPriority) trivial
    | priorityKey key newPriority => exact iff_of_true (topStep_onPriorityKey h key newPriority) trivial
    | trade tradePrice size aggr => exact topStep_onTrade_iff h tradePrice size aggr

/-- The subscriber holds the top of book now and after each of the operations, and each one
announces exactly the sides whose top it changed. -/
def TopTracks (m : OrderBookManager D) (symbol : String) (T : Tops) : List (ManagerOp D) → Prop
  | [] => T = (m.book symbol).top
  | op :: ops => T = (m.book symbol).top ∧
      (∀ s, Announces ((m.exec op).2.filter (fun d => d.symbol = symbol)) s ↔
        ((m.exec op).1.book symbol).top s ≠ (m.book symbol).top s) ∧
      TopTracks (m.exec op).1 symbol
        (T.applyDeltas ((m.exec op).2.filter (fun d => d.symbol = symbol))) ops

theorem TopTracks.now {T : Tops} {ops : List (ManagerOp D)} (h : TopTracks m symbol T ops) :
    T = (m.book symbol).top := by
  cases ops with
  | nil => exact h
  | cons op ops => exact h.1

theorem topTracks_iff (h : ∀ s, (m.book s).WF) (ops : List (ManagerOp D))
    (hcalls : ∀ op ∈ ops, TopCall symbol op) :
    TopTracks m symbol (m.book symbol).top ops ↔
      Along (fun m op => m.KeepsSides symbol op) m ops := by
  induction ops generalizing m with
  | nil => exact iff_of_true rfl trivial
  | cons op ops ih =>
    have hcall := hcalls op (by simp)
    have hmirror : MirrorCall symbol op := by
      cases hcall with
      | add => exact .add ..
      | order hop => exact .order hop
    have hstep := topStep_exec_iff (h symbol) hcall
    have hrest := ih (wf_exec h op) (fun op' hop' => hcalls op' (by simp [hop']))
    rw [TopTracks, Along, filter_deltas hmirror]
    constructor
    · rintro ⟨-, hann, ht⟩
      have hnow := ht.now
      rw [hnow] at ht
      exact ⟨hstep.mp ⟨hann, hnow⟩, hrest.mp ht⟩
    · rintro ⟨hk, hks⟩
      obtain ⟨hann, hnow⟩ := hstep.mpr hk
      rw [hnow]
      exact ⟨rfl, hann, hrest.mpr hks⟩

end

/-- A subscriber that starts from the true top of book and replaces a side by each field it
receives is right after each call, with a field exactly for each changed side, if and only if
no call takes the last order of a side away and no trade removes a best level of zero sizes. -/
theorem top_tracks_iff (pre ops : List (ManagerOp D)) (symbol : String)
    (hcalls : ∀ op ∈ ops, TopCall symbol op) :
    TopTracks (run pre).1 symbol ((run pre).1.book symbol).top ops ↔
      Along (fun m op => m.KeepsSides symbol op) (run pre).1 ops :=
  topTracks_iff (run_wf pre) ops hcalls

end

theorem top_tracks_partial_trade :
    TopTracks (run restingBid).1 "AAPL" ((run restingBid).1.book "AAPL").top
      [.trade "AAPL" (.fin 100) 4 .sell] := by
  have hiff := top_tracks_iff restingBid [.trade "AAPL" (.fin 100) 4 .sell] "AAPL"
    (by simpa using .order (.trade (ExactDouble.fin 100) 4 .sell))
  refine hiff.mpr ⟨?_, trivial⟩
  rintro - s hs - hall
  obtain rfl : s = .bid := by simpa [passiveSide] using hs.symm
  exact absurd hall (by decide +kernel)

/-- The only bid is deleted: the delta carries no bid field and the subscriber keeps the bid. -/
theorem top_keeps_emptied_side :
    ¬ TopTracks (run restingBid).1 "AAPL" ((run restingBid).1.book "AAPL").top
      [.delete "AAPL" 1 {} false] := by
  rintro ⟨-, -, ht⟩
  have hbid := congrFun ht .bid
  revert hbid
  decide +kernel

end OrderBookManager
end GmaEngine
