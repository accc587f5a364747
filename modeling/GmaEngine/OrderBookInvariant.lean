import GmaEngine.KeyedQueues
import GmaEngine.OrderBook

/-!
# The locator invariant of the order book

`WF` ties the three structures of a book together: levels are never empty, the index
sends the key of every list node to the side, price and address of that node, every index
entry comes from such a node, and addresses are never shared or reused. It is kept by two
primitive changes, rewriting one level and pushing a fresh node, and every operation of
the book is a composition of these.
-/

namespace GmaEngine
open Std

/-- What a list node keeps while its order rests at one place. -/
def Node.ident (n : Node) : ℕ × OrderKey × Side × Price :=
  (n.addr, n.order.key, n.order.side, n.order.price)

theorem Node.ident_eq_iff {m n : Node} : m.ident = n.ident ↔ m.addr = n.addr ∧
    m.order.key = n.order.key ∧ m.order.side = n.order.side ∧ m.order.price = n.order.price := by
  simp [Node.ident]

theorem Side.forall_iff {P : Side → Prop} : (∀ s, P s) ↔ P .bid ∧ P .ask := by
  constructor
  · intro h
    exact ⟨h .bid, h .ask⟩
  · rintro ⟨hbid, hask⟩ s
    cases s with
    | bid => exact hbid
    | ask => exact hask

/-- The entries of a ladder's list are those that a search by price finds. -/
theorem forall_mem_toList_iff {α : Type} {s : Side} (m : ExtTreeMap Price α (ladderCmp s))
    {P : Price × α → Prop} : (∀ l ∈ m.toList, P l) ↔ ∀ p a, m[p]? = some a → P (p, a) := by
  constructor
  · intro h p a ha
    exact h (p, a) (ExtTreeMap.mem_toList_iff_getElem?_eq_some.mpr ha)
  · rintro h ⟨p, a⟩ hmem
    exact h p a (ExtTreeMap.mem_toList_iff_getElem?_eq_some.mp hmem)

namespace OrderBook

/-- `n` is a node of the level of side `s` at price `p`. -/
def At (b : OrderBook) (s : Side) (p : Price) (n : Node) : Prop :=
  ∃ l, b.findLevel s p = some l ∧ n ∈ l.orders

structure WF (b : OrderBook) : Prop where
  nonempty : ∀ s p l, b.findLevel s p = some l → l.orders ≠ []
  nodup : ∀ s p l, b.findLevel s p = some l → (l.orders.map Node.addr).Nodup
  located : ∀ s p n, b.At s p n → b.byId.lookup n.order.key = some ⟨s, p, n.addr⟩
  placed : ∀ s p n, b.At s p n → n.order.side = s ∧ n.order.price = p
  indexed : ∀ k loc, b.byId.lookup k = some loc →
    ∃ n, b.At loc.side loc.price n ∧ n.addr = loc.it ∧ n.order.key = k
  fresh : ∀ s p n, b.At s p n → n.addr < b.nextAddr
  unshared : ∀ s p n s' p' n', b.At s p n → b.At s' p' n' → n.addr = n'.addr →
    n.order.key = n'.order.key

@[simp] theorem findLevel_setLevel (b : OrderBook) (s : Side) (p : Price) (l : PriceLevel)
    (s' : Side) (p' : Price) :
    (b.setLevel s p l).findLevel s' p' = if s' = s ∧ p' = p then some l else b.findLevel s' p' := by
  by_cases hs : s' = s
  · subst hs
    simp only [findLevel, setLevel, Function.update_self, ExtTreeMap.getElem?_insert,
      LawfulEqCmp.compare_eq_iff_eq, true_and]
    exact if_congr eq_comm rfl rfl
  · simp [findLevel, setLevel, hs]

@[simp] theorem setLevel_byId (b : OrderBook) (s : Side) (p : Price) (l : PriceLevel) :
    (b.setLevel s p l).byId = b.byId := rfl

@[simp] theorem setLevel_nextAddr (b : OrderBook) (s : Side) (p : Price) (l : PriceLevel) :
    (b.setLevel s p l).nextAddr = b.nextAddr := rfl

@[simp] theorem eraseLevelIfEmpty_byId (b : OrderBook) (s : Side) (p : Price) :
    (b.eraseLevelIfEmpty s p).byId = b.byId := by
  unfold eraseLevelIfEmpty
  split
  · rfl
  · split_ifs <;> rfl

@[simp] theorem eraseLevelIfEmpty_nextAddr (b : OrderBook) (s : Side) (p : Price) :
    (b.eraseLevelIfEmpty s p).nextAddr = b.nextAddr := by
  unfold eraseLevelIfEmpty
  split
  · rfl
  · split_ifs <;> rfl

/-- Writing a level and erasing it when it came out empty. -/
theorem findLevel_relevel (b : OrderBook) (s : Side) (p : Price) (l : PriceLevel)
    (s' : Side) (p' : Price) :
    ((b.setLevel s p l).eraseLevelIfEmpty s p).findLevel s' p' =
      if s' = s ∧ p' = p then (if l.orders = [] then none else some l)
      else b.findLevel s' p' := by
  have hself : (b.setLevel s p l).findLevel s p = some l := by simp
  unfold eraseLevelIfEmpty
  rw [hself]
  dsimp only
  by_cases he : l.orders = []
  · rw [if_pos he, if_pos he]
    by_cases hs : s' = s
    · subst hs
      by_cases hp : p' = p
      · subst hp
        simp [findLevel, setLevel]
      · have hne : ladderCmp s' p p' ≠ .eq := fun h => hp (LawfulEqCmp.eq_of_compare h).symm
        simp [findLevel, setLevel, ExtTreeMap.getElem?_erase, ExtTreeMap.getElem?_insert, hne, hp]
    · simp [findLevel, setLevel, hs]
  · rw [if_neg he, if_neg he, findLevel_setLevel]

theorem findAggLevel_setAggLevel (b : OrderBook) (s : Side) (p : Price) (l : LevelAgg) (s' : Side)
    (p' : Price) : (b.setAggLevel s p l).findAggLevel s' p' =
      if s' = s ∧ p' = p then some l else b.findAggLevel s' p' := by
  by_cases hs : s' = s
  · subst hs
    simp only [findAggLevel, setAggLevel, Function.update_self, ExtTreeMap.getElem?_insert,
      LawfulEqCmp.compare_eq_iff_eq, true_and]
    exact if_congr eq_comm rfl rfl
  · simp [findAggLevel, setAggLevel, hs]

theorem findAggLevel_eraseAggLevel (b : OrderBook) (s : Side) (p : Price) (s' : Side)
    (p' : Price) : (b.eraseAggLevel s p).findAggLevel s' p' =
      if s' = s ∧ p' = p then none else b.findAggLevel s' p' := by
  by_cases hs : s' = s
  · subst hs
    simp only [findAggLevel, eraseAggLevel, Function.update_self, ExtTreeMap.getElem?_erase,
      LawfulEqCmp.compare_eq_iff_eq, true_and]
    exact if_congr eq_comm rfl rfl
  · simp [findAggLevel, eraseAggLevel, hs]

theorem begin_eq_none_iff (b : OrderBook) (s : Side) :
    b.begin s = none ↔ ∀ p, b.findLevel s p = none := by
  rw [begin, List.head?_eq_none_iff, ExtTreeMap.toList_eq_nil_iff]
  constructor
  · intro h p
    simp [findLevel, h]
  · intro h
    apply ExtTreeMap.ext_getElem?
    intro p
    exact (h p).trans ExtTreeMap.getElem?_empty.symm

/-- The first level is one of the ladder, and no level of the ladder stands before it. -/
theorem begin_spec {b : OrderBook} {s : Side} {p : Price} {l : PriceLevel}
    (h : b.begin s = some (p, l)) : b.findLevel s p = some l ∧
      ∀ q l', b.findLevel s q = some l' → q ≠ p → ladderCmp s p q = .lt := by
  obtain ⟨rest, hrest⟩ := List.head?_eq_some_iff.mp h
  have hmem : (p, l) ∈ (b.ladder s).toList := by simp [hrest]
  refine ⟨ExtTreeMap.mem_toList_iff_getElem?_eq_some.mp hmem, ?_⟩
  intro q l' hq hne
  have hmem' := ExtTreeMap.mem_toList_iff_getElem?_eq_some.mpr hq
  have hord := ExtTreeMap.ordered_keys_toList (t := b.ladder s)
  rw [hrest] at hmem' hord
  rcases List.mem_cons.mp hmem' with he | hin
  · exact absurd (congrArg Prod.fst he) hne
  · exact (List.pairwise_cons.mp hord).1 _ hin

section Consequences
variable {b : OrderBook} {s s' : Side} {p p' : Price} {n n' : Node}

theorem wf_empty : WF {} := by
  have hnone : ∀ s p, ({} : OrderBook).findLevel s p = none := by
    intro s p
    simp [findLevel]
  constructor <;> simp [At, hnone]

theorem findLevel_clearPerOrderUnlocked (b : OrderBook) (s : Side) (p : Price) :
    b.clearPerOrderUnlocked.findLevel s p = none := by simp [findLevel, clearPerOrderUnlocked]

theorem wf_clearPerOrderUnlocked (b : OrderBook) : b.clearPerOrderUnlocked.WF := by
  constructor <;> simp [At, findLevel_clearPerOrderUnlocked]
  simp [clearPerOrderUnlocked]

/-- The invariant looks at the ladders, the index and the allocator only. -/
theorem WF.congr {b b' : OrderBook} (h : b.WF) (hladder : b'.ladder = b.ladder)
    (hbyId : b'.byId = b.byId) (hnext : b'.nextAddr = b.nextAddr) : b'.WF := by
  cases b
  cases b'
  subst hladder hbyId hnext
  exact ⟨h.nonempty, h.nodup, h.located, h.placed, h.indexed, h.fresh, h.unshared⟩

/-- A key rests in one place only, as one node. -/
theorem WF.key_unique (h : b.WF) (hn : b.At s p n) (hn' : b.At s' p' n')
    (hk : n.order.key = n'.order.key) : s = s' ∧ p = p' ∧ n = n' := by
  have he := (h.located s p n hn).symm.trans (hk ▸ h.located s' p' n' hn')
  obtain ⟨rfl, rfl, ha⟩ : s = s' ∧ p = p' ∧ n.addr = n'.addr := by simpa using he
  obtain ⟨l, hl, hm⟩ := hn
  obtain ⟨l', hl', hm'⟩ := hn'
  cases hl.symm.trans hl'
  exact ⟨rfl, rfl, List.inj_on_of_nodup_map (h.nodup s p l hl) hm hm' ha⟩

theorem WF.keys_nodup (h : b.WF) {l : PriceLevel} (hl : b.findLevel s p = some l) :
    (l.orders.map (fun n => n.order.key)).Nodup := by
  apply List.Nodup.map_on _ (List.Nodup.of_map _ (h.nodup s p l hl))
  intro x hx y hy hk
  exact (h.key_unique ⟨l, hl, hx⟩ ⟨l, hl, hy⟩ hk).2.2

/-- What the invariant says about a key that the index knows: its level exists, its
iterator can be dereferenced, and the order found there is the one indexed. -/
theorem WF.deref (h : b.WF) {k : OrderKey} {loc : Locator} (hk : b.byId.lookup k = some loc) :
    ∃ l n, b.findLevel loc.side loc.price = some l ∧ n ∈ l.orders ∧ n.addr = loc.it ∧
      n.order.key = k ∧ l.deref loc.it = some n.order := by
  obtain ⟨n, ⟨l, hl, hn⟩, ha, hkey⟩ := h.indexed k loc hk
  refine ⟨l, n, hl, hn, ha, hkey, ?_⟩
  have hfind : l.orders.find? (fun m => m.addr = loc.it) = some n :=
    (KeyedQueues.find?_eq_some_iff (h.nodup _ _ l hl)).mpr ⟨hn, ha⟩
  simp [PriceLevel.deref, hfind]

/-- Inside its own level, a node is addressed by its key as well as by its address. -/
theorem WF.addr_iff_key (h : b.WF) {l : PriceLevel} (hl : b.findLevel s p = some l)
    (hn : n ∈ l.orders) (hn' : n' ∈ l.orders) :
    n.addr = n'.addr ↔ n.order.key = n'.order.key := by
  constructor
  · exact h.unshared s p n s p n' ⟨l, hl, hn⟩ ⟨l, hl, hn'⟩
  · intro hk
    rw [(h.key_unique ⟨l, hl, hn⟩ ⟨l, hl, hn'⟩ hk).2.2]

theorem WF.not_at_of_lookup_none (h : b.WF) (hk : b.byId.lookup n.order.key = none) :
    ¬ b.At s p n := by
  intro hn
  rw [h.located s p n hn] at hk
  cases hk

end Consequences

/-- Rewriting one level keeps the invariant when the nodes kept are nodes of the old level
with their address, key, side and price, and the index forgets exactly the keys dropped. -/
theorem WF.relevel {b b' : OrderBook} (h : b.WF) {s : Side} {p : Price} {l : PriceLevel}
    (hl : b.findLevel s p = some l) {os : List Node} {t : UInt64} (dropped : OrderKey → Prop)
    (hlevel : ∀ s' p', b'.findLevel s' p' = if s' = s ∧ p' = p then
      (if os = [] then none else some ⟨os, t⟩) else b.findLevel s' p')
    (hnext : b'.nextAddr = b.nextAddr)
    (hkept : ∀ n ∈ os, ¬ dropped n.order.key ∧ ∃ m ∈ l.orders, m.ident = n.ident)
    (hnodup : (os.map Node.addr).Nodup)
    (hrest : ∀ m ∈ l.orders, ¬ dropped m.order.key → ∃ n ∈ os, n.addr = m.addr)
    (hdropped : ∀ k, dropped k → b'.byId.lookup k = none ∧ ∃ m ∈ l.orders, m.order.key = k)
    (hbyId : ∀ k, ¬ dropped k → b'.byId.lookup k = b.byId.lookup k) : b'.WF := by
  -- a node of the new book stands where it stood, under the same address and key
  have hold : ∀ s' p' n, b'.At s' p' n → ∃ m, b.At s' p' m ∧ m.addr = n.addr ∧
      m.order.key = n.order.key ∧ m.order.side = n.order.side ∧
      m.order.price = n.order.price ∧ ¬ dropped n.order.key := by
    rintro s' p' n ⟨l', hl', hn⟩
    rw [hlevel] at hl'
    split_ifs at hl' with hsp he
    · obtain ⟨rfl, rfl⟩ := hsp
      cases hl'
      obtain ⟨hd, m, hm, hid⟩ := hkept n hn
      obtain ⟨ha, hk, hs, hp⟩ := Node.ident_eq_iff.mp hid
      exact ⟨m, ⟨l, hl, hm⟩, ha, hk, hs, hp, hd⟩
    · refine ⟨n, ⟨l', hl', hn⟩, rfl, rfl, rfl, rfl, ?_⟩
      intro hd
      obtain ⟨m, hm, hk⟩ := (hdropped _ hd).2
      obtain ⟨rfl, rfl, -⟩ := h.key_unique ⟨l, hl, hm⟩ ⟨l', hl', hn⟩ hk
      exact hsp ⟨rfl, rfl⟩
  refine ⟨?_, ?_, ?_, ?_, ?_, ?_, ?_⟩
  · intro s' p' l' hl'
    rw [hlevel] at hl'
    split_ifs at hl' with hsp he
    · cases hl'
      exact he
    · exact h.nonempty s' p' l' hl'
  · intro s' p' l' hl'
    rw [hlevel] at hl'
    split_ifs at hl' with hsp he
    · cases hl'
      exact hnodup
    · exact h.nodup s' p' l' hl'
  · intro s' p' n hn
    obtain ⟨m, hm, ha, hk, -, -, hd⟩ := hold s' p' n hn
    rw [hbyId _ hd, ← hk, ← ha]
    exact h.located s' p' m hm
  · intro s' p' n hn
    obtain ⟨m, hm, -, -, hs, hp, -⟩ := hold s' p' n hn
    rw [← hs, ← hp]
    exact h.placed s' p' m hm
  · intro k loc hk
    by_cases hd : dropped k
    · rw [(hdropped k hd).1] at hk
      cases hk
    rw [hbyId k hd] at hk
    obtain ⟨m, ⟨l', hl', hm⟩, ha, hkey⟩ := h.indexed k loc hk
    by_cases hsp : loc.side = s ∧ loc.price = p
    · rw [hsp.1, hsp.2, hl] at hl'
      cases hl'
      obtain ⟨n, hn, hna⟩ := hrest m hm (hkey ▸ hd)
      obtain ⟨-, m', hm', hid⟩ := hkept n hn
      obtain ⟨ha', hk', -, -⟩ := Node.ident_eq_iff.mp hid
      have hmm : m' = m := by
        apply List.inj_on_of_nodup_map (h.nodup s p l hl) hm' hm
        rw [ha', hna]
      refine ⟨n, ⟨⟨os, t⟩, ?_, hn⟩, hna.trans ha, by rw [← hk', hmm, hkey]⟩
      rw [hlevel, if_pos hsp, if_neg (List.ne_nil_of_mem hn)]
    · exact ⟨m, ⟨l', by rw [hlevel, if_neg hsp, hl'], hm⟩, ha, hkey⟩
  · intro s' p' n hn
    obtain ⟨m, hm, ha, -⟩ := hold s' p' n hn
    rw [hnext, ← ha]
    exact h.fresh s' p' m hm
  · intro s' p' n s'' p'' n' hn hn' ha
    obtain ⟨m, hm, hma, hmk, -⟩ := hold s' p' n hn
    obtain ⟨m', hm', hma', hmk', -⟩ := hold s'' p'' n' hn'
    rw [← hmk, ← hmk']
    exact h.unshared _ _ _ _ _ _ hm hm' (by rw [hma, hma', ha])

/-- Pushing a fresh node for an order whose key the index does not know. -/
theorem WF.link {b b' : OrderBook} (h : b.WF) (o : Order)
    (hnone : b.byId.lookup o.key = none)
    (hlevel : ∀ s p, b'.findLevel s p = (b.pushBack o.side o.price o).findLevel s p)
    (hnext : b'.nextAddr = b.nextAddr + 1)
    (hbyId : ∀ k, b'.byId.lookup k =
      if k = o.key then some ⟨o.side, o.price, b.nextAddr⟩ else b.byId.lookup k) : b'.WF := by
  have hfind : ∀ s p, b'.findLevel s p = if s = o.side ∧ p = o.price then
      some ⟨(b.getOrCreateLevel o.side o.price).orders ++ [⟨b.nextAddr, o⟩],
        (b.getOrCreateLevel o.side o.price).totalSize + o.size⟩ else b.findLevel s p := by
    intro s p
    rw [hlevel]
    exact findLevel_setLevel b o.side o.price _ s p
  have hcreate : ∀ n, n ∈ (b.getOrCreateLevel o.side o.price).orders → b.At o.side o.price n := by
    intro n hn
    unfold getOrCreateLevel at hn
    cases hl : b.findLevel o.side o.price with
    | none => simp [hl] at hn
    | some l => exact ⟨l, hl, by simpa [hl] using hn⟩
  have hat : ∀ s p n, b'.At s p n →
      b.At s p n ∨ (s = o.side ∧ p = o.price ∧ n = ⟨b.nextAddr, o⟩) := by
    rintro s p n ⟨l, hl, hn⟩
    rw [hfind] at hl
    split_ifs at hl with hsp
    · cases hl
      rcases List.mem_append.mp hn with hn | hn
      · exact .inl (hsp.1 ▸ hsp.2 ▸ hcreate n hn)
      · exact .inr ⟨hsp.1, hsp.2, by simpa using hn⟩
    · exact .inl ⟨l, hl, hn⟩
  have hkeep : ∀ s p n, b.At s p n → b'.At s p n := by
    rintro s p n ⟨l, hl, hn⟩
    by_cases hsp : s = o.side ∧ p = o.price
    · refine ⟨_, by rw [hfind, if_pos hsp], ?_⟩
      obtain ⟨rfl, rfl⟩ := hsp
      simp [getOrCreateLevel, hl, hn]
    · exact ⟨l, by rw [hfind, if_neg hsp, hl], hn⟩
  refine ⟨?_, ?_, ?_, ?_, ?_, ?_, ?_⟩
  · intro s p l hl
    rw [hfind] at hl
    split_ifs at hl with hsp
    · cases hl
      simp
    · exact h.nonempty s p l hl
  · intro s p l hl
    rw [hfind] at hl
    split_ifs at hl with hsp
    · cases hl
      have hold : ((b.getOrCreateLevel o.side o.price).orders.map Node.addr).Nodup := by
        unfold getOrCreateLevel
        cases hl : b.findLevel o.side o.price with
        | none => simp
        | some l => exact h.nodup _ _ l hl
      have hnew : b.nextAddr ∉ (b.getOrCreateLevel o.side o.price).orders.map Node.addr := by
        intro hm
        obtain ⟨n, hn, ha⟩ := List.mem_map.mp hm
        exact (h.fresh _ _ n (hcreate n hn)).ne ha
      simpa [List.nodup_append] using ⟨hold, fun n hn ha => hnew (List.mem_map.mpr ⟨n, hn, ha⟩)⟩
    · exact h.nodup s p l hl
  · intro s p n hn
    rw [hbyId]
    rcases hat s p n hn with hn | ⟨rfl, rfl, rfl⟩
    · rw [if_neg]
      · exact h.located s p n hn
      · intro hk
        exact h.not_at_of_lookup_none (hk ▸ hnone) hn
    · rw [if_pos rfl]
  · intro s p n hn
    rcases hat s p n hn with hn | ⟨rfl, rfl, rfl⟩
    · exact h.placed s p n hn
    · exact ⟨rfl, rfl⟩
  · intro k loc hk
    rw [hbyId] at hk
    split_ifs at hk with hko
    · cases hk
      refine ⟨⟨b.nextAddr, o⟩, ⟨_, by rw [hfind, if_pos ⟨rfl, rfl⟩], by simp⟩, rfl, hko.symm⟩
    · obtain ⟨n, hn, ha, hkey⟩ := h.indexed k loc hk
      exact ⟨n, hkeep _ _ n hn, ha, hkey⟩
  · intro s p n hn
    rw [hnext]
    rcases hat s p n hn with hn | ⟨rfl, rfl, rfl⟩
    · exact (h.fresh s p n hn).trans (Nat.lt_succ_self _)
    · exact Nat.lt_succ_self _
  · intro s p n s' p' n' hn hn' ha
    rcases hat s p n hn with hn | ⟨rfl, rfl, rfl⟩ <;>
      rcases hat s' p' n' hn' with hn' | ⟨rfl, rfl, rfl⟩
    · exact h.unshared _ _ _ _ _ _ hn hn' ha
    · exact absurd ha (h.fresh _ _ _ hn).ne
    · exact absurd ha.symm (h.fresh _ _ _ hn').ne
    · rfl

end OrderBook
end GmaEngine
