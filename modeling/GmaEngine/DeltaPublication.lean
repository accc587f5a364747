import GmaEngine.ManagerRuns

/-!
# What a mutation publishes

The levels of a delta are the probed levels whose total changed, each once and with the
total after the mutation, and its bid and ask are the new best prices of the sides whose
top changed. A delta is complete exactly when the candidates cover every changed level.
-/

namespace GmaEngine
open Std

namespace OrderBook

/-- Best price of a side with its cached total. -/
def top (b : OrderBook) (s : Side) : Option (Price × UInt64) :=
  (b.begin s).map (fun l => (l.1, l.2.totalSize))

def SameTotals (b b' : OrderBook) : Prop := ∀ s p, b'.levelSize s p = b.levelSize s p

def SameTop (b b' : OrderBook) : Prop := ∀ s, b'.top s = b.top s

theorem top_eq_none_iff (b : OrderBook) (s : Side) :
    b.top s = none ↔ ∀ p, b.findLevel s p = none := by
  rw [top, Option.map_eq_none_iff, begin_eq_none_iff]

/-- The top of a side is the level that stands before all others, with its total. -/
theorem top_eq_some_iff {b : OrderBook} {s : Side} {p : Price} {z : UInt64} :
    b.top s = some (p, z) ↔ ((b.findLevel s p).isSome ∧ b.levelSize s p = z) ∧
      ∀ q, (b.findLevel s q).isSome → q ≠ p → ladderCmp s p q = .lt := by
  constructor
  · intro h
    obtain ⟨⟨p', l⟩, hb, he⟩ := Option.map_eq_some_iff.mp h
    obtain ⟨rfl, rfl⟩ : p' = p ∧ l.totalSize = z := by simpa using he
    obtain ⟨hl, hbest⟩ := begin_spec hb
    refine ⟨by simp [levelSize, hl], ?_⟩
    intro q hq hne
    obtain ⟨l', hl'⟩ := Option.isSome_iff_exists.mp hq
    exact hbest q l' hl' hne
  · rintro ⟨⟨hp, hz⟩, hbest⟩
    cases hb : b.begin s with
    | none => simp [(begin_eq_none_iff b s).mp hb p] at hp
    | some first =>
      obtain ⟨p', l⟩ := first
      obtain ⟨hl, hbest'⟩ := begin_spec hb
      obtain ⟨l', hl'⟩ := Option.isSome_iff_exists.mp hp
      have hpp : p' = p := by
        by_contra hne
        have h1 := hbest p' (by simp [hl]) hne
        have h2 := hbest' p l' hl' (Ne.symm hne)
        have h3 : ladderCmp s p p' = (ladderCmp s p' p).swap := OrientedCmp.eq_swap
        rw [h1, h2] at h3
        cases h3
      subst hpp
      have hsize : l.totalSize = z := by simpa [levelSize, hl] using hz
      simp [top, hb, hsize]

/-- The top of a side is fixed by which levels exist and by their totals. -/
theorem top_eq_of_levels {b b' : OrderBook} {s : Side}
    (hsome : ∀ p, (b'.findLevel s p).isSome = (b.findLevel s p).isSome)
    (hsize : ∀ p, b'.levelSize s p = b.levelSize s p) : b'.top s = b.top s := by
  apply Option.ext
  rintro ⟨p, z⟩
  rw [top_eq_some_iff, top_eq_some_iff]
  simp only [hsome, hsize]

end OrderBook

namespace LevelDelta

def place (e : LevelDelta) : Side × Price := (e.side, e.price)

end LevelDelta

namespace OrderBookManager
variable {D : Type}

def Probe.place (pr : Probe) : Side × Price := (pr.s, pr.p)

theorem mem_addProbe (b : OrderBook) (probes : List Probe) (c x : Side × Price) :
    x ∈ (addProbe b probes c).map Probe.place ↔ x ∈ probes.map Probe.place ∨ x = c := by
  unfold addProbe
  split_ifs with h
  · obtain ⟨pr, hpr, he⟩ := List.any_eq_true.mp h
    have hc : c ∈ probes.map Probe.place := by
      obtain ⟨hs, hp⟩ := of_decide_eq_true he
      have hpp : pr.p = c.2 := by
        cases hq : pr.p
        cases hc : c.2
        simp_all
      exact List.mem_map.mpr ⟨pr, hpr, Prod.ext hs hpp⟩
    constructor
    · exact Or.inl
    · rintro (h | rfl)
      · exact h
      · exact hc
  · simp [Probe.place, Prod.ext_iff]

theorem nodup_addProbe (b : OrderBook) (probes : List Probe) (c : Side × Price)
    (h : (probes.map Probe.place).Nodup) : ((addProbe b probes c).map Probe.place).Nodup := by
  unfold addProbe
  split_ifs with hany
  · exact h
  · have hn : c ∉ probes.map Probe.place := by
      intro hc
      obtain ⟨pr, hpr, he⟩ := List.mem_map.mp hc
      exact hany (List.any_eq_true.mpr ⟨pr, hpr, by simp [← he, Probe.place]⟩)
    rw [List.map_append, List.nodup_append]
    refine ⟨h, by simp, ?_⟩
    intro x hx y hy hxy
    obtain rfl : y = c := by simpa [Probe.place] using hy
    exact hn (hxy ▸ hx)

theorem before_addProbe {b : OrderBook} {probes : List Probe} (c : Side × Price)
    (h : ∀ pr ∈ probes, pr.before = b.levelSize pr.s pr.p) :
    ∀ pr ∈ addProbe b probes c, pr.before = b.levelSize pr.s pr.p := by
  intro pr hpr
  unfold addProbe at hpr
  split_ifs at hpr
  · exact h pr hpr
  · rcases List.mem_append.mp hpr with hpr | hpr
    · exact h pr hpr
    · obtain rfl : pr = ⟨c.1, c.2, b.levelSize c.1 c.2⟩ := by simpa using hpr
      rfl

/-- Every candidate is probed once, with its total before the mutation. -/
theorem probes_spec (b : OrderBook) (candidates : List (Side × Price)) :
    ((candidates.foldl (addProbe b) []).map Probe.place).Nodup ∧
    (∀ x, x ∈ (candidates.foldl (addProbe b) []).map Probe.place ↔ x ∈ candidates) ∧
    ∀ pr ∈ candidates.foldl (addProbe b) [], pr.before = b.levelSize pr.s pr.p := by
  induction candidates using List.reverseRecOn with
  | nil => exact ⟨by simp, by simp, by simp⟩
  | append_singleton cs c ih =>
    obtain ⟨hnd, hmem, hbefore⟩ := ih
    rw [List.foldl_append, List.foldl_cons, List.foldl_nil]
    refine ⟨nodup_addProbe b _ c hnd, ?_, before_addProbe c hbefore⟩
    intro x
    rw [mem_addProbe, hmem, List.mem_append, List.mem_singleton]

/-- The level entries that a mutation from `b` to `b'` publishes. -/
def changedLevels (b b' : OrderBook) (candidates : List (Side × Price)) : List LevelDelta :=
  (candidates.foldl (addProbe b) []).filterMap (fun pr =>
    let after := b'.levelSize pr.s pr.p
    if after ≠ pr.before then some ⟨pr.s, pr.p, after⟩ else none)

/-- `levels` lists exactly the levels whose total differs between two books, each once and
with the total in the second. -/
def LevelsExact (b b' : OrderBook) (levels : List LevelDelta) : Prop :=
  (levels.map LevelDelta.place).Nodup ∧ ∀ e, e ∈ levels ↔
    b'.levelSize e.side e.price ≠ b.levelSize e.side e.price ∧
      e.totalSize = b'.levelSize e.side e.price

theorem mem_changedLevels (b b' : OrderBook) (candidates : List (Side × Price)) (e : LevelDelta) :
    e ∈ changedLevels b b' candidates ↔ e.place ∈ candidates ∧
      b'.levelSize e.side e.price ≠ b.levelSize e.side e.price ∧
      e.totalSize = b'.levelSize e.side e.price := by
  obtain ⟨-, hmem, hbefore⟩ := probes_spec b candidates
  rw [← hmem, changedLevels, List.mem_filterMap]
  constructor
  · rintro ⟨pr, hpr, he⟩
    dsimp only at he
    split_ifs at he with hne
    cases he
    rw [hbefore pr hpr] at hne
    exact ⟨List.mem_map.mpr ⟨pr, hpr, rfl⟩, hne, rfl⟩
  · rintro ⟨hpl, hne, htot⟩
    obtain ⟨pr, hpr, heq⟩ := List.mem_map.mp hpl
    obtain ⟨hs, hp⟩ : pr.s = e.side ∧ pr.p = e.price :=
      ⟨congrArg Prod.fst heq, congrArg Prod.snd heq⟩
    refine ⟨pr, hpr, ?_⟩
    rw [hbefore pr hpr, hs, hp, if_pos hne, ← htot]

theorem nodup_changedLevels (b b' : OrderBook) (candidates : List (Side × Price)) :
    ((changedLevels b b' candidates).map LevelDelta.place).Nodup := by
  have hnd := (probes_spec b candidates).1
  unfold changedLevels
  generalize candidates.foldl (addProbe b) [] = probes at hnd
  induction probes with
  | nil => simp
  | cons pr probes ih =>
    rw [List.map_cons, List.nodup_cons] at hnd
    have hrest := ih hnd.2
    by_cases hne : b'.levelSize pr.s pr.p ≠ pr.before
    · simp only [List.filterMap_cons, if_pos hne, List.map_cons, List.nodup_cons]
      refine ⟨?_, hrest⟩
      intro hin
      apply hnd.1
      obtain ⟨e, he, hpl⟩ := List.mem_map.mp hin
      obtain ⟨pr', hpr', hif⟩ := List.mem_filterMap.mp he
      split_ifs at hif
      cases hif
      exact List.mem_map.mpr ⟨pr', hpr', hpl⟩
    · simp only [List.filterMap_cons, if_neg hne]
      exact hrest

/-- The probed levels are the changed ones when the candidates cover every change. -/
theorem levelsExact_changedLevels_iff (b b' : OrderBook) (candidates : List (Side × Price)) :
    LevelsExact b b' (changedLevels b b' candidates) ↔
      ∀ s p, b'.levelSize s p ≠ b.levelSize s p → (s, p) ∈ candidates := by
  constructor
  · rintro ⟨-, h⟩ s p hne
    have hmem := (h ⟨s, p, b'.levelSize s p⟩).mpr ⟨hne, rfl⟩
    exact ((mem_changedLevels b b' candidates _).mp hmem).1
  · intro hcover
    refine ⟨nodup_changedLevels b b' candidates, fun e => ?_⟩
    rw [mem_changedLevels]
    constructor
    · exact And.right
    · intro h
      exact ⟨hcover e.side e.price h.1, h⟩

theorem LevelsExact.eq_nil_iff {b b' : OrderBook} {levels : List LevelDelta}
    (h : LevelsExact b b' levels) : levels = [] ↔ b.SameTotals b' := by
  constructor
  · rintro rfl s p
    by_contra hne
    have hmem := (h.2 ⟨s, p, b'.levelSize s p⟩).mpr ⟨hne, rfl⟩
    cases hmem
  · intro hsame
    rw [List.eq_nil_iff_forall_not_mem]
    intro e he
    exact ((h.2 e).mp he).1 (hsame e.side e.price)

/-- The bid or ask field that a mutation publishes: the new top of a side that changed. -/
def newTop (b b' : OrderBook) (s : Side) : Option (Price × UInt64) :=
  if b'.top s = b.top s then none else b'.top s

theorem newTop_eq (pre post : Option (Price × PriceLevel)) :
    (if tobChanged (pre.map Prod.fst) (post.map Prod.fst)
        (pre.elim 0 (fun l => l.2.totalSize)) (post.elim 0 (fun l => l.2.totalSize)) then
      (post.map Prod.fst).map (fun p => (p, post.elim 0 (fun l => l.2.totalSize))) else none) =
    if post.map (fun l => (l.1, l.2.totalSize)) = pre.map (fun l => (l.1, l.2.totalSize)) then none
    else post.map (fun l => (l.1, l.2.totalSize)) := by
  cases pre with
  | none =>
    cases post with
    | none => simp [tobChanged]
    | some q => simp [tobChanged]
  | some q =>
    cases post with
    | none => simp [tobChanged]
    | some q' =>
      obtain ⟨⟨t⟩, l⟩ := q
      obtain ⟨⟨t'⟩, l'⟩ := q'
      by_cases ht : t' = t
      · by_cases hz : l'.totalSize = l.totalSize
        · simp [tobChanged, ht, hz]
        · simp [tobChanged, ht, hz, Ne.symm hz]
      · simp [tobChanged, ht, Ne.symm ht]

theorem newTop_bid (b b' : OrderBook) :
    (if tobChanged b.bestBid b'.bestBid b.bestBidSize b'.bestBidSize then
      b'.bestBid.map (fun p => (p, b'.bestBidSize)) else none) = newTop b b' .bid := newTop_eq _ _

theorem newTop_ask (b b' : OrderBook) :
    (if tobChanged b.bestAsk b'.bestAsk b.bestAskSize b'.bestAskSize then
      b'.bestAsk.map (fun p => (p, b'.bestAskSize)) else none) = newTop b b' .ask := newTop_eq _ _

/-- `mutateWithDelta`, with its delta written out. -/
theorem mutateWithDelta_eq (m : OrderBookManager D) (symbol : String)
    (candidates : List (Side × Price)) (mutator : OrderBook → OrderBook × Bool) :
    m.mutateWithDelta symbol candidates mutator =
      if (mutator (m.book symbol)).2 then
        ⟨true, ((m.setBook symbol (mutator (m.book symbol)).1).maybePublishDelta symbol
            (changedLevels (m.book symbol) (mutator (m.book symbol)).1 candidates)
            (newTop (m.book symbol) (mutator (m.book symbol)).1 .bid)
            (newTop (m.book symbol) (mutator (m.book symbol)).1 .ask)).1,
          ((m.setBook symbol (mutator (m.book symbol)).1).maybePublishDelta symbol
            (changedLevels (m.book symbol) (mutator (m.book symbol)).1 candidates)
            (newTop (m.book symbol) (mutator (m.book symbol)).1 .bid)
            (newTop (m.book symbol) (mutator (m.book symbol)).1 .ask)).2⟩
      else ⟨false, m.setBook symbol (mutator (m.book symbol)).1, []⟩ := by
  generalize hx : mutator (m.book symbol) = x
  obtain ⟨b', changed⟩ := x
  cases changed with
  | false => simp [mutateWithDelta, hx]
  | true =>
    simp only [mutateWithDelta, hx, newTop_bid, newTop_ask, Bool.not_true, Bool.false_eq_true,
      if_false, if_true]
    rfl

/-- The delta of a mutation, when there is one. -/
theorem mem_deltas_mutateWithDelta {m : OrderBookManager D} {symbol : String}
    (candidates : List (Side × Price)) {mutator : OrderBook → OrderBook × Bool} {b' : OrderBook}
    (hmut : mutator (m.book symbol) = (b', true)) {d : BookDelta}
    (hd : d ∈ (m.mutateWithDelta symbol candidates mutator).deltas) :
    (m.mutateWithDelta symbol candidates mutator).deltas = [d] ∧
      d.levels = changedLevels (m.book symbol) b' candidates ∧
      d.bid = newTop (m.book symbol) b' .bid ∧ d.ask = newTop (m.book symbol) b' .ask := by
  rw [mutateWithDelta_eq, hmut, if_pos rfl, maybePublishDelta] at hd ⊢
  split_ifs at hd ⊢
  · cases hd
  · obtain rfl := List.mem_singleton.mp hd
    exact ⟨rfl, rfl, rfl, rfl⟩

theorem deltas_mutateWithDelta_eq_nil {m : OrderBookManager D} {symbol : String}
    (candidates : List (Side × Price)) {mutator : OrderBook → OrderBook × Bool} {b' : OrderBook}
    (hmut : mutator (m.book symbol) = (b', true)) :
    (m.mutateWithDelta symbol candidates mutator).deltas = [] ↔
      changedLevels (m.book symbol) b' candidates = [] ∧ newTop (m.book symbol) b' .bid = none ∧
        newTop (m.book symbol) b' .ask = none := by
  rw [mutateWithDelta_eq, hmut, if_pos rfl, maybePublishDelta]
  split_ifs with h
  · simpa using h
  · simpa using h

theorem deltas_mutateWithDelta_of_false {m : OrderBookManager D} {symbol : String}
    (candidates : List (Side × Price)) {mutator : OrderBook → OrderBook × Bool} {b' : OrderBook}
    (hmut : mutator (m.book symbol) = (b', false)) :
    (m.mutateWithDelta symbol candidates mutator).deltas = [] := by
  rw [mutateWithDelta_eq, hmut]
  rfl

/-- A snapshot publishes the top of book only. -/
theorem levels_afterSnapshot (m : OrderBookManager D) (symbol : String)
    (snapshotSeq : Option UInt64) :
    ∀ d ∈ (m.afterSnapshot symbol snapshotSeq).2, d.levels = [] := by
  unfold afterSnapshot maybePublishDelta
  dsimp only
  split_ifs
  · simp
  · simp

end OrderBookManager
end GmaEngine
