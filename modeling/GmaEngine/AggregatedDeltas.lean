import GmaEngine.DeltaPublication

/-!
# Deltas of the aggregated operations

A level summary and an aggregated snapshot write the aggregated ladders, while the probes of
a mutation and the top of book read the per-order ladders. No level entry is ever published
for them, so subscribers learn of a change only if there was none.
-/

namespace GmaEngine
open Std

namespace OrderBook

theorem levelSizeAggregated_applyLevelSummary (b : OrderBook) (side : Side) (price : Price)
    (totalSize : UInt64) (orderCount : Option UInt32) (s : Side) (p : Price) :
    (b.applyLevelSummary side price totalSize orderCount).1.levelSizeAggregated s p =
      if s = side ∧ p = price then totalSize else b.levelSizeAggregated s p := by
  unfold applyLevelSummary levelSizeAggregated
  by_cases h0 : totalSize = 0
  · rw [if_pos h0, findAggLevel_eraseAggLevel]
    split_ifs
    · exact h0.symm
    · rfl
  · rw [if_neg h0, findAggLevel_setAggLevel]
    split_ifs <;> rfl

/-- The total that a list of snapshot entries leaves at a level: that of the last entry for
it whose total is not zero, and zero if there is none. -/
def lastTotal (levels : List LevelSnapshotEntry) (s : Side) (p : Price) : UInt64 :=
  ((levels.filter (fun e => e.side = s ∧ e.price = p ∧ e.totalSize ≠ 0)).getLast?.map
    LevelSnapshotEntry.totalSize).getD 0

theorem levelSizeAggregated_applySnapshotAggregated (b : OrderBook)
    (levels : List LevelSnapshotEntry) (s : Side) (p : Price) :
    (b.applySnapshotAggregated levels).levelSizeAggregated s p = lastTotal levels s p := by
  unfold applySnapshotAggregated
  induction levels using List.reverseRecOn with
  | nil => simp [clearAggregatedUnlocked, levelSizeAggregated, findAggLevel, lastTotal]
  | append_singleton es e ih =>
    rw [List.foldl_append, List.foldl_cons, List.foldl_nil]
    by_cases h0 : e.totalSize = 0
    · rw [if_pos h0, ih]
      simp [lastTotal, List.filter_append, h0]
    · rw [if_neg h0, levelSizeAggregated, findAggLevel_setAggLevel]
      by_cases hsp : s = e.side ∧ p = e.price
      · simp [lastTotal, List.filter_append, h0, hsp]
      · have hne : ¬ (e.side = s ∧ e.price = p ∧ e.totalSize ≠ 0) :=
          fun h => hsp ⟨h.1.symm, h.2.1.symm⟩
        have hlast : lastTotal (es ++ [e]) s p = lastTotal es s p := by
          simp [lastTotal, List.filter_append, hne]
        rw [if_neg hsp, hlast, ← ih]
        rfl

end OrderBook

namespace OrderBookManager
variable {D : Type} [Double D]
open OrderBook

/-- Every aggregated total that changes is published with its new value, and every published
level entry is right about the aggregated ladder. -/
def AggregatedReported (b b' : OrderBook) (deltas : List BookDelta) : Prop :=
  (∀ s p, b'.levelSizeAggregated s p ≠ b.levelSizeAggregated s p →
    ∃ d ∈ deltas, ⟨s, p, b'.levelSizeAggregated s p⟩ ∈ d.levels) ∧
  ∀ d ∈ deltas, ∀ e ∈ d.levels, e.totalSize = b'.levelSizeAggregated e.side e.price

/-- When no delta has a level entry, reporting means that nothing changed. -/
theorem aggregatedReported_iff_of_no_levels {b b' : OrderBook} {deltas : List BookDelta}
    (hnone : ∀ d ∈ deltas, d.levels = []) :
    AggregatedReported b b' deltas ↔
      ∀ s p, b'.levelSizeAggregated s p = b.levelSizeAggregated s p := by
  constructor
  · rintro ⟨hall, -⟩ s p
    by_contra hne
    obtain ⟨d, hd, he⟩ := hall s p hne
    rw [hnone d hd] at he
    cases he
  · intro hsame
    refine ⟨fun s p hne => absurd (hsame s p) hne, ?_⟩
    intro d hd e he
    rw [hnone d hd] at he
    cases he

section
variable (m : OrderBookManager D) (symbol : String)

/-- The summary's only probe reads a per-order level, which it does not write. -/
theorem levels_onLevelSummary (side : Side) (price : D) (totalSize : UInt64)
    (orderCount : Option UInt32) :
    ∀ d ∈ (m.onLevelSummary symbol side price totalSize orderCount).deltas, d.levels = [] := by
  unfold onLevelSummary
  split_ifs
  · simp
  · simp
  dsimp only
  generalize m.toTicks symbol price = p
  intro d hd
  have hp := applyLevelSummary_perOrder (m.book symbol) side p totalSize orderCount
  have hladder := congrArg OrderBook.ladder hp
  generalize hx : (m.book symbol).applyLevelSummary side p totalSize orderCount = x at hladder
  obtain ⟨b', changed⟩ := x
  cases changed with
  | false =>
    rw [deltas_mutateWithDelta_of_false [(side, p)] hx] at hd
    cases hd
  | true =>
    rw [(mem_deltas_mutateWithDelta [(side, p)] hx hd).2.1, List.eq_nil_iff_forall_not_mem]
    intro e he
    apply ((mem_changedLevels _ _ _ e).mp he).2.1
    have hl : b'.ladder = (m.book symbol).ladder := hladder
    rw [levelSize, levelSize, findLevel, findLevel, hl]

end

/-- An aggregated operation reports the aggregated ladder to the subscribers if and only if
it leaves every aggregated total as it was. -/
theorem aggregated_reported_iff (ops : List (ManagerOp D)) (symbol : String)
    (hstale : (run ops).1.isStale symbol = false) :
    (∀ side price totalSize orderCount, (run ops).1.validatePrice symbol price = true →
      (AggregatedReported ((run ops).1.book symbol)
          (((run ops).1.exec (.levelSummary symbol side price totalSize orderCount)).1.book symbol)
          ((run ops).1.exec (.levelSummary symbol side price totalSize orderCount)).2 ↔
        totalSize = ((run ops).1.book symbol).levelSizeAggregated side
          ((run ops).1.toTicks symbol price))) ∧
    ∀ levelsD snapshotSeq,
      (AggregatedReported ((run ops).1.book symbol)
          (((run ops).1.exec (.snapshotAggregated symbol levelsD snapshotSeq)).1.book symbol)
          ((run ops).1.exec (.snapshotAggregated symbol levelsD snapshotSeq)).2 ↔
        ∀ s p, lastTotal (levelsD.map (fun e => ⟨e.side, (run ops).1.toTicks symbol e.price,
            e.totalSize, e.orderCount⟩)) s p =
          ((run ops).1.book symbol).levelSizeAggregated s p) := by
  generalize (run ops).1 = m at *
  have hgate : m.gate symbol = false := hstale
  constructor
  · intro side price totalSize orderCount hprice
    have hside : validSide side = true := by cases side <;> rfl
    have hbook : (m.exec (.levelSummary symbol side price totalSize orderCount)).1.book symbol =
        ((m.book symbol).applyLevelSummary side (m.toTicks symbol price) totalSize orderCount).1 := by
      simp [exec, Outcome.effect, onLevelSummary, hgate, hside, hprice]
    have hnone : ∀ d ∈ (m.exec (.levelSummary symbol side price totalSize orderCount)).2,
        d.levels = [] := levels_onLevelSummary m symbol side price totalSize orderCount
    rw [hbook, aggregatedReported_iff_of_no_levels hnone]
    simp only [levelSizeAggregated_applyLevelSummary]
    constructor
    · intro h
      simpa using h side (m.toTicks symbol price)
    · intro h s p
      split_ifs with hsp
      · rw [hsp.1, hsp.2]
        exact h
      · rfl
  · intro levelsD snapshotSeq
    have hbook : (m.exec (.snapshotAggregated symbol levelsD snapshotSeq)).1.book symbol =
        (m.book symbol).applySnapshotAggregated (levelsD.map (fun e =>
          ⟨e.side, m.toTicks symbol e.price, e.totalSize, e.orderCount⟩)) := by
      simp [exec, Outcome.effect, onSnapshotAggregated]
    have hnone : ∀ d ∈ (m.exec (.snapshotAggregated symbol levelsD snapshotSeq)).2,
        d.levels = [] := levels_afterSnapshot _ symbol snapshotSeq
    rw [hbook, aggregatedReported_iff_of_no_levels hnone]
    simp only [levelSizeAggregated_applySnapshotAggregated]

/-- A manager on which only the tick size of `AAPL` has been set. -/
def configured : List (ManagerOp ExactDouble) := [.setTickSize "AAPL" (.fin (1 / 100))]

/-- Two levels have been summarised. -/
def summarised : List (ManagerOp ExactDouble) :=
  configured ++ [.levelSummary "AAPL" .bid (.fin 100) 10 none,
    .levelSummary "AAPL" .ask (.fin 101) 7 none]

/-- The total that the ask has is reported, in that nothing changes; another one is not. -/
theorem aggregated_reported_summarised :
    AggregatedReported ((run summarised).1.book "AAPL")
      (((run summarised).1.exec (.levelSummary "AAPL" .ask (.fin 101) 7 none)).1.book "AAPL")
      ((run summarised).1.exec (.levelSummary "AAPL" .ask (.fin 101) 7 none)).2 ∧
    ¬AggregatedReported ((run summarised).1.book "AAPL")
      (((run summarised).1.exec (.levelSummary "AAPL" .bid (.fin 100) 9 none)).1.book "AAPL")
      ((run summarised).1.exec (.levelSummary "AAPL" .bid (.fin 100) 9 none)).2 ∧
    ¬AggregatedReported ((run summarised).1.book "AAPL")
      (((run summarised).1.exec (.snapshotAggregated "AAPL" [] none)).1.book "AAPL")
      ((run summarised).1.exec (.snapshotAggregated "AAPL" [] none)).2 := by
  obtain ⟨hsummary, hsnapshot⟩ := aggregated_reported_iff summarised "AAPL" (by decide +kernel)
  refine ⟨?_, ?_, ?_⟩
  · exact (hsummary .ask (.fin 101) 7 none (by decide +kernel)).mpr (by decide +kernel)
  · have hbid := hsummary .bid (.fin 100) 9 none (by decide +kernel)
    exact fun h => absurd (hbid.mp h) (by decide +kernel)
  · intro h
    have htotal := (hsnapshot [] none).mp h .bid ⟨10000⟩
    revert htotal
    decide +kernel

/-- A summary of ten at price 100 on an empty book: the aggregated total changes from zero to
ten, and nothing is published. -/
theorem level_summary_unreported :
    (run configured).1.isStale "AAPL" = false ∧
    (run configured).1.validatePrice "AAPL" (.fin 100) = true ∧
    ¬ AggregatedReported ((run configured).1.book "AAPL")
      (((run configured).1.exec (.levelSummary "AAPL" .bid (.fin 100) 10 none)).1.book "AAPL")
      ((run configured).1.exec (.levelSummary "AAPL" .bid (.fin 100) 10 none)).2 := by
  refine ⟨by decide +kernel, by decide +kernel, ?_⟩
  rintro ⟨hall, -⟩
  have hdeltas : ((run configured).1.exec (.levelSummary "AAPL" .bid (.fin 100) 10 none)).2 = [] := by
    decide +kernel
  obtain ⟨d, hd, -⟩ := hall .bid ⟨10000⟩ (by decide +kernel)
  rw [hdeltas] at hd
  cases hd

end OrderBookManager
end GmaEngine
