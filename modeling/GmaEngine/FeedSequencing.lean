import GmaEngine.StaleGate

/-!
# Sequence numbers of a feed

`onSeq` accepts the successor of the last number it accepted, or of the number that the last
snapshot came with, and takes any other number for a gap. It keeps that number in `lastSeq`,
where 0 stands for "unset", so after a number 0 it has forgotten where the sequence stands.
-/

namespace GmaEngine.OrderBookManager
variable {D : Type}

section
variable [Double D]

/-- The number that the next one has to follow: the last accepted number, else the number of
the last snapshot. After a reset, or a snapshot without a number, there is none. -/
def anchorAfter (symbol : String) (m : OrderBookManager D) (anchor : Option UInt64) :
    ManagerOp D → Option UInt64
  | .seq s seq => if s = symbol ∧ (m.onSeq s seq).ret = true then some seq else anchor
  | .reset s _ => if s = symbol then none else anchor
  | .snapshotPerOrder s _ snapshotSeq => if s = symbol then snapshotSeq else anchor
  | .snapshotAggregated s _ snapshotSeq => if s = symbol then snapshotSeq else anchor
  | _ => anchor

/-- The law of one operation: a number that does not follow the anchor is refused and makes
the symbol stale, so an accepted number follows it. -/
def KeepsSequence (symbol : String) (m : OrderBookManager D) (anchor : Option UInt64)
    (op : ManagerOp D) : Prop :=
  ∀ seq p, op = .seq symbol seq → anchor = some p → seq ≠ p + 1 →
    (m.onSeq symbol seq).ret = false ∧ (m.onSeq symbol seq).mgr.isStale symbol = true

/-- Every operation of a run has a property of the manager and the anchor that it finds. -/
def Sequenced (P : OrderBookManager D → Option UInt64 → ManagerOp D → Prop) (symbol : String)
    (m : OrderBookManager D) (anchor : Option UInt64) : List (ManagerOp D) → Prop
  | [] => True
  | op :: ops => P m anchor op ∧
      Sequenced P symbol (m.exec op).1 (anchorAfter symbol m anchor op) ops

/-- While the symbol is fresh, `lastSeq` is the anchor. -/
def Anchored (symbol : String) (m : OrderBookManager D) (anchor : Option UInt64) : Prop :=
  ∀ p, anchor = some p → m.isStale symbol = false → (m.getFeedState symbol).lastSeq = p

/-- No number but 1 is offered to the fresh symbol when the anchor is 0. -/
def ZeroFollowed (symbol : String) (m : OrderBookManager D) (anchor : Option UInt64)
    (op : ManagerOp D) : Prop :=
  ∀ seq, op = .seq symbol seq → anchor = some 0 → m.isStale symbol = false → seq = 1

end

section
variable {m : OrderBookManager D} {symbol : String} {anchor : Option UInt64}

/-- What is accepted, by cases on the feed state. -/
theorem onSeq_cases (m : OrderBookManager D) (symbol : String) (seq : UInt64) :
    (m.isStale symbol = true ∧ (m.onSeq symbol seq).ret = false ∧
      (m.onSeq symbol seq).mgr.isStale symbol = true) ∨
    (m.isStale symbol = false ∧ ((m.getFeedState symbol).lastSeq = 0 ∨
        seq = (m.getFeedState symbol).lastSeq + 1) ∧ (m.onSeq symbol seq).ret = true ∧
      ((m.onSeq symbol seq).mgr.getFeedState symbol).lastSeq = seq) ∨
    (m.isStale symbol = false ∧ (m.getFeedState symbol).lastSeq ≠ 0 ∧
      seq ≠ (m.getFeedState symbol).lastSeq + 1 ∧ (m.onSeq symbol seq).ret = false ∧
      (m.onSeq symbol seq).mgr.isStale symbol = true) := by
  have hget : ∀ st, (m.setFeed symbol st).getFeedState symbol = st := by
    intro st
    simp [getFeedState, setFeed]
  unfold isStale onSeq
  cases hstale : (m.getFeedState symbol).stale with
  | true => simp [hget, hstale]
  | false =>
    right
    by_cases hnext : (m.getFeedState symbol).lastSeq = 0 ∨
        seq = (m.getFeedState symbol).lastSeq + 1
    · left
      simp [hnext, hget, hstale]
    · right
      rw [not_or] at hnext
      simp [hnext, hget, hstale]

theorem getFeedState_of_feed {m' : OrderBookManager D} (h : m'.feed symbol = m.feed symbol) :
    m'.getFeedState symbol = m.getFeedState symbol := by
  simp only [getFeedState, h]

theorem Anchored.congr {m' : OrderBookManager D} (h : Anchored symbol m anchor)
    (hfeed : m'.feed symbol = m.feed symbol) : Anchored symbol m' anchor := by
  intro p hp hfresh
  have hsame := getFeedState_of_feed hfeed
  rw [isStale, hsame] at hfresh
  rw [hsame]
  exact h p hp hfresh

/-- A snapshot puts its number in `lastSeq`, if it has one. -/
theorem feed_afterSnapshot (m : OrderBookManager D) (s : String) (snapshotSeq : Option UInt64) :
    (m.afterSnapshot s snapshotSeq).1.feed = Function.update m.feed s (some { m.getFeedState s with
      stale := false, lastSeq := snapshotSeq.getD (m.getFeedState s).lastSeq }) :=
  feed_maybePublishDelta _ _ _

theorem anchored_afterSnapshot (h : Anchored symbol m anchor) (s : String)
    (snapshotSeq : Option UInt64) :
    Anchored symbol (m.afterSnapshot s snapshotSeq).1
      (if s = symbol then snapshotSeq else anchor) := by
  have hfeed := feed_afterSnapshot m s snapshotSeq
  split_ifs with hs
  · subst hs
    intro p hp _
    rw [getFeedState, hfeed, Function.update_self, Option.getD_some, hp, Option.getD_some]
  · apply h.congr
    rw [hfeed, Function.update_of_ne (Ne.symm hs)]

variable [Double D]

/-- The step lemma. -/
theorem anchored_exec (h : Anchored symbol m anchor) (op : ManagerOp D) :
    Anchored symbol (m.exec op).1 (anchorAfter symbol m anchor op) := by
  cases op with
  | seq s seq =>
    by_cases hs : s = symbol
    · subst hs
      intro p hp hfresh
      rcases onSeq_cases m s seq with ⟨-, -, hstale⟩ | ⟨-, -, hret, hlast⟩ | ⟨-, -, -, -, hstale⟩
      · have hboth : true = false := hstale.symm.trans hfresh
        cases hboth
      · rw [anchorAfter, if_pos ⟨rfl, hret⟩] at hp
        exact hlast.trans (Option.some.inj hp)
      · have hboth : true = false := hstale.symm.trans hfresh
        cases hboth
    · have hanchor : anchorAfter symbol m anchor (.seq s seq) = anchor :=
        if_neg (fun hboth => hs hboth.1)
      rw [hanchor]
      apply h.congr
      change (m.onSeq s seq).mgr.feed symbol = m.feed symbol
      unfold onSeq
      dsimp only
      split_ifs <;> exact Function.update_of_ne (Ne.symm hs) _ _
  | reset s newEpoch =>
    by_cases hs : s = symbol
    · have hanchor : anchorAfter symbol m anchor (.reset s newEpoch) = none := if_pos hs
      rw [hanchor]
      intro p hp
      cases hp
    · have hanchor : anchorAfter symbol m anchor (.reset s newEpoch) = anchor := if_neg hs
      rw [hanchor]
      exact h.congr (Function.update_of_ne (Ne.symm hs) _ _)
  | snapshotPerOrder s tickOrders snapshotSeq =>
    exact anchored_afterSnapshot (m := m.setBook s _) (h.congr rfl) s snapshotSeq
  | snapshotAggregated s levelsD snapshotSeq =>
    exact anchored_afterSnapshot (m := m.setBook s _) (h.congr rfl) s snapshotSeq
  | _ => exact h.congr (congrFun (gated_exec rfl).feed symbol)

omit [Double D] in
/-- The law of one number holds but for a number other than 1 after a 0. -/
theorem keepsSequence_iff (h : Anchored symbol m anchor) (op : ManagerOp D) :
    KeepsSequence symbol m anchor op ↔ ZeroFollowed symbol m anchor op := by
  constructor
  · intro hlaw seq hop hzero hfresh
    by_contra hne
    have hlast := h 0 hzero hfresh
    have hrefused := (hlaw seq 0 hop hzero (by simpa using hne)).1
    rcases onSeq_cases m symbol seq with ⟨hstale, -⟩ | ⟨-, -, hret, -⟩ | ⟨-, hnz, -⟩
    · rw [hfresh] at hstale
      cases hstale
    · rw [hret] at hrefused
      cases hrefused
    · exact hnz hlast
  · intro hzero seq p hop hanchor hne
    rcases onSeq_cases m symbol seq with ⟨-, hret, hstale⟩ | ⟨hfresh, hnext, -⟩ |
      ⟨-, -, -, hret, hstale⟩
    · exact ⟨hret, hstale⟩
    · have hlast := h p hanchor hfresh
      rw [hlast] at hnext
      rcases hnext with hp | hseq
      · subst hp
        exact absurd (hzero seq hop hanchor hfresh) (by simpa using hne)
      · exact absurd hseq hne
    · exact ⟨hret, hstale⟩

theorem sequenced_iff (h : Anchored symbol m anchor) (ops : List (ManagerOp D)) :
    Sequenced (KeepsSequence symbol) symbol m anchor ops ↔
      Sequenced (ZeroFollowed symbol) symbol m anchor ops := by
  induction ops generalizing m anchor with
  | nil => exact Iff.rfl
  | cons op ops ih => rw [Sequenced, Sequenced, keepsSequence_iff h op, ih (anchored_exec h op)]

/-- The accepted numbers of a symbol follow each other and its snapshots in a run, and every
other number is refused, exactly when 0 is always followed by 1. -/
theorem sequence_contiguous_iff (ops : List (ManagerOp D)) (symbol : String) :
    Sequenced (KeepsSequence symbol) symbol ({} : OrderBookManager D) none ops ↔
      Sequenced (ZeroFollowed symbol) symbol ({} : OrderBookManager D) none ops := by
  apply sequenced_iff
  intro p hp
  cases hp

end

/-- After a snapshot with the number 0, the number 5 is accepted. -/
theorem sequence_forgets_zero :
    ¬ ∀ (ops : List (ManagerOp ExactDouble)) (symbol : String),
      Sequenced (KeepsSequence symbol) symbol ({} : OrderBookManager ExactDouble) none ops := by
  intro h
  obtain ⟨-, hlaw, -⟩ := h [.snapshotAggregated "AAPL" [] (some 0), .seq "AAPL" 5] "AAPL"
  have hrefused := (hlaw 5 0 rfl (by simp [anchorAfter]) (by decide)).1
  have haccepted : ((exec ({} : OrderBookManager ExactDouble)
      (.snapshotAggregated "AAPL" [] (some 0))).1.onSeq "AAPL" 5).ret = true := by decide +kernel
  rw [haccepted] at hrefused
  cases hrefused

end GmaEngine.OrderBookManager
