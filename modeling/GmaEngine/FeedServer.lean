import GmaEngine.ItchAdapter
import GmaEngine.StaleGate

/-!
# Feed ingress

The lines of a feed session and the events of the feed client both end in operations of one
order book manager. None of these operations is a snapshot, and no function that would ask
for one is installed, so a symbol that a feed has reset stays stale for good.
-/

namespace GmaEngine

namespace FeedServer
variable {D : Type} [Double D]

def maxLineSize : ℕ := 64 * 1024

-- Each handler gives the manager operation that a message asks for, if it is well formed.

def handleTickSize (symbol : String) (doc : Json D) : Option (ManagerOp D) := do
  return .setTickSize symbol (← (← doc.member "tickSize").getDouble)

def handleAdd (symbol : String) (doc : Json D) : Option (ManagerOp D) := do
  let id ← (← doc.member "id").getUint64
  let sideStr ← (← doc.member "side").getString
  let price ← (← doc.member "price").getDouble
  let size ← (← doc.member "size").getUint64
  let side := if sideStr = "ask" then Side.ask else Side.bid
  let priority := ((doc.member "priority").bind Json.getUint64).getD 0
  return .add symbol id side price size priority {} false

def handleUpdate (symbol : String) (doc : Json D) : Option (ManagerOp D) := do
  let id ← (← doc.member "id").getUint64
  let newPrice := (doc.member "price").bind Json.getDouble
  let newSize := (doc.member "size").bind Json.getUint64
  return .update symbol id {} newPrice newSize false

omit [Double D] in
def handleDelete (symbol : String) (doc : Json D) : Option (ManagerOp D) := do
  return .delete symbol (← (← doc.member "id").getUint64) {} false

omit [Double D] in
def aggressorOf (doc : Json D) : Aggressor :=
  match (doc.member "aggressor").bind Json.getString with
  | some "buy" => .buy
  | some "sell" => .sell
  | _ => .unknown

def handleTrade (symbol : String) (doc : Json D) : Option (ManagerOp D) := do
  let price ← (← doc.member "price").getDouble
  let size ← (← doc.member "size").getUint64
  return .trade symbol price size (aggressorOf doc)

def handleObMessage (doc : Json D) : Option (ManagerOp D) := do
  let symbol ← (← doc.member "symbol").getString
  let action ← (← doc.member "action").getString
  if symbol = "" ∨ 64 < symbol.utf8ByteSize then none
  else
    match action with
    | "ticksize" => handleTickSize symbol doc
    | "add" => handleAdd symbol doc
    | "update" => handleUpdate symbol doc
    | "delete" => handleDelete symbol doc
    | "trade" => handleTrade symbol doc
    | _ => none

omit [Double D] in
def handleControlMessage (doc : Json D) : Option (ManagerOp D) := do
  let action ← (← doc.member "action").getString
  match action with
  | "reset" =>
    let symbol ← (← doc.member "symbol").getString
    let epoch := ((doc.member "epoch").bind Json.getUint).getD 0
    return .reset symbol (UInt32.ofNat epoch)
  | _ => none

/-- A line and what the parser made of it; `none` is a parse error. Ticks go to the Dispatcher
and do not reach the manager. -/
def handleLine (line : ℕ × Option (Json D)) : Option (ManagerOp D) :=
  if maxLineSize < line.1 then none
  else
    match line.2 with
    | some (.object members) =>
      match ((Json.object members).member "type").bind Json.getString with
      | some "ob" => handleObMessage (.object members)
      | some "control" => handleControlMessage (.object members)
      | _ => none
    | _ => none

end FeedServer

/-- What a feed delivers: a line to a session with its size, or an event of the client. -/
inductive FeedInput (D : Type) where
  | line (size : ℕ) (doc : Option (Json D))
  | event (evt : FeedEvent D)

namespace FeedInput
variable {D : Type} [Double D]

def apply (m : OrderBookManager D) : FeedInput D → OrderBookManager D
  | .line size doc => (FeedServer.handleLine (size, doc)).elim m (fun op => (m.exec op).1)
  | .event evt => WsFeedClient.dispatchEvent m evt

/-- The manager after a sequence of inputs. -/
def deliver (m : OrderBookManager D) (inputs : List (FeedInput D)) : OrderBookManager D :=
  inputs.foldl apply m

end FeedInput

namespace FeedServer
variable {D : Type}

/-- A message asks for no snapshot. -/
def NoSnapshot (x : Option (ManagerOp D)) : Prop :=
  ∀ op, x = some op → ∀ symbol, op.snapshots symbol = false

theorem noSnapshot_none : NoSnapshot (none : Option (ManagerOp D)) := by
  intro op hop
  cases hop

theorem noSnapshot_pure {op : ManagerOp D} (h : ∀ symbol, op.snapshots symbol = false) :
    NoSnapshot (pure op) := by
  intro op' hop
  cases hop
  exact h

theorem noSnapshot_bind {α : Type} {x : Option α} {f : α → Option (ManagerOp D)}
    (h : ∀ a, NoSnapshot (f a)) : NoSnapshot (x >>= f) := by
  intro op hop
  obtain ⟨a, -, ha⟩ := Option.bind_eq_some_iff.mp hop
  exact h a op ha

theorem noSnapshot_handleDelete (symbol : String) (doc : Json D) :
    NoSnapshot (handleDelete symbol doc) := by
  unfold handleDelete
  iterate 2
    apply noSnapshot_bind
    intro _
  exact noSnapshot_pure (fun _ => rfl)

theorem noSnapshot_handleControlMessage (doc : Json D) : NoSnapshot (handleControlMessage doc) := by
  unfold handleControlMessage
  iterate 2
    apply noSnapshot_bind
    intro _
  split
  · iterate 2
      apply noSnapshot_bind
      intro _
    exact noSnapshot_pure (fun _ => rfl)
  · exact noSnapshot_none

variable [Double D]

theorem noSnapshot_handleTickSize (symbol : String) (doc : Json D) :
    NoSnapshot (handleTickSize symbol doc) := by
  unfold handleTickSize
  iterate 2
    apply noSnapshot_bind
    intro _
  exact noSnapshot_pure (fun _ => rfl)

theorem noSnapshot_handleAdd (symbol : String) (doc : Json D) :
    NoSnapshot (handleAdd symbol doc) := by
  unfold handleAdd
  iterate 8
    apply noSnapshot_bind
    intro _
  exact noSnapshot_pure (fun _ => rfl)

theorem noSnapshot_handleUpdate (symbol : String) (doc : Json D) :
    NoSnapshot (handleUpdate symbol doc) := by
  unfold handleUpdate
  iterate 2
    apply noSnapshot_bind
    intro _
  exact noSnapshot_pure (fun _ => rfl)

theorem noSnapshot_handleTrade (symbol : String) (doc : Json D) :
    NoSnapshot (handleTrade symbol doc) := by
  unfold handleTrade
  iterate 4
    apply noSnapshot_bind
    intro _
  exact noSnapshot_pure (fun _ => rfl)

theorem noSnapshot_handleObMessage (doc : Json D) : NoSnapshot (handleObMessage doc) := by
  unfold handleObMessage
  iterate 4
    apply noSnapshot_bind
    intro _
  split_ifs
  · exact noSnapshot_none
  · split
    · exact noSnapshot_handleTickSize _ doc
    · exact noSnapshot_handleAdd _ doc
    · exact noSnapshot_handleUpdate _ doc
    · exact noSnapshot_handleDelete _ doc
    · exact noSnapshot_handleTrade _ doc
    · exact noSnapshot_none

theorem noSnapshot_handleLine (line : ℕ × Option (Json D)) : NoSnapshot (handleLine line) := by
  unfold handleLine
  split_ifs
  · exact noSnapshot_none
  · split
    · split
      · exact noSnapshot_handleObMessage _
      · exact noSnapshot_handleControlMessage _
      · exact noSnapshot_none
    · exact noSnapshot_none

end FeedServer

namespace FeedInput
variable {D : Type} [Double D] {m : OrderBookManager D} {symbol : String}

open OrderBookManager

/-- The step lemma: no input of a feed makes a stale symbol fresh or touches its book. -/
theorem apply_of_stale (hstale : m.isStale symbol = true) (input : FeedInput D) :
    (apply m input).isStale symbol = true ∧ (apply m input).books symbol = m.books symbol := by
  have hexec : ∀ op : ManagerOp D, op.snapshots symbol = false →
      (m.exec op).1.isStale symbol = true ∧ (m.exec op).1.books symbol = m.books symbol := by
    intro op hop
    have huntouched := untouched_exec hop (.inr hstale)
    exact ⟨huntouched.stale.trans hstale, huntouched.books⟩
  cases input with
  | line size doc =>
    have happly : apply m (.line size doc) =
        (FeedServer.handleLine (size, doc)).elim m (fun op => (m.exec op).1) := rfl
    rw [happly]
    cases hop : FeedServer.handleLine (size, doc) with
    | none => exact ⟨hstale, rfl⟩
    | some op => exact hexec op (FeedServer.noSnapshot_handleLine (size, doc) op hop symbol)
  | event evt =>
    cases evt with
    | tick symbol payload => exact ⟨hstale, rfl⟩
    | obAdd s orderId side price size priority =>
      exact hexec (.add s orderId side price size priority {} false) rfl
    | obUpdate s orderId newPrice newSize =>
      exact hexec (.update s orderId {} newPrice newSize false) rfl
    | obDelete s orderId => exact hexec (.delete s orderId {} false) rfl
    | obTrade s price size aggressor => exact hexec (.trade s price size aggressor) rfl
    | obTickSize s tickSize => exact hexec (.setTickSize s tickSize) rfl
    | obReset s epoch => exact hexec (.reset s epoch) rfl

/-- The run lemma. -/
theorem deliver_of_stale (hstale : m.isStale symbol = true) (inputs : List (FeedInput D)) :
    (deliver m inputs).isStale symbol = true ∧
      (deliver m inputs).books symbol = m.books symbol := by
  induction inputs generalizing m with
  | nil => exact ⟨hstale, rfl⟩
  | cons input inputs ih =>
    obtain ⟨hstill, hbook⟩ := apply_of_stale hstale input
    obtain ⟨hlast, hsame⟩ := ih hstill
    exact ⟨hlast, hsame.trans hbook⟩

theorem onAdd_of_stale (hstale : m.isStale symbol = true) (id : UInt64) (side : Side) (price : D)
    (size priority : UInt64) : m.onAdd symbol id side price size priority {} false =
      ⟨false, m, []⟩ := by
  have hgate : m.gate symbol = true := hstale
  simp only [onAdd, hgate, if_true]

/-- Once a symbol is stale, it is stale in every continuation of the feeds, and every add for
it is refused and leaves its book as it was. -/
theorem reset_symbol_never_recovers (m : OrderBookManager D) (before after : List (FeedInput D))
    (symbol : String) (hstale : (deliver m before).isStale symbol = true) :
    (deliver m (before ++ after)).isStale symbol = true ∧
    ∀ id side price size priority,
      ((deliver m (before ++ after)).onAdd symbol id side price size priority {} false).ret =
        false ∧
      ((deliver m (before ++ after)).onAdd symbol id side price size priority {}
        false).mgr.books symbol = (deliver m before).books symbol := by
  have hrun : deliver m (before ++ after) = deliver (deliver m before) after := List.foldl_append
  obtain ⟨hlast, hbook⟩ := deliver_of_stale hstale after
  rw [hrun]
  refine ⟨hlast, ?_⟩
  intro id side price size priority
  rw [onAdd_of_stale hlast]
  exact ⟨rfl, hbook⟩

/-- The line `{"type": "control", "action": "reset", "symbol": "AAPL"}`. -/
def resetLine : FeedInput ExactDouble :=
  .line 54 (some (.object [("type", .string "control"), ("action", .string "reset"),
    ("symbol", .string "AAPL")]))

theorem reset_line_never_recovers :
    (deliver ({} : OrderBookManager ExactDouble) [resetLine]).isStale "AAPL" = true ∧
    (deliver ({} : OrderBookManager ExactDouble) ([resetLine] ++ [resetLine])).isStale "AAPL" =
      true := by
  have hstale : (deliver ({} : OrderBookManager ExactDouble) [resetLine]).isStale "AAPL" = true := by
    decide +kernel
  exact ⟨hstale, (reset_symbol_never_recovers {} [resetLine] [resetLine] "AAPL" hstale).1⟩

/-- After a reset line there is no continuation in which an add is applied. -/
theorem reset_line_refuses_adds :
    ¬ ∀ (before : List (FeedInput ExactDouble)) (symbol : String),
      (deliver ({} : OrderBookManager ExactDouble) before).isStale symbol = true →
      ∃ after id side price size priority,
        ((deliver ({} : OrderBookManager ExactDouble) (before ++ after)).onAdd symbol id side price
          size priority {} false).ret = true := by
  intro h
  have hstale : (deliver ({} : OrderBookManager ExactDouble) [resetLine]).isStale "AAPL" = true := by
    decide +kernel
  obtain ⟨after, id, side, price, size, priority, happlied⟩ := h [resetLine] "AAPL" hstale
  have hrun : deliver ({} : OrderBookManager ExactDouble) ([resetLine] ++ after) =
      deliver (deliver {} [resetLine]) after := List.foldl_append
  rw [hrun, onAdd_of_stale (deliver_of_stale hstale after).1] at happlied
  cases happlied

end FeedInput

end GmaEngine
