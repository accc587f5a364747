import GmaEngine.ManagerRuns

/-!
# Callbacks and the mutexes of the manager

Every public operation with the mutexes that it locks, in order, and the callback that it invokes.
A callback may call the manager again; a call chain knows the mutexes that it holds, and locking
one of them has no result. Delta handlers are called with nothing held, `requestSnapshotFn` under
`feedMx_`.
-/

namespace GmaEngine

/-- `booksMx_`, `feedMx_`, `resolverMx_`, `subsMx_`, and the `m_` of a book. -/
inductive Mutex where
  | books
  | feed
  | resolver
  | subs
  | book (symbol : String)
  deriving DecidableEq

/-- The public operations; `mutate` are those that change books, feed states or resolvers. -/
inductive PublicOp (D : Type) where
  | mutate (op : ManagerOp D)
  | getTickSize (symbol : String)
  | toTicks (symbol : String) (px : D)
  | toDouble (symbol : String) (p : Price)
  | isStale (symbol : String)
  | getFeedState (symbol : String)
  | resolverGet (symbol venueKey : String)
  | bestBid (symbol : String)
  | bestAsk (symbol : String)
  | bestBidSize (symbol : String)
  | bestAskSize (symbol : String)
  | depthN (symbol : String) (n : ℕ)
  | subscribeDeltas (symbol : String)
  | unsubscribeDeltas (symbol : String) (subId : UInt64)
  | buildSnapshot (symbol : String) (levels : ℕ)
  | getStats
  | assertInvariants (symbol : String)
  | dumpLadder (symbol : String) (maxLevelsPerSide : ℕ)

namespace OrderBookManager

section
variable {D : Type} (m : OrderBookManager D) (symbol : String)

/-- `getOrCreateBook_`: a missing book is looked up again under the unique lock. -/
def bookLocks : List Mutex :=
  if (m.books symbol).isSome then [Mutex.books] else [Mutex.books, Mutex.books]

/-- The manager once `book` has been called for the symbol. -/
def opened : OrderBookManager D := m.setBook symbol (m.book symbol)

/-- `mutateWithDelta_`: the best prices and the probes before and, for a change, after the
mutator, which may look the book up again. -/
def mutateLocks (candidates : List (Side × Price)) (again : Bool)
    (mutator : OrderBook → OrderBook × Bool) : List Mutex :=
  let probes := candidates.foldl (addProbe (m.book symbol)) []
  let reads := List.replicate (4 + probes.length) (Mutex.book symbol)
  let out := m.mutateWithDelta symbol candidates mutator
  m.bookLocks symbol ++ reads ++ (if again then [Mutex.books] else []) ++ [Mutex.book symbol] ++
    if !out.ret then []
    else reads ++ if out.deltas = [] then [] else [Mutex.subs]

def deleteLocks (key : OrderKey) : List Mutex :=
  [Mutex.feed] ++
    if m.gate symbol then []
    else
      m.bookLocks symbol ++ [Mutex.book symbol] ++
        (m.opened symbol).mutateLocks symbol ((m.book symbol).locate key).toList true
          (fun b => b.applyDeleteKey key)

def priorityLocks (key : OrderKey) (newPriority : UInt64) : List Mutex :=
  [Mutex.feed] ++
    if m.gate symbol then []
    else m.mutateLocks symbol [] true (fun b => b.applyPriorityKey key newPriority)

/-- From the book on, both snapshot operations. -/
def snapshotLocks (deltas : List BookDelta) : List Mutex :=
  m.bookLocks symbol ++ [Mutex.book symbol, Mutex.feed] ++
    (List.replicate 4 [Mutex.books, Mutex.book symbol]).flatten ++
      if deltas = [] then [] else [Mutex.subs]

/-- `findBook_`, and what is read of the book if there is one. -/
def findLocks (reads : OrderBook → List Mutex) : List Mutex :=
  [Mutex.books] ++ (m.findBook symbol).elim [] reads

/-- `forEachLevel`, with a `toDouble` for each level after it. -/
def levelLocks (s : Side) (n : ℕ) (b : OrderBook) : List Mutex :=
  [Mutex.book symbol] ++ List.replicate (b.forEachLevel s n).length Mutex.books

/-- A best price is read and, if there is one, converted. -/
def bestLocks (best : OrderBook → Option Price) (b : OrderBook) : List Mutex :=
  [Mutex.book symbol] ++ if (best b).isSome then [Mutex.books] else []

variable [Double D]
open Double

/-- `validatePrice_` reads the tick size only of a price that is not rejected before. -/
def validatePriceLocks (px : D) : List Mutex :=
  if isnan px || isinf px then []
  else if eq px (ofRat 0) then []
  else if !m.allowNegativePrices && lt px (ofRat 0) then []
  else [Mutex.books]

/-- Both adds. -/
def addLocks (side : Side) (price : D) (size : UInt64)
    (mutator : OrderBook → OrderBook × Bool) : List Mutex :=
  [Mutex.feed] ++
    if m.gate symbol then []
    else if !validSide side then []
    else
      m.validatePriceLocks price ++
        if !m.validatePrice symbol price || !validateSize size then []
        else [Mutex.books] ++ m.mutateLocks symbol [(side, m.toTicks symbol price)] true mutator

/-- Both updates: a new price is quantised twice, by id before the order is located and once
more after it, by key only after it. -/
def updateLocks (byId : Bool) (key : OrderKey) (newPrice : Option D) (newSize : Option UInt64) :
    List Mutex :=
  let ticks : List Mutex := if newPrice.isSome then [Mutex.books] else []
  let p := newPrice.map (m.toTicks symbol)
  [Mutex.feed] ++
    if m.gate symbol then []
    else if newPrice.isNone && newSize.isNone then []
    else
      newPrice.elim [] m.validatePriceLocks ++
        if newPrice.any (fun px => !m.validatePrice symbol px) then []
        else if newSize.any (fun sz => !validateSize sz) then []
        else
          (if byId then ticks else []) ++ m.bookLocks symbol ++ [Mutex.book symbol] ++ ticks ++
            (if byId then [] else ticks) ++
            (m.opened symbol).mutateLocks symbol (updateCandidates (m.book symbol) key p) true
              (fun b => b.applyUpdateKey key p newSize)

def tradeLocks (tradePrice : D) (size : UInt64) (aggr : Aggressor) : List Mutex :=
  let tp := m.toTicks symbol tradePrice
  [Mutex.feed] ++
    if m.gate symbol then []
    else
      m.validatePriceLocks tradePrice ++
        if !m.validatePrice symbol tradePrice || !validateSize size then []
        else
          [Mutex.books] ++ m.bookLocks symbol ++ [Mutex.book symbol, Mutex.book symbol] ++
            (m.opened symbol).mutateLocks symbol (tradeCandidates (m.book symbol) tp) false
              (fun b => b.applyTrade tp size aggr)

def summaryLocks (side : Side) (price : D) (totalSize : UInt64) (orderCount : Option UInt32) :
    List Mutex :=
  let p := m.toTicks symbol price
  [Mutex.feed] ++
    if m.gate symbol then []
    else if !validSide side then []
    else
      m.validatePriceLocks price ++
        if !m.validatePrice symbol price then []
        else
          [Mutex.books] ++ m.mutateLocks symbol [(side, p)] true
            (fun b => b.applyLevelSummary side p totalSize orderCount)

end

section
variable {D : Type} [Double D] (m : OrderBookManager D)

/-- The mutexes that an operation locks before it invokes a callback. -/
def locks : PublicOp D → List Mutex
  | .mutate op => match op with
    | .setTickSize _ _ => [.books]
    | .setAllowNegativePrices _ => []
    | .seq _ _ => [.feed]
    | .reset _ _ => [.feed]
    | .resolverSetCapacity _ => [.resolver]
    | .resolverPut _ _ _ => [.resolver]
    | .addGetKey symbol id side price size priority scope idMissing =>
      m.addLocks symbol side price size (fun b =>
        ((b.applyAddGetKey (m.addedOrder symbol id side price size priority) scope idMissing).1,
          true))
    | .add symbol id side price size priority scope idMissing =>
      m.addLocks symbol side price size (fun b =>
        b.applyAddScoped (m.addedOrder symbol id side price size priority) scope idMissing)
    | .update symbol id scope newPrice newSize synthetic =>
      m.updateLocks symbol true ⟨id, scope.feedId, scope.epoch, synthetic⟩ newPrice newSize
    | .updateKey symbol key newPrice newSize => m.updateLocks symbol false key newPrice newSize
    | .delete symbol id scope synthetic =>
      m.deleteLocks symbol ⟨id, scope.feedId, scope.epoch, synthetic⟩
    | .deleteKey symbol key => m.deleteLocks symbol key
    | .priority symbol id scope newPriority synthetic =>
      m.priorityLocks symbol ⟨id, scope.feedId, scope.epoch, synthetic⟩ newPriority
    | .priorityKey symbol key newPriority => m.priorityLocks symbol key newPriority
    | .addWithVenueKey symbol _ id side price size priority scope idMissing =>
      m.addLocks symbol side price size (fun b =>
        ((b.applyAddGetKey (m.addedOrder symbol id side price size priority) scope idMissing).1,
          true))
    | .updateByVenueKey symbol venueKey newPrice newSize =>
      [.feed] ++
        if m.gate symbol then []
        else [.resolver] ++ (m.resolverGet symbol venueKey).elim []
          (fun k => m.updateLocks symbol false k newPrice newSize)
    | .deleteByVenueKey symbol venueKey =>
      [.feed] ++
        if m.gate symbol then []
        else [.resolver] ++ (m.resolverGet symbol venueKey).elim [] (m.deleteLocks symbol)
    | .trade symbol tradePrice size aggr => m.tradeLocks symbol tradePrice size aggr
    | .snapshotPerOrder symbol tickOrders snapshotSeq =>
      m.snapshotLocks symbol (m.onSnapshotPerOrder symbol tickOrders snapshotSeq).deltas
    | .snapshotAggregated symbol levelsD snapshotSeq =>
      List.replicate levelsD.length .books ++
        m.snapshotLocks symbol (m.onSnapshotAggregated symbol levelsD snapshotSeq).deltas
    | .levelSummary symbol side price totalSize orderCount =>
      m.summaryLocks symbol side price totalSize orderCount
  | .getTickSize _ => [.books]
  | .toTicks _ _ => [.books]
  | .toDouble _ _ => [.books]
  | .isStale _ => [.feed]
  | .getFeedState _ => [.feed]
  | .resolverGet _ _ => [.resolver]
  | .bestBid symbol => m.findLocks symbol (bestLocks symbol OrderBook.bestBid)
  | .bestAsk symbol => m.findLocks symbol (bestLocks symbol OrderBook.bestAsk)
  | .bestBidSize symbol => m.findLocks symbol (fun _ => [.book symbol])
  | .bestAskSize symbol => m.findLocks symbol (fun _ => [.book symbol])
  | .depthN symbol n =>
    m.findLocks symbol (fun b => levelLocks symbol .bid n b ++ levelLocks symbol .ask n b)
  | .subscribeDeltas _ => [.subs]
  | .unsubscribeDeltas _ _ => [.subs]
  | .buildSnapshot symbol _ =>
    [.feed, .subs] ++ m.findLocks symbol (fun _ => [.book symbol, .book symbol])
  | .getStats => []
  | .assertInvariants symbol => m.findLocks symbol (fun _ => [.book symbol])
  | .dumpLadder symbol n =>
    [.feed] ++ m.findLocks symbol
      (fun b => levelLocks symbol .bid n b ++ levelLocks symbol .ask n b)

end

/-- The operation ends up calling `requestSnapshotFn`: a gap or a reset. -/
def requestsSnapshot {D : Type} (m : OrderBookManager D) : PublicOp D → Bool
  | .mutate (.seq symbol seq) =>
    let st := m.getFeedState symbol
    !st.stale && decide (st.lastSeq ≠ 0) && decide (seq ≠ st.lastSeq + 1)
  | .mutate (.reset _ _) => true
  | _ => false

end OrderBookManager

/-- The operation locks `feedMx_`. -/
def PublicOp.takesFeed {D : Type} : PublicOp D → Bool
  | .mutate op => match op with
    | .setTickSize _ _ => false
    | .setAllowNegativePrices _ => false
    | .resolverSetCapacity _ => false
    | .resolverPut _ _ _ => false
    | _ => true
  | .isStale _ => true
  | .getFeedState _ => true
  | .buildSnapshot _ _ => true
  | .dumpLadder _ _ => true
  | _ => false

/-- The manager with its subscription table, `subs_` as pairs of a symbol and an id. -/
structure LiveManager (D : Type) where
  mgr : OrderBookManager D := {}
  subs : List (String × UInt64) := []
  nextSubId : UInt64 := 1

/-- What is called in turn: operations, each with what `requestSnapshotFn` and the delta handlers
call when this call invokes them. -/
inductive CallScript (D : Type) where
  | done
  | call (op : PublicOp D) (request handlers rest : CallScript D)

namespace LiveManager
variable {D : Type} [Double D]
open OrderBookManager

/-- Up to the callback. A venue-key add files its key only after it. -/
def enter (h : LiveManager D) : PublicOp D → LiveManager D × List BookDelta
  | .mutate (.addWithVenueKey symbol _ id side price size priority scope idMissing) =>
    let out := h.mgr.exec (.addGetKey symbol id side price size priority scope idMissing)
    ({ h with mgr := out.1 }, out.2)
  | .mutate op => ({ h with mgr := (h.mgr.exec op).1 }, (h.mgr.exec op).2)
  | .subscribeDeltas symbol =>
    ({ h with subs := h.subs ++ [(symbol, h.nextSubId)], nextSubId := h.nextSubId + 1 }, [])
  | .unsubscribeDeltas symbol subId =>
    ({ h with subs := h.subs.filter (fun sub => sub ≠ (symbol, subId)) }, [])
  | _ => (h, [])

/-- Some published delta has a handler. -/
def notifies (h : LiveManager D) (deltas : List BookDelta) : Bool :=
  deltas.any (fun d => h.subs.any (fun sub => sub.1 = d.symbol))

/-- The entry that a venue-key add files when it is not rejected. -/
def filed (h : LiveManager D) : PublicOp D → Option (String × String × OrderKey)
  | .mutate (.addWithVenueKey symbol venueKey id side price size priority scope idMissing) =>
    let k := (h.mgr.onAddGetKey symbol id side price size priority scope idMissing).ret
    if k.id = 0 ∧ k.feedId = 0 ∧ k.epoch = 0 then none else some (symbol, venueKey, k)
  | _ => none

def leave (h : LiveManager D) : Option (String × String × OrderKey) → LiveManager D
  | none => h
  | some (symbol, venueKey, k) => { h with mgr := h.mgr.resolverPut symbol venueKey k }

/-- Locking one mutex after the other, each released before the next. -/
def lockAll (held mutexes : List Mutex) : Option Unit :=
  if mutexes.any (fun mx => decide (mx ∈ held)) then none else some ()

/-- The chain that holds the mutexes `held` runs the script. -/
def play (held : List Mutex) (h : LiveManager D) : CallScript D → Option (LiveManager D)
  | .done => some h
  | .call op request handlers rest => do
    lockAll held (h.mgr.locks op)
    let entered := h.enter op
    let back ←
      if h.mgr.requestsSnapshot op then play (.feed :: held) entered.1 request
      else if entered.1.notifies entered.2 then play held entered.1 handlers
      else some entered.1
    lockAll held ((h.filed op).elim [] (fun _ => [Mutex.resolver]))
    play held (back.leave (h.filed op)) rest

/-- What the script does when no mutex gets in its way. -/
def settle (h : LiveManager D) : CallScript D → LiveManager D
  | .done => h
  | .call op request handlers rest =>
    let entered := h.enter op
    let back :=
      if h.mgr.requestsSnapshot op then settle entered.1 request
      else if entered.1.notifies entered.2 then settle entered.1 handlers
      else entered.1
    settle (back.leave (h.filed op)) rest

/-- No call of the script itself locks `feedMx_`. -/
def feedless : CallScript D → Bool
  | .done => true
  | .call op _ _ rest => !op.takesFeed && feedless rest

/-- Whenever `requestSnapshotFn` is called, at any depth, it keeps away from `feedMx_`. -/
def requestsFeedless (h : LiveManager D) : CallScript D → Bool
  | .done => true
  | .call op request handlers rest =>
    let entered := h.enter op
    let back :=
      if h.mgr.requestsSnapshot op then settle entered.1 request
      else if entered.1.notifies entered.2 then settle entered.1 handlers
      else entered.1
    (if h.mgr.requestsSnapshot op then feedless request
      else if entered.1.notifies entered.2 then requestsFeedless entered.1 handlers
      else true) &&
    requestsFeedless (back.leave (h.filed op)) rest

section
variable {h : LiveManager D}

omit [Double D] in
theorem feed_not_mem_findLocks (m : OrderBookManager D) (symbol : String)
    {reads : OrderBook → List Mutex} (hreads : ∀ b, Mutex.feed ∉ reads b) :
    Mutex.feed ∉ m.findLocks symbol reads := by
  unfold findLocks
  cases m.findBook symbol with
  | none => simp
  | some b => simpa using hreads b

theorem feed_not_mem_bestLocks (symbol : String) (best : OrderBook → Option Price)
    (b : OrderBook) : Mutex.feed ∉ bestLocks symbol best b := by
  unfold bestLocks
  split_ifs <;> simp

theorem feed_not_mem_levelLocks (symbol : String) (s : Side) (n : ℕ) (b : OrderBook) :
    Mutex.feed ∉ levelLocks symbol s n b := by
  unfold levelLocks
  simp [List.mem_replicate]

theorem feed_mem_mutate_iff (m : OrderBookManager D) (op : ManagerOp D) :
    Mutex.feed ∈ m.locks (.mutate op) ↔ (PublicOp.mutate op).takesFeed = true := by
  cases op with
  | setTickSize symbol tickSize => exact iff_of_false (by simp [locks]) Bool.false_ne_true
  | setAllowNegativePrices allow => exact iff_of_false (by simp [locks]) Bool.false_ne_true
  | resolverSetCapacity cap => exact iff_of_false (by simp [locks]) Bool.false_ne_true
  | resolverPut symbol venueKey key => exact iff_of_false (by simp [locks]) Bool.false_ne_true
  | snapshotPerOrder symbol tickOrders snapshotSeq =>
    exact iff_of_true (by simp [locks, snapshotLocks]) rfl
  | snapshotAggregated symbol levelsD snapshotSeq =>
    exact iff_of_true (by simp [locks, snapshotLocks]) rfl
  | _ => exact iff_of_true List.mem_cons_self rfl

/-- In every state an operation locks `feedMx_`, or it does so in none. -/
theorem feed_mem_locks_iff (m : OrderBookManager D) (op : PublicOp D) :
    Mutex.feed ∈ m.locks op ↔ op.takesFeed = true := by
  cases op with
  | mutate op => exact feed_mem_mutate_iff m op
  | isStale symbol => exact iff_of_true List.mem_cons_self rfl
  | getFeedState symbol => exact iff_of_true List.mem_cons_self rfl
  | buildSnapshot symbol levels => exact iff_of_true List.mem_cons_self rfl
  | dumpLadder symbol n => exact iff_of_true List.mem_cons_self rfl
  | bestBid symbol =>
    exact iff_of_false (feed_not_mem_findLocks m symbol (feed_not_mem_bestLocks symbol _))
      Bool.false_ne_true
  | bestAsk symbol =>
    exact iff_of_false (feed_not_mem_findLocks m symbol (feed_not_mem_bestLocks symbol _))
      Bool.false_ne_true
  | bestBidSize symbol =>
    exact iff_of_false (feed_not_mem_findLocks m symbol (by simp)) Bool.false_ne_true
  | bestAskSize symbol =>
    exact iff_of_false (feed_not_mem_findLocks m symbol (by simp)) Bool.false_ne_true
  | assertInvariants symbol =>
    exact iff_of_false (feed_not_mem_findLocks m symbol (by simp)) Bool.false_ne_true
  | depthN symbol n =>
    refine iff_of_false (feed_not_mem_findLocks m symbol ?_) Bool.false_ne_true
    intro b hmem
    rcases List.mem_append.mp hmem with hbid | hask
    · exact feed_not_mem_levelLocks symbol .bid n b hbid
    · exact feed_not_mem_levelLocks symbol .ask n b hask
  | _ => exact iff_of_false (by simp [locks]) Bool.false_ne_true

/-- An operation that keeps away from `feedMx_` invokes no callback and files no key. -/
theorem silent_of_feedless {op : PublicOp D} (hop : op.takesFeed = false) :
    h.mgr.requestsSnapshot op = false ∧ (h.enter op).2 = [] ∧ h.filed op = none := by
  cases op with
  | mutate op =>
    cases op with
    | setTickSize symbol tickSize => exact ⟨rfl, rfl, rfl⟩
    | setAllowNegativePrices allow => exact ⟨rfl, rfl, rfl⟩
    | resolverSetCapacity cap => exact ⟨rfl, rfl, rfl⟩
    | resolverPut symbol venueKey key => exact ⟨rfl, rfl, rfl⟩
    | _ => cases hop
  | _ => exact ⟨rfl, rfl, rfl⟩

theorem lockAll_nil (mutexes : List Mutex) : lockAll [] mutexes = some () := by
  unfold lockAll
  simp

theorem lockAll_feed (mutexes : List Mutex) :
    lockAll [.feed] mutexes = if Mutex.feed ∈ mutexes then none else some () := by
  unfold lockAll
  by_cases hmem : Mutex.feed ∈ mutexes <;> simp [hmem]

/-- Under `feedMx_` exactly the scripts that keep away from it run. -/
theorem play_feed (script : CallScript D) (h : LiveManager D) :
    play [.feed] h script = if feedless script then some (settle h script) else none := by
  induction script generalizing h with
  | done => rfl
  | call op request handlers rest _ _ ihrest =>
    rw [play, lockAll_feed]
    simp only [feed_mem_locks_iff]
    cases hop : op.takesFeed with
    | true => simp [feedless, hop]
    | false =>
      obtain ⟨hrequest, hdeltas, hfiled⟩ := silent_of_feedless (h := h) hop
      simp [settle, feedless, hop, hrequest, hdeltas, hfiled, notifies, lockAll, ihrest, leave]

/-- A chain that holds nothing runs exactly the scripts whose snapshot requests keep away from
`feedMx_`. -/
theorem play_free (script : CallScript D) (h : LiveManager D) :
    play [] h script = if requestsFeedless h script then some (settle h script) else none := by
  induction script generalizing h with
  | done => rfl
  | call op request handlers rest _ ihhandlers ihrest =>
    rw [play, requestsFeedless, settle]
    simp only [lockAll_nil, Option.bind_eq_bind, Option.bind_some, play_feed]
    by_cases hrequest : h.mgr.requestsSnapshot op = true
    · simp only [hrequest, if_true]
      cases feedless request with
      | false => rfl
      | true => exact ihrest _
    · simp only [hrequest]
      by_cases hnotifies : (h.enter op).1.notifies (h.enter op).2 = true
      · simp only [hnotifies, if_true, ihhandlers]
        cases requestsFeedless (h.enter op).1 handlers with
        | false => rfl
        | true => exact ihrest _
      · simp only [hnotifies]
        exact ihrest _

/-- What an operation does before its callback is a run of the manager. -/
theorem enter_run (h : LiveManager D) (op : PublicOp D) :
    ∃ ops, (h.enter op).1.mgr = (runFrom h.mgr ops).1 := by
  cases op with
  | mutate op =>
    cases op with
    | addWithVenueKey symbol venueKey id side price size priority scope idMissing =>
      exact ⟨[.addGetKey symbol id side price size priority scope idMissing], rfl⟩
    | _ => exact ⟨[_], rfl⟩
  | _ => exact ⟨[], rfl⟩

theorem leave_run (h : LiveManager D) (entry : Option (String × String × OrderKey)) :
    ∃ ops, (h.leave entry).mgr = (runFrom h.mgr ops).1 := by
  cases entry with
  | none => exact ⟨[], rfl⟩
  | some entry =>
    obtain ⟨symbol, venueKey, k⟩ := entry
    exact ⟨[.resolverPut symbol venueKey k], rfl⟩

/-- However callbacks are nested, the manager sees one operation after the other. -/
theorem settle_run (script : CallScript D) (h : LiveManager D) :
    ∃ ops, (settle h script).mgr = (runFrom h.mgr ops).1 := by
  induction script generalizing h with
  | done => exact ⟨[], rfl⟩
  | call op request handlers rest ihrequest ihhandlers ihrest =>
    obtain ⟨entering, henter⟩ := enter_run h op
    have hback : ∃ ops, (if h.mgr.requestsSnapshot op then settle (h.enter op).1 request
        else if (h.enter op).1.notifies (h.enter op).2 then settle (h.enter op).1 handlers
        else (h.enter op).1).mgr = (runFrom (h.enter op).1.mgr ops).1 := by
      split_ifs
      · exact ihrequest _
      · exact ihhandlers _
      · exact ⟨[], rfl⟩
    obtain ⟨inner, hinner⟩ := hback
    rw [settle]
    generalize (if h.mgr.requestsSnapshot op then settle (h.enter op).1 request
      else if (h.enter op).1.notifies (h.enter op).2 then settle (h.enter op).1 handlers
      else (h.enter op).1) = back at hinner
    obtain ⟨leaving, hleave⟩ := leave_run back (h.filed op)
    obtain ⟨later, hlater⟩ := ihrest (back.leave (h.filed op))
    refine ⟨entering ++ (inner ++ (leaving ++ later)), ?_⟩
    rw [hlater, hleave, hinner, henter, runFrom_append, runFrom_append, runFrom_append]

/-- On every manager, with every table of subscriptions, a script of nested calls runs without
locking a mutex twice exactly when every snapshot request keeps away from `feedMx_`; it then has
the effect of a run of the manager. -/
theorem callbacks_reenter_iff (h : LiveManager D) (script : CallScript D) :
    ((play [] h script).isSome = true ↔ requestsFeedless h script = true) ∧
    ∀ h', play [] h script = some h' → ∃ ops, h'.mgr = (runFrom h.mgr ops).1 := by
  rw [play_free]
  cases requestsFeedless h script with
  | false => simp
  | true =>
    refine ⟨iff_of_true rfl rfl, ?_⟩
    intro h' hsome
    cases hsome
    exact settle_run script h

end

/-- A gap that is answered at once by a snapshot. -/
theorem snapshot_at_gap_locks_feed_twice :
    play [] ({} : LiveManager ExactDouble)
      (.call (.mutate (.seq "AAPL" 1)) .done .done
        (.call (.mutate (.seq "AAPL" 3))
          (.call (.mutate (.snapshotPerOrder "AAPL" [] (some 3))) .done .done .done) .done
          .done)) = none := by
  rw [play_free]
  decide +kernel

end LiveManager
end GmaEngine
