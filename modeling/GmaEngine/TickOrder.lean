import GmaEngine.Dispatcher
import GmaEngine.WorkerPool

/-!
# The order of ticks behind a Listener

One thread feeds the Dispatcher, which posts each value for a Listener to the pool; the
Listener's task posts it once more, to the node behind it. The values posted for the Listener
are numbered, so that their order can be read off what the node receives.
-/

namespace GmaEngine

/-- The tasks in the pool, with the number of the value they carry. -/
inductive PoolTask (D : Type) where
  /-- The Dispatcher's post: `listener->onValue(value)`. -/
  | listener (value : StreamValue D) (number : ℕ)
  /-- The Listener's post: `downstream->onValue(value)`. -/
  | downstream (value : StreamValue D) (number : ℕ)
  /-- Any task that concerns neither of the two nodes. -/
  | other

namespace PoolTask
variable {D : Type}

def toListener : PoolTask D → Option (StreamValue D × ℕ)
  | listener value number => some (value, number)
  | _ => none

def toDownstream : PoolTask D → Option (StreamValue D × ℕ)
  | downstream value number => some (value, number)
  | _ => none

/-- The Dispatcher's posts as tasks, those for the Listener numbered from `number` on. -/
def ofDeliveries (node : NodeId) : ℕ → List (Delivery D) → List (PoolTask D)
  | _, [] => []
  | number, x :: xs =>
    if x.node = node then .listener x.value number :: ofDeliveries node (number + 1) xs
    else .other :: ofDeliveries node number xs

end PoolTask

/-- A Listener with the threads around it. -/
structure ListenerSystem (D : Type) where
  dispatcher : Dispatcher D
  symbol : String
  field : String
  node : NodeId
  /-- The weak pointer to the node behind the Listener. -/
  downstream : Option NodeId
  stopping : Bool := false
  /-- What the feeding thread has still to post for the tick it is working on. -/
  outbox : List (PoolTask D) := []
  pool : WorkerPool (PoolTask D)
  /-- The values posted for the Listener so far. -/
  sent : List (StreamValue D) := []
  /-- The values that have reached the node behind it, with their numbers. -/
  received : List (StreamValue D × ℕ) := []

inductive ListenerAction (D : Type) where
  /-- A call on the Dispatcher; the feeding thread makes one at a time. -/
  | dispatch (op : DispatcherOp D)
  /-- The feeding thread posts the next value. -/
  | emit
  /-- Some other thread or task posts to the pool. -/
  | post
  | shutdownListener
  | stopPool
  | take (w : ℕ)
  /-- A worker runs the task it has taken; `live` says whether the node behind the Listener
  still exists. -/
  | run (w : ℕ) (live : Bool)

namespace ListenerSystem
variable {D : Type} [DoubleMath D]

/-- `ThreadPool::ThreadPool`. -/
def poolSize (nThreads : ℕ) : ℕ := if nThreads = 0 then 1 else nThreads

/-- The Listener is started: it is registered with the Dispatcher. -/
def start (nThreads : ℕ) (d : Dispatcher D) (symbol field : String) (node : NodeId)
    (downstream : Option NodeId) : ListenerSystem D where
  dispatcher := d.registerListener symbol field node
  symbol := symbol
  field := field
  node := node
  downstream := downstream
  pool := .idle _ (poolSize nThreads)

omit [DoubleMath D] in
/-- A worker runs a task. -/
def runTask (s : ListenerSystem D) (live : Bool) : PoolTask D → ListenerSystem D
  | .listener value number =>
    let posted := (Runtime.listenerOnValue (fun _ => live) {} s.downstream s.stopping value).2.posted
    { s with pool := s.pool.post (posted.map (fun call => .downstream call.value number)) }
  | .downstream value number => { s with received := s.received ++ [(value, number)] }
  | .other => s

def step (s : ListenerSystem D) : ListenerAction D → ListenerSystem D
  | .dispatch op =>
    if s.outbox.isEmpty then
      let out := s.dispatcher.exec op
      { s with
        dispatcher := out.1
        outbox := PoolTask.ofDeliveries s.node s.sent.length out.2
        sent := s.sent ++ (out.2.filter (·.node = s.node)).map Delivery.value }
    else s
  | .emit => { s with outbox := s.outbox.tail, pool := s.pool.post (s.outbox.take 1) }
  | .post => { s with pool := s.pool.post [.other] }
  | .shutdownListener =>
    if s.stopping then s
    else { s with
      stopping := true
      dispatcher := s.dispatcher.unregisterListener s.symbol s.field s.node
      downstream := none }
  | .stopPool => { s with pool := s.pool.stop }
  | .take w => { s with pool := s.pool.take w }
  | .run w live =>
    match s.pool.current w with
    | none => s
    | some task => { s with pool := s.pool.finish w }.runTask live task

def run (s : ListenerSystem D) (actions : List (ListenerAction D)) : ListenerSystem D :=
  actions.foldl step s

omit [DoubleMath D] in
/-- The node behind the Listener has received values in the order in which they were posted
for the Listener, each at most once. -/
def InOrder (s : ListenerSystem D) : Prop := s.received.Sublist s.sent.zipIdx

omit [DoubleMath D] in
/-- The values on their way: first those past the Listener, then those before it. -/
def inFlight (s : ListenerSystem D) : List (StreamValue D × ℕ) :=
  s.pool.pending.filterMap PoolTask.toDownstream ++
    (s.pool.pending ++ s.outbox).filterMap PoolTask.toListener

omit [DoubleMath D] in
theorem toListener_ofDeliveries (node : NodeId) (xs : List (Delivery D)) (number : ℕ) :
    (PoolTask.ofDeliveries node number xs).filterMap PoolTask.toListener =
      ((xs.filter (·.node = node)).map Delivery.value).zipIdx number := by
  induction xs generalizing number with
  | nil => rfl
  | cons x xs ih =>
    rw [PoolTask.ofDeliveries]
    split_ifs with hnode
    · rw [List.filterMap_cons, List.filter_cons_of_pos (by simpa using hnode), List.map_cons,
        List.zipIdx_cons, ih]
      rfl
    · rw [List.filterMap_cons, List.filter_cons_of_neg (by simpa using hnode), ih]
      rfl

omit [DoubleMath D] in
/-- The Dispatcher's own posts go to the Listener or elsewhere, never past it. -/
theorem toDownstream_ofDeliveries (node : NodeId) (xs : List (Delivery D)) (number : ℕ) :
    (PoolTask.ofDeliveries node number xs).filterMap PoolTask.toDownstream = [] := by
  induction xs generalizing number with
  | nil => rfl
  | cons x xs ih =>
    rw [PoolTask.ofDeliveries]
    split_ifs
    · exact ih _
    · exact ih _

omit [DoubleMath D] in
/-- What has been received, followed by what is on its way. -/
def flow (s : ListenerSystem D) : List (StreamValue D × ℕ) := s.received ++ s.inFlight

omit [DoubleMath D] in
/-- Nothing keeps values from getting through. -/
structure Open (s : ListenerSystem D) : Prop where
  pool : s.pool.stopping = false
  listener : s.stopping = false
  downstream : s.downstream.isSome

omit [DoubleMath D] in
theorem posted_listenerOnValue (s : ListenerSystem D) (live : Bool) (value : StreamValue D) :
    (Runtime.listenerOnValue (fun _ => live) {} s.downstream s.stopping value).2.posted.map
        Call.value = if s.stopping = false ∧ s.downstream.isSome ∧ live then [value] else [] := by
  cases hstop : s.stopping with
  | true => simp [Runtime.listenerOnValue]
  | false =>
    cases s.downstream with
    | none => simp [Runtime.listenerOnValue, Runtime.callTo]
    | some id => cases live <;> simp [Runtime.listenerOnValue, Runtime.callTo]

omit [DoubleMath D] in
/-- The Listener's task either passes its value on or drops it. -/
theorem flow_runTask_listener (s : ListenerSystem D) (live : Bool) (value : StreamValue D)
    (number : ℕ) :
    (s.runTask live (.listener value number)).flow =
      s.received ++ (s.pool.pending.filterMap PoolTask.toDownstream ++
        (if s.pool.stopping = false ∧ s.stopping = false ∧ s.downstream.isSome ∧ live then
          [(value, number)] else []) ++
        (s.pool.pending ++ s.outbox).filterMap PoolTask.toListener) := by
  have hposted : (Runtime.listenerOnValue (fun _ => live) {} s.downstream s.stopping
      value).2.posted.map (fun call => PoolTask.downstream call.value number) =
      if s.stopping = false ∧ s.downstream.isSome ∧ live then [.downstream value number] else [] := by
    have hvalues := congrArg (List.map (PoolTask.downstream · number))
      (posted_listenerOnValue s live value)
    rw [List.map_map] at hvalues
    refine hvalues.trans ?_
    split_ifs <;> rfl
  simp only [runTask, flow, inFlight]
  rw [hposted, WorkerPool.pending_post]
  cases hstop : s.pool.stopping with
  | true => simp
  | false =>
    by_cases hpass : s.stopping = false ∧ s.downstream.isSome ∧ live
    · simp [hpass, List.filterMap_cons, PoolTask.toDownstream, PoolTask.toListener]
    · simp [hpass]

section Step
variable {s : ListenerSystem D}

omit [DoubleMath D] in
theorem flow_emit (houtbox : s.outbox.filterMap PoolTask.toDownstream = []) :
    ({ s with outbox := s.outbox.tail, pool := s.pool.post (s.outbox.take 1) }).flow.Sublist s.flow ∧
      (s.pool.stopping = false →
        ({ s with outbox := s.outbox.tail, pool := s.pool.post (s.outbox.take 1) }).flow = s.flow) := by
  simp only [flow, inFlight]
  rw [WorkerPool.pending_post]
  cases houter : s.outbox with
  | nil =>
    have hsame : (if s.pool.stopping then [] else ([] : List (PoolTask D)).take 1) = [] := by simp
    rw [hsame]
    simp
  | cons task rest =>
    rw [houter] at houtbox
    have htask : task.toDownstream = none := by
      by_contra hsome
      obtain ⟨v, hv⟩ := Option.ne_none_iff_exists'.mp hsome
      rw [List.filterMap_cons_some hv] at houtbox
      cases houtbox
    cases s.pool.stopping with
    | true =>
      refine ⟨?_, fun hstop => by cases hstop⟩
      apply List.Sublist.append_left
      simp only [if_true, List.append_nil, List.tail_cons]
      apply List.Sublist.append_left
      apply List.Sublist.filterMap
      exact List.Sublist.append_left (List.sublist_cons_self _ _) _
    | false => simp [List.filterMap_append, htask]

omit [DoubleMath D] in
/-- A single worker runs the oldest task, so the value it carries is the next one to pass the
Listener, or to arrive. -/
theorem flow_run (hsingle : s.pool.Single) {w : ℕ} {task : PoolTask D}
    (hcurrent : s.pool.current w = some task) (live : Bool) :
    ({ s with pool := s.pool.finish w }.runTask live task).flow.Sublist s.flow ∧
      (s.Open → live = true →
        ({ s with pool := s.pool.finish w }.runTask live task).flow = s.flow) := by
  obtain ⟨-, hpending⟩ := WorkerPool.pending_of_current hsingle hcurrent
  cases task with
  | listener value number =>
    have hflow : s.flow = s.received ++ ((s.pool.finish w).pending.filterMap PoolTask.toDownstream ++
        [(value, number)] ++
        ((s.pool.finish w).pending ++ s.outbox).filterMap PoolTask.toListener) := by
      simp [flow, inFlight, hpending, List.filterMap_cons, PoolTask.toDownstream,
        PoolTask.toListener]
    rw [flow_runTask_listener, hflow]
    constructor
    · apply List.Sublist.append_left
      apply List.Sublist.append_right
      apply List.Sublist.append_left
      split_ifs
      · exact List.Sublist.refl _
      · exact List.nil_sublist _
    · intro hopen hlive
      have hpass : (s.pool.finish w).stopping = false ∧ s.stopping = false ∧
          s.downstream.isSome ∧ live := ⟨hopen.pool, hopen.listener, hopen.downstream, hlive⟩
      rw [if_pos hpass]
  | downstream value number =>
    have hflow : ({ s with pool := s.pool.finish w }.runTask live (.downstream value number)).flow =
        s.flow := by
      simp [runTask, flow, inFlight, hpending, List.filterMap_cons, PoolTask.toDownstream,
        PoolTask.toListener]
    rw [hflow]
    exact ⟨List.Sublist.refl _, fun _ _ => rfl⟩
  | other =>
    have hflow : ({ s with pool := s.pool.finish w }.runTask live .other).flow = s.flow := by
      simp [runTask, flow, inFlight, hpending, List.filterMap_cons, PoolTask.toDownstream,
        PoolTask.toListener]
    rw [hflow]
    exact ⟨List.Sublist.refl _, fun _ _ => rfl⟩

/-- What a step does to the values under way: new ones join at the end, and none is overtaken.
Without interruptions none is lost. -/
theorem flow_step (hsingle : s.pool.Single)
    (houtbox : s.outbox.filterMap PoolTask.toDownstream = []) (action : ListenerAction D) :
    ∃ new, (s.step action).sent.zipIdx = s.sent.zipIdx ++ new ∧
      (s.step action).flow.Sublist (s.flow ++ new) ∧
      (s.Open → (s.step action).Open → (∀ w, action ≠ .run w false) →
        (s.step action).flow = s.flow ++ new) := by
  cases action with
  | dispatch op =>
    simp only [step]
    split_ifs with hempty
    · rw [List.isEmpty_iff] at hempty
      refine ⟨_, List.zipIdx_append, ?_⟩
      have hflow : s.flow ++ ((((s.dispatcher.exec op).2.filter (·.node = s.node)).map
          Delivery.value).zipIdx (0 + s.sent.length)) = (s.received ++
          (s.pool.pending.filterMap PoolTask.toDownstream ++ (s.pool.pending ++
            PoolTask.ofDeliveries s.node s.sent.length (s.dispatcher.exec op).2).filterMap
              PoolTask.toListener)) := by
        rw [flow, inFlight, hempty, List.filterMap_append, List.filterMap_append,
          toListener_ofDeliveries, Nat.zero_add]
        simp
      rw [hflow]
      exact ⟨List.Sublist.refl _, fun _ _ _ => rfl⟩
    · exact ⟨[], by simp, by simp, by simp⟩
  | emit =>
    obtain ⟨hsub, heq⟩ := flow_emit houtbox
    refine ⟨[], by simp [step], ?_, ?_⟩
    · rw [List.append_nil]
      exact hsub
    · intro hopen _ _
      rw [List.append_nil]
      exact heq hopen.pool
  | post =>
    have hflow : (s.step .post).flow = s.flow := by
      simp only [step, flow, inFlight, WorkerPool.pending_post]
      split_ifs <;> simp [List.filterMap_cons, PoolTask.toDownstream, PoolTask.toListener]
    exact ⟨[], by simp [step], by simp [hflow], by simp [hflow]⟩
  | shutdownListener =>
    have hsame : (s.step .shutdownListener).flow = s.flow ∧
        (s.step .shutdownListener).sent = s.sent := by
      simp only [step]
      split_ifs <;> exact ⟨rfl, rfl⟩
    exact ⟨[], by simp [hsame.2], by simp [hsame.1], by simp [hsame.1]⟩
  | stopPool => exact ⟨[], by simp [step], by simp [step, flow, inFlight, WorkerPool.stop,
      WorkerPool.pending], by simp [step, flow, inFlight, WorkerPool.stop, WorkerPool.pending]⟩
  | take w =>
    have hflow : (s.step (.take w)).flow = s.flow := by
      simp only [step, flow, inFlight, (WorkerPool.take_of_single hsingle w).2]
    exact ⟨[], by simp [step], by simp [hflow], by simp [hflow]⟩
  | run w live =>
    cases hcurrent : s.pool.current w with
    | none => exact ⟨[], by simp [step, hcurrent], by simp [step, hcurrent],
        by simp [step, hcurrent]⟩
    | some task =>
      obtain ⟨hsub, heq⟩ := flow_run hsingle hcurrent live
      have hstep : s.step (.run w live) = { s with pool := s.pool.finish w }.runTask live task := by
        simp only [step, hcurrent]
      rw [hstep]
      refine ⟨[], ?_, ?_, ?_⟩
      · cases task <;> simp [runTask]
      · rw [List.append_nil]
        exact hsub
      · intro hopen _ hlive
        rw [List.append_nil]
        apply heq hopen
        by_contra hdead
        rw [Bool.not_eq_true] at hdead
        exact hlive w (by rw [hdead])

theorem ordered_step (hsingle : s.pool.Single)
    (houtbox : s.outbox.filterMap PoolTask.toDownstream = []) (action : ListenerAction D) :
    (s.step action).pool.Single ∧
      (s.step action).outbox.filterMap PoolTask.toDownstream = [] := by
  cases action with
  | dispatch op =>
    simp only [step]
    split_ifs
    · exact ⟨hsingle, toDownstream_ofDeliveries _ _ _⟩
    · exact ⟨hsingle, houtbox⟩
  | emit =>
    refine ⟨WorkerPool.single_post hsingle _, ?_⟩
    have hsub : (s.outbox.tail.filterMap PoolTask.toDownstream).Sublist
        (s.outbox.filterMap PoolTask.toDownstream) := (List.tail_sublist _).filterMap _
    rw [houtbox] at hsub
    exact List.sublist_nil.mp hsub
  | post => exact ⟨WorkerPool.single_post hsingle _, houtbox⟩
  | shutdownListener =>
    simp only [step]
    split_ifs <;> exact ⟨hsingle, houtbox⟩
  | stopPool => exact ⟨hsingle, houtbox⟩
  | take w => exact ⟨(WorkerPool.take_of_single hsingle w).1, houtbox⟩
  | run w live =>
    cases hcurrent : s.pool.current w with
    | none =>
      have hsame : s.step (.run w live) = s := by simp only [step, hcurrent]
      rw [hsame]
      exact ⟨hsingle, houtbox⟩
    | some task =>
      have hfinish := (WorkerPool.pending_of_current hsingle hcurrent).1
      simp only [step, hcurrent]
      cases task with
      | listener value number => exact ⟨WorkerPool.single_post hfinish _, houtbox⟩
      | downstream value number => exact ⟨hfinish, houtbox⟩
      | other => exact ⟨hfinish, houtbox⟩

/-- Along a run on a single worker the values under way stay in the order they were sent. -/
theorem flow_run_sublist (actions : List (ListenerAction D)) {s : ListenerSystem D}
    (hsingle : s.pool.Single) (houtbox : s.outbox.filterMap PoolTask.toDownstream = [])
    (h : s.flow.Sublist s.sent.zipIdx) :
    (s.run actions).flow.Sublist (s.run actions).sent.zipIdx := by
  induction actions generalizing s with
  | nil => exact h
  | cons action actions ih =>
    obtain ⟨hsingle', houtbox'⟩ := ordered_step hsingle houtbox action
    obtain ⟨new, hsent, hflow, -⟩ := flow_step hsingle houtbox action
    apply ih hsingle' houtbox'
    rw [hsent]
    exact hflow.trans (h.append_right new)

end Step

theorem inOrder_of_single {nThreads : ℕ} (hone : nThreads ≤ 1) (d : Dispatcher D)
    (symbol field : String) (node : NodeId) (downstream : Option NodeId)
    (actions : List (ListenerAction D)) :
    ((start nThreads d symbol field node downstream).run actions).InOrder := by
  have hsize : poolSize nThreads = 1 := by
    unfold poolSize
    split_ifs <;> omega
  have hstart : (start nThreads d symbol field node downstream).flow = [] := by
    simp [start, flow, inFlight, WorkerPool.pending_idle]
  have hsingle : (start nThreads d symbol field node downstream).pool.Single := by
    simp only [start, hsize]
    exact WorkerPool.single_idle
  have hflow := flow_run_sublist actions hsingle rfl (by rw [hstart]; exact List.nil_sublist _)
  exact (List.sublist_append_left _ _).trans hflow

/-- In a run on a single worker without interruptions everything that was sent arrives. -/
theorem flow_run_eq (actions : List (ListenerAction D)) {s : ListenerSystem D}
    (hsingle : s.pool.Single) (houtbox : s.outbox.filterMap PoolTask.toDownstream = [])
    (hopen : ∀ pre, pre <+: actions → (s.run pre).Open)
    (hlive : ∀ w, .run w false ∉ actions) (h : s.flow = s.sent.zipIdx) :
    (s.run actions).flow = (s.run actions).sent.zipIdx := by
  induction actions generalizing s with
  | nil => exact h
  | cons action actions ih =>
    obtain ⟨hsingle', houtbox'⟩ := ordered_step hsingle houtbox action
    obtain ⟨new, hsent, -, hflow⟩ := flow_step hsingle houtbox action
    apply ih hsingle' houtbox'
    · intro pre hpre
      exact hopen (action :: pre) (List.cons_prefix_cons.mpr ⟨rfl, hpre⟩)
    · exact fun w hmem => hlive w (List.mem_cons_of_mem _ hmem)
    · rw [hsent, ← h]
      apply hflow (hopen [] (List.nil_prefix)) (hopen [action] ?_)
      · intro w heq
        exact hlive w (heq ▸ List.mem_cons_self)
      · exact List.cons_prefix_cons.mpr ⟨rfl, List.nil_prefix⟩

/-- Once nothing is on its way any more, the node has received every value, in order. -/
theorem received_eq_of_quiet (actions : List (ListenerAction D)) {s : ListenerSystem D}
    (hsingle : s.pool.Single) (houtbox : s.outbox.filterMap PoolTask.toDownstream = [])
    (hopen : ∀ pre, pre <+: actions → (s.run pre).Open)
    (hlive : ∀ w, .run w false ∉ actions) (h : s.flow = s.sent.zipIdx)
    (hquiet : (s.run actions).inFlight = []) :
    (s.run actions).received = (s.run actions).sent.zipIdx := by
  have hflow := flow_run_eq actions hsingle houtbox hopen hlive h
  rwa [flow, hquiet, List.append_nil] at hflow

/-- A dispatcher without computers and functions. -/
def bare (D : Type) [DoubleMath D] : Dispatcher D where
  cfg := { taBBands_stdK := Double.ofRat 2 }
  functions := ⟨[], List.nodup_nil⟩

def priceAt (price : ℤ) (h : -2 ^ 63 ≤ price ∧ price < 2 ^ 64) : Event D where
  symbol := "AAPL"
  payload := .object [("price", .int (.ofRange price h))]

/-- Two ticks come in. -/
def twoTicks : List (ListenerAction D) :=
  [.dispatch (.onTick (priceAt 1 (by decide))), .emit,
    .dispatch (.onTick (priceAt 2 (by decide))), .emit]

/-- Two workers take the tasks in the queue, and the second one is faster. -/
def overtake : List (ListenerAction D) :=
  [.take 0, .take 1, .run 1 true, .run 0 true, .take 0, .run 0 true, .take 0, .run 0 true]

def price (q : ℚ) : StreamValue D := ⟨"AAPL", .double (Double.ofRat q)⟩

theorem deliveries_first :
    (((bare D).registerListener "AAPL" "price" 0).onTick (priceAt 1 (by decide))).2 =
      [⟨"price", 0, price 1⟩] := rfl

theorem deliveries_second :
    ((((bare D).registerListener "AAPL" "price" 0).onTick (priceAt 1 (by decide))).1.onTick
      (priceAt 2 (by decide))).2 = [⟨"price", 0, price 2⟩] := rfl

/-- After two ticks the two values wait for the Listener. -/
theorem run_twoTicks (m : ℕ) : ∃ d : Dispatcher D,
    (start (m + 2) (bare D) "AAPL" "price" 0 (some 1)).run twoTicks =
      { dispatcher := d, symbol := "AAPL", field := "price", node := 0, downstream := some 1
        pool := { workers := List.replicate (m + 2) none
                  queue := [.listener (price 1) 0, .listener (price 2) 1] }
        sent := [price 1, price 2] } := by
  refine ⟨((((bare D).registerListener "AAPL" "price" 0).onTick (priceAt 1 (by decide))).1.onTick
    (priceAt 2 (by decide))).1, ?_⟩
  simp only [run, twoTicks, List.foldl_cons, List.foldl_nil, step, start, Dispatcher.exec,
    List.isEmpty_nil, if_true, deliveries_first, PoolTask.ofDeliveries, WorkerPool.post,
    WorkerPool.idle, List.take, List.tail_cons, deliveries_second]
  rfl

theorem run_overtake (s : ListenerSystem D) (rest : List (Option (PoolTask D)))
    (first second : StreamValue D)
    (hpool : s.pool = { workers := none :: none :: rest
                        queue := [.listener first 0, .listener second 1] })
    (hdownstream : s.downstream = some 1) (hstopping : s.stopping = false)
    (hreceived : s.received = []) :
    (s.run overtake).received = [(second, 1), (first, 0)] ∧ (s.run overtake).sent = s.sent := by
  simp [run, overtake, step, runTask, hpool, hdownstream, hstopping, hreceived, WorkerPool.take,
    WorkerPool.current, WorkerPool.finish, WorkerPool.post, Runtime.listenerOnValue,
    Runtime.callTo, Option.filter_some]

theorem not_inOrder_overtake (m : ℕ) :
    ¬((start (m + 2) (bare D) "AAPL" "price" 0 (some 1)).run (twoTicks ++ overtake)).InOrder := by
  intro h
  obtain ⟨d, hstate⟩ := run_twoTicks (D := D) m
  have hrun : (start (m + 2) (bare D) "AAPL" "price" 0 (some 1)).run (twoTicks ++ overtake) =
      ((start (m + 2) (bare D) "AAPL" "price" 0 (some 1)).run twoTicks).run overtake :=
    List.foldl_append
  obtain ⟨hreceived, hsent⟩ := run_overtake
    ((start (m + 2) (bare D) "AAPL" "price" 0 (some 1)).run twoTicks) (List.replicate m none)
    (price 1) (price 2) (by rw [hstate]; rfl) (by rw [hstate]) (by rw [hstate]) (by rw [hstate])
  -- the numbers come in the order 1, 0
  have hnumbers := h.map Prod.snd
  rw [hrun, hreceived, hsent, hstate] at hnumbers
  have hneg : ¬[1, 0].Sublist [0, 1] := by decide
  exact hneg hnumbers

/-- Values reach the node behind a Listener in the order of the ticks in every interleaving if
and only if the pool has one worker. -/
theorem ticks_in_order_iff (D : Type) [DoubleMath D] (nThreads : ℕ) :
    (∀ (d : Dispatcher D) (symbol field : String) (node : NodeId) (downstream : Option NodeId)
        (actions : List (ListenerAction D)),
        ((start nThreads d symbol field node downstream).run actions).InOrder) ↔
      nThreads ≤ 1 := by
  constructor
  · intro h
    by_contra hmany
    obtain ⟨m, rfl⟩ : ∃ m, nThreads = m + 2 := ⟨nThreads - 2, by omega⟩
    exact not_inOrder_overtake m (h (bare D) "AAPL" "price" 0 (some 1) (twoTicks ++ overtake))
  · intro hone d symbol field node downstream actions
    exact inOrder_of_single hone d symbol field node downstream actions

/-- With two workers the price of the second tick can arrive first. -/
theorem second_tick_overtakes : ¬((start 2 (bare ExactDouble) "AAPL" "price" 0 (some 1)).run
    (twoTicks ++ overtake)).InOrder :=
  not_inOrder_overtake 0

end ListenerSystem
end GmaEngine
