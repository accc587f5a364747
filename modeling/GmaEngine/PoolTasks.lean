import GmaEngine.LocalRuns
import GmaEngine.ThreadPool
import Mathlib.Data.List.Perm.Basic

/-!
# The tasks of the pool

Every task that `post` accepts is taken once, in the order of the posts, and run once. A call of
`drain` returns only when all tasks posted so far have run, and so does the destructor, whose
joins wait until every worker has left its loop.
-/

namespace GmaEngine

/-- What happens to a task. -/
inductive TaskEvent (α : Type) where
  | posted (task : α)
  | taken (task : α)
  | ran (task : α)
  deriving DecidableEq

namespace TaskEvent
variable {α : Type}

def post? : TaskEvent α → Option α
  | posted task => some task
  | _ => none

def take? : TaskEvent α → Option α
  | taken task => some task
  | _ => none

def run? : TaskEvent α → Option α
  | ran task => some task
  | _ => none

end TaskEvent

namespace ThreadPool
variable {α : Type}

/-- What the next step of a worker does to a task. -/
def workerEvent (q : List α) : Option (WorkerPhase α) → Option (TaskEvent α)
  | some .locked => q.head?.map .taken
  | some (.running task) => some (.ran task)
  | _ => none

def taskEvent (p : ThreadPool α) : Event α → Option (TaskEvent α)
  | .post task => if p.mx || p.stopping then none else some (.posted task)
  | .worker w => workerEvent p.q p.workers[w]?
  | _ => none

def tracedStep (p : ThreadPool α) (event : Event α) : ThreadPool α × List (TaskEvent α) :=
  (p.step event, (p.taskEvent event).toList)

/-- The pool after a run, with the history of its tasks. -/
def tracedRun (nThreads : ℕ) (events : List (Event α)) : ThreadPool α × List (TaskEvent α) :=
  LocalRuns.run tracedStep (create α nThreads) events

def history (nThreads : ℕ) (events : List (Event α)) : List (TaskEvent α) :=
  (tracedRun nThreads events).2

theorem fst_tracedRun (nThreads : ℕ) (events : List (Event α)) :
    (tracedRun nThreads events).1 = run nThreads events := by
  induction events using List.reverseRecOn with
  | nil => rfl
  | append_singleton events event ih =>
    rw [tracedRun, LocalRuns.run_concat]
    change ((tracedRun nThreads events).1).step event = _
    rw [ih, run, run, List.foldl_append]
    rfl

theorem history_concat (nThreads : ℕ) (events : List (Event α)) (event : Event α) :
    history nThreads (events ++ [event]) =
      history nThreads events ++ ((run nThreads events).taskEvent event).toList := by
  rw [history, tracedRun, LocalRuns.run_concat, ← fst_tracedRun]
  rfl

theorem run_concat (nThreads : ℕ) (events : List (Event α)) (event : Event α) :
    run nThreads (events ++ [event]) = (run nThreads events).step event := by
  rw [run, run, List.foldl_append]
  rfl

def posted (nThreads : ℕ) (events : List (Event α)) : List α :=
  (history nThreads events).filterMap TaskEvent.post?

def taken (nThreads : ℕ) (events : List (Event α)) : List α :=
  (history nThreads events).filterMap TaskEvent.take?

def ran (nThreads : ℕ) (events : List (Event α)) : List α :=
  (history nThreads events).filterMap TaskEvent.run?

end ThreadPool

/-- `inFlight_` counts the worker. -/
def WorkerPhase.busy {α : Type} : WorkerPhase α → Bool
  | .popped _ => true
  | .running _ => true
  | .finished => true
  | _ => false

namespace ThreadPool
variable {α : Type} {p : ThreadPool α}

/-- The tasks that workers have taken and not run to their end. -/
def held (p : ThreadPool α) : List α := p.workers.filterMap WorkerPhase.task?

theorem perm_held_setWorker {w : ℕ} {old : WorkerPhase α} (hold : p.workers[w]? = some old)
    (new : WorkerPhase α) :
    (old.task?.toList ++ (p.setWorker w new).held).Perm (new.task?.toList ++ p.held) := by
  obtain ⟨hw, hget⟩ := List.getElem?_eq_some_iff.mp hold
  have hset := (List.set_perm_cons_eraseIdx hw new).filterMap WorkerPhase.task?
  have hall := (List.getElem_cons_eraseIdx_perm hw).filterMap WorkerPhase.task?
  have hcons : ∀ phase : WorkerPhase α, ∀ phases, (phase :: phases).filterMap WorkerPhase.task? =
      phase.task?.toList ++ phases.filterMap WorkerPhase.task? := by
    intro phase phases
    rw [List.filterMap_cons]
    cases phase.task? <;> rfl
  rw [hcons] at hset hall
  rw [hget] at hall
  -- both sides are the two tasks in front of those of the other workers
  exact (hset.append_left _).trans
    ((List.perm_append_comm_assoc _ _ _).trans (hall.append_left _))

theorem countP_busy_setWorker {w : ℕ} {old : WorkerPhase α} (hold : p.workers[w]? = some old)
    (new : WorkerPhase α) :
    (p.setWorker w new).workers.countP WorkerPhase.busy + old.busy.toNat =
      p.workers.countP WorkerPhase.busy + new.busy.toNat := by
  obtain ⟨hw, rfl⟩ := List.getElem?_eq_some_iff.mp hold
  have hset := (List.set_perm_cons_eraseIdx hw new).countP_eq WorkerPhase.busy
  have hall := (List.getElem_cons_eraseIdx_perm hw).countP_eq WorkerPhase.busy
  have hcons : ∀ phase : WorkerPhase α, ∀ phases, (phase :: phases).countP WorkerPhase.busy =
      phases.countP WorkerPhase.busy + phase.busy.toNat := by
    intro phase phases
    rw [List.countP_cons]
    cases phase.busy <;> rfl
  rw [hcons] at hset hall
  rw [← hall, setWorker, hset]
  omega

/-- The tasks posted, taken and run so far fit the state of the pool. -/
structure Accounts (p : ThreadPool α) (posted taken ran : List α) : Prop where
  order : taken ++ p.q = posted
  hands : (ran ++ p.held).Perm taken
  counted : p.inFlight = p.workers.countP WorkerPhase.busy
  closed : .exited ∈ p.workers → p.q = [] ∧ p.stopping = true

variable {posts takes runs : List α}

/-- A step of a worker that hands no task on. -/
theorem Accounts.setWorker (h : p.Accounts posts takes runs) {w : ℕ} {old : WorkerPhase α}
    (hold : p.workers[w]? = some old) (new : WorkerPhase α) (htask : old.task? = new.task?)
    (hbusy : old.busy = new.busy)
    (hexited : new = .exited → p.q = [] ∧ p.stopping = true) (mx : Bool) :
    ({ p.setWorker w new with mx := mx } : ThreadPool α).Accounts posts takes runs where
  order := h.order
  hands := by
    have hheld := perm_held_setWorker hold new
    rw [htask, List.perm_append_left_iff] at hheld
    exact (hheld.append_left runs).trans h.hands
  counted := by
    have hcount := countP_busy_setWorker hold new
    rw [hbusy] at hcount
    exact h.counted.trans (Nat.add_right_cancel hcount).symm
  closed := by
    intro hmem
    rcases List.mem_or_eq_of_mem_set hmem with hmem | heq
    · exact h.closed hmem
    · exact hexited heq.symm

theorem Accounts.silent (h : p.Accounts posts takes runs) :
    p.Accounts posts (takes ++ []) (runs ++ []) := by
  rwa [List.append_nil, List.append_nil]

theorem Accounts.stepWorker (h : p.Accounts posts takes runs) (w : ℕ) :
    (p.stepWorker w).Accounts posts
      (takes ++ ((workerEvent p.q p.workers[w]?).bind TaskEvent.take?).toList)
      (runs ++ ((workerEvent p.q p.workers[w]?).bind TaskEvent.run?).toList) := by
  unfold ThreadPool.stepWorker
  cases hw : p.workers[w]? with
  | none => exact h.silent
  | some phase =>
    cases phase with
    | waiting =>
      dsimp only
      split_ifs
      · exact h.silent
      · exact (h.setWorker hw .locked rfl rfl (by simp) true).silent
    | locked =>
      cases hq : p.q with
      | nil =>
        dsimp only
        split_ifs with hstop
        · exact (h.setWorker hw .exited rfl rfl (fun _ => ⟨hq, hstop⟩) false).silent
        · exact (h.setWorker hw .waiting rfl rfl (by simp) false).silent
      | cons task rest =>
        have hcount := countP_busy_setWorker hw (.popped task)
        refine ⟨?_, ?_, ?_, ?_⟩
        · change takes ++ [task] ++ rest = posts
          rw [List.append_assoc, ← h.order, hq]
          rfl
        · change (runs ++ [] ++ (p.setWorker w (.popped task)).held).Perm (takes ++ [task])
          rw [List.append_nil]
          have hmove : (runs ++ (p.setWorker w (.popped task)).held).Perm
              (task :: (runs ++ p.held)) :=
            ((perm_held_setWorker hw (.popped task)).append_left runs).trans List.perm_middle
          exact hmove.trans
            ((h.hands.cons task).trans (List.perm_append_singleton task takes).symm)
        · have hcounted := h.counted
          simp only [WorkerPhase.busy, Bool.toNat_false, Bool.toNat_true] at hcount
          change p.inFlight + 1 = (p.setWorker w (.popped task)).workers.countP WorkerPhase.busy
          omega
        · intro hmem
          rcases List.mem_or_eq_of_mem_set hmem with hmem | heq
          · have hclosed := (h.closed hmem).1
            rw [hq] at hclosed
            cases hclosed
          · cases heq
    | popped task => exact (h.setWorker hw (.running task) rfl rfl (by simp) false).silent
    | running task =>
      have hcount := countP_busy_setWorker hw .finished
      refine ⟨?_, ?_, ?_, ?_⟩
      · change takes ++ [] ++ p.q = posts
        rw [List.append_nil, h.order]
      · change (runs ++ [task] ++ (p.setWorker w .finished).held).Perm (takes ++ [])
        rw [List.append_assoc, List.append_nil]
        exact ((perm_held_setWorker hw .finished).append_left runs).trans h.hands
      · exact h.counted.trans (Nat.add_right_cancel hcount).symm
      · intro hmem
        rcases List.mem_or_eq_of_mem_set hmem with hmem | heq
        · exact h.closed hmem
        · cases heq
    | finished =>
      have hcount := countP_busy_setWorker hw .notifying
      refine ⟨?_, ?_, ?_, ?_⟩
      · change takes ++ [] ++ p.q = posts
        rw [List.append_nil, h.order]
      · change (runs ++ [] ++ (p.setWorker w .notifying).held).Perm (takes ++ [])
        rw [List.append_nil, List.append_nil]
        exact ((perm_held_setWorker hw .notifying).append_left runs).trans h.hands
      · have hcounted := h.counted
        simp only [WorkerPhase.busy, Bool.toNat_false, Bool.toNat_true] at hcount
        change p.inFlight - 1 = (p.setWorker w .notifying).workers.countP WorkerPhase.busy
        omega
      · intro hmem
        rcases List.mem_or_eq_of_mem_set hmem with hmem | heq
        · exact h.closed hmem
        · cases heq
    | notifying =>
      have hnext := h.setWorker hw .waiting rfl rfl (by simp) p.mx
      exact Accounts.silent ⟨hnext.order, hnext.hands, hnext.counted, hnext.closed⟩
    | exited => exact h.silent

theorem Accounts.step (h : p.Accounts posts takes runs) (event : Event α) :
    (p.step event).Accounts (posts ++ ((p.taskEvent event).bind TaskEvent.post?).toList)
      (takes ++ ((p.taskEvent event).bind TaskEvent.take?).toList)
      (runs ++ ((p.taskEvent event).bind TaskEvent.run?).toList) := by
  cases event with
  | worker w =>
    have hposts : (p.taskEvent (.worker w)).bind TaskEvent.post? = none := by
      change (workerEvent p.q p.workers[w]?).bind TaskEvent.post? = none
      unfold workerEvent
      split
      · cases p.q.head? <;> rfl
      · rfl
      · rfl
    rw [hposts, Option.toList_none, List.append_nil]
    exact h.stepWorker w
  | callDrain =>
    simp only [taskEvent, Option.bind_none, Option.toList_none, List.append_nil]
    exact ⟨h.order, h.hands, h.counted, h.closed⟩
  | drain d =>
    have hsame : ∀ drains mx, ({ p with drains := drains, mx := mx } : ThreadPool α).Accounts
        posts takes runs := fun _ _ => ⟨h.order, h.hands, h.counted, h.closed⟩
    simp only [taskEvent, Option.bind_none, Option.toList_none, List.append_nil]
    change (p.stepDrain d).Accounts posts takes runs
    unfold stepDrain
    cases p.drains[d]? with
    | none => exact h
    | some phase =>
      cases phase with
      | entering =>
        dsimp only
        split_ifs
        · exact h
        · exact hsame _ _
      | checking =>
        dsimp only
        split_ifs
        · exact hsame _ _
        · exact hsame _ _
      | blocking => exact hsame _ _
      | blocked => exact h
      | returned => exact h
  | post task =>
    unfold ThreadPool.step ThreadPool.post taskEvent
    dsimp only
    split_ifs with hrefused
    · simpa using h
    · refine ⟨?_, ?_, h.counted, ?_⟩
      · change takes ++ [] ++ (p.q ++ [task]) = posts ++ [task]
        rw [List.append_nil, ← List.append_assoc, h.order]
      · change (runs ++ [] ++ p.held).Perm (takes ++ [])
        rw [List.append_nil, List.append_nil]
        exact h.hands
      · intro hmem
        simp [(h.closed hmem).2] at hrefused
  | stop =>
    simp only [taskEvent, Option.bind_none, Option.toList_none, List.append_nil]
    change p.stop.Accounts posts takes runs
    unfold stop
    split_ifs
    · exact h
    · exact ⟨h.order, h.hands, h.counted, fun hmem => ⟨(h.closed hmem).1, rfl⟩⟩

theorem accounts_run (nThreads : ℕ) (events : List (Event α)) :
    (run nThreads events).Accounts (posted nThreads events) (taken nThreads events)
      (ran nThreads events) := by
  induction events using List.reverseRecOn with
  | nil =>
    refine ⟨rfl, ?_, ?_, ?_⟩
    · simp [held, run, create, ran, taken, history, tracedRun, LocalRuns.run, WorkerPhase.task?]
    · simp [run, create, List.countP_replicate, WorkerPhase.busy]
    · simp [run, create]
  | append_singleton events event ih =>
    have hfilter : ∀ {f : TaskEvent α → Option α} (e : Option (TaskEvent α)),
        e.toList.filterMap f = (e.bind f).toList := by
      intro f e
      cases e with
      | none => rfl
      | some e => cases hf : f e <;> simp [hf]
    rw [run_concat, posted, taken, ran, history_concat, List.filterMap_append,
      List.filterMap_append, List.filterMap_append, hfilter, hfilter, hfilter]
    exact ih.step event

/-- When no worker is counted, all that was taken has run. -/
theorem Accounts.ran_of_idle (h : p.Accounts posts takes runs) (hq : p.q = [])
    (hidle : p.inFlight = 0) : runs.Perm posts := by
  have hheld : p.held = [] := by
    apply List.filterMap_eq_nil_iff.mpr
    intro phase hphase
    have hfree := List.countP_eq_zero.mp (h.counted.symm.trans hidle) phase hphase
    cases phase with
    | popped task => exact absurd rfl hfree
    | running task => exact absurd rfl hfree
    | _ => rfl
  have hhands := h.hands
  rwa [hheld, List.append_nil, ← List.append_nil takes, ← hq, h.order] at hhands

theorem Accounts.ran_of_exited (h : p.Accounts posts takes runs) (hstaffed : p.workers ≠ [])
    (hexited : ∀ phase ∈ p.workers, phase = .exited) : runs.Perm posts := by
  obtain ⟨phase, hphase⟩ := List.exists_mem_of_ne_nil _ hstaffed
  have hq := (h.closed (hexited phase hphase ▸ hphase)).1
  refine h.ran_of_idle hq (h.counted.trans (List.countP_eq_zero.mpr ?_))
  intro phase hphase
  rw [hexited phase hphase]
  exact Bool.false_ne_true

theorem length_workers_step (p : ThreadPool α) (event : Event α) :
    (p.step event).workers.length = p.workers.length := by
  cases event with
  | worker w =>
    change (p.stepWorker w).workers.length = p.workers.length
    unfold ThreadPool.stepWorker
    split
    · split_ifs <;> simp [setWorker]
    · split <;> simp [setWorker]
    all_goals simp [setWorker, notifyIdle]
  | callDrain => rfl
  | drain d =>
    change (p.stepDrain d).workers.length = p.workers.length
    unfold stepDrain
    split
    · split_ifs <;> rfl
    · split_ifs <;> rfl
    all_goals rfl
  | post task =>
    change (p.post task).workers.length = p.workers.length
    unfold ThreadPool.post
    split_ifs <;> rfl
  | stop =>
    change p.stop.workers.length = p.workers.length
    unfold stop
    split_ifs <;> rfl

theorem workers_ne_nil (nThreads : ℕ) (events : List (Event α)) :
    (run nThreads events).workers ≠ [] := by
  have hlength : 0 < (run nThreads events).workers.length := by
    induction events using List.reverseRecOn with
    | nil =>
      change 0 < (create α nThreads).workers.length
      rw [create, List.length_replicate]
      split_ifs <;> omega
    | append_singleton events event ih => rwa [run_concat, length_workers_step]
  exact List.ne_nil_of_length_pos hlength

/-- In every run the tasks are taken in the order of the posts and each of them is run once: those
that have run and those in the workers' hands are the ones taken. When a call of `drain` returns,
and when all workers have left, every task posted so far has run. -/
theorem tasks_run_once (nThreads : ℕ) (events : List (Event α)) :
    let p := run nThreads events
    taken nThreads events ++ p.q = posted nThreads events ∧
      (ran nThreads events ++ p.held).Perm (taken nThreads events) ∧
      (∀ d, p.drains[d]? = some .checking → (p.step (.drain d)).drains[d]? = some .returned →
        (ran nThreads events).Perm (posted nThreads events)) ∧
      ((∀ phase ∈ p.workers, phase = .exited) →
        (ran nThreads events).Perm (posted nThreads events)) := by
  intro p
  have h := accounts_run nThreads events
  refine ⟨h.order, h.hands, ?_, h.ran_of_exited (workers_ne_nil nThreads events)⟩
  intro d hchecking hreturned
  -- the call returns only through its predicate
  have hidle : p.isIdle = true := by
    by_contra hbusy
    have hstep : p.step (.drain d) = p.setDrain d .blocking := by
      simp [step, stepDrain, hchecking, hbusy]
    have hd := (List.getElem?_eq_some_iff.mp hchecking).1
    rw [hstep, setDrain, List.getElem?_set_self hd] at hreturned
    cases hreturned
  simp only [isIdle, Bool.and_eq_true, List.isEmpty_iff, beq_iff_eq] at hidle
  exact h.ran_of_idle hidle.1 hidle.2

/-- Two workers take the tasks 7 and 8, the second one is done first, and `drain` is called. -/
def twoTasks : List (Event ℕ) :=
  [.post 7, .post 8, .worker 0, .worker 0, .worker 0, .worker 1, .worker 1, .worker 1,
    .worker 1, .worker 1, .callDrain, .drain 0, .drain 0, .drain 0, .worker 0, .worker 0,
    .worker 0, .drain 0]

theorem twoTasks_ran : (ran 2 twoTasks).Perm [7, 8] ∧ ran 2 twoTasks = [8, 7] :=
  ⟨(tasks_run_once 2 twoTasks).2.2.1 0 (by decide) (by decide), by decide⟩

end ThreadPool
end GmaEngine
