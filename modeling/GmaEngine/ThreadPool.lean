import GmaEngine.GuardedRuns
import GmaEngine.WorkerPool

/-!
# The thread pool

The pool of `WorkerPool` with its mutex, its counter of running tasks and the calls of `drain`
that wait for it to be idle. A worker counts a task down and notifies without the mutex, so both
can fall between the check of a `drain` call and its blocking.
-/

namespace GmaEngine

/-- Where a worker stands in `workerLoop`. -/
inductive WorkerPhase (α : Type) where
  | waiting
  | locked
  | popped (task : α)
  | running (task : α)
  | finished
  /-- `inFlight_` is decremented and `idleCv_` is still to be notified. -/
  | notifying
  | exited
  deriving DecidableEq

/-- Where a call of `drain` stands. -/
inductive DrainPhase where
  | entering
  | checking
  /-- The predicate was false, and the mutex is still held. -/
  | blocking
  | blocked
  | returned
  deriving DecidableEq

structure ThreadPool (α : Type) where
  workers : List (WorkerPhase α)
  drains : List DrainPhase := []
  q : List α := []
  inFlight : ℕ := 0
  stopping : Bool := false
  /-- The mutex `mx_` is held. -/
  mx : Bool := false
  deriving DecidableEq

namespace ThreadPool
variable {α : Type}

/-- A pool has at least one worker. -/
def create (α : Type) (nThreads : ℕ) : ThreadPool α where
  workers := List.replicate (if nThreads = 0 then 1 else nThreads) .waiting

def setWorker (p : ThreadPool α) (w : ℕ) (phase : WorkerPhase α) : ThreadPool α :=
  { p with workers := p.workers.set w phase }

def setDrain (p : ThreadPool α) (d : ℕ) (phase : DrainPhase) : ThreadPool α :=
  { p with drains := p.drains.set d phase }

/-- `notify_all` reaches the calls that are blocked. -/
def notifyIdle (p : ThreadPool α) : ThreadPool α :=
  { p with drains := p.drains.map (fun d => if d = .blocked then .entering else d) }

/-- The predicate of `drain`. -/
def isIdle (p : ThreadPool α) : Bool := p.q.isEmpty && p.inFlight == 0

/-- The next step of a worker. Waiting for `cv_` is left to the scheduler: a worker that finds
nothing to do comes back later. -/
def stepWorker (p : ThreadPool α) (w : ℕ) : ThreadPool α :=
  match p.workers[w]? with
  | some .waiting => if p.mx then p else { p.setWorker w .locked with mx := true }
  | some .locked =>
    match p.q with
    | task :: rest => { p.setWorker w (.popped task) with q := rest, inFlight := p.inFlight + 1 }
    | [] => { p.setWorker w (if p.stopping then .exited else .waiting) with mx := false }
  | some (.popped task) => { p.setWorker w (.running task) with mx := false }
  | some (.running _) => p.setWorker w .finished
  | some .finished => { p.setWorker w .notifying with inFlight := p.inFlight - 1 }
  | some .notifying => (p.setWorker w .waiting).notifyIdle
  | some .exited => p
  | none => p

/-- The next step of a `drain` call; a blocked one waits for a notification. -/
def stepDrain (p : ThreadPool α) (d : ℕ) : ThreadPool α :=
  match p.drains[d]? with
  | some .entering => if p.mx then p else { p.setDrain d .checking with mx := true }
  | some .checking =>
    if p.isIdle then { p.setDrain d .returned with mx := false } else p.setDrain d .blocking
  | some .blocking => { p.setDrain d .blocked with mx := false }
  | some .blocked => p
  | some .returned => p
  | none => p

/-- The sections of `post` and of the destructor wait for the mutex. -/
def post (p : ThreadPool α) (task : α) : ThreadPool α :=
  if p.mx || p.stopping then p else { p with q := p.q ++ [task] }

def stop (p : ThreadPool α) : ThreadPool α := if p.mx then p else { p with stopping := true }

inductive Event (α : Type) where
  | worker (w : ℕ)
  | callDrain
  | drain (d : ℕ)
  | post (task : α)
  | stop

def step (p : ThreadPool α) : Event α → ThreadPool α
  | .worker w => p.stepWorker w
  | .callDrain => { p with drains := p.drains ++ [.entering] }
  | .drain d => p.stepDrain d
  | .post task => p.post task
  | .stop => p.stop

def run (nThreads : ℕ) (events : List (Event α)) : ThreadPool α :=
  events.foldl step (create α nThreads)

end ThreadPool

def WorkerPhase.notifies {α : Type} : WorkerPhase α → Bool
  | .notifying => true
  | _ => false

namespace ThreadPool
variable {α : Type} {p : ThreadPool α}

/-- Some worker still has to notify. -/
def notifies (p : ThreadPool α) : Bool := p.workers.any WorkerPhase.notifies

/-- A `drain` call is blocked on an idle pool that nobody will notify. -/
def hangs (p : ThreadPool α) : Bool :=
  decide (.blocked ∈ p.drains) && p.isIdle && !p.notifies

/-- The step is the last notification of an idle pool, and a `drain` call stands between its
check and its blocking. -/
def losesWakeup (p : ThreadPool α) : Event α → Bool
  | .worker w =>
    (p.workers[w]?).any WorkerPhase.notifies && p.isIdle && decide (.blocking ∈ p.drains) &&
      !(p.workers.set w .waiting).any WorkerPhase.notifies
  | _ => false

/-- No step of a run loses a wakeup. -/
def wakesAll (nThreads : ℕ) (events : List (Event α)) : Bool :=
  GuardedRuns.along step (fun p event => !p.losesWakeup event) (create α nThreads) events

/-- A `drain` call that blocks or is about to has something to wait for. -/
def Awaited (p : ThreadPool α) : Prop :=
  .blocking ∈ p.drains ∨ .blocked ∈ p.drains → p.isIdle = false ∨ p.notifies = true

theorem hangs_eq_false_of_awaited (h : p.Awaited) : p.hangs = false := by
  unfold hangs
  by_cases hblocked : .blocked ∈ p.drains
  · rcases h (.inr hblocked) with hbusy | hnotifies
    · simp [hbusy]
    · simp [hnotifies]
  · simp [hblocked]

/-- A step that does not change what `f` sees of its worker. -/
theorem map_setWorker {β : Type} {f : WorkerPhase α → β} {w : ℕ} {old new : WorkerPhase α}
    (hold : p.workers[w]? = some old) (hsame : f old = f new) :
    (p.setWorker w new).workers.map f = p.workers.map f := by
  apply List.ext_getElem?
  intro i
  rw [List.getElem?_map, List.getElem?_map, setWorker, List.getElem?_set]
  split_ifs with hi hlt
  · rw [← hi, hold, Option.map_some, Option.map_some, hsame]
  · exact absurd (List.getElem?_eq_some_iff.mp hold).1 hlt
  · rfl

theorem notifies_setWorker {w : ℕ} {old new : WorkerPhase α} (hold : p.workers[w]? = some old)
    (hsame : old.notifies = new.notifies) : (p.setWorker w new).notifies = p.notifies := by
  have hany : ∀ phases : List (WorkerPhase α),
      phases.any WorkerPhase.notifies = (phases.map WorkerPhase.notifies).any id := by
    intro phases
    rw [List.any_map]
    rfl
  unfold notifies
  rw [hany, map_setWorker hold hsame, ← hany]

theorem notifies_of_setWorker {w : ℕ} {new : WorkerPhase α} (hw : w < p.workers.length)
    (hnew : new.notifies = true) : (p.setWorker w new).notifies = true := by
  unfold notifies setWorker
  exact List.any_eq_true.mpr ⟨new, List.mem_set hw new, hnew⟩

/-- What a step of a worker does as far as `drain` can see. -/
theorem stepWorker_cases (p : ThreadPool α) (w : ℕ) :
    ((p.stepWorker w).drains = p.drains ∧ (p.stepWorker w).isIdle = p.isIdle ∧
        (p.stepWorker w).notifies = p.notifies) ∨
      ((p.stepWorker w).isIdle = false) ∨ ((p.stepWorker w).notifies = true) ∨
      (p.workers[w]? = some .notifying ∧ p.stepWorker w = (p.setWorker w .waiting).notifyIdle) := by
  unfold stepWorker
  cases hw : p.workers[w]? with
  | none => exact .inl ⟨rfl, rfl, rfl⟩
  | some phase =>
    cases phase with
    | waiting =>
      dsimp only
      split_ifs
      · exact .inl ⟨rfl, rfl, rfl⟩
      · exact .inl ⟨rfl, rfl, notifies_setWorker hw rfl⟩
    | locked =>
      cases hq : p.q with
      | nil =>
        refine .inl ⟨rfl, by simp [isIdle, setWorker], ?_⟩
        apply notifies_setWorker hw
        split_ifs <;> rfl
      | cons task rest => exact .inr (.inl (by simp [isIdle]))
    | popped task => exact .inl ⟨rfl, rfl, notifies_setWorker hw rfl⟩
    | running task => exact .inl ⟨rfl, rfl, notifies_setWorker hw rfl⟩
    | finished =>
      have hlt := (List.getElem?_eq_some_iff.mp hw).1
      exact .inr (.inr (.inl (notifies_of_setWorker hlt rfl)))
    | notifying => exact .inr (.inr (.inr ⟨rfl, rfl⟩))
    | exited => exact .inl ⟨rfl, rfl, rfl⟩

theorem mem_drains_notifyIdle {phase : DrainPhase} (hmem : phase ∈ p.notifyIdle.drains) :
    phase ∈ p.drains ∧ phase ≠ .blocked ∨ phase = .entering := by
  obtain ⟨old, hold, heq⟩ := List.mem_map.mp hmem
  split_ifs at heq with hblocked
  · exact .inr heq.symm
  · subst heq
    exact .inl ⟨hold, hblocked⟩

theorem awaited_stepWorker (h : p.Awaited) {w : ℕ}
    (hwakes : p.losesWakeup (.worker w) = false) : (p.stepWorker w).Awaited := by
  rcases stepWorker_cases p w with ⟨hdrains, hidle, hnotifies⟩ | hbusy | hnotifies | ⟨hw, heq⟩
  · unfold Awaited
    rw [hdrains, hidle, hnotifies]
    exact h
  · exact fun _ => .inl hbusy
  · exact fun _ => .inr hnotifies
  · -- nobody is blocked any more, and one that is about to block finds another worker
    intro hwaits
    rw [heq] at hwaits ⊢
    have hblocking : .blocking ∈ p.drains := by
      rcases hwaits with hmem | hmem
      · rcases mem_drains_notifyIdle hmem with ⟨hold, -⟩ | heq
        · exact hold
        · cases heq
      · rcases mem_drains_notifyIdle hmem with ⟨-, hne⟩ | heq
        · exact absurd rfl hne
        · cases heq
    cases hidle : p.isIdle with
    | false => exact .inl hidle
    | true =>
      cases hlast : (p.workers.set w .waiting).any WorkerPhase.notifies with
      | true => exact .inr hlast
      | false =>
        have hthis : (p.workers[w]?).any WorkerPhase.notifies = true := by
          rw [hw]
          rfl
        have hloses : p.losesWakeup (.worker w) = true := by
          simp only [losesWakeup, hthis, hidle, hblocking, hlast, decide_true]
          rfl
        rw [hloses] at hwakes
        cases hwakes

theorem mem_drains_setDrain {d : ℕ} {new phase : DrainPhase}
    (hmem : phase ∈ (p.setDrain d new).drains) : phase ∈ p.drains ∨ phase = new :=
  List.mem_or_eq_of_mem_set hmem

theorem awaited_setDrain (h : p.Awaited) {d : ℕ} {new : DrainPhase}
    (hnew : new = .blocking ∨ new = .blocked → p.isIdle = false ∨ p.notifies = true) :
    (p.setDrain d new).Awaited := by
  rintro (hmem | hmem)
  · rcases mem_drains_setDrain hmem with hold | heq
    · exact h (.inl hold)
    · exact hnew (.inl heq.symm)
  · rcases mem_drains_setDrain hmem with hold | heq
    · exact h (.inr hold)
    · exact hnew (.inr heq.symm)

theorem awaited_stepDrain (h : p.Awaited) (d : ℕ) : (p.stepDrain d).Awaited := by
  unfold stepDrain
  cases hd : p.drains[d]? with
  | none => exact h
  | some phase =>
    cases phase with
    | entering =>
      dsimp only
      split_ifs
      · exact h
      · exact @awaited_setDrain _ p h d .checking (by simp)
    | checking =>
      dsimp only
      split_ifs with hidle
      · exact @awaited_setDrain _ p h d .returned (by simp)
      · exact awaited_setDrain h (fun _ => .inl (by simpa using hidle))
    | blocking =>
      have hmem : .blocking ∈ p.drains := List.mem_of_getElem? hd
      exact @awaited_setDrain _ p h d .blocked (fun _ => h (.inl hmem))
    | blocked => exact h
    | returned => exact h

theorem awaited_step (h : p.Awaited) {event : Event α} (hwakes : p.losesWakeup event = false) :
    (p.step event).Awaited := by
  cases event with
  | worker w => exact awaited_stepWorker h hwakes
  | callDrain =>
    intro hwaits
    exact h (by simpa [step] using hwaits)
  | drain d => exact awaited_stepDrain h d
  | post task =>
    unfold step post
    split_ifs
    · exact h
    · exact fun _ => .inl (by simp [isIdle])
  | stop =>
    unfold step stop
    split_ifs <;> exact h

theorem awaited_create (nThreads : ℕ) : (create α nThreads).Awaited := by
  rintro (hmem | hmem)
  · cases hmem
  · cases hmem

/-- A call that misses the last notification hangs once it blocks. -/
theorem hangs_of_losesWakeup {event : Event α} (hloses : p.losesWakeup event = true) :
    ∃ d, ((p.step event).step (.drain d)).hangs = true := by
  cases event with
  | worker w =>
    unfold losesWakeup at hloses
    simp only [Bool.and_eq_true, decide_eq_true_eq] at hloses
    obtain ⟨⟨⟨hthis, hidle⟩, hblocking⟩, hlast⟩ := hloses
    have hw : p.workers[w]? = some .notifying := by
      cases hphase : p.workers[w]? with
      | none =>
        rw [hphase] at hthis
        cases hthis
      | some phase =>
        rw [hphase] at hthis
        cases phase with
        | notifying => rfl
        | _ => cases hthis
    obtain ⟨d, hd⟩ := List.getElem?_of_mem hblocking
    have hstep : p.step (.worker w) = (p.setWorker w .waiting).notifyIdle := by
      simp [step, stepWorker, hw]
    have hafter : (p.setWorker w .waiting).notifyIdle.drains[d]? = some .blocking := by
      simp [notifyIdle, setWorker, hd]
    have hlt := (List.getElem?_eq_some_iff.mp hafter).1
    have hdrain : (p.setWorker w .waiting).notifyIdle.stepDrain d =
        { (p.setWorker w .waiting).notifyIdle.setDrain d .blocked with mx := false } := by
      simp [stepDrain, hafter]
    refine ⟨d, ?_⟩
    rw [hstep, step, hdrain]
    unfold hangs
    simp only [Bool.and_eq_true, decide_eq_true_eq]
    exact ⟨⟨List.mem_set hlt _, hidle⟩, hlast⟩
  | _ => cases hloses

/-- No call of `drain` hangs at any point of a run, nor when it blocks there, if and only if no
step of the run loses a wakeup. -/
theorem drain_never_hangs_iff (nThreads : ℕ) (events : List (Event α)) :
    (∀ before after, events = before ++ after → (run nThreads before).hangs = false ∧
      ∀ d, ((run nThreads before).step (.drain d)).hangs = false) ↔
      wakesAll nThreads events = true := by
  constructor
  · intro hnever
    refine GuardedRuns.along_iff.mpr ?_
    intro before event after heq
    cases hloses : (run nThreads before).losesWakeup event with
    | false =>
      unfold run at hloses
      rw [hloses]
      rfl
    | true =>
      obtain ⟨d, hd⟩ := hangs_of_losesWakeup hloses
      have hrun : run nThreads (before ++ [event]) = (run nThreads before).step event := by
        simp [run, List.foldl_append]
      have hsplit : events = (before ++ [event]) ++ after := by
        rw [heq, List.append_assoc]
        rfl
      have hsafe := (hnever _ after hsplit).2 d
      rw [hrun, hd] at hsafe
      cases hsafe
  · intro hwakes before after heq
    subst heq
    have hawaited : (run nThreads before).Awaited :=
      GuardedRuns.invariant_foldl (P := Awaited)
        (fun p event h hallowed => awaited_step h (by simpa using hallowed))
        (awaited_create nThreads) (GuardedRuns.along_of_append hwakes)
    refine ⟨hangs_eq_false_of_awaited hawaited, ?_⟩
    intro d
    exact hangs_eq_false_of_awaited (awaited_stepDrain hawaited d)

/-- One worker counts its task down and notifies between the check and the blocking of a call. -/
def lostWakeup : List (Event Unit) :=
  [.post (), .worker 0, .worker 0, .worker 0, .callDrain, .drain 0, .drain 0,
    .worker 0, .worker 0, .worker 0, .drain 0]

theorem drain_hangs_on_idle_pool :
    ¬ ∀ (nThreads : ℕ) (events : List (Event Unit)), (run nThreads events).hangs = false := by
  intro hnever
  have hhangs : (run 1 lostWakeup).hangs = true := by decide
  rw [hnever] at hhangs
  cases hhangs

end ThreadPool

/-- The task that a worker has taken and not run to its end. -/
def WorkerPhase.task? {α : Type} : WorkerPhase α → Option α
  | .popped task => some task
  | .running task => some task
  | _ => none

namespace ThreadPool
variable {α : Type}

/-- The pool without its mutex and its calls of `drain`. -/
def toWorkerPool (p : ThreadPool α) : WorkerPool α where
  workers := p.workers.map WorkerPhase.task?
  queue := p.q
  stopping := p.stopping

theorem toWorkerPool_setWorker {p : ThreadPool α} {w : ℕ} {old new : WorkerPhase α}
    (hold : p.workers[w]? = some old) (htask : old.task? = new.task?) :
    (p.setWorker w new).toWorkerPool = p.toWorkerPool := by
  unfold toWorkerPool
  rw [map_setWorker hold htask]
  rfl

theorem toWorkerPool_stepWorker (p : ThreadPool α) (w : ℕ) :
    (p.stepWorker w).toWorkerPool = p.toWorkerPool ∨
      (p.stepWorker w).toWorkerPool = p.toWorkerPool.take w ∨
      (p.stepWorker w).toWorkerPool = p.toWorkerPool.finish w := by
  unfold stepWorker
  cases hw : p.workers[w]? with
  | none => exact .inl rfl
  | some phase =>
    cases phase with
    | waiting =>
      dsimp only
      split_ifs
      · exact .inl rfl
      · exact .inl (toWorkerPool_setWorker hw rfl)
    | locked =>
      cases hq : p.q with
      | nil =>
        refine .inl (toWorkerPool_setWorker hw ?_)
        split_ifs <;> rfl
      | cons task rest =>
        right; left
        simp [toWorkerPool, WorkerPool.take, setWorker, hw, hq, WorkerPhase.task?, List.map_set]
    | popped task => exact .inl (toWorkerPool_setWorker hw rfl)
    | running task =>
      right; right
      simp [toWorkerPool, WorkerPool.finish, setWorker, WorkerPhase.task?, List.map_set]
    | finished => exact .inl (toWorkerPool_setWorker hw rfl)
    | notifying => exact .inl (toWorkerPool_setWorker hw rfl)
    | exited => exact .inl rfl

theorem toWorkerPool_stepDrain (p : ThreadPool α) (d : ℕ) :
    (p.stepDrain d).toWorkerPool = p.toWorkerPool := by
  unfold stepDrain
  cases p.drains[d]? with
  | none => rfl
  | some phase =>
    cases phase with
    | entering =>
      dsimp only
      split_ifs <;> rfl
    | checking =>
      dsimp only
      split_ifs <;> rfl
    | blocking => rfl
    | blocked => rfl
    | returned => rfl

theorem toWorkerPool_post (p : ThreadPool α) (task : α) :
    (p.post task).toWorkerPool = p.toWorkerPool ∨
      (p.post task).toWorkerPool = p.toWorkerPool.post [task] := by
  unfold post
  cases hmx : p.mx with
  | true => exact .inl rfl
  | false =>
    right
    cases hstopping : p.stopping with
    | true => simp [WorkerPool.post, toWorkerPool, hstopping]
    | false => simp [WorkerPool.post, toWorkerPool, hstopping]

/-- With the mutex the pool takes, runs and queues its tasks as the pool without it. -/
theorem toWorkerPool_step (p : ThreadPool α) (event : Event α) :
    (p.step event).toWorkerPool = p.toWorkerPool ∨
      (∃ w, (p.step event).toWorkerPool = p.toWorkerPool.take w) ∨
      (∃ w, (p.step event).toWorkerPool = p.toWorkerPool.finish w) ∨
      (∃ task, (p.step event).toWorkerPool = p.toWorkerPool.post [task]) ∨
      (p.step event).toWorkerPool = p.toWorkerPool.stop := by
  cases event with
  | worker w =>
    rcases toWorkerPool_stepWorker p w with hsame | htake | hfinish
    · exact .inl hsame
    · exact .inr (.inl ⟨w, htake⟩)
    · exact .inr (.inr (.inl ⟨w, hfinish⟩))
  | callDrain => exact .inl rfl
  | drain d => exact .inl (toWorkerPool_stepDrain p d)
  | post task =>
    rcases toWorkerPool_post p task with hsame | hpost
    · exact .inl hsame
    · exact .inr (.inr (.inr (.inl ⟨task, hpost⟩)))
  | stop =>
    by_cases hmx : p.mx = true
    · exact .inl (by simp [step, stop, hmx])
    · exact .inr (.inr (.inr (.inr (by simp [step, stop, hmx, toWorkerPool, WorkerPool.stop]))))

end ThreadPool
end GmaEngine
