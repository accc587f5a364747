import Mathlib.Data.List.Basic

/-!
# Worker pools

Tasks wait in one queue. An idle worker takes the front task and runs it at some later point;
what a task does is up to the program. With a single worker the tasks that have not run yet
keep the order in which they were posted.
-/

namespace GmaEngine

structure WorkerPool (α : Type*) where
  workers : List (Option α)
  queue : List α := []
  stopping : Bool := false

namespace WorkerPool
variable {α : Type*}

/-- The task that a worker has taken. -/
def current (pool : WorkerPool α) (w : ℕ) : Option α := pool.workers[w]?.join

/-- Nothing is queued once the pool stops. -/
def post (pool : WorkerPool α) (tasks : List α) : WorkerPool α :=
  if pool.stopping then pool else { pool with queue := pool.queue ++ tasks }

def take (pool : WorkerPool α) (w : ℕ) : WorkerPool α :=
  match pool.workers[w]?, pool.queue with
  | some none, task :: rest => { pool with workers := pool.workers.set w (some task), queue := rest }
  | _, _ => pool

def finish (pool : WorkerPool α) (w : ℕ) : WorkerPool α :=
  { pool with workers := pool.workers.set w none }

def stop (pool : WorkerPool α) : WorkerPool α := { pool with stopping := true }

def idle (α : Type*) (n : ℕ) : WorkerPool α where
  workers := List.replicate n none

/-- The tasks that have not run. -/
def pending (pool : WorkerPool α) : List α := pool.workers.flatMap Option.toList ++ pool.queue

/-- A pool of one worker. -/
def Single (pool : WorkerPool α) : Prop := ∃ task, pool.workers = [task]

theorem pending_idle (n : ℕ) : (idle α n).pending = [] := by
  simp [pending, idle]

theorem single_idle : (idle α 1).Single := ⟨none, rfl⟩

theorem pending_post (pool : WorkerPool α) (tasks : List α) :
    (pool.post tasks).pending = pool.pending ++ if pool.stopping then [] else tasks := by
  unfold post
  split_ifs
  · simp
  · simp [pending]

theorem single_post {pool : WorkerPool α} (h : pool.Single) (tasks : List α) :
    (pool.post tasks).Single := by
  unfold post
  split_ifs
  · exact h
  · exact h

theorem take_of_single {pool : WorkerPool α} (h : pool.Single) (w : ℕ) :
    (pool.take w).Single ∧ (pool.take w).pending = pool.pending := by
  obtain ⟨task, hworkers⟩ := h
  unfold take
  split
  · next t rest hidle hqueue =>
    rw [hworkers] at hidle
    have hw : w = 0 := by
      by_contra hne
      rw [List.getElem?_eq_none (by simp; omega)] at hidle
      cases hidle
    subst hw
    obtain rfl : task = none := by simpa using hidle
    refine ⟨⟨some t, by simp [hworkers]⟩, ?_⟩
    simp [pending, hworkers, hqueue]
  · exact ⟨⟨task, hworkers⟩, rfl⟩

/-- A single worker runs the oldest task. -/
theorem pending_of_current {pool : WorkerPool α} (h : pool.Single) {w : ℕ} {task : α}
    (hcurrent : pool.current w = some task) :
    (pool.finish w).Single ∧ pool.pending = task :: (pool.finish w).pending := by
  obtain ⟨t, hworkers⟩ := h
  have hw : w = 0 := by
    by_contra hne
    rw [current, hworkers, List.getElem?_eq_none (by simp; omega)] at hcurrent
    cases hcurrent
  subst hw
  obtain rfl : t = some task := by simpa [current, hworkers] using hcurrent
  refine ⟨⟨none, by simp [finish, hworkers]⟩, ?_⟩
  simp [pending, finish, hworkers]

end WorkerPool
end GmaEngine
