import Mathlib.Data.Int.Notation
import Mathlib.Data.List.Induction
import Mathlib.Data.List.Perm.Basic

/-!
# The shutdown coordinator

Steps are registered with an order while the process boots, and `stop`, which the signal handler
and `main` may call at any time, runs them. The atomic sections of the calls interleave: the check
of `stopping_` and the push of a registration, the exchange, the copy and the steps of a stop.
-/

namespace GmaEngine

/-- What a step throws. -/
inductive Thrown where
  | exception (what : String)
  | unknown

/-- A step changes the process, whose state is of type `σ`, and may throw. -/
structure ShutdownStep (σ : Type) where
  name : String
  order : ℤ
  fn : σ → σ × Option Thrown

inductive ShutdownLog where
  | ignored (step : String)
  | failed (step error : String)
  | failedUnknown (step : String)

/-- Where the call of `stop` stands that has won the exchange. -/
inductive StopPhase (σ : Type) where
  | idle
  | copying
  | running (rest : List (ShutdownStep σ))

structure ShutdownCoordinator (σ : Type) where
  process : σ
  steps : List (ShutdownStep σ) := []
  stopping : Bool := false
  sorted : Bool := false
  /-- The calls of `registerStep` that have passed the check and wait for the mutex. -/
  registering : List (ShutdownStep σ) := []
  phase : StopPhase σ := .idle
  log : List ShutdownLog := []
  executed : List (ShutdownStep σ) := []
  /-- All steps in the order in which they were pushed. -/
  pushed : List (ShutdownStep σ) := []

inductive ShutdownAction (σ : Type) where
  /-- `registerStep` up to its check. -/
  | registerStep (step : ShutdownStep σ)
  /-- A waiting registration takes the mutex. -/
  | push (i : ℕ)
  /-- `stop` up to its exchange. -/
  | stop
  | copy
  | runStep
  /-- Anything else that the process does. -/
  | other (f : σ → σ)

namespace ShutdownCoordinator
variable {σ : Type}

def runsBefore (a b : ShutdownStep σ) : Bool := decide (a.order ≤ b.order)

/-- `stable_sort` by the order of the steps. -/
def stableSort (steps : List (ShutdownStep σ)) : List (ShutdownStep σ) :=
  steps.mergeSort runsBefore

def logOf (step : ShutdownStep σ) : Option Thrown → List ShutdownLog
  | none => []
  | some (.exception what) => [.failed step.name what]
  | some .unknown => [.failedUnknown step.name]

def registerStep (c : ShutdownCoordinator σ) (s : ShutdownStep σ) : ShutdownCoordinator σ :=
  if c.stopping then { c with log := c.log ++ [.ignored s.name] }
  else { c with registering := c.registering ++ [s] }

def push (c : ShutdownCoordinator σ) (i : ℕ) : ShutdownCoordinator σ :=
  match c.registering[i]? with
  | none => c
  | some s =>
    { c with
      steps := c.steps ++ [s]
      sorted := false
      registering := c.registering.eraseIdx i
      pushed := c.pushed ++ [s] }

def stop (c : ShutdownCoordinator σ) : ShutdownCoordinator σ :=
  if c.stopping then c
  else { c with stopping := true, phase := .copying }

def copy (c : ShutdownCoordinator σ) : ShutdownCoordinator σ :=
  match c.phase with
  | .copying =>
    let steps := if c.sorted then c.steps else stableSort c.steps
    { c with steps := steps, sorted := true, phase := .running steps }
  | _ => c

def runStep (c : ShutdownCoordinator σ) : ShutdownCoordinator σ :=
  match c.phase with
  | .running (s :: rest) =>
    { c with
      process := (s.fn c.process).1
      log := c.log ++ logOf s (s.fn c.process).2
      phase := .running rest
      executed := c.executed ++ [s] }
  | _ => c

def step (c : ShutdownCoordinator σ) : ShutdownAction σ → ShutdownCoordinator σ
  | .registerStep s => c.registerStep s
  | .push i => c.push i
  | .stop => c.stop
  | .copy => c.copy
  | .runStep => c.runStep
  | .other f => { c with process := f c.process }

def run (c : ShutdownCoordinator σ) (actions : List (ShutdownAction σ)) : ShutdownCoordinator σ :=
  actions.foldl step c

theorem run_concat (c : ShutdownCoordinator σ) (actions : List (ShutdownAction σ))
    (action : ShutdownAction σ) : c.run (actions ++ [action]) = (c.run actions).step action :=
  List.foldl_append

/-- Until the copy no step is executed, and the list is as it was pushed. -/
def PhaseHolds (c : ShutdownCoordinator σ) : StopPhase σ → Prop
  | .idle => c.stopping = false ∧ c.sorted = false ∧ c.executed = [] ∧ c.steps = c.pushed
  | .copying => c.stopping = true ∧ c.sorted = false ∧ c.executed = [] ∧ c.steps = c.pushed
  | .running _ => c.stopping = true

variable {c : ShutdownCoordinator σ}

theorem phaseHolds_push (h : c.PhaseHolds c.phase) (i : ℕ) :
    (c.push i).PhaseHolds (c.push i).phase := by
  unfold ShutdownCoordinator.push
  split
  · exact h
  · next s hi =>
    change PhaseHolds _ c.phase
    cases hp : c.phase with
    | idle =>
      rw [hp] at h
      obtain ⟨hstop, -, hexecuted, hsteps⟩ := h
      exact ⟨hstop, rfl, hexecuted, congrArg (· ++ [s]) hsteps⟩
    | copying =>
      rw [hp] at h
      obtain ⟨hstop, -, hexecuted, hsteps⟩ := h
      exact ⟨hstop, rfl, hexecuted, congrArg (· ++ [s]) hsteps⟩
    | running rest =>
      rw [hp] at h
      exact h

theorem phaseHolds_stop (h : c.PhaseHolds c.phase) : c.stop.PhaseHolds c.stop.phase := by
  unfold ShutdownCoordinator.stop
  split_ifs with hstop
  · exact h
  · cases hp : c.phase with
    | idle =>
      rw [hp] at h
      exact ⟨rfl, h.2⟩
    | copying =>
      rw [hp] at h
      exact absurd h.1 hstop
    | running rest =>
      rw [hp] at h
      exact absurd h hstop

theorem phaseHolds_step (h : c.PhaseHolds c.phase) (action : ShutdownAction σ) :
    (c.step action).PhaseHolds (c.step action).phase := by
  cases action with
  | registerStep s =>
    rw [step, registerStep]
    split_ifs
    · cases hp : c.phase <;> rw [hp] at h <;> exact h
    · cases hp : c.phase <;> rw [hp] at h <;> exact h
  | push i => exact phaseHolds_push h i
  | stop => exact phaseHolds_stop h
  | copy =>
    rw [step, copy]
    split
    · next hp =>
      rw [hp] at h
      exact h.1
    · exact h
  | runStep =>
    rw [step, runStep]
    split
    · next hp =>
      rw [hp] at h
      exact h
    · exact h
  | other f =>
    change PhaseHolds _ c.phase
    cases hp : c.phase <;> rw [hp] at h <;> exact h

/-- A coordinator as `main` makes it. -/
def create (process : σ) : ShutdownCoordinator σ := { process := process }

theorem phaseHolds_run (process : σ) (actions : List (ShutdownAction σ)) :
    ((create process).run actions).PhaseHolds ((create process).run actions).phase := by
  induction actions using List.reverseRecOn with
  | nil => exact ⟨rfl, rfl, rfl, rfl⟩
  | append_singleton actions action ih =>
    rw [run_concat]
    exact phaseHolds_step ih action

/-- A coordinator that runs its steps has made the copy. -/
theorem copied_of_running (process : σ) {actions : List (ShutdownAction σ)}
    {rest : List (ShutdownStep σ)} (h : ((create process).run actions).phase = .running rest) :
    ∃ before after, actions = before ++ .copy :: after ∧
      ((create process).run before).phase = .copying := by
  induction actions using List.reverseRecOn generalizing rest with
  | nil => cases h
  | append_singleton actions action ih =>
    by_cases hearlier : ∃ rest', ((create process).run actions).phase = .running rest'
    · obtain ⟨rest', hrest'⟩ := hearlier
      obtain ⟨before, after, rfl, hcopying⟩ := ih hrest'
      exact ⟨before, after ++ [action], by simp, hcopying⟩
    · rw [run_concat] at h
      generalize hc : (create process).run actions = c at h hearlier
      -- of the actions only the copy brings a coordinator here
      have hcopy : action = .copy ∧ c.phase = .copying := by
        cases action with
        | registerStep s =>
          rw [step, registerStep] at h
          split_ifs at h <;> exact absurd ⟨rest, h⟩ hearlier
        | push i =>
          rw [step, push] at h
          split at h <;> exact absurd ⟨rest, h⟩ hearlier
        | stop =>
          rw [step, stop] at h
          split_ifs at h
          exact absurd ⟨rest, h⟩ hearlier
        | copy =>
          rw [step, copy] at h
          split at h
          · next hcopying => exact ⟨rfl, hcopying⟩
          · exact absurd ⟨rest, h⟩ hearlier
        | runStep =>
          rw [step, runStep] at h
          split at h
          · next hrunning => exact absurd ⟨_, hrunning⟩ hearlier
          · exact absurd ⟨rest, h⟩ hearlier
        | other f => exact absurd ⟨rest, h⟩ hearlier
      obtain ⟨rfl, hcopying⟩ := hcopy
      exact ⟨actions, [], rfl, hc ▸ hcopying⟩

/-- Once the exchange is won, only registrations that wait for the mutex are still pushed. -/
structure OnlyWaiting (c c' : ShutdownCoordinator σ) : Prop where
  stopping : c'.stopping = true
  pushed : c.pushed <+: c'.pushed
  waiting : (c'.pushed ++ c'.registering).Perm (c.pushed ++ c.registering)

theorem onlyWaiting_step (hstop : c.stopping = true) (action : ShutdownAction σ) :
    OnlyWaiting c (c.step action) := by
  cases action with
  | registerStep s =>
    rw [step, registerStep, if_pos hstop]
    exact ⟨hstop, List.prefix_rfl, .refl _⟩
  | push i =>
    rw [step, push]
    split
    · exact ⟨hstop, List.prefix_rfl, .refl _⟩
    · next s hi =>
      obtain ⟨hlt, rfl⟩ := List.getElem?_eq_some_iff.mp hi
      refine ⟨hstop, List.prefix_append _ _, ?_⟩
      rw [List.append_assoc]
      exact (List.getElem_cons_eraseIdx_perm hlt).append_left c.pushed
  | stop =>
    rw [step, stop, if_pos hstop]
    exact ⟨hstop, List.prefix_rfl, .refl _⟩
  | copy =>
    rw [step, copy]
    split <;> exact ⟨hstop, List.prefix_rfl, .refl _⟩
  | runStep =>
    rw [step, runStep]
    split <;> exact ⟨hstop, List.prefix_rfl, .refl _⟩
  | other f => exact ⟨hstop, List.prefix_rfl, .refl _⟩

theorem onlyWaiting_run (hstop : c.stopping = true) (after : List (ShutdownAction σ)) :
    OnlyWaiting c (c.run after) := by
  induction after generalizing c with
  | nil => exact ⟨hstop, List.prefix_rfl, .refl _⟩
  | cons action after ih =>
    have hfirst := onlyWaiting_step hstop action
    have hrest := ih hfirst.stopping
    exact ⟨hrest.stopping, hfirst.pushed.trans hrest.pushed, hrest.waiting.trans hfirst.waiting⟩

def isRunStep : ShutdownAction σ → Bool
  | .runStep => true
  | _ => false

/-- What becomes of the process and of the log when the shutdown runs its steps, one at each of its
own actions, and the rest of the process goes on. -/
def replay : List (ShutdownStep σ) → List (ShutdownAction σ) → σ × List ShutdownLog →
    σ × List ShutdownLog
  | _, [], p => p
  | s :: steps, .runStep :: actions, p =>
    replay steps actions ((s.fn p.1).1, p.2 ++ logOf s (s.fn p.1).2)
  | steps, .other f :: actions, p => replay steps actions (f p.1, p.2)
  | steps, .registerStep s :: actions, p =>
    replay steps actions (p.1, p.2 ++ [.ignored s.name])
  | steps, _ :: actions, p => replay steps actions p

/-- From the copy on, each action of the shutdown runs the next step. -/
theorem run_running {steps : List (ShutdownStep σ)} (hphase : c.phase = .running steps)
    (hstop : c.stopping = true) (after : List (ShutdownAction σ)) :
    (c.run after).executed = c.executed ++ steps.take (after.countP isRunStep) ∧
      ((c.run after).process, (c.run after).log) = replay steps after (c.process, c.log) := by
  induction after generalizing c steps with
  | nil => exact ⟨by simp [run], rfl⟩
  | cons action after ih =>
    change ((c.step action).run after).executed = _ ∧
      (((c.step action).run after).process, ((c.step action).run after).log) = _
    have hnext := (onlyWaiting_step hstop action).stopping
    cases action with
    | registerStep s =>
      have hstep : c.step (.registerStep s) = { c with log := c.log ++ [.ignored s.name] } := by
        rw [step, registerStep, if_pos hstop]
      rw [hstep] at hnext ⊢
      exact ih hphase hnext
    | push i =>
      have hstep : (c.step (.push i)).phase = .running steps ∧
          (c.step (.push i)).executed = c.executed ∧
          (c.step (.push i)).process = c.process ∧ (c.step (.push i)).log = c.log := by
        rw [step, push]
        split <;> exact ⟨hphase, rfl, rfl, rfl⟩
      obtain ⟨hsame, hexecuted, hprocess, hlog⟩ := hstep
      have hrest := ih hsame hnext
      rw [hexecuted, hprocess, hlog] at hrest
      exact hrest
    | stop =>
      have hstep : c.step .stop = c := by rw [step, stop, if_pos hstop]
      rw [hstep]
      exact ih hphase hstop
    | copy =>
      have hstep : c.step .copy = c := by rw [step, copy, hphase]
      rw [hstep]
      exact ih hphase hstop
    | runStep =>
      cases steps with
      | nil =>
        have hstep : c.step .runStep = c := by rw [step, runStep, hphase]
        rw [hstep]
        simpa [replay] using ih hphase hstop
      | cons s steps =>
        have hstep : c.step .runStep = { c with
            process := (s.fn c.process).1
            log := c.log ++ logOf s (s.fn c.process).2
            phase := .running steps
            executed := c.executed ++ [s] } := by rw [step, runStep, hphase]
        rw [hstep] at hnext ⊢
        have hrest := ih rfl hnext
        refine ⟨?_, hrest.2⟩
        rw [hrest.1, List.countP_cons_of_pos rfl, List.take_succ_cons, List.append_assoc,
          List.singleton_append]
    | other f => exact ih hphase hnext

theorem runsBefore_trans (a b d : ShutdownStep σ) (hab : runsBefore a b = true)
    (hbd : runsBefore b d = true) : runsBefore a d = true := by
  rw [runsBefore, decide_eq_true_eq] at *
  omega

theorem runsBefore_total (a b : ShutdownStep σ) :
    (runsBefore a b || runsBefore b a) = true := by
  simp only [runsBefore, Bool.or_eq_true, decide_eq_true_eq]
  omega

/-- Sorting keeps the order of registration among steps of one order. -/
theorem filter_stableSort (steps : List (ShutdownStep σ)) (n : ℤ) :
    (stableSort steps).filter (·.order = n) = steps.filter (·.order = n) := by
  have hequal : (steps.filter (·.order = n)).Pairwise (fun a b => runsBefore a b = true) := by
    refine List.Pairwise.imp_of_mem ?_ (List.pairwise_of_forall (R := fun _ _ => True) ?_)
    · intro a b ha hb _
      have ha' := of_decide_eq_true (List.mem_filter.mp ha).2
      have hb' := of_decide_eq_true (List.mem_filter.mp hb).2
      exact decide_eq_true (by omega)
    · intro _ _
      trivial
  have hsublist : (steps.filter (·.order = n)).Sublist (stableSort steps) :=
    List.sublist_mergeSort runsBefore_trans runsBefore_total hequal List.filter_sublist
  have hfilter := hsublist.filter (·.order = n)
  rw [List.filter_filter] at hfilter
  simp only [Bool.and_self] at hfilter
  have hlength : ((stableSort steps).filter (·.order = n)).length
      = (steps.filter (·.order = n)).length :=
    ((List.mergeSort_perm steps runsBefore).filter _).length_eq
  exact (hfilter.eq_of_length hlength.symm).symm

theorem pairwise_stableSort (steps : List (ShutdownStep σ)) :
    (stableSort steps).Pairwise (fun a b => a.order ≤ b.order) :=
  (List.pairwise_mergeSort runsBefore_trans runsBefore_total steps).imp
    (fun h => of_decide_eq_true h)

theorem copy_of_copying (hphase : c.phase = .copying) (hsorted : c.sorted = false) :
    c.copy = { c with
      steps := stableSort c.steps
      sorted := true
      phase := .running (stableSort c.steps) } := by
  rw [copy, hphase]
  simp [hsorted]

/-- In every interleaving, no step is executed before the copy. From the copy on, the steps pushed
before it are executed, each once, by ascending order and in the order of their registration among
equals: one at each action of the shutdown, with its effect on the process and its line in the log.
The first `stop` leads to the copy, and what is pushed after it had passed the check before. -/
theorem stop_runs_in_order (process : σ) (before : List (ShutdownAction σ)) :
    let c := (create process).run before
    ((∀ rest, c.phase ≠ .running rest) → c.executed = []) ∧
    (∀ rest, c.phase = .running rest → ∃ earlier later, before = earlier ++ .copy :: later ∧
      ((create process).run earlier).phase = .copying) ∧
    (c.phase = .copying → ∃ order : List (ShutdownStep σ), order.Perm c.pushed ∧
      order.Pairwise (fun a b => a.order ≤ b.order) ∧
      (∀ n, order.filter (·.order = n) = c.pushed.filter (·.order = n)) ∧
      ∀ after, (c.run (.copy :: after)).executed = order.take (after.countP isRunStep) ∧
        ((c.run (.copy :: after)).process, (c.run (.copy :: after)).log) =
          replay order after (c.process, c.log)) ∧
    (c.stopping = false → (c.run [.stop]).phase = .copying ∧ ∀ after,
      c.pushed <+: (c.run (.stop :: after)).pushed ∧
      ((c.run (.stop :: after)).pushed ++ (c.run (.stop :: after)).registering).Perm
        (c.pushed ++ c.registering)) := by
  intro c
  have hphase : c.PhaseHolds c.phase := phaseHolds_run process before
  refine ⟨?_, fun rest hrunning => copied_of_running process hrunning, ?_, ?_⟩
  · intro hnot
    cases hp : c.phase with
    | idle =>
      rw [hp] at hphase
      exact hphase.2.2.1
    | copying =>
      rw [hp] at hphase
      exact hphase.2.2.1
    | running rest => exact absurd hp (hnot rest)
  · intro hcopying
    rw [hcopying] at hphase
    obtain ⟨hstop, hsorted, hexecuted, hsteps⟩ := hphase
    refine ⟨stableSort c.pushed, List.mergeSort_perm _ _, pairwise_stableSort _,
      filter_stableSort _, ?_⟩
    intro after
    have hcopy := copy_of_copying hcopying hsorted
    have hphase' : c.copy.phase = .running (stableSort c.pushed) := by rw [hcopy, hsteps]
    have hstop' : c.copy.stopping = true := by rw [hcopy, hstop]
    have hexecuted' : c.copy.executed = [] := by rw [hcopy, hexecuted]
    have hprocess : c.copy.process = c.process := by rw [hcopy]
    have hlog : c.copy.log = c.log := by rw [hcopy]
    have hruns := run_running hphase' hstop' after
    rw [hexecuted', hprocess, hlog, List.nil_append] at hruns
    exact hruns
  · intro hgoing
    have hstop : c.stop = { c with stopping := true, phase := .copying } := by
      rw [stop, hgoing, if_neg Bool.false_ne_true]
    refine ⟨?_, fun after => ?_⟩
    · change c.stop.phase = .copying
      rw [hstop]
    · have hwaiting := onlyWaiting_run (c := c.stop) (by rw [hstop]) after
      change c.pushed <+: (c.stop.run after).pushed ∧
        ((c.stop.run after).pushed ++ (c.stop.run after).registering).Perm _
      rw [hstop] at hwaiting ⊢
      exact ⟨hwaiting.pushed, hwaiting.waiting⟩

/-- The step of the server throws. The feed has passed the check when the shutdown begins, and is
pushed before the copy. -/
def bootSteps : List (ShutdownAction (List String)) :=
  [.registerStep ⟨"pool", 2, fun p => (p ++ ["pool"], none)⟩, .push 0,
    .registerStep ⟨"server", 1, fun p => (p ++ ["server"], some .unknown)⟩, .push 0,
    .registerStep ⟨"feed", 1, fun p => (p ++ ["feed"], none)⟩, .stop, .push 0]

/-- A registration comes too late, and the process goes on until the first step. -/
def shutdownActions : List (ShutdownAction (List String)) :=
  [.registerStep ⟨"late", 0, fun p => (p, none)⟩, .other (· ++ ["tick"]), .runStep, .runStep,
    .runStep]

theorem stop_runs_bootSteps : ∃ order : List (ShutdownStep (List String)),
    order.Pairwise (fun a b => a.order ≤ b.order) ∧
    (order.filter (·.order = 1)).map ShutdownStep.name = ["server", "feed"] ∧
    (order.filter (·.order = 2)).map ShutdownStep.name = ["pool"] ∧
    (((create []).run bootSteps).run (.copy :: shutdownActions)).executed = order := by
  obtain ⟨-, -, hcopied, -⟩ := stop_runs_in_order [] bootSteps
  obtain ⟨order, hperm, hsorted, hfilter, hruns⟩ := hcopied rfl
  refine ⟨order, hsorted, ?_, ?_, ?_⟩
  · rw [hfilter]
    rfl
  · rw [hfilter]
    rfl
  · have hlength : order.length = 3 := hperm.length_eq
    exact (hruns shutdownActions).1.trans (List.take_of_length_le (Nat.le_of_eq hlength))

end ShutdownCoordinator
end GmaEngine
