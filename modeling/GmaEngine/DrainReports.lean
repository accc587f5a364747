import GmaEngine.SPSCQueue

/-!
# What a drain reports

`drain` counts its items only when it has a bound. With one it returns the number of items that it
has handed over; without one it returns zero, whatever it has taken from the queue.
-/

namespace GmaEngine

namespace Consumer
variable {T : Type} {max n : ℕ} {handed consumed : List T}

/-- How many of its five steps the consumer has made in the present round of `drain`. -/
def phase : Consumer T → ℕ
  | .loaded .. => 1
  | .found .. => 2
  | .taken .. => 3
  | .handing .. => 4
  | _ => 0

/-- The counter of a `drain` that has handed over `n` items. -/
def counter (max n : ℕ) : ℕ := if max = 0 then 0 else n

/-- The consumer is in a `drain` that has popped and handed over these items. -/
def Drains (max : ℕ) (handed consumed : List T) : Consumer T → Prop
  | .draining m cnt | .loaded (.drain m cnt) _ | .found (.drain m cnt) _
  | .taken (.drain m cnt) _ _ =>
    m = max ∧ cnt = counter max handed.length ∧ (max ≠ 0 → handed.length < max) ∧
      consumed = handed
  | .handing m cnt item =>
    m = max ∧ cnt = counter max handed.length ∧ (max ≠ 0 → handed.length < max) ∧
      consumed = handed ++ [item]
  | _ => False

theorem Drains.ne_idle {c : Consumer T} (h : c.Drains max handed consumed) : c ≠ .idle := by
  rintro rfl
  exact h

theorem phase_le (c : Consumer T) : c.phase ≤ 4 := by
  cases c <;> simp [phase]

/-- A round takes an item before its last steps, and no round starts at the bound. -/
theorem Drains.bounds {c : Consumer T} {tail held : ℕ} (h : c.Drains max handed consumed)
    (hok : c.Ok tail held) :
    (max ≠ 0 → handed.length < max) ∧
      5 * handed.length + c.phase ≤ 5 * (consumed.length + held) + 1 := by
  cases c with
  | draining m cnt =>
    obtain ⟨-, -, hbound, rfl⟩ := h
    exact ⟨hbound, by simp only [phase]; omega⟩
  | loaded caller t =>
    cases caller with
    | user => exact h.elim
    | drain m cnt =>
      obtain ⟨-, -, hbound, rfl⟩ := h
      exact ⟨hbound, by simp only [phase]; omega⟩
  | found caller t =>
    cases caller with
    | user => exact h.elim
    | drain m cnt =>
      obtain ⟨-, -, hbound, rfl⟩ := h
      have hpos : 0 < held := hok.2
      exact ⟨hbound, by simp only [phase]; omega⟩
  | taken caller t out =>
    cases caller with
    | user => exact h.elim
    | drain m cnt =>
      obtain ⟨-, -, hbound, rfl⟩ := h
      have hpos : 0 < held := hok.2
      exact ⟨hbound, by simp only [phase]; omega⟩
  | handing m cnt item =>
    obtain ⟨-, -, hbound, rfl⟩ := h
    rw [List.length_append, List.length_singleton]
    exact ⟨hbound, by simp only [phase]; omega⟩
  | _ => exact h.elim

theorem counter_zero (max : ℕ) : counter max 0 = 0 := ite_self 0

theorem counter_of_bound (h : max ≠ 0) : counter max n = n := if_neg h

end Consumer

namespace SPSCQueue
open Consumer
variable {T : Type} {q : SPSCQueue T} {moved : T → T} {max steps n : ℕ}
  {r : SPSCQueue T × List (Event T)} {a : Action T} {actions during : List (Action T)}
  {events events' : List (Event T)}

/-- The items passed to `fn`. -/
def handedOf (events : List (Event T)) : List T :=
  events.filterMap (fun
    | .handed v => some v
    | _ => none)

/-- What calls of `drain` return. -/
def returnedOf (events : List (Event T)) : List ℕ :=
  events.filterMap (fun
    | .drained cnt => some cnt
    | _ => none)

theorem handedOf_append : handedOf (events ++ events') = handedOf events ++ handedOf events' :=
  List.filterMap_append

theorem returnedOf_append :
    returnedOf (events ++ events') = returnedOf events ++ returnedOf events' :=
  List.filterMap_append

/-- One more step of a run. -/
def next (moved : T → T) (r : SPSCQueue T × List (Event T)) (a : Action T) :
    SPSCQueue T × List (Event T) :=
  ((r.1.step moved a).1, r.2 ++ (r.1.step moved a).2)

def isConsumer : Action T → Bool
  | .consumer => true
  | _ => false

def stepsOf (actions : List (Action T)) : ℕ := actions.countP isConsumer

/-- The actions before the consumer's step number `n`, counted from zero. -/
def beforeStep : ℕ → List (Action T) → List (Action T)
  | _, [] => []
  | n, a :: rest =>
    if isConsumer a then (if n = 0 then [] else a :: beforeStep (n - 1) rest)
    else a :: beforeStep n rest

theorem isConsumer_iff : isConsumer a = true ↔ a = .consumer := by
  cases a <;> simp [isConsumer]

theorem beforeStep_of_le (h : stepsOf actions ≤ n) : beforeStep n actions = actions := by
  induction actions generalizing n with
  | nil => rfl
  | cons a rest ih =>
    rw [beforeStep]
    by_cases ha : isConsumer a = true
    · rw [stepsOf, List.countP_cons_of_pos ha] at h
      have hn : n ≠ 0 := Nat.ne_zero_of_lt h
      rw [if_pos ha, if_neg hn, ih (Nat.le_sub_one_of_lt h)]
    · rw [stepsOf, List.countP_cons_of_neg ha] at h
      rw [if_neg ha, ih h]

theorem beforeStep_spec (h : n < stepsOf actions) :
    stepsOf (beforeStep n actions) = n ∧
      ∃ rest, actions = beforeStep n actions ++ .consumer :: rest := by
  induction actions generalizing n with
  | nil => exact absurd h (Nat.not_lt_zero n)
  | cons a rest ih =>
    rw [beforeStep]
    by_cases ha : isConsumer a = true
    · rw [stepsOf, List.countP_cons_of_pos ha] at h
      obtain rfl := isConsumer_iff.mp ha
      rw [if_pos ha]
      by_cases hn : n = 0
      · rw [if_pos hn]
        exact ⟨hn.symm, rest, rfl⟩
      · have hlt : n - 1 < stepsOf rest := by
          rw [stepsOf]
          omega
        obtain ⟨hsteps, tail, htail⟩ := ih hlt
        rw [if_neg hn]
        refine ⟨?_, tail, congrArg (.consumer :: ·) htail⟩
        rw [stepsOf, List.countP_cons_of_pos ha]
        rw [stepsOf] at hsteps
        omega
    · rw [stepsOf, List.countP_cons_of_neg ha] at h
      obtain ⟨hsteps, tail, htail⟩ := ih h
      rw [if_neg ha]
      refine ⟨?_, tail, congrArg (a :: ·) htail⟩
      rw [stepsOf, List.countP_cons_of_neg ha]
      exact hsteps

/-- A `drain` that has not returned: where it stands, and the steps it has made. -/
structure InDrain (max steps : ℕ) (r : SPSCQueue T × List (Event T)) : Prop where
  returned : returnedOf r.2 = []
  drains : r.1.consumer.Drains max (handedOf r.2) (consumedOf r.2)
  steps : steps = 5 * (handedOf r.2).length + r.1.consumer.phase

/-- A `drain` that has returned: at its bound, or since it has found the queue empty. -/
structure Ended (max steps : ℕ) (r : SPSCQueue T × List (Event T)) : Prop where
  returned : returnedOf r.2 = [counter max (handedOf r.2).length]
  removed : consumedOf r.2 = handedOf r.2
  stopped : max ≠ 0 ∧ (handedOf r.2).length = max ∨
    (max ≠ 0 → (handedOf r.2).length < max) ∧ r.1.contents = [] ∧
      steps = 5 * (handedOf r.2).length + 2

/-- A step that is none of the consumer's leaves it where it is. -/
theorem consumer_of_other (moved : T → T) (ha : isConsumer a = false) (hbusy : q.consumer ≠ .idle) :
    (q.step moved a).1.consumer = q.consumer ∧ returnedOf (q.step moved a).2 = [] ∧
      handedOf (q.step moved a).2 = [] ∧ consumedOf (q.step moved a).2 = [] := by
  have hstart : ∀ call, q.start call = q := by
    intro call
    unfold start
    split
    case h_1 hidle => exact absurd hidle hbusy
    case h_2 => rfl
  cases a with
  | tryPush v =>
    refine ⟨?_, rfl, rfl, rfl⟩
    change (q.tryPush v).consumer = q.consumer
    unfold tryPush
    split <;> rfl
  | producer =>
    change q.producerStep.1.consumer = q.consumer ∧ returnedOf q.producerStep.2 = [] ∧
      handedOf q.producerStep.2 = [] ∧ consumedOf q.producerStep.2 = []
    unfold producerStep
    cases q.producer with
    | loaded v h =>
      dsimp only
      split <;> exact ⟨rfl, rfl, rfl, rfl⟩
    | _ => exact ⟨rfl, rfl, rfl, rfl⟩
  | consumer => cases ha
  | _ => exact ⟨congrArg SPSCQueue.consumer (hstart _), rfl, rfl, rfl⟩

theorem InDrain.other (h : InDrain max steps r) (ha : isConsumer a = false) :
    InDrain max steps (next moved r a) := by
  obtain ⟨hconsumer, hreturned, hhanded, hconsumed⟩ :=
    consumer_of_other moved ha h.drains.ne_idle
  constructor <;> unfold next <;> dsimp only
  · rw [returnedOf_append, h.returned, hreturned]
    rfl
  · rw [handedOf_append, consumedOf_append, hhanded, hconsumed, List.append_nil, List.append_nil,
      hconsumer]
    exact h.drains
  · rw [handedOf_append, hhanded, List.append_nil, hconsumer]
    exact h.steps

/-- The next step within a round. -/
theorem InDrain.advance {q' : SPSCQueue T} (h : InDrain max steps r)
    (hdrains : q'.consumer.Drains max (handedOf r.2) (consumedOf r.2))
    (hphase : q'.consumer.phase = r.1.consumer.phase + 1) :
    InDrain max (steps + 1) (q', r.2 ++ []) := by
  rw [List.append_nil]
  refine ⟨h.returned, hdrains, ?_⟩
  rw [hphase, h.steps]
  rfl

theorem InDrain.popped {m cnt t : ℕ} {out : T} (h : InDrain max steps r)
    (hc : r.1.consumer = .taken (.drain m cnt) t out) (q' : SPSCQueue T)
    (hc' : q'.consumer = .handing m cnt out) :
    InDrain max (steps + 1) (q', r.2 ++ [.popped out]) := by
  have hdrains := h.drains
  have hsteps := h.steps
  rw [hc] at hdrains hsteps
  obtain ⟨rfl, rfl, hbound, hconsumed⟩ := hdrains
  have hhanded : handedOf (r.2 ++ [.popped out]) = handedOf r.2 := by
    rw [handedOf_append]
    exact List.append_nil _
  refine ⟨?_, ?_, ?_⟩
  · rw [returnedOf_append, h.returned]
    rfl
  · rw [hhanded, consumedOf_append, hconsumed, hc']
    exact ⟨rfl, rfl, hbound, rfl⟩
  · rw [hhanded, hsteps, hc']
    rfl

theorem InDrain.popEmpty {m cnt t : ℕ} (h : InDrain max steps r)
    (hc : r.1.consumer = .loaded (.drain m cnt) t) (hempty : r.1.contents = []) :
    Ended max (steps + 1) ({ r.1 with consumer := .idle }, r.2 ++ [.popEmpty, .drained cnt]) := by
  have hdrains := h.drains
  have hsteps := h.steps
  have hsettled : r.1.consumer.settled = true := by rw [hc]; rfl
  rw [hc] at hdrains hsteps
  obtain ⟨rfl, rfl, hbound, hconsumed⟩ := hdrains
  have hhanded : ∀ cnt, handedOf (r.2 ++ [.popEmpty, .drained cnt]) = handedOf r.2 := by
    intro cnt
    rw [handedOf_append]
    exact List.append_nil _
  refine ⟨?_, ?_, .inr ⟨?_, ?_, ?_⟩⟩
  · rw [hhanded, returnedOf_append, h.returned]
    rfl
  · rw [hhanded, consumedOf_append, hconsumed]
    exact List.append_nil _
  · rw [hhanded]
    exact hbound
  · exact (contents_of_settled hsettled rfl).trans hempty
  · rw [hhanded, hsteps]
    rfl

/-- The item is handed over, and the counter decides whether a round follows. -/
theorem InDrain.hand {m cnt : ℕ} {item : T} (h : InDrain max steps r)
    (hc : r.1.consumer = .handing m cnt item) :
    InDrain max (steps + 1) ((r.1.hand m cnt item).1, r.2 ++ (r.1.hand m cnt item).2) ∨
      Ended max (steps + 1) ((r.1.hand m cnt item).1, r.2 ++ (r.1.hand m cnt item).2) := by
  have hdrains := h.drains
  have hsteps := h.steps
  rw [hc] at hdrains hsteps
  obtain ⟨rfl, rfl, hbound, hconsumed⟩ := hdrains
  have hhanded : ∀ events : List (Event T), handedOf events = [] →
      handedOf (r.2 ++ .handed item :: events) = handedOf r.2 ++ [item] := by
    intro events hnone
    rw [handedOf_append]
    exact congrArg (fun rest => handedOf r.2 ++ item :: rest) hnone
  have hlength : (handedOf r.2 ++ [item]).length = (handedOf r.2).length + 1 :=
    List.length_append
  unfold SPSCQueue.hand
  split_ifs with hmax hcount
  · rw [counter_of_bound hmax] at hcount ⊢
    have hlt := hbound hmax
    refine .inr ⟨?_, ?_, .inl ⟨hmax, ?_⟩⟩
    · rw [hhanded _ rfl, returnedOf_append, h.returned, hlength, counter_of_bound hmax]
      rfl
    · rw [hhanded _ rfl, consumedOf_append, hconsumed]
      exact List.append_nil _
    · rw [hhanded _ rfl, hlength]
      omega
  · rw [counter_of_bound hmax] at hcount ⊢
    refine .inl ⟨?_, ?_, ?_⟩
    · rw [returnedOf_append, h.returned]
      rfl
    · rw [hhanded _ rfl, consumedOf_append, hconsumed]
      refine ⟨rfl, ?_, ?_, List.append_nil _⟩
      · rw [hlength, counter_of_bound hmax]
      · rw [hlength]
        omega
    · rw [hhanded _ rfl, hlength, hsteps]
      rfl
  · -- the counter stays at zero
    obtain rfl : m = 0 := not_not.mp hmax
    refine .inl ⟨?_, ?_, ?_⟩
    · rw [returnedOf_append, h.returned]
      rfl
    · rw [hhanded _ rfl, consumedOf_append, hconsumed]
      exact ⟨rfl, rfl, fun hne => absurd rfl hne, List.append_nil _⟩
    · rw [hhanded _ rfl, hlength, hsteps]
      rfl

/-- The consumer makes the next step of the round, begins a new round or returns. -/
theorem InDrain.consumerStep (h : InDrain max steps r) (hok : r.1.Ok) (moved : T → T) :
    InDrain max (steps + 1) (next moved r .consumer) ∨
      Ended max (steps + 1) (next moved r .consumer) := by
  have hdrains := h.drains
  have hconsumer := hok.consumer
  change InDrain max (steps + 1) ((r.1.consumerStep moved).1, r.2 ++ (r.1.consumerStep moved).2) ∨
    Ended max (steps + 1) ((r.1.consumerStep moved).1, r.2 ++ (r.1.consumerStep moved).2)
  unfold SPSCQueue.consumerStep
  cases hc : r.1.consumer with
  | draining m cnt =>
    rw [hc] at hdrains
    exact .inl (h.advance hdrains (by rw [hc]; rfl))
  | loaded caller t =>
    rw [hc] at hdrains hconsumer
    cases caller with
    | user => exact hdrains.elim
    | drain m cnt =>
      obtain rfl : t = r.1.tail := hconsumer
      dsimp only
      split_ifs with hhead
      · have hempty := contents_eq_nil_iff.mpr (hok.held_eq_zero_iff.mpr hhead)
        exact .inr (h.popEmpty hc hempty)
      · exact .inl (h.advance hdrains (by rw [hc]; rfl))
  | found caller t =>
    rw [hc] at hdrains
    cases caller with
    | user => exact hdrains.elim
    | drain m cnt => exact .inl (h.advance hdrains (by rw [hc]; rfl))
  | taken caller t out =>
    rw [hc] at hdrains
    cases caller with
    | user => exact hdrains.elim
    | drain m cnt => exact .inl (h.popped hc _ rfl)
  | handing m cnt item => exact h.hand hc
  | _ =>
    rw [hc] at hdrains
    exact hdrains.elim

/-- The first look into the queue ends the drain if there is nothing in it. -/
theorem InDrain.look_iff (h : InDrain max 1 r) (hok : r.1.Ok) :
    InDrain max 2 (next moved r .consumer) ↔ r.1.contents ≠ [] := by
  have hdrains := h.drains
  have hsteps := h.steps
  have hconsumer := hok.consumer
  change InDrain max 2 ((r.1.consumerStep moved).1, r.2 ++ (r.1.consumerStep moved).2) ↔ _
  unfold SPSCQueue.consumerStep
  cases hc : r.1.consumer with
  | loaded caller t =>
    rw [hc] at hdrains hconsumer
    cases caller with
    | user => exact hdrains.elim
    | drain m cnt =>
      obtain rfl : t = r.1.tail := hconsumer
      rw [ne_eq, contents_eq_nil_iff, hok.held_eq_zero_iff]
      dsimp only
      split_ifs with hempty
      · refine iff_of_false (fun hin => ?_) (not_not.mpr hempty)
        have hreturned := hin.returned
        rw [returnedOf_append, List.append_eq_nil_iff] at hreturned
        cases hreturned.2
      · exact iff_of_true (h.advance hdrains (by rw [hc]; rfl)) hempty
  | _ =>
    rw [hc] at hsteps
    simp only [phase] at hsteps
    omega

theorem run_next (moved : T → T) (actions : List (Action T)) (a : Action T) :
    q.run moved (actions ++ [a]) = next moved (q.run moved actions) a :=
  run_concat moved actions a

theorem returnedOf_run_append {rest : List (Action T)}
    (hopen : returnedOf (q.run moved (actions ++ rest)).2 = []) :
    returnedOf (q.run moved actions).2 = [] := by
  induction rest using List.reverseRecOn with
  | nil => rwa [List.append_nil] at hopen
  | append_singleton rest a ih =>
    rw [← List.append_assoc, run_next, next, returnedOf_append, List.append_eq_nil_iff] at hopen
    exact ih hopen.1

theorem inDrain_run (hok : q.Ok) (hidle : q.consumer = .idle)
    (hopen : returnedOf (q.run moved (.drain max :: during)).2 = []) :
    InDrain max (stepsOf during) (q.run moved (.drain max :: during)) := by
  induction during using List.reverseRecOn with
  | nil =>
    have hstart : q.run moved [.drain max] = ({ q with consumer := .draining max 0 }, []) := by
      change (q.start (.draining max 0), []) = _
      rw [start, hidle]
    rw [hstart]
    exact ⟨rfl, ⟨rfl, (counter_zero max).symm, Nat.pos_of_ne_zero, rfl⟩, rfl⟩
  | append_singleton during a ih =>
    rw [← List.cons_append] at hopen ⊢
    have hin := ih (returnedOf_run_append hopen)
    have hprefix := (hok.run moved (.drain max :: during)).2.1
    rw [run_next] at hopen ⊢
    by_cases ha : isConsumer a = true
    · obtain rfl := isConsumer_iff.mp ha
      have hsteps : stepsOf (during ++ [.consumer]) = stepsOf during + 1 := List.countP_append
      rw [hsteps]
      rcases hin.consumerStep hprefix moved with hstep | hended
      · exact hstep
      · have hreturned := hended.returned
        rw [hopen] at hreturned
        cases hreturned
    · have hsteps : stepsOf (during ++ [a]) = stepsOf during := by
        rw [stepsOf, List.countP_append, List.countP_cons_of_neg ha]
        rfl
      rw [hsteps]
      exact hin.other (Bool.not_eq_true _ ▸ ha)

/-- Every round but the last takes an item. -/
theorem InDrain.steps_lt (h : InDrain max steps r) (hok : r.1.Ok)
    (hvalues : q.contents ++ pushedOf r.2 = consumedOf r.2 ++ r.1.contents) :
    steps < 5 * (q.contents.length + (pushedOf r.2).length) + 2 ∧ (max ≠ 0 → steps < 5 * max) := by
  obtain ⟨hbound, hitems⟩ := h.drains.bounds hok.consumer
  have hphase := phase_le r.1.consumer
  have hsteps := h.steps
  have hlength := congrArg List.length hvalues
  rw [List.length_append, List.length_append, length_contents r.1] at hlength
  constructor
  · omega
  · intro hmax
    have hlt := hbound hmax
    omega

/-- What `drain` is for: the items handed over are the oldest ones of the queue, they and no others
are gone from it, no more than the bound and without one all there are, and their number is
returned. -/
structure Reports (q : SPSCQueue T) (max : ℕ) (r : SPSCQueue T × List (Event T)) : Prop where
  order : q.contents ++ pushedOf r.2 = handedOf r.2 ++ r.1.contents
  removed : consumedOf r.2 = handedOf r.2
  bound : max ≠ 0 → (handedOf r.2).length ≤ max
  exhausted : max = 0 ∨ (handedOf r.2).length < max → r.1.contents = []
  returned : returnedOf r.2 = [(handedOf r.2).length]

/-- Everything but the number is as it should be. -/
theorem Ended.reports_iff (h : Ended max steps r)
    (hvalues : q.contents ++ pushedOf r.2 = consumedOf r.2 ++ r.1.contents) :
    Reports q max r ↔ max ≠ 0 ∨ handedOf r.2 = [] := by
  constructor
  · intro hreports
    by_cases hmax : max = 0
    · have hreturned := h.returned.symm.trans hreports.returned
      rw [hmax] at hreturned
      exact .inr (List.length_eq_zero_iff.mp (List.singleton_inj.mp hreturned).symm)
    · exact .inl hmax
  · intro hcounted
    refine ⟨hvalues.trans (by rw [h.removed]), h.removed, ?_, ?_, ?_⟩
    · intro hmax
      rcases h.stopped with ⟨-, hfull⟩ | ⟨hbound, -, -⟩
      · exact hfull.le
      · exact (hbound hmax).le
    · intro hroom
      rcases h.stopped with ⟨hmax, hfull⟩ | ⟨-, hempty, -⟩
      · rcases hroom with hzero | hlt
        · exact absurd hzero hmax
        · exact absurd hfull hlt.ne
      · exact hempty
    · rw [h.returned]
      rcases hcounted with hmax | hnone
      · rw [counter_of_bound hmax]
      · rw [hnone]
        exact congrArg ([·]) (counter_zero max)

/-- A drain under way has looked into the queue a second time only if its first look has found
something. -/
theorem contents_beforeStep (hok : q.Ok) (hidle : q.consumer = .idle)
    (hopen : returnedOf (q.run moved (.drain max :: during)).2 = []) (hsteps : 1 < stepsOf during) :
    (q.run moved (.drain max :: beforeStep 1 during)).1.contents ≠ [] := by
  obtain ⟨hone, rest, hrest⟩ := beforeStep_spec hsteps
  have hsplit : (.drain max :: during : List (Action T)) =
      (.drain max :: (beforeStep 1 during ++ [.consumer])) ++ rest := by
    rw [List.cons_append, List.append_assoc, List.singleton_append, ← hrest]
  rw [hsplit] at hopen
  have hopen' := returnedOf_run_append hopen
  have hlooked := inDrain_run hok hidle hopen'
  rw [← List.cons_append] at hopen' hlooked
  have hlook := inDrain_run hok hidle (returnedOf_run_append hopen')
  rw [hone] at hlook
  have htwo : stepsOf (beforeStep 1 during ++ [.consumer]) = 2 := by
    rw [stepsOf, List.countP_append]
    exact congrArg (· + 1) hone
  rw [htwo, run_next] at hlooked
  exact (hlook.look_iff (hok.run moved _).2.1).mp hlooked

/-- A `drain` returns after five steps for every item that is in the queue or pushed meanwhile, and
one more look. What it does is what it reports if and only if it has a bound or finds nothing in the
queue at its first look. -/
theorem drain_reports_iff {cap : ℕ} (hcap : 1 ≤ cap) (init : T) (moved : T → T)
    (before : List (Action T)) (max : ℕ) (hq : ((new cap init).run moved before).1 = q)
    (hidle : q.consumer = .idle) :
    (∀ during, returnedOf (q.run moved (.drain max :: during)).2 = [] →
      stepsOf during < 5 * (q.contents.length +
        (pushedOf (q.run moved (.drain max :: during)).2).length) + 2 ∧
      (max ≠ 0 → stepsOf during < 5 * max)) ∧
    (∀ during, returnedOf (q.run moved (.drain max :: during)).2 = [] →
      returnedOf (q.run moved (.drain max :: during ++ [.consumer])).2 ≠ [] →
      (Reports q max (q.run moved (.drain max :: during ++ [.consumer])) ↔
        max ≠ 0 ∨ (q.run moved (.drain max :: beforeStep 1 during)).1.contents = [])) := by
  have hok : q.Ok := hq ▸ ((ok_new hcap init).run moved before).2.1
  constructor
  · intro during hopen
    obtain ⟨-, hrun, hvalues⟩ := hok.run moved (.drain max :: during)
    exact (inDrain_run hok hidle hopen).steps_lt hrun hvalues
  · intro during hopen hreturns
    have hrun := (hok.run moved (.drain max :: during)).2.1
    have hvalues := (hok.run moved (.drain max :: during ++ [.consumer])).2.2
    have hin := inDrain_run hok hidle hopen
    rw [run_next] at hreturns hvalues ⊢
    have hended := (hin.consumerStep hrun moved).resolve_left
      (fun hstep => hreturns hstep.returned)
    rw [hended.reports_iff hvalues]
    refine or_congr_right' (fun hbound => ?_)
    obtain rfl : max = 0 := not_not.mp hbound
    obtain ⟨-, -, hsteps⟩ := hended.stopped.resolve_left (fun hfull => hfull.1 rfl)
    by_cases hone : stepsOf during ≤ 1
    · have hlook : stepsOf during = 1 := by omega
      rw [hlook] at hin
      rw [beforeStep_of_le hone]
      have hempty : (q.run moved (.drain 0 :: during)).1.contents = [] := by
        by_contra hne
        exact hreturns ((hin.look_iff hrun).mpr hne).returned
      refine iff_of_true (List.length_eq_zero_iff.mp ?_) hempty
      omega
    · refine iff_of_false (fun hnone => ?_) (contents_beforeStep hok hidle hopen (not_le.mp hone))
      rw [hnone, List.length_nil] at hsteps
      omega

/-- Of two items a bound of one takes the older one, and one is returned. -/
theorem drain_reports_bounded :
    returnedOf (((new 4 0).run id [.tryPush 7, .producer, .producer, .producer, .tryPush 8,
      .producer, .producer, .producer]).1.run id (.drain 1 :: [.consumer, .consumer, .consumer,
        .consumer] ++ [.consumer])).2 = [1] :=
  (((drain_reports_iff (by decide) 0 id [.tryPush 7, .producer, .producer, .producer, .tryPush 8,
    .producer, .producer, .producer] 1 rfl rfl).2 [.consumer, .consumer, .consumer, .consumer]
      (by decide) (by decide)).mpr (.inl one_ne_zero)).returned

/-- Without a bound the item is handed over, and zero is returned. -/
theorem unbounded_drain_returns_zero :
    handedOf (((new 4 0).run id [.tryPush 7, .producer, .producer, .producer]).1.run id
        (.drain 0 :: List.replicate 7 .consumer)).2 = [7] ∧
      returnedOf (((new 4 0).run id [.tryPush 7, .producer, .producer, .producer]).1.run id
        (.drain 0 :: List.replicate 7 .consumer)).2 = [0] ∧
      ¬ Reports ((new 4 0).run id [.tryPush 7, .producer, .producer, .producer]).1 0
        (((new 4 0).run id [.tryPush 7, .producer, .producer, .producer]).1.run id
          (.drain 0 :: List.replicate 7 .consumer)) := by
  refine ⟨by decide, by decide, fun hreports => ?_⟩
  have hreturned := hreports.returned
  revert hreturned
  decide

end SPSCQueue
end GmaEngine
