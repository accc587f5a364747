import GmaEngine.ClosedSessions
import GmaEngine.Blueprints

/-!
# The lock of a session

The handlers of a session once more, with the mutex of its tables. On the strand a dispatched
handler runs inline, so that what `sendText` and `close` do belongs to the call that asked for
it. A call knows whether its chain holds the lock; taking a lock that the chain holds already has
no result. The handlers of `System` are what is left when this never happens.
-/

namespace GmaEngine

/-- A section under the lock. -/
def locked {α : Type} (held : Bool) (body : Option α) : Option α :=
  if held then none else body

namespace Locked
open ClientSession
variable {D : Type}

def close (held : Bool) (s : System D) : Option (System D) :=
  if !s.session.isOpen then some s else locked held (some s.close)

def sendText (held : Bool) (s : System D) (frame : Frame D) : Option (System D) :=
  if !s.session.isOpen then some s
  else if maxOutboxSize ≤ s.session.outbox.length then close held s
  else some { s with session := System.enqueue s.session frame }

def sendError (held : Bool) (s : System D) (location message : String) : Option (System D) :=
  sendText held s (.error location message)

def onWrite (held : Bool) (s : System D) (ok : Bool) : Option (System D) :=
  if !ok then close held s
  else
    some { s with session :=
      System.startWrite { s.session with outbox := s.session.outbox.tail } }

/-- One round of the loop of `handleCancel`. -/
def handleCancelKey (held : Bool) (s : System D) (key : RequestKey) : Option (System D) := do
  let s ← locked held (some (s.handleCancelKey key))
  sendText held s (.canceled key)

/-- A new key, and the table is full. -/
def overLimit (s : System D) (key : RequestKey) : Bool :=
  (lookupKey s.session.active key).isNone && decide (maxSubscriptions ≤ s.session.active.length)

variable [Double D]

/-- One round of the loop of `handleSubscribe`. -/
def handleRequest (env : SessionEnv D) (held : Bool) (s : System D) (r : Json D) :
    Option (System D) :=
  match parseRequest r with
  | .error (location, message) => sendError held s location message
  | .ok (key, rq) =>
    -- the limit is checked, and the refusal sent, under the lock
    if overLimit s key then locked held (sendError true s "subscribe" "max subscriptions reached")
    else do
      locked held (some ())
      let terminal := s.rt.nodes.length
      let rt := { s.rt with nodes := s.rt.nodes ++ [.responder key false] }
      match (TreeBuilder.buildForRequest env.build rq (some terminal)).run.run rt with
      | (.error message, rt') => sendError held (s.withRuntime rt' terminal) "build" message
      | (.ok built, rt') =>
        let s ← locked held (some ((s.withRuntime rt' terminal).install key terminal built))
        sendText held s (.subscribed key)

/-- The strand runs its first handler, with all that is dispatched on the way. -/
def runStrand (env : SessionEnv D) (allowed : Bool) (s : System D) : Option (System D) :=
  match s.strand with
  | [] => some s
  | handler :: rest =>
    let s := { s with strand := rest }
    match handler with
    | .message doc => some (s.next (handleMessage env allowed doc))
    | .requests [] => some s
    | .requests (r :: rs) => handleRequest env false (s.next [.requests rs]) r
    | .cancels [] => some s
    | .cancels (key :: keys) => handleCancelKey false (s.next [.cancels keys]) key
    | .send frame => sendText false s frame
    | .written ok => onWrite false s ok
    | .close => close false s

def step (env : SessionEnv D) (s : System D) : Action D → Option (System D)
  | .strand allowed => runStrand env allowed s
  | action => some (s.step env action)

def run (env : SessionEnv D) (s : System D) : List (Action D) → Option (System D)
  | [] => some s
  | action :: rest => (step env s action).bind (fun s => run env s rest)

section
variable {s : System D}

omit [Double D] in
theorem close_free (s : System D) : close false s = some s.close := by
  unfold close System.close
  cases s.session.isOpen <;> rfl

omit [Double D] in
theorem sendText_free (s : System D) (frame : Frame D) :
    sendText false s frame = some (s.sendText frame) := by
  unfold sendText System.sendText
  split_ifs
  · rfl
  · exact close_free s
  · rfl

omit [Double D] in
theorem onWrite_free (s : System D) (ok : Bool) : onWrite false s ok = some (s.onWrite ok) := by
  unfold onWrite System.onWrite
  split_ifs
  · exact close_free s
  · rfl

/-- An open session whose outbox is full. -/
def chokes (s : System D) : Bool :=
  s.session.isOpen && decide (maxOutboxSize ≤ s.session.outbox.length)

omit [Double D] in
/-- Under the lock a frame may only be sent if the outbox is not full. -/
theorem sendText_held (s : System D) (frame : Frame D) :
    sendText true s frame = if chokes s then none else some (s.sendText frame) := by
  unfold sendText System.sendText chokes close
  cases s.session.isOpen with
  | false => rfl
  | true =>
    by_cases hfull : maxOutboxSize ≤ s.session.outbox.length
    · simp [hfull, locked]
    · simp [hfull]

/-- What a frame that was queued in front does. -/
theorem runStrand_send (env : SessionEnv D) (allowed : Bool) (s : System D) (frame : Frame D) :
    (s.next [.send frame]).runStrand env allowed = s.sendText frame := rfl

/-- A request is handled, and its answer sent, in two steps. -/
theorem handleRequest_free (env : SessionEnv D) (allowed : Bool) (s : System D) (r : Json D)
    (hroom : ∀ key rq, parseRequest r = .ok (key, rq) → overLimit s key = true → chokes s = false) :
    handleRequest env false s r = some ((s.handleRequest env r).runStrand env allowed) := by
  unfold handleRequest System.handleRequest
  cases hparse : parseRequest r with
  | error e => exact sendText_free s _
  | ok parsed =>
    obtain ⟨key, rq⟩ := parsed
    dsimp only
    by_cases hlimit : overLimit s key = true
    · have hlimit' := hlimit
      unfold overLimit at hlimit'
      rw [if_pos hlimit, if_pos hlimit', runStrand_send]
      have hopen := hroom key rq hparse hlimit
      simp [locked, sendError, sendText_held, hopen]
    · have hlimit' := hlimit
      unfold overLimit at hlimit'
      rw [if_neg hlimit, if_neg hlimit']
      simp only [locked, Bool.false_eq_true, if_false, Option.bind_eq_bind, Option.bind_some]
      generalize (TreeBuilder.buildForRequest env.build rq (some s.rt.nodes.length)).run.run
        { s.rt with nodes := s.rt.nodes ++ [.responder key false] } = out
      obtain ⟨result, rt⟩ := out
      cases result with
      | error message => exact sendText_free _ _
      | ok built => exact sendText_free _ _

/-- A request that is built is installed and then acknowledged. -/
theorem handleRequest_accepted (env : SessionEnv D) {r rq : Json D} {key : RequestKey}
    {built : BuiltChain} {rt : Runtime D} (hparse : parseRequest r = .ok (key, rq))
    (hfree : overLimit s key = false)
    (hbuild : (TreeBuilder.buildForRequest env.build rq (some s.rt.nodes.length)).run.run
      { s.rt with nodes := s.rt.nodes ++ [.responder key false] } = (.ok built, rt)) :
    handleRequest env false s r =
      sendText false ((s.withRuntime rt s.rt.nodes.length).install key s.rt.nodes.length built)
        (.subscribed key) := by
  unfold handleRequest
  rw [hparse]
  dsimp only
  rw [hfree, hbuild]
  rfl

/-- The next handler refuses a request for the limit while the outbox of an open session is
full. -/
def refusesFull (s : System D) : Action D → Bool
  | .strand _ =>
    match s.strand with
    | .requests (r :: _) :: _ =>
      match parseRequest r with
      | .ok (key, _) => overLimit s key && chokes s
      | .error _ => false
    | _ => false
  | _ => false

/-- Such a refusal takes the lock again. -/
theorem step_refusesFull (env : SessionEnv D) {action : Action D}
    (h : refusesFull s action = true) : step env s action = none := by
  cases action with
  | strand allowed =>
    unfold refusesFull at h
    unfold step runStrand
    dsimp only at h ⊢
    generalize hstrand : s.strand = strand at h ⊢
    cases strand with
    | nil => cases h
    | cons handler rest =>
      cases handler with
      | requests rs =>
        cases rs with
        | nil => cases h
        | cons r rs =>
          dsimp only at h ⊢
          unfold handleRequest
          cases hparse : parseRequest r with
          | error e =>
            rw [hparse] at h
            cases h
          | ok parsed =>
            obtain ⟨key, rq⟩ := parsed
            rw [hparse] at h
            obtain ⟨hlimit, hchokes⟩ := Bool.and_eq_true_iff.mp h
            have hlimit' : overLimit ({ s with strand := rest }.next [.requests rs]) key = true :=
              hlimit
            have hchokes' : chokes ({ s with strand := rest }.next [.requests rs]) = true := hchokes
            dsimp only
            rw [if_pos hlimit', locked, sendError, sendText_held, if_pos hchokes']
            rfl
      | _ => cases h
  | _ => cases h

/-- Every other step is one or two steps of the system without the lock. -/
theorem step_eq (env : SessionEnv D) {action : Action D} (h : refusesFull s action = false) :
    ∃ more, step env s action = some (s.run env (action :: more)) := by
  cases action with
  | strand allowed =>
    unfold refusesFull at h
    unfold step runStrand
    dsimp only at h ⊢
    have hrun : ∀ more, s.run env (.strand allowed :: more) =
        (s.runStrand env allowed).run env more := fun _ => rfl
    simp only [hrun]
    unfold System.runStrand
    generalize hstrand : s.strand = strand at h ⊢
    cases strand with
    | nil => exact ⟨[], rfl⟩
    | cons handler rest =>
      cases handler with
      | message doc => exact ⟨[], rfl⟩
      | requests rs =>
        cases rs with
        | nil => exact ⟨[], rfl⟩
        | cons r rs =>
          refine ⟨[.strand true], handleRequest_free env true _ r ?_⟩
          intro key rq hparse hlimit
          dsimp only at h
          rw [hparse] at h
          have hlimit' : overLimit s key = true := hlimit
          have hroom : (overLimit s key && chokes s) = false := h
          rw [hlimit', Bool.true_and] at hroom
          exact hroom
      | cancels keys =>
        cases keys with
        | nil => exact ⟨[], rfl⟩
        | cons key keys =>
          refine ⟨[.strand true], ?_⟩
          dsimp only [handleCancelKey, locked]
          exact sendText_free _ _
      | send frame => exact ⟨[], sendText_free _ frame⟩
      | written ok => exact ⟨[], onWrite_free _ ok⟩
      | close => exact ⟨[], close_free _⟩
  | _ => exact ⟨[], rfl⟩

theorem step_isSome_iff (env : SessionEnv D) (action : Action D) :
    (step env s action).isSome = true ↔ refusesFull s action = false := by
  constructor
  · intro hsome
    cases hfull : refusesFull s action with
    | false => rfl
    | true =>
      rw [step_refusesFull env hfull] at hsome
      cases hsome
  · intro hfull
    obtain ⟨more, heq⟩ := step_eq env hfull
    rw [heq]
    rfl

/-- A run that keeps clear of the lock is a run of the system without it. -/
theorem run_refines (env : SessionEnv D) {s s' : System D} {actions : List (Action D)}
    (h : run env s actions = some s') : ∃ actions', s.run env actions' = s' := by
  induction actions generalizing s with
  | nil =>
    cases h
    exact ⟨[], rfl⟩
  | cons action actions ih =>
    obtain ⟨mid, hstep, hrest⟩ := Option.bind_eq_some_iff.mp h
    have hfull : refusesFull s action = false := by
      rw [← step_isSome_iff env, hstep]
      rfl
    obtain ⟨more, heq⟩ := step_eq env hfull
    obtain rfl : s.run env (action :: more) = mid := Option.some.inj (heq.symm.trans hstep)
    obtain ⟨later, hlater⟩ := ih hrest
    refine ⟨action :: more ++ later, ?_⟩
    rw [System.run, List.foldl_append]
    exact hlater

theorem run_isSome_iff (env : SessionEnv D) (actions : List (Action D)) :
    (run env s actions).isSome = true ↔ ∀ before action after s',
      actions = before ++ action :: after → run env s before = some s' →
        refusesFull s' action = false := by
  induction actions generalizing s with
  | nil =>
    constructor
    · intro _ before action after s' heq
      have hlen := congrArg List.length heq
      simp at hlen
    · intro _
      rfl
  | cons action actions ih =>
    constructor
    · intro hsome before action' after s' heq hrun
      obtain ⟨last, hlast⟩ := Option.isSome_iff_exists.mp hsome
      obtain ⟨mid, hstep, hrest⟩ := Option.bind_eq_some_iff.mp hlast
      cases before with
      | nil =>
        obtain ⟨rfl, rfl⟩ := List.cons.inj heq
        cases hrun
        rw [← step_isSome_iff env, hstep]
        rfl
      | cons first before =>
        obtain ⟨rfl, hactions⟩ := List.cons.inj heq
        rw [run, hstep, Option.bind_some] at hrun
        exact ih.mp (hrest ▸ rfl) before action' after s' hactions hrun
    · intro hroom
      have hfirst := hroom [] action actions s rfl rfl
      obtain ⟨mid, hstep⟩ := Option.isSome_iff_exists.mp ((step_isSome_iff env action).mpr hfirst)
      rw [run, hstep, Option.bind_some]
      apply ih.mpr
      intro before action' after s' heq hrun
      refine hroom (action :: before) action' after s' (by rw [heq, List.cons_append]) ?_
      rw [run, hstep, Option.bind_some]
      exact hrun

theorem run_append (env : SessionEnv D) (before after : List (Action D)) :
    run env s (before ++ after) = (run env s before).bind (fun s => run env s after) := by
  induction before generalizing s with
  | nil => rfl
  | cons action before ih =>
    rw [List.cons_append, run, run]
    cases step env s action with
    | none => rfl
    | some s' => exact ih

end

/-- No call of a session takes the lock that its chain holds exactly when no request is refused
for the limit while the outbox of the open session is full. -/
theorem own_lock_is_never_awaited_iff (env : SessionEnv D) (actions : List (Action D)) :
    (run env {} actions).isSome = true ↔ ∀ before action after s,
      actions = before ++ action :: after → run env {} before = some s →
        refusesFull s action = false :=
  run_isSome_iff env actions

/-- A plain request under a number. -/
def numbered (i : ℕ) : Json ExactDouble :=
  .object [("key", .uint (.ofNat i)), ("streamKey", .string "AAPL"), ("field", .string "lastPrice")]

/-- A request passed the checks under a key, and its tree builds. -/
def passesAs (key : RequestKey) :
    Except (String × String) (RequestKey × Json ExactDouble) → Bool
  | .ok (key', rq) => decide (key' = key) &&
      (TreeBuilder.requestBlueprint System.fullSessionEnv.build rq).isOk
  | .error _ => false

theorem passesAs_spec {key : RequestKey}
    {result : Except (String × String) (RequestKey × Json ExactDouble)}
    (h : passesAs key result = true) : ∃ rq rb, result = .ok (key, rq) ∧
      TreeBuilder.requestBlueprint System.fullSessionEnv.build rq = .ok rb := by
  cases result with
  | error e => cases h
  | ok parsed =>
    obtain ⟨key', rq⟩ := parsed
    obtain ⟨hkey, hok⟩ := Bool.and_eq_true_iff.mp h
    obtain rfl : key' = key := of_decide_eq_true hkey
    generalize hread : TreeBuilder.requestBlueprint System.fullSessionEnv.build rq = read at hok
    cases read with
    | error e => cases hok
    | ok rb => exact ⟨rq, rb, rfl, hread⟩

theorem passesAs_numbered :
    ∀ i : ℕ, i < 257 → passesAs (.int i) (parseRequest (numbered i)) = true := by
  decide +kernel

/-- Where a batch of requests stands: the keys below a number are subscribed, and the outbox has
grown to a size. -/
structure Filling (s : System ExactDouble) (n m : ℕ) (rest : List (Json ExactDouble)) : Prop where
  isOpen : s.session.isOpen = true
  strand : s.strand = [.requests rest]
  keys : s.session.active.map Prod.fst = (List.range n).map (fun i : ℕ => RequestKey.int i)
  outbox : s.session.outbox.length = m

namespace Filling
variable {s : System ExactDouble} {n m : ℕ} {rest : List (Json ExactDouble)}

theorem length_active (h : Filling s n m rest) : s.session.active.length = n := by
  have hlen := congrArg List.length h.keys
  simpa using hlen

/-- The next number is not subscribed. -/
theorem lookup_next (h : Filling s n m rest) : lookupKey s.session.active (.int n) = none := by
  apply lookupKey_eq_none_iff.mpr
  intro entry hentry heq
  have hmem : entry.1 ∈ s.session.active.map Prod.fst := List.mem_map_of_mem hentry
  rw [h.keys, heq] at hmem
  obtain ⟨i, hi, hint⟩ := List.mem_map.mp hmem
  have hlt := List.mem_range.mp hi
  have hsame : (i : ℤ) = n := RequestKey.int.inj hint
  omega

/-- A frame is put in the outbox that has room for it. -/
theorem sendText (h : Filling s n m rest) (hm : m < maxOutboxSize) (frame : Frame ExactDouble) :
    ∃ s', Locked.sendText false s frame = some s' ∧ Filling s' n (m + 1) rest := by
  have hopen := h.isOpen
  have hroom : ¬ maxOutboxSize ≤ s.session.outbox.length := by
    rw [h.outbox]
    omega
  obtain ⟨hsame, hactive, -⟩ := System.enqueue_tables s.session frame
  refine ⟨{ s with session := System.enqueue s.session frame }, ?_, ?_, h.strand, ?_, ?_⟩
  · unfold Locked.sendText
    simp only [hopen, Bool.not_true, Bool.false_eq_true, if_false, if_neg hroom]
  · exact hsame.trans hopen
  · exact (congrArg (List.map Prod.fst) hactive).trans h.keys
  · have hlen : (System.enqueue s.session frame).outbox.length = s.session.outbox.length + 1 := by
      unfold System.enqueue System.startWrite
      simp only [hopen, Bool.not_true, Bool.false_eq_true, if_false]
      split_ifs <;> simp_all
    exact hlen.trans (congrArg (· + 1) h.outbox)

/-- A request that is no object only adds an error to the outbox. -/
theorem refuses (h : Filling s n m (.null :: rest)) (hm : m < maxOutboxSize) :
    ∃ s', step System.fullSessionEnv s (.strand true) = some s' ∧ Filling s' n (m + 1) rest := by
  have hnext : Filling ({ s with strand := [] }.next [.requests rest]) n m rest :=
    ⟨h.isOpen, rfl, h.keys, h.outbox⟩
  obtain ⟨s', hsend, hfilling⟩ := hnext.sendText hm (.error "subscribe" "request must be object")
  refine ⟨s', ?_, hfilling⟩
  simp only [step, runStrand, h.strand]
  exact hsend

/-- A request under the next number is accepted while the table has room. -/
theorem accepts (h : Filling s n m (numbered n :: rest)) (hn : n < maxSubscriptions)
    (hm : m < maxOutboxSize) :
    ∃ s', step System.fullSessionEnv s (.strand true) = some s' ∧
      Filling s' (n + 1) (m + 1) rest := by
  have hlt : n < 257 := by
    have hmax : maxSubscriptions = 256 := rfl
    omega
  obtain ⟨rq, rb, hparse, hread⟩ := passesAs_spec (passesAs_numbered n hlt)
  have hfree : overLimit ({ s with strand := [] }.next [.requests rest]) (.int n) = false := by
    have hlen : ¬ maxSubscriptions ≤ s.session.active.length := by
      rw [h.length_active]
      omega
    unfold overLimit System.next
    dsimp only
    rw [decide_eq_false hlen, Bool.and_false]
  obtain ⟨built, rt, hbuild⟩ : ∃ built rt,
      (TreeBuilder.buildForRequest System.fullSessionEnv.build rq (some s.rt.nodes.length)).run.run
        { s.rt with nodes := s.rt.nodes ++ [.responder (.int n) false] } = (.ok built, rt) :=
    ⟨_, _, TreeBuilder.buildForRequest_ok_iff.mpr ⟨rb, hread, rfl, rfl⟩⟩
  have hinstall : Filling ((({ s with strand := [] }.next [.requests rest]).withRuntime rt
      s.rt.nodes.length).install (.int n) s.rt.nodes.length built) (n + 1) m rest := by
    refine ⟨h.isOpen, rfl, ?_, h.outbox⟩
    change (assignKey s.session.active (.int n) built.head).map Prod.fst = _
    unfold assignKey
    rw [h.lookup_next]
    simp [h.keys, List.range_succ]
  obtain ⟨s', hsend, hfilling⟩ := hinstall.sendText hm (.subscribed (.int n))
  refine ⟨s', ?_, hfilling⟩
  have haccepted := handleRequest_accepted System.fullSessionEnv hparse hfree hbuild
  simp only [step, runStrand, h.strand]
  exact haccepted.trans hsend

/-- The whole of such requests. -/
theorem accepts_all (k : ℕ) (h : Filling s n m ((List.range' n k).map Locked.numbered ++ rest))
    (hn : n + k ≤ maxSubscriptions) (hm : m + k ≤ maxOutboxSize) :
    ∃ s', run System.fullSessionEnv s (List.replicate k (.strand true)) = some s' ∧
      Filling s' (n + k) (m + k) rest := by
  induction k generalizing s n m with
  | zero => exact ⟨s, rfl, h⟩
  | succ k ih =>
    obtain ⟨mid, hstep, hmid⟩ := h.accepts (by omega) (by omega)
    obtain ⟨s', hrun, hfilling⟩ := ih hmid (by omega) (by omega)
    refine ⟨s', ?_, ?_⟩
    · rw [List.replicate_succ, run, hstep]
      exact hrun
    · have hn' : n + (k + 1) = n + 1 + k := by omega
      have hm' : m + (k + 1) = m + 1 + k := by omega
      rw [hn', hm']
      exact hfilling

theorem refuses_all (k : ℕ) (h : Filling s n m (List.replicate k .null ++ rest))
    (hm : m + k ≤ maxOutboxSize) :
    ∃ s', run System.fullSessionEnv s (List.replicate k (.strand true)) = some s' ∧
      Filling s' n (m + k) rest := by
  induction k generalizing s m with
  | zero => exact ⟨s, rfl, h⟩
  | succ k ih =>
    obtain ⟨mid, hstep, hmid⟩ := h.refuses (by omega)
    obtain ⟨s', hrun, hfilling⟩ := ih hmid (by omega)
    refine ⟨s', ?_, ?_⟩
    · rw [List.replicate_succ, run, hstep]
      exact hrun
    · have hm' : m + (k + 1) = m + 1 + k := by omega
      rw [hm']
      exact hfilling

/-- Where table and outbox are full, a further number is refused under the lock. -/
theorem chokes (h : Filling s maxSubscriptions maxOutboxSize (Locked.numbered 256 :: rest)) :
    step System.fullSessionEnv s (.strand true) = none := by
  apply step_refusesFull
  obtain ⟨rq, rb, hparse, -⟩ := passesAs_spec (passesAs_numbered 256 (by omega))
  have hnone := h.lookup_next
  have hlen := h.length_active
  simp only [refusesFull, h.strand, hparse, overLimit, Locked.chokes, h.isOpen, h.outbox]
  have hkey : lookupKey s.session.active (.int (256 : ℕ)) = none := hnone
  rw [hkey, hlen]
  simp

end Filling

def batchOf (requests : List (Json ExactDouble)) : Json ExactDouble :=
  .object [("type", .string "subscribe"), ("requests", .array requests)]

/-- The first message of a session is read. -/
theorem filling_start (requests : List (Json ExactDouble)) :
    ∃ s, run System.fullSessionEnv {} [.receive (some (batchOf requests)), .strand true] = some s ∧
      Filling s 0 0 requests :=
  ⟨_, rfl, ⟨rfl, rfl, rfl, rfl⟩⟩

/-- As many subscriptions as a session may have, as many further frames as the outbox may take,
and one request more. -/
def fullBatch : List (Json ExactDouble) :=
  (List.range' 0 256).map numbered ++ (List.replicate 3840 .null ++ [numbered 256])

/-- The message is read, and the strand goes through its requests. -/
def fullBatchRun : List (Action ExactDouble) :=
  [Action.receive (some (batchOf fullBatch)), Action.strand true] ++
    (List.replicate 256 (Action.strand true) ++
      (List.replicate 3840 (Action.strand true) ++ [Action.strand true]))

theorem batch_waits_for_own_lock :
    ¬ ∀ (env : SessionEnv ExactDouble) (actions : List (Action ExactDouble)),
      (run env {} actions).isSome = true := by
  intro h
  obtain ⟨s₀, hrun₀, h₀⟩ := filling_start fullBatch
  have hsubs : maxSubscriptions = 256 := rfl
  have hbox : maxOutboxSize = 4096 := rfl
  obtain ⟨s₁, hrun₁, h₁⟩ := h₀.accepts_all 256 (by omega) (by omega)
  obtain ⟨s₂, hrun₂, h₂⟩ := h₁.refuses_all 3840 (by omega)
  have hfull : Filling s₂ maxSubscriptions maxOutboxSize [numbered 256] := by
    have hm : 0 + 256 + 3840 = maxOutboxSize := by omega
    rw [hm, Nat.zero_add, ← hsubs] at h₂
    exact h₂
  have hnone : step System.fullSessionEnv s₂ (.strand true) = none := hfull.chokes
  have hsome := h System.fullSessionEnv fullBatchRun
  rw [fullBatchRun, run_append, hrun₀, Option.bind_some, run_append, hrun₁, Option.bind_some,
    run_append, hrun₂, Option.bind_some, run, hnone] at hsome
  cases hsome

end Locked
end GmaEngine
