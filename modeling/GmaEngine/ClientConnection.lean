import Mathlib.Data.List.Induction
import GmaEngine.GuardedRuns

/-!
# The outbox of a client connection

`send` posts a handler to the strand; the handlers of the connection chain and of the writes run on
the same strand, in any order. A write that begins before the handshake has opened the stream fails;
a write on the open stream does not.
-/

namespace GmaEngine

/-- How far the connection is. The stream is open some time before `onHandshake` runs. -/
inductive ConnectionStage where
  | idle
  | resolving
  | connecting
  | handshaking
  | opened
  | ready
  | failed
  deriving DecidableEq, Repr

structure ClientConnection (M : Type) where
  stage : ConnectionStage := .idle
  outbox : List M := []
  writing : Bool := false
  /-- The messages whose handler waits on the strand. -/
  posted : List M := []
  /-- The writes whose handler has not run, each with whether the stream was open. -/
  inFlight : List (M × Bool) := []
  /-- Every message passed to `send`. -/
  sent : List M := []
  /-- The messages written successfully. -/
  written : List M := []

namespace ClientConnection
variable {M : Type}

def isOpen (c : ClientConnection M) : Bool := c.stage = .opened || c.stage = .ready

def connect (c : ClientConnection M) : ClientConnection M :=
  match c.stage with
  | .idle | .failed => { c with stage := .resolving }
  | _ => c

/-- A completion of the connection chain moves it on, or fails. -/
def complete (c : ClientConnection M) (stage next : ConnectionStage) (ok : Bool) :
    ClientConnection M :=
  if c.stage = stage then { c with stage := if ok then next else .failed } else c

def onResolve (c : ClientConnection M) (ok : Bool) : ClientConnection M :=
  c.complete .resolving .connecting ok

def onConnect (c : ClientConnection M) (ok : Bool) : ClientConnection M :=
  c.complete .connecting .handshaking ok

def send (c : ClientConnection M) (text : M) : ClientConnection M :=
  { c with posted := c.posted ++ [text], sent := c.sent ++ [text] }

def doWrite (c : ClientConnection M) : ClientConnection M :=
  match c.outbox with
  | [] => { c with writing := false }
  | front :: _ => { c with inFlight := c.inFlight ++ [(front, c.isOpen)] }

/-- The handler of the oldest `send`. -/
def onSend (c : ClientConnection M) : ClientConnection M :=
  match c.posted with
  | [] => c
  | msg :: rest =>
    let c := { c with posted := rest, outbox := c.outbox ++ [msg] }
    if c.writing then c else doWrite { c with writing := true }

/-- The stream is open or the handshake has failed; `onHandshake` has not run yet. -/
def handshake (c : ClientConnection M) (ok : Bool) : ClientConnection M :=
  c.complete .handshaking .opened ok

def onHandshake (c : ClientConnection M) : ClientConnection M :=
  if c.stage = .opened then
    let c := { c with stage := .ready }
    if !c.outbox.isEmpty && !c.writing then doWrite { c with writing := true } else c
  else c

/-- The handler of the oldest write. `fail` only reports an error. -/
def onWrite (c : ClientConnection M) : ClientConnection M :=
  match c.inFlight with
  | [] => c
  | (_, false) :: rest => { c with inFlight := rest }
  | (msg, true) :: rest =>
    let c := { c with inFlight := rest, written := c.written ++ [msg], outbox := c.outbox.tail }
    if c.outbox.isEmpty then { c with writing := false } else c.doWrite

inductive Action (M : Type) where
  | send (text : M)
  | onSend
  | connect
  | onResolve (ok : Bool)
  | onConnect (ok : Bool)
  | handshake (ok : Bool)
  | onHandshake
  | onWrite

def step (c : ClientConnection M) : Action M → ClientConnection M
  | .send text => c.send text
  | .onSend => c.onSend
  | .connect => c.connect
  | .onResolve ok => c.onResolve ok
  | .onConnect ok => c.onConnect ok
  | .handshake ok => c.handshake ok
  | .onHandshake => c.onHandshake
  | .onWrite => c.onWrite

def run (actions : List (Action M)) : ClientConnection M := actions.foldl step {}

/-- The handler of the handshake has run, and that of every write begun before it. -/
def Settled (c : ClientConnection M) : Prop := c.stage = .ready ∧ ∀ w ∈ c.inFlight, w.2 = true

instance (c : ClientConnection M) : Decidable c.Settled :=
  inferInstanceAs (Decidable (_ ∧ _))

/-- The messages written, those in the outbox and those whose `send` has not run yet are those
sent. -/
def Ordered (c : ClientConnection M) : Prop := c.written ++ c.outbox ++ c.posted = c.sent

/-- A message in the outbox is being written or behind one that is. -/
structure Delivers (c : ClientConnection M) : Prop where
  order : c.Ordered
  moving : c.outbox ≠ [] → c.inFlight ≠ []

/-- No handler of a `send` runs before the stream is open. -/
def afterOpen (c : ClientConnection M) : Action M → Bool
  | .onSend => c.isOpen || c.posted.isEmpty
  | _ => true

/-- The write under way is that of the front of the outbox, on an open stream. -/
structure Flowing (c : ClientConnection M) : Prop where
  inFlight : c.inFlight = c.outbox.head?.toList.map (·, true)
  writing : c.writing = !c.outbox.isEmpty
  opened : c.outbox ≠ [] → c.isOpen = true

/-- A write has begun too early: its message stays at the front, and `writing` stays set. -/
structure Stuck (c : ClientConnection M) : Prop where
  writing : c.writing = true
  outbox : c.outbox ≠ []
  inFlight : ∀ w ∈ c.inFlight, w.2 = false

variable {c : ClientConnection M}

theorem Flowing.idle (h : c.Flowing) (hbox : c.outbox = []) :
    c.inFlight = [] ∧ c.writing = false := by
  obtain ⟨hflight, hwriting, -⟩ := h
  rw [hbox] at hflight hwriting
  exact ⟨hflight, hwriting⟩

theorem Flowing.busy (h : c.Flowing) {front : M} {rest : List M} (hbox : c.outbox = front :: rest) :
    c.inFlight = [(front, true)] ∧ c.writing = true ∧ c.isOpen = true := by
  obtain ⟨hflight, hwriting, hopen⟩ := h
  rw [hbox] at hflight hwriting hopen
  exact ⟨hflight, hwriting, hopen (List.cons_ne_nil _ _)⟩

theorem flowing_of_idle (hbox : c.outbox = []) (hflight : c.inFlight = [])
    (hwriting : c.writing = false) : c.Flowing :=
  ⟨by rw [hbox, hflight]; rfl, by rw [hbox, hwriting]; rfl, fun hne => absurd hbox hne⟩

theorem flowing_of_busy {front : M} {rest : List M} (hbox : c.outbox = front :: rest)
    (hflight : c.inFlight = [(front, true)]) (hwriting : c.writing = true)
    (hopen : c.isOpen = true) : c.Flowing :=
  ⟨by rw [hbox, hflight]; rfl, by rw [hbox, hwriting]; rfl, fun _ => hopen⟩

/-- A step of the chain that does not close an open stream. -/
structure Moved (c c' : ClientConnection M) : Prop where
  rest : c' = { c with stage := c'.stage }
  opened : c.isOpen = true → c'.isOpen = true

theorem Moved.flowing {c' : ClientConnection M} (h : Moved c c') (hc : c.Flowing) :
    c'.Flowing := by
  obtain ⟨hrest, hopen⟩ := h
  rw [hrest] at hopen ⊢
  exact ⟨hc.inFlight, hc.writing, fun hne => hopen (hc.opened hne)⟩

theorem Moved.stuck {c' : ClientConnection M} (h : Moved c c') (hc : c.Stuck) : c'.Stuck := by
  rw [h.rest]
  exact ⟨hc.writing, hc.outbox, hc.inFlight⟩

theorem moved_connect (c : ClientConnection M) : Moved c c.connect := by
  unfold connect
  split
  case h_1 hstage => exact ⟨rfl, by simp [isOpen, hstage]⟩
  case h_2 hstage => exact ⟨rfl, by simp [isOpen, hstage]⟩
  case h_3 => exact ⟨rfl, id⟩

/-- Only a stage before the stream is open is left. -/
theorem moved_complete (c : ClientConnection M) {stage next : ConnectionStage} (ok : Bool)
    (hstage : stage ≠ .opened ∧ stage ≠ .ready) : Moved c (c.complete stage next ok) := by
  unfold complete
  by_cases h : c.stage = stage
  · rw [if_pos h]
    refine ⟨rfl, fun hopen => ?_⟩
    simp [isOpen, h, hstage.1, hstage.2] at hopen
  · rw [if_neg h]
    exact ⟨rfl, id⟩

/-- The first message of an idle connection is written at once: in vain, if it is not open yet. -/
theorem Flowing.onSend (h : c.Flowing) {msg : M} {rest : List M}
    (hposted : c.posted = msg :: rest) :
    (c.isOpen = true → c.onSend.Flowing) ∧ (c.isOpen = false → c.onSend.Stuck) := by
  cases hbox : c.outbox with
  | nil =>
    obtain ⟨hflight, hwriting⟩ := h.idle hbox
    have hsend : c.onSend = { c with posted := rest, outbox := [msg], writing := true,
                                     inFlight := [(msg, c.isOpen)] } := by
      rw [ClientConnection.onSend, hposted]
      simp [hwriting, hbox, doWrite, hflight, isOpen]
    rw [hsend]
    constructor
    · intro hopen
      exact flowing_of_busy rfl (by rw [hopen]) rfl hopen
    · intro hopen
      refine ⟨rfl, List.cons_ne_nil _ _, ?_⟩
      intro w hw
      rw [List.mem_singleton.mp hw]
      exact hopen
  | cons front others =>
    obtain ⟨hflight, hwriting, hopen⟩ := h.busy hbox
    have hsend : c.onSend = { c with posted := rest, outbox := front :: (others ++ [msg]) } := by
      rw [ClientConnection.onSend, hposted]
      simp [hwriting, hbox]
    rw [hsend]
    constructor
    · exact fun _ => flowing_of_busy rfl hflight hwriting hopen
    · intro hclosed
      rw [hopen] at hclosed
      cases hclosed

theorem Stuck.onSend (h : c.Stuck) : c.onSend.Stuck := by
  unfold ClientConnection.onSend
  cases c.posted with
  | nil => exact h
  | cons msg rest =>
    dsimp only
    rw [if_pos h.writing]
    exact ⟨h.writing, by simp, h.inFlight⟩

/-- The handler of the handshake finds either nothing to write, or `writing` set. -/
theorem onHandshake_eq (hwriting : c.outbox ≠ [] → c.writing = true) :
    c.onHandshake = c ∨ c.onHandshake = { c with stage := .ready } := by
  unfold ClientConnection.onHandshake
  by_cases hstage : c.stage = .opened
  · right
    rw [if_pos hstage]
    refine if_neg ?_
    cases hbox : c.outbox with
    | nil => simp
    | cons front rest => simp [hwriting (by rw [hbox]; exact List.cons_ne_nil _ _)]
  · left
    exact if_neg hstage

theorem moved_onHandshake (hwriting : c.outbox ≠ [] → c.writing = true) :
    Moved c c.onHandshake := by
  obtain heq | heq := onHandshake_eq hwriting
  · rw [heq]
    exact ⟨rfl, id⟩
  · rw [heq]
    exact ⟨rfl, fun _ => rfl⟩

theorem Flowing.onWrite (h : c.Flowing) : c.onWrite.Flowing := by
  cases hbox : c.outbox with
  | nil =>
    obtain ⟨hflight, hwriting⟩ := h.idle hbox
    rw [ClientConnection.onWrite, hflight]
    exact h
  | cons front rest =>
    obtain ⟨hflight, hwriting, hopen⟩ := h.busy hbox
    rw [ClientConnection.onWrite, hflight, hbox]
    cases rest with
    | nil => exact flowing_of_idle rfl rfl rfl
    | cons next rest =>
      have hnext : [(next, c.isOpen)] = [(next, true)] := by rw [hopen]
      exact flowing_of_busy rfl hnext hwriting hopen

theorem Stuck.onWrite (h : c.Stuck) : c.onWrite.Stuck := by
  unfold ClientConnection.onWrite
  split
  case h_1 => exact h
  case h_2 msg rest hflight =>
    refine ⟨h.writing, h.outbox, fun w hw => h.inFlight w ?_⟩
    rw [hflight]
    exact List.mem_cons_of_mem _ hw
  case h_3 msg rest hflight =>
    have hflag := h.inFlight (msg, true) (by rw [hflight]; exact List.mem_cons_self)
    cases hflag

theorem step_flowing (h : c.Flowing) (action : Action M) :
    (c.afterOpen action = true → (c.step action).Flowing) ∧
    (c.afterOpen action = false → (c.step action).Stuck) := by
  have keeps {c' : ClientConnection M} (hc : c'.Flowing) (hallowed : c.afterOpen action = true) :
      (c.afterOpen action = true → c'.Flowing) ∧ (c.afterOpen action = false → c'.Stuck) := by
    refine ⟨fun _ => hc, fun hnot => ?_⟩
    rw [hallowed] at hnot
    cases hnot
  cases action with
  | send text => exact keeps ⟨h.inFlight, h.writing, h.opened⟩ rfl
  | onSend =>
    cases hposted : c.posted with
    | nil =>
      have hsend : c.onSend = c := by rw [ClientConnection.onSend, hposted]
      have hc : c.onSend.Flowing := by rw [hsend]; exact h
      exact keeps hc (by simp [afterOpen, hposted])
    | cons msg rest =>
      have hallowed : c.afterOpen .onSend = c.isOpen := by simp [afterOpen, hposted]
      rw [hallowed]
      exact h.onSend hposted
  | connect => exact keeps ((moved_connect c).flowing h) rfl
  | onResolve ok => exact keeps ((moved_complete c ok (by decide)).flowing h) rfl
  | onConnect ok => exact keeps ((moved_complete c ok (by decide)).flowing h) rfl
  | handshake ok => exact keeps ((moved_complete c ok (by decide)).flowing h) rfl
  | onHandshake =>
    refine keeps ((moved_onHandshake fun hne => ?_).flowing h) rfl
    obtain ⟨front, rest, hbox⟩ := List.exists_cons_of_ne_nil hne
    exact (h.busy hbox).2.1
  | onWrite => exact keeps h.onWrite rfl

theorem step_stuck (h : c.Stuck) (action : Action M) : (c.step action).Stuck := by
  cases action with
  | send text => exact ⟨h.writing, h.outbox, h.inFlight⟩
  | onSend => exact h.onSend
  | connect => exact (moved_connect c).stuck h
  | onResolve ok => exact (moved_complete c ok (by decide)).stuck h
  | onConnect ok => exact (moved_complete c ok (by decide)).stuck h
  | handshake ok => exact (moved_complete c ok (by decide)).stuck h
  | onHandshake => exact (moved_onHandshake fun _ => h.writing).stuck h
  | onWrite => exact h.onWrite

theorem Moved.ordered {c' : ClientConnection M} (h : Moved c c') (hc : c.Ordered) :
    c'.Ordered := by
  rw [h.rest]
  exact hc

@[simp] theorem doWrite_ordered : c.doWrite.Ordered ↔ c.Ordered := by
  unfold doWrite
  split <;> exact Iff.rfl

theorem Ordered.onSend (h : c.Ordered) : c.onSend.Ordered := by
  unfold ClientConnection.onSend
  split
  case h_1 => exact h
  case h_2 msg rest hposted =>
    have hmoved : Ordered { c with posted := rest, outbox := c.outbox ++ [msg] } := by
      unfold Ordered at h ⊢
      rw [hposted] at h
      simpa using h
    dsimp only
    split_ifs
    · exact hmoved
    · exact doWrite_ordered.mpr hmoved

/-- What a completed write takes off the outbox is what it wrote. -/
theorem Ordered.onWrite (h : c.Ordered)
    (hfront : ∀ msg rest, c.inFlight = (msg, true) :: rest → c.outbox.head? = some msg) :
    c.onWrite.Ordered := by
  unfold ClientConnection.onWrite
  split
  case h_1 => exact h
  case h_2 => exact h
  case h_3 msg rest hflight =>
    obtain ⟨others, hbox⟩ := List.head?_eq_some_iff.mp (hfront msg rest hflight)
    have hmoved : Ordered { c with inFlight := rest, written := c.written ++ [msg],
                                   outbox := c.outbox.tail } := by
      unfold Ordered at h ⊢
      rw [hbox] at h ⊢
      simpa using h
    dsimp only
    split_ifs
    · exact hmoved
    · exact doWrite_ordered.mpr hmoved

theorem Flowing.front (h : c.Flowing) {msg : M} {rest : List (M × Bool)}
    (hflight : c.inFlight = (msg, true) :: rest) : c.outbox.head? = some msg := by
  cases hbox : c.outbox with
  | nil =>
    rw [(h.idle hbox).1] at hflight
    cases hflight
  | cons front others =>
    rw [(h.busy hbox).1] at hflight
    cases hflight
    rfl

theorem Stuck.front (h : c.Stuck) {msg : M} {rest : List (M × Bool)}
    (hflight : c.inFlight = (msg, true) :: rest) : c.outbox.head? = some msg := by
  have hflag := h.inFlight (msg, true) (by rw [hflight]; exact List.mem_cons_self)
  cases hflag

theorem step_ordered (h : c.Ordered) (hc : c.Flowing ∨ c.Stuck) (action : Action M) :
    (c.step action).Ordered := by
  cases action with
  | send text =>
    show c.written ++ c.outbox ++ (c.posted ++ [text]) = c.sent ++ [text]
    rw [← List.append_assoc, h]
  | onSend => exact h.onSend
  | connect => exact (moved_connect c).ordered h
  | onResolve ok => exact (moved_complete c ok (by decide)).ordered h
  | onConnect ok => exact (moved_complete c ok (by decide)).ordered h
  | handshake ok => exact (moved_complete c ok (by decide)).ordered h
  | onHandshake =>
    refine (moved_onHandshake fun hne => ?_).ordered h
    obtain hflow | hstuck := hc
    · obtain ⟨front, rest, hbox⟩ := List.exists_cons_of_ne_nil hne
      exact (hflow.busy hbox).2.1
    · exact hstuck.writing
  | onWrite =>
    refine h.onWrite fun msg rest hflight => ?_
    obtain hflow | hstuck := hc
    · exact hflow.front hflight
    · exact hstuck.front hflight

/-- Whether the connection flows or is stuck is decided by the actions alone. -/
structure Followed (guarded : Bool) (c : ClientConnection M) : Prop where
  flowing : guarded = true → c.Flowing
  stuck : guarded = false → c.Stuck
  ordered : c.Ordered

theorem followed_run (actions : List (Action M)) :
    Followed (GuardedRuns.along step afterOpen {} actions) (run actions) := by
  induction actions using List.reverseRecOn with
  | nil =>
    refine ⟨fun _ => flowing_of_idle rfl rfl rfl, ?_, rfl⟩
    intro hfalse
    cases hfalse
  | append_singleton actions action ih =>
    have hrun : run (actions ++ [action]) = (run actions).step action := by
      rw [run, List.foldl_append]
      rfl
    have hguard : GuardedRuns.along step afterOpen {} (actions ++ [action]) =
        (GuardedRuns.along step afterOpen {} actions && (run actions).afterOpen action) := by
      rw [GuardedRuns.along_append]
      simp [GuardedRuns.along, run]
    rw [hrun, hguard]
    cases hbefore : GuardedRuns.along step afterOpen {} actions with
    | true =>
      have hflow := ih.flowing hbefore
      obtain ⟨hkeep, hstick⟩ := step_flowing hflow action
      exact ⟨hkeep, hstick, step_ordered ih.ordered (.inl hflow) action⟩
    | false =>
      have hstuck := ih.stuck hbefore
      refine ⟨?_, fun _ => step_stuck hstuck action, step_ordered ih.ordered (.inr hstuck) action⟩
      intro htrue
      cases htrue

theorem Flowing.moving (h : c.Flowing) (hne : c.outbox ≠ []) : c.inFlight ≠ [] := by
  obtain ⟨front, rest, hbox⟩ := List.exists_cons_of_ne_nil hne
  rw [(h.busy hbox).1]
  exact List.cons_ne_nil _ _

theorem Stuck.not_moving (h : c.Stuck) (hsettled : c.Settled) : c.inFlight = [] := by
  refine List.eq_nil_iff_forall_not_mem.mpr fun w hw => ?_
  have hopen := hsettled.2 w hw
  rw [h.inFlight w hw] at hopen
  cases hopen

/-- In a settled state of any run nothing is lost or out of order; no message waits for ever
exactly when no handler of a `send` ran before the stream was open. -/
theorem messages_sent_iff (actions : List (Action M)) (hsettled : (run actions).Settled) :
    (run actions).Delivers ↔ GuardedRuns.along step afterOpen {} actions = true := by
  have hrun := followed_run actions
  constructor
  · intro hdelivers
    by_contra hearly
    have hstuck := hrun.stuck (Bool.not_eq_true _ ▸ hearly)
    exact hdelivers.moving hstuck.outbox (hstuck.not_moving hsettled)
  · intro hguarded
    exact ⟨hrun.ordered, (hrun.flowing hguarded).moving⟩

/-- Two messages are sent once the handshake is over. -/
theorem messages_sent_after_handshake :
    (run [Action.connect, .onResolve true, .onConnect true, .handshake true, .onHandshake,
      .send "a", .send "b", .onSend, .onSend, .onWrite]).Delivers :=
  (messages_sent_iff _ (by decide)).mpr (by decide)

/-- A message sent while the connection is being made stays in the outbox: its write fails, and
`onHandshake` finds `writing` set. -/
theorem early_message_stuck :
    let actions := [Action.connect, .send "a", .onSend, .onResolve true, .onConnect true, .onWrite,
      .handshake true, .onHandshake]
    (run actions).Settled ∧ ¬ (run actions).Delivers := by
  refine ⟨by decide, fun h => ?_⟩
  exact h.moving (by decide) (by decide)

end ClientConnection
end GmaEngine
