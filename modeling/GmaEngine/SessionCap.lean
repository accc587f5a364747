import GmaEngine.GuardedRuns

/-!
# The cap on sessions

The server counts its sessions when a connection is accepted, and a session enters the table when
its handshake has ended. In between any number of connections pass the same check.
-/

namespace GmaEngine

structure WebSocketServer where
  accepting : Bool := false
  /-- The `async_accept` operations that wait for a connection. -/
  accepts : ℕ := 0
  /-- The ids in `sessions_`. -/
  sessions : List ℕ := []
  nextSessionId : ℕ := 1
  /-- The sessions that were made and whose handshake has not ended. -/
  handshakes : ℕ := 0

namespace WebSocketServer

def maxWsSessions : ℕ := 1024

def registerSession (s : WebSocketServer) : WebSocketServer :=
  { s with
    nextSessionId := s.nextSessionId + 1
    -- `emplace` leaves an existing entry alone
    sessions := if s.nextSessionId ∈ s.sessions then s.sessions
      else s.sessions ++ [s.nextSessionId] }

def unregisterSession (s : WebSocketServer) (id : ℕ) : WebSocketServer :=
  { s with sessions := s.sessions.erase id }

def doAccept (s : WebSocketServer) : WebSocketServer :=
  if s.accepting then { s with accepts := s.accepts + 1 } else s

def start (s : WebSocketServer) : WebSocketServer :=
  if s.accepting then s else doAccept { s with accepting := true }

def stopAccept (s : WebSocketServer) : WebSocketServer := { s with accepting := false }

/-- An `async_accept` completes; `ok` says that there is a connection. -/
def onAccept (s : WebSocketServer) (ok : Bool) : WebSocketServer :=
  if s.accepts = 0 then s
  else
    let s := { s with accepts := s.accepts - 1 }
    if !s.accepting then s
    else if !ok then s.doAccept
    else if maxWsSessions ≤ s.sessions.length then s.doAccept
    else doAccept { s with handshakes := s.handshakes + 1 }

/-- The handler of a session's `async_accept`. -/
def onHandshake (s : WebSocketServer) (ok : Bool) : WebSocketServer :=
  if s.handshakes = 0 then s
  else
    let s := { s with handshakes := s.handshakes - 1 }
    if ok then s.registerSession else s

inductive Event where
  | start
  | stopAccept
  | accept (ok : Bool)
  | handshake (ok : Bool)
  /-- The `async_close` of a session completes. -/
  | closed (id : ℕ)

def step (s : WebSocketServer) : Event → WebSocketServer
  | .start => s.start
  | .stopAccept => s.stopAccept
  | .accept ok => s.onAccept ok
  | .handshake ok => s.onHandshake ok
  | .closed id => s.unregisterSession id

def run (events : List Event) : WebSocketServer := events.foldl step {}

/-- The event makes a session. -/
def admits (s : WebSocketServer) : Event → Bool
  | .accept ok => decide (s.accepts ≠ 0) && s.accepting && ok &&
      decide (s.sessions.length < maxWsSessions)
  | _ => false

/-- A session is made only while those in the table and those with a handshake leave room. -/
def roomy (s : WebSocketServer) (event : Event) : Bool :=
  !s.admits event || decide (s.sessions.length + s.handshakes < maxWsSessions)

def roomyRun (events : List Event) : Bool := GuardedRuns.along step roomy {} events

variable {s : WebSocketServer}

theorem doAccept_spec (s : WebSocketServer) : s.doAccept.sessions = s.sessions ∧
    s.doAccept.handshakes = s.handshakes ∧ s.doAccept.nextSessionId = s.nextSessionId := by
  unfold doAccept
  split_ifs <;> exact ⟨rfl, rfl, rfl⟩

theorem start_spec (s : WebSocketServer) : s.start.sessions = s.sessions ∧
    s.start.handshakes = s.handshakes ∧ s.start.nextSessionId = s.nextSessionId := by
  unfold start
  split_ifs
  · exact ⟨rfl, rfl, rfl⟩
  · exact doAccept_spec _

theorem onAccept_spec (s : WebSocketServer) (ok : Bool) :
    (s.onAccept ok).sessions = s.sessions ∧
      (s.onAccept ok).handshakes = s.handshakes + (if s.admits (.accept ok) then 1 else 0) ∧
      (s.onAccept ok).nextSessionId = s.nextSessionId := by
  unfold onAccept admits
  by_cases hnone : s.accepts = 0
  · simp [hnone]
  cases haccepting : s.accepting with
  | false => simp [hnone]
  | true =>
    cases ok with
    | false => simpa [hnone] using doAccept_spec _
    | true =>
      by_cases hroom : s.sessions.length < maxWsSessions
      · simpa [hnone, hroom, Nat.not_le.mpr hroom] using doAccept_spec _
      · simpa [hnone, hroom, Nat.not_lt.mp hroom] using doAccept_spec _

theorem onHandshake_true (hpending : s.handshakes ≠ 0) :
    s.onHandshake true = registerSession { s with handshakes := s.handshakes - 1 } := by
  simp [onHandshake, hpending]

theorem onHandshake_false (hpending : s.handshakes ≠ 0) :
    s.onHandshake false = { s with handshakes := s.handshakes - 1 } := by
  simp [onHandshake, hpending]

theorem registerSession_length_le (s : WebSocketServer) :
    s.registerSession.sessions.length ≤ s.sessions.length + 1 := by
  unfold registerSession
  dsimp only
  split_ifs
  · omega
  · simp

/-- Those in the table and those that may still enter it. -/
def admitted (s : WebSocketServer) : ℕ := s.sessions.length + s.handshakes

/-- Only an accept admits a session. -/
theorem admitted_step_le (event : Event) :
    (s.step event).admitted ≤ s.admitted + if s.admits event then 1 else 0 := by
  unfold admitted
  cases event with
  | start =>
    obtain ⟨hsessions, hhandshakes, -⟩ := start_spec s
    rw [step, hsessions, hhandshakes]
    omega
  | stopAccept => exact Nat.le_add_right _ _
  | accept ok =>
    obtain ⟨hsessions, hhandshakes, -⟩ := onAccept_spec s ok
    rw [step, hsessions, hhandshakes]
    omega
  | handshake ok =>
    rw [step]
    by_cases hpending : s.handshakes = 0
    · simp [onHandshake, hpending]
    cases ok with
    | false =>
      rw [onHandshake_false hpending]
      dsimp only
      omega
    | true =>
      rw [onHandshake_true hpending]
      have hlength := registerSession_length_le { s with handshakes := s.handshakes - 1 }
      have hsame : (registerSession { s with handshakes := s.handshakes - 1 }).handshakes =
        s.handshakes - 1 := rfl
      dsimp only at hlength
      omega
  | closed id =>
    have hle : (s.sessions.erase id).length ≤ s.sessions.length := List.length_erase_le
    unfold step unregisterSession
    dsimp only
    omega

theorem admitted_roomy (h : s.admitted ≤ maxWsSessions) {event : Event}
    (hroomy : s.roomy event = true) : (s.step event).admitted ≤ maxWsSessions := by
  have hle := @admitted_step_le s event
  unfold roomy at hroomy
  cases hadmits : s.admits event with
  | false =>
    simp only [hadmits, Bool.false_eq_true, if_false] at hle
    omega
  | true =>
    have hroom : s.sessions.length + s.handshakes < maxWsSessions := by
      simpa [hadmits] using hroomy
    simp only [hadmits, if_true] at hle
    unfold admitted at hle ⊢
    omega

/-- The handshakes of `n` sessions end well. -/
def complete (s : WebSocketServer) (n : ℕ) : WebSocketServer :=
  (List.replicate n (Event.handshake true)).foldl step s

theorem complete_succ (n : ℕ) : s.complete (n + 1) = (s.onHandshake true).complete n := rfl

theorem admitted_complete_le (n : ℕ) : (s.complete n).admitted ≤ s.admitted := by
  induction n generalizing s with
  | zero => exact Nat.le_refl _
  | succ n ih =>
    have hstep := @admitted_step_le s (.handshake true)
    simp only [admits, Bool.false_eq_true, if_false, step] at hstep
    have hrest := @ih (s.onHandshake true)
    rw [complete_succ]
    omega

def FreshIds (s : WebSocketServer) : Prop := ∀ id ∈ s.sessions, id < s.nextSessionId

theorem freshIds_registerSession (h : s.FreshIds) : s.registerSession.FreshIds := by
  intro id hid
  have hmem : id ∈ s.sessions ∨ id = s.nextSessionId := by
    unfold registerSession at hid
    dsimp only at hid
    split_ifs at hid
    · exact .inl hid
    · simpa using hid
  have hnext : s.registerSession.nextSessionId = s.nextSessionId + 1 := rfl
  rcases hmem with hold | rfl
  · have := h id hold
    omega
  · omega

theorem freshIds_onHandshake (h : s.FreshIds) (ok : Bool) : (s.onHandshake ok).FreshIds := by
  by_cases hpending : s.handshakes = 0
  · simpa [onHandshake, hpending] using h
  cases ok with
  | false =>
    rw [onHandshake_false hpending]
    exact h
  | true =>
    rw [onHandshake_true hpending]
    exact @freshIds_registerSession { s with handshakes := s.handshakes - 1 } h

theorem freshIds_step (h : s.FreshIds) (event : Event) : (s.step event).FreshIds := by
  cases event with
  | start =>
    obtain ⟨hsessions, -, hnext⟩ := start_spec s
    unfold FreshIds
    rw [step, hsessions, hnext]
    exact h
  | stopAccept => exact h
  | accept ok =>
    obtain ⟨hsessions, -, hnext⟩ := onAccept_spec s ok
    unfold FreshIds
    rw [step, hsessions, hnext]
    exact h
  | handshake ok => exact freshIds_onHandshake h ok
  | closed id => exact fun other hother => h other (List.mem_of_mem_erase hother)

/-- A session that was admitted can enter the table. -/
theorem length_complete (h : s.FreshIds) {n : ℕ} (hn : n ≤ s.handshakes) :
    (s.complete n).sessions.length = s.sessions.length + n := by
  induction n generalizing s with
  | zero => rfl
  | succ n ih =>
    have hpending : s.handshakes ≠ 0 := by omega
    have hnew : s.nextSessionId ∉ s.sessions := fun hmem => Nat.lt_irrefl _ (h _ hmem)
    have hrest := @ih (s.onHandshake true) (freshIds_onHandshake h true) (by
      rw [onHandshake_true hpending]
      unfold registerSession
      dsimp only
      omega)
    have hlength : (s.onHandshake true).sessions.length = s.sessions.length + 1 := by
      rw [onHandshake_true hpending]
      simp [registerSession, hnew]
    rw [complete_succ, hrest, hlength]
    omega

theorem freshIds_run (events : List Event) : (run events).FreshIds := by
  have hfrom : ∀ s : WebSocketServer, s.FreshIds → (events.foldl step s).FreshIds := by
    induction events with
    | nil => exact fun s h => h
    | cons event events ih => exact fun s h => ih _ (freshIds_step h event)
  exact hfrom {} (fun id hid => nomatch hid)

/-- The cap holds at every point of a run, however the handshakes end that are under way there,
if and only if no session was admitted beyond it. -/
theorem session_cap_iff (events : List Event) :
    (∀ before after, events = before ++ after →
      ∀ n, ((run before).complete n).sessions.length ≤ maxWsSessions) ↔
      roomyRun events = true := by
  constructor
  · intro hcap
    refine GuardedRuns.along_iff.mpr ?_
    intro before event after heq
    by_contra hroomy
    -- the accept that goes through leaves more sessions than the table may hold
    have hadmits : (run before).admits event = true ∧
        maxWsSessions ≤ (run before).sessions.length + (run before).handshakes := by
      simpa [roomy, run] using hroomy
    cases event with
    | accept ok =>
      obtain ⟨hsessions, hhandshakes, -⟩ := onAccept_spec (run before) ok
      have hrun : run (before ++ [.accept ok]) = (run before).onAccept ok := by
        simp [run, List.foldl_append, step]
      have hbound := hcap (before ++ [.accept ok]) after (by rw [heq, List.append_assoc]; rfl)
        ((run before).onAccept ok).handshakes
      rw [hrun] at hbound
      have hfresh : ((run before).onAccept ok).FreshIds :=
        freshIds_step (freshIds_run before) (.accept ok)
      rw [length_complete hfresh (Nat.le_refl _), hsessions, hhandshakes, hadmits.1] at hbound
      simp only [if_true] at hbound
      omega
    | _ => cases hadmits.1
  · intro hroomy before after heq n
    subst heq
    have hbefore : GuardedRuns.along step roomy {} before = true :=
      GuardedRuns.along_of_append hroomy
    have hadmitted : (run before).admitted ≤ maxWsSessions :=
      GuardedRuns.invariant_foldl (P := fun s => s.admitted ≤ maxWsSessions)
        (fun s event h hallowed => admitted_roomy h hallowed) (Nat.zero_le _) hbefore
    have hle := @admitted_complete_le (run before) n
    unfold admitted at hle hadmitted
    omega

/-- Connections that arrive while the table is empty are all admitted. -/
theorem foldl_accepts (haccepting : s.accepting = true) (harmed : s.accepts ≠ 0)
    (hempty : s.sessions = []) (n : ℕ) :
    (List.replicate n (Event.accept true)).foldl step s =
      { s with handshakes := s.handshakes + n } := by
  induction n generalizing s with
  | zero => rfl
  | succ n ih =>
    have hstep : s.step (.accept true) = { s with handshakes := s.handshakes + 1 } := by
      have hcount : s.accepts - 1 + 1 = s.accepts := by omega
      simp [step, onAccept, doAccept, harmed, haccepting, hempty, maxWsSessions, hcount]
    have hrest := @ih { s with handshakes := s.handshakes + 1 } haccepting harmed hempty
    have hsum : s.handshakes + 1 + n = s.handshakes + (n + 1) := by omega
    rw [List.replicate_succ, List.foldl_cons, hstep, hrest, hsum]

/-- One connection more than the cap, and then all their handshakes. -/
def flood : List Event :=
  .start :: (List.replicate (maxWsSessions + 1) (Event.accept true) ++
    List.replicate (maxWsSessions + 1) (Event.handshake true))

/-- The server with their handshakes under way. -/
def flooded : WebSocketServer :=
  { accepting := true, accepts := 1, handshakes := maxWsSessions + 1 }

theorem run_flood : run flood = flooded.complete (maxWsSessions + 1) := by
  have hstart : step {} .start = { accepting := true, accepts := 1 } := rfl
  have haccepts := @foldl_accepts { accepting := true, accepts := 1 } rfl Nat.one_ne_zero rfl
    (maxWsSessions + 1)
  rw [run, flood, List.foldl_cons, List.foldl_append, hstart, haccepts, Nat.zero_add]
  rfl

theorem flood_exceeds_cap :
    ¬ ∀ events : List Event, (run events).sessions.length ≤ maxWsSessions := by
  intro hcap
  have hlength := @length_complete flooded (fun id hid => nomatch hid) _ (Nat.le_refl _)
  have hsessions : flooded.sessions.length = 0 := rfl
  have hhandshakes : flooded.handshakes = maxWsSessions + 1 := rfl
  have hbound := hcap flood
  rw [hhandshakes] at hlength
  rw [run_flood] at hbound
  omega

end WebSocketServer
end GmaEngine
