import Mathlib.Algebra.Ring.Nat
import Mathlib.Data.List.Basic

/-!
# The connection of the feed client

The client connects through a chain of asynchronous operations: resolve, TCP connect, TLS
handshake, WebSocket handshake, the write of the subscription, and then reads. Each operation
completes once, with an error code, and its handler starts the next one. Only a failed read
starts the reconnect timer; the other handlers report a failure and start nothing.
-/

namespace GmaEngine

/-- What a completed operation hands to its handler. `closed` is a regular close by the peer. -/
inductive ErrorCode where
  | success
  | closed
  | failure
  deriving DecidableEq, Repr

/-- The operations that can be pending. `posted` is the call of `doResolve` that `start` has
put on the strand, and the timer is pending with its delay in seconds. -/
inductive AsyncOp where
  | posted
  | resolve
  | connect
  | sslHandshake
  | wsHandshake
  | subscribeWrite
  | read
  | reconnectTimer (delaySec : ℕ)
  deriving DecidableEq, Repr

/-- The scheme of the URL, and whether the program was built with TLS. -/
structure ConnectionConfig where
  tls : Bool
  hasSsl : Bool

/-- A handler starts at most one operation, so at most one is pending. -/
structure FeedConnection where
  stopping : Bool := false
  reconnectAttempts : ℕ := 0
  pending : Option AsyncOp := none
  deriving DecidableEq, Repr

namespace FeedConnection

def maxReconnectDelaySec : ℕ := 30

/-- The client right after `start`. -/
def started : FeedConnection := { pending := some .posted }

def begin (c : FeedConnection) (op : AsyncOp) : FeedConnection := { c with pending := some op }

/-- `fail` logs and counts the error. -/
def fail (c : FeedConnection) : FeedConnection := c

def doResolve (c : FeedConnection) : FeedConnection :=
  if c.stopping then c else c.begin .resolve

/-- `sni` is the answer of `SSL_set_tlsext_host_name`. -/
def onResolve (cfg : ConnectionConfig) (sni : Bool) (c : FeedConnection) (ec : ErrorCode) :
    FeedConnection :=
  if ec ≠ .success then c.fail
  else if c.stopping then c
  else if cfg.tls then
    if !cfg.hasSsl then c
    else if !sni then c.fail
    else c.begin .connect
  else c.begin .connect

def onSslHandshake (cfg : ConnectionConfig) (c : FeedConnection) (ec : ErrorCode) :
    FeedConnection :=
  if ec ≠ .success then c.fail
  else if c.stopping then c
  else if cfg.tls && !cfg.hasSsl then c
  else c.begin .wsHandshake

/-- Without TLS the next handler is called at once. -/
def onTcpConnect (cfg : ConnectionConfig) (c : FeedConnection) (ec : ErrorCode) : FeedConnection :=
  if ec ≠ .success then c.fail
  else if c.stopping then c
  else if cfg.tls then
    if cfg.hasSsl then c.begin .sslHandshake else c
  else c.onSslHandshake cfg .success

def onWsHandshake (cfg : ConnectionConfig) (c : FeedConnection) (ec : ErrorCode) :
    FeedConnection :=
  if ec ≠ .success then c.fail
  else if c.stopping then c
  else if cfg.tls && !cfg.hasSsl then { c with reconnectAttempts := 0 }
  else { c with reconnectAttempts := 0 }.begin .subscribeWrite

def doRead (cfg : ConnectionConfig) (c : FeedConnection) : FeedConnection :=
  if c.stopping then c
  else if cfg.tls && !cfg.hasSsl then c
  else c.begin .read

def onSubscribeWrite (cfg : ConnectionConfig) (c : FeedConnection) (ec : ErrorCode) :
    FeedConnection :=
  if ec ≠ .success then c.fail else c.doRead cfg

def scheduleReconnect (c : FeedConnection) : FeedConnection :=
  if c.stopping then c
  else
    let delaySec := min (2 ^ min c.reconnectAttempts 30) maxReconnectDelaySec
    { c with reconnectAttempts := c.reconnectAttempts + 1 }.begin (.reconnectTimer delaySec)

/-- A message that was read is handled; what the handler throws is caught. -/
def onRead (cfg : ConnectionConfig) (c : FeedConnection) (ec : ErrorCode) : FeedConnection :=
  match ec with
  | .success => c.doRead cfg
  | .closed => if !c.stopping then c.scheduleReconnect else c
  | .failure => if !c.fail.stopping then c.fail.scheduleReconnect else c.fail

def onReconnectTimer (c : FeedConnection) (ec : ErrorCode) : FeedConnection :=
  if ec ≠ .success || c.stopping then c else c.doResolve

/-- The pending operation completes and its handler runs. -/
def complete (cfg : ConnectionConfig) (c : FeedConnection) (ec : ErrorCode) (sni : Bool) :
    FeedConnection :=
  match c.pending with
  | none => c
  | some op =>
    let c := { c with pending := none }
    match op with
    | .posted => c.doResolve
    | .resolve => c.onResolve cfg sni ec
    | .connect => c.onTcpConnect cfg ec
    | .sslHandshake => c.onSslHandshake cfg ec
    | .wsHandshake => c.onWsHandshake cfg ec
    | .subscribeWrite => c.onSubscribeWrite cfg ec
    | .read => c.onRead cfg ec
    | .reconnectTimer _ => c.onReconnectTimer ec

/-- `stop` may come at any time; what it cancels or closes still completes. -/
inductive Action where
  | complete (ec : ErrorCode) (sni : Bool)
  | stop

def step (cfg : ConnectionConfig) (c : FeedConnection) : Action → FeedConnection
  | .complete ec sni => c.complete cfg ec sni
  | .stop => { c with stopping := true }

def run (cfg : ConnectionConfig) (actions : List Action) : FeedConnection :=
  actions.foldl (step cfg) started

/-- The client has something to wait for, unless it was told to stop. -/
def Alive (c : FeedConnection) : Prop := c.stopping = false → c.pending.isSome = true

instance (c : FeedConnection) : Decidable c.Alive := inferInstanceAs (Decidable (_ → _))

/-- The completions that no handler answers: an error anywhere but in a read, and a `wss` URL
that the program cannot serve. -/
def unanswered (cfg : ConnectionConfig) (op : AsyncOp) (ec : ErrorCode) (sni : Bool) : Bool :=
  match op with
  | .posted => false
  | .read => ec = .success && cfg.tls && !cfg.hasSsl
  | .resolve => ec ≠ .success || cfg.tls && !(cfg.hasSsl && sni)
  | .reconnectTimer _ => ec ≠ .success
  | _ => ec ≠ .success || cfg.tls && !cfg.hasSsl

/-- In a client that was not told to stop, the completion of the pending operation is answered. -/
def answers (cfg : ConnectionConfig) (c : FeedConnection) : Action → Bool
  | .complete ec sni => c.stopping || c.pending.all (fun op => !unanswered cfg op ec sni)
  | .stop => true

theorem stopping_complete (cfg : ConnectionConfig) (c : FeedConnection) (ec : ErrorCode)
    (sni : Bool) : (c.complete cfg ec sni).stopping = c.stopping := by
  unfold complete
  cases c.pending with
  | none => rfl
  | some op =>
    cases op with
    | posted =>
      dsimp only
      unfold doResolve
      split_ifs <;> rfl
    | resolve =>
      dsimp only
      unfold onResolve
      split_ifs <;> rfl
    | connect =>
      dsimp only
      unfold onTcpConnect onSslHandshake
      split_ifs <;> rfl
    | sslHandshake =>
      dsimp only
      unfold onSslHandshake
      split_ifs <;> rfl
    | wsHandshake =>
      dsimp only
      unfold onWsHandshake
      split_ifs <;> rfl
    | subscribeWrite =>
      dsimp only
      unfold onSubscribeWrite doRead
      split_ifs <;> rfl
    | read =>
      dsimp only
      unfold onRead doRead scheduleReconnect
      cases ec
      all_goals
        dsimp only
        split_ifs <;> rfl
    | reconnectTimer delaySec =>
      dsimp only
      unfold onReconnectTimer doResolve
      split_ifs <;> rfl

/-- The step lemma: a pending operation is followed by another one exactly when its completion
is answered. -/
theorem pending_complete_iff (cfg : ConnectionConfig) {c : FeedConnection}
    (hopen : c.stopping = false) {op : AsyncOp} (hop : c.pending = some op) (ec : ErrorCode)
    (sni : Bool) :
    (c.complete cfg ec sni).pending.isSome = true ↔ unanswered cfg op ec sni = false := by
  obtain ⟨tls, hasSsl⟩ := cfg
  cases op with
  | posted => simp [complete, hop, hopen, doResolve, begin, unanswered]
  | resolve =>
    cases ec <;> cases tls <;> cases hasSsl <;> cases sni <;>
      simp [complete, hop, hopen, onResolve, begin, fail, unanswered]
  | connect =>
    cases ec <;> cases tls <;> cases hasSsl <;>
      simp [complete, hop, hopen, onTcpConnect, onSslHandshake, begin, fail, unanswered]
  | sslHandshake =>
    cases ec <;> cases tls <;> cases hasSsl <;>
      simp [complete, hop, hopen, onSslHandshake, begin, fail, unanswered]
  | wsHandshake =>
    cases ec <;> cases tls <;> cases hasSsl <;>
      simp [complete, hop, hopen, onWsHandshake, begin, fail, unanswered]
  | subscribeWrite =>
    cases ec <;> cases tls <;> cases hasSsl <;>
      simp [complete, hop, hopen, onSubscribeWrite, doRead, begin, fail, unanswered]
  | read =>
    cases ec <;> cases tls <;> cases hasSsl <;>
      simp [complete, hop, hopen, onRead, doRead, scheduleReconnect, begin, fail, unanswered]
  | reconnectTimer delaySec =>
    cases ec <;>
      simp [complete, hop, hopen, onReconnectTimer, doResolve, begin, unanswered]

theorem alive_step_iff (cfg : ConnectionConfig) {c : FeedConnection} (h : c.Alive)
    (action : Action) : (c.step cfg action).Alive ↔ c.answers cfg action = true := by
  cases action with
  | stop => simp [step, Alive, answers]
  | complete ec sni =>
    unfold step answers Alive
    dsimp only
    rw [stopping_complete]
    cases hstopping : c.stopping with
    | true => simp
    | false =>
      obtain ⟨op, hop⟩ := Option.isSome_iff_exists.mp (h hstopping)
      simp [pending_complete_iff cfg hstopping hop, hop]

/-- In every state of a run the client is alive. -/
def AliveAlong (cfg : ConnectionConfig) (c : FeedConnection) : List Action → Prop
  | [] => c.Alive
  | action :: actions => c.Alive ∧ AliveAlong cfg (c.step cfg action) actions

/-- Every completion of a run is answered. -/
def AnswersAlong (cfg : ConnectionConfig) (c : FeedConnection) : List Action → Prop
  | [] => True
  | action :: actions =>
    c.answers cfg action = true ∧ AnswersAlong cfg (c.step cfg action) actions

theorem aliveAlong_iff (cfg : ConnectionConfig) {c : FeedConnection} (h : c.Alive)
    (actions : List Action) : AliveAlong cfg c actions ↔ AnswersAlong cfg c actions := by
  induction actions generalizing c with
  | nil => exact iff_of_true h trivial
  | cons action actions ih =>
    rw [AliveAlong, AnswersAlong, ← alive_step_iff cfg h action]
    constructor
    · rintro ⟨-, hrest⟩
      have hnext : (c.step cfg action).Alive := by
        cases actions with
        | nil => exact hrest
        | cons _ _ => exact hrest.1
      exact ⟨hnext, (ih hnext).mp hrest⟩
    · rintro ⟨hnext, hrest⟩
      exact ⟨h, (ih hnext).mpr hrest⟩

/-- A started client has something to wait for in every state of a run, until it is told to
stop, exactly when every completion is answered. -/
theorem feed_client_alive_iff (cfg : ConnectionConfig) (actions : List Action) :
    AliveAlong cfg started actions ↔ AnswersAlong cfg started actions := by
  apply aliveAlong_iff
  intro _
  rfl

/-- The name of the host is not resolved. -/
def resolveFails : List Action := [.complete .success true, .complete .failure true]

theorem feed_client_dies_unresolved :
    ¬ ∀ (cfg : ConnectionConfig) (actions : List Action), AliveAlong cfg started actions := by
  intro h
  obtain ⟨-, -, hlast⟩ := h ⟨false, false⟩ resolveFails
  have hdead : ¬ (run ⟨false, false⟩ resolveFails).Alive := by decide
  exact hdead hlast

end FeedConnection
end GmaEngine
