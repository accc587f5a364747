import GmaEngine.SessionCancellation

/-!
# The write queue of a session

The outbox of a session with the writes that are under way and what the socket has written. A
write is given the front of the outbox; the socket completes it once, at any time, and the
completion handler runs on the strand some time later. `System` has the same queue without the
buffers, and follows it step by step.
-/

namespace GmaEngine
open ClientSession

structure WriteQueue (F : Type) where
  isOpen : Bool := true
  outbox : List F := []
  writing : Bool := false
  /-- The buffers of the writes that have not completed. -/
  inFlight : List F := []
  /-- The completion handlers on the strand; `false` is an error. -/
  completed : List Bool := []
  /-- Every frame that was ever put in the outbox. -/
  accepted : List F := []
  /-- The buffers of the writes that completed without an error. -/
  written : List F := []

namespace WriteQueue
variable {F : Type}

def close (q : WriteQueue F) : WriteQueue F := { q with isOpen := false }

def startWrite (q : WriteQueue F) : WriteQueue F :=
  if !q.isOpen then { q with writing := false, outbox := [] }
  else
    match q.outbox with
    | [] => { q with writing := false }
    | front :: _ => { q with inFlight := q.inFlight ++ [front] }

def enqueue (q : WriteQueue F) (frame : F) : WriteQueue F :=
  let q := { q with outbox := q.outbox ++ [frame], accepted := q.accepted ++ [frame] }
  if q.writing then q else startWrite { q with writing := true }

def sendText (q : WriteQueue F) (frame : F) : WriteQueue F :=
  if !q.isOpen then q
  else if maxOutboxSize ≤ q.outbox.length then q.close
  else q.enqueue frame

def onWrite (q : WriteQueue F) (ok : Bool) : WriteQueue F :=
  if !ok then q.close else startWrite { q with outbox := q.outbox.tail }

/-- The socket completes one of the writes. -/
def complete (q : WriteQueue F) (i : ℕ) (ok : Bool) : WriteQueue F :=
  match q.inFlight[i]? with
  | none => q
  | some buffer =>
    { q with
      inFlight := q.inFlight.eraseIdx i
      completed := q.completed ++ [ok]
      written := if ok then q.written ++ [buffer] else q.written }

/-- The strand runs the next completion handler. -/
def handle (q : WriteQueue F) : WriteQueue F :=
  match q.completed with
  | [] => q
  | ok :: rest => onWrite { q with completed := rest } ok

inductive Step (F : Type) where
  | sendText (frame : F)
  | complete (i : ℕ) (ok : Bool)
  | handle
  | close

def step (q : WriteQueue F) : Step F → WriteQueue F
  | .sendText frame => q.sendText frame
  | .complete i ok => q.complete i ok
  | .handle => q.handle
  | .close => q.close

def run (steps : List (Step F)) : WriteQueue F := steps.foldl step {}

/-- The frames of the outbox that the socket has not written: a completion that still waits for
the strand has left its frame at the front. -/
def unwritten (q : WriteQueue F) : List F := q.outbox.drop (q.completed.count true)

/-- A write is pending until its completion handler has run. -/
def pending (q : WriteQueue F) : ℕ := q.inFlight.length + q.completed.length

/-- The outbox was cleared after the session closed. -/
def Cleared (q : WriteQueue F) : Prop :=
  q.isOpen = false ∧ q.pending = 0 ∧ q.outbox = [] ∧ q.written <+: q.accepted

structure Ok (q : WriteQueue F) : Prop where
  one : q.pending ≤ 1
  flag : q.isOpen = true → (q.writing = true ↔ q.pending = 1)
  front : ∀ buffer ∈ q.inFlight, q.outbox.head? = some buffer
  kept : q.pending = 1 → q.outbox ≠ []
  bounded : q.outbox.length ≤ maxOutboxSize
  history : q.accepted = q.written ++ q.unwritten ∨ q.Cleared

variable {q : WriteQueue F}

theorem pending_eq_zero_iff : q.pending = 0 ↔ q.inFlight = [] ∧ q.completed = [] := by
  simp [pending]

theorem ok_empty : Ok ({} : WriteQueue F) where
  one := by simp [pending]
  flag := by simp [pending]
  front := by simp
  kept := by simp [pending]
  bounded := by simp
  history := .inl rfl

theorem Ok.history_of_open (h : q.Ok) (hopen : q.isOpen = true) :
    q.accepted = q.written ++ q.unwritten := by
  rcases h.history with hall | ⟨hclosed, -⟩
  · exact hall
  · rw [hopen] at hclosed
    cases hclosed

theorem Ok.history_of_pending (h : q.Ok) (hpending : q.pending = 1) :
    q.accepted = q.written ++ q.unwritten := by
  rcases h.history with hall | ⟨-, hidle, -⟩
  · exact hall
  · omega

theorem Ok.close (h : q.Ok) : q.close.Ok where
  one := h.one
  flag := by simp [WriteQueue.close]
  front := h.front
  kept := h.kept
  bounded := h.bounded
  history := by
    rcases h.history with hall | ⟨-, hrest⟩
    · exact .inl hall
    · exact .inr ⟨rfl, hrest⟩

theorem startWrite_of_closed (hclosed : q.isOpen = false) :
    q.startWrite = { q with writing := false, outbox := [] } := by
  simp [startWrite, hclosed]

theorem startWrite_of_nil (hopen : q.isOpen = true) (hbox : q.outbox = []) :
    q.startWrite = { q with writing := false } := by
  simp [startWrite, hopen, hbox]

theorem startWrite_of_cons (hopen : q.isOpen = true) {front : F} {rest : List F}
    (hbox : q.outbox = front :: rest) :
    q.startWrite = { q with inFlight := q.inFlight ++ [front] } := by
  simp [startWrite, hopen, hbox]

theorem startWrite_completed (q : WriteQueue F) : q.startWrite.completed = q.completed := by
  unfold startWrite
  split
  · rfl
  · split <;> rfl

theorem enqueue_completed (q : WriteQueue F) (frame : F) :
    (q.enqueue frame).completed = q.completed := by
  unfold enqueue
  dsimp only
  split_ifs
  · rfl
  · rw [startWrite_completed]

/-- A write starts only when none is pending. -/
theorem ok_startWrite (hidle : q.pending = 0) (hflag : q.isOpen = true → q.writing = true)
    (hbound : q.outbox.length ≤ maxOutboxSize)
    (hhistory : q.accepted = q.written ++ q.outbox) : q.startWrite.Ok := by
  obtain ⟨hflight, hdone⟩ := pending_eq_zero_iff.mp hidle
  cases hopen : q.isOpen with
  | false =>
    rw [startWrite_of_closed hopen]
    have hclear : q.written <+: q.accepted := ⟨q.outbox, hhistory.symm⟩
    exact
      { one := by simp [pending, hflight, hdone]
        flag := by simp [hopen]
        front := by simp [hflight]
        kept := by simp [pending, hflight, hdone]
        bounded := by simp
        history := .inr ⟨hopen, hidle, rfl, hclear⟩ }
  | true =>
    cases hbox : q.outbox with
    | nil =>
      rw [startWrite_of_nil hopen hbox]
      exact
        { one := by simp [pending, hflight, hdone]
          flag := by simp [pending, hflight, hdone]
          front := by simp [hflight]
          kept := by simp [pending, hflight, hdone]
          bounded := hbound
          history := .inl (by simp [unwritten, hdone, hhistory]) }
    | cons front rest =>
      rw [startWrite_of_cons hopen hbox]
      exact
        { one := by simp [pending, hflight, hdone]
          flag := by simp [pending, hflight, hdone, hflag hopen]
          front := by simp [hflight, hbox]
          kept := by simp [hbox]
          bounded := hbound
          history := .inl (by simp [unwritten, hdone, hhistory]) }

theorem Ok.enqueue (h : q.Ok) (hopen : q.isOpen = true) (hroom : q.outbox.length < maxOutboxSize)
    (frame : F) : (q.enqueue frame).Ok := by
  have hall := h.history_of_open hopen
  have hbound : (q.outbox ++ [frame]).length ≤ maxOutboxSize := by
    simp only [List.length_append, List.length_singleton]
    omega
  unfold WriteQueue.enqueue
  cases hwriting : q.writing with
  | false =>
    have hidle : q.pending = 0 := by
      have hone := h.one
      have hne : q.pending ≠ 1 := by
        intro he
        rw [(h.flag hopen).mpr he] at hwriting
        cases hwriting
      omega
    have hdone := (pending_eq_zero_iff.mp hidle).2
    simp only [Bool.false_eq_true, if_false]
    refine ok_startWrite hidle (fun _ => rfl) hbound ?_
    simp [hall, unwritten, hdone]
  | true =>
    -- the frame waits behind the one that is being written
    have hpending := (h.flag hopen).mp hwriting
    have hfront : q.completed.count true ≤ q.outbox.length := by
      have hcount : q.completed.count true ≤ q.completed.length := List.count_le_length
      have hpos := List.length_pos_iff.mpr (h.kept hpending)
      unfold pending at hpending
      omega
    exact
      { one := h.one
        flag := by simpa [hwriting, pending] using h.flag
        front := fun buffer hbuffer => by simp [List.head?_append, h.front buffer hbuffer]
        kept := by simp
        bounded := hbound
        history := .inl (by simp [unwritten, List.drop_append_of_le_length hfront, hall]) }

theorem Ok.sendText (h : q.Ok) (frame : F) : (q.sendText frame).Ok := by
  unfold WriteQueue.sendText
  split_ifs with hclosed hfull
  · exact h
  · exact h.close
  · exact h.enqueue (by simpa using hclosed) (by omega) frame

/-- The one write in flight is the one that completes. -/
theorem Ok.inFlight_eq (h : q.Ok) {i : ℕ} {buffer : F} (hget : q.inFlight[i]? = some buffer) :
    i = 0 ∧ q.inFlight = [buffer] ∧ q.completed = [] := by
  have hone := h.one
  unfold pending at hone
  cases hflight : q.inFlight with
  | nil => simp [hflight] at hget
  | cons first rest =>
    rw [hflight, List.length_cons] at hone
    obtain rfl : rest = [] := List.eq_nil_of_length_eq_zero (by omega)
    have hdone : q.completed = [] := List.eq_nil_of_length_eq_zero (by omega)
    rw [hflight, List.getElem?_singleton] at hget
    split_ifs at hget with hi
    cases hget
    exact ⟨hi, rfl, hdone⟩

theorem Ok.complete (h : q.Ok) (i : ℕ) (ok : Bool) : (q.complete i ok).Ok := by
  unfold WriteQueue.complete
  cases hget : q.inFlight[i]? with
  | none => exact h
  | some buffer =>
    obtain ⟨rfl, hflight, hdone⟩ := h.inFlight_eq hget
    have hpending : q.pending = 1 := by simp [pending, hflight, hdone]
    obtain ⟨rest, hbox⟩ : ∃ rest, q.outbox = buffer :: rest :=
      List.head?_eq_some_iff.mp (h.front buffer (by simp [hflight]))
    have hall := h.history_of_pending hpending
    simp only [unwritten, hdone, hbox, List.count_nil, List.drop_zero] at hall
    exact
      { one := by simp [pending, hflight, hdone]
        flag := fun hopen => by simpa [pending, hflight, hdone] using h.flag hopen
        front := by simp [hflight]
        kept := by simp [hbox]
        bounded := h.bounded
        history := by
          refine .inl ?_
          cases ok with
          | false => simp [unwritten, hdone, hall, hbox]
          | true => simp [unwritten, hdone, hall, hbox] }

theorem Ok.handle (h : q.Ok) : q.handle.Ok := by
  unfold WriteQueue.handle
  cases hdone : q.completed with
  | nil => exact h
  | cons ok rest =>
    have hone := h.one
    rw [pending, hdone, List.length_cons] at hone
    obtain rfl : rest = [] := List.eq_nil_of_length_eq_zero (by omega)
    have hflight : q.inFlight = [] := List.eq_nil_of_length_eq_zero (by omega)
    have hpending : q.pending = 1 := by simp [pending, hflight, hdone]
    have hall := h.history_of_pending hpending
    unfold onWrite
    cases ok with
    | false =>
      exact
        { one := by simp [WriteQueue.close, pending, hflight]
          flag := by simp [WriteQueue.close]
          front := by simp [WriteQueue.close, hflight]
          kept := by simp [WriteQueue.close, pending, hflight]
          bounded := h.bounded
          history := .inl (by simpa [WriteQueue.close, unwritten, hdone] using hall) }
    | true =>
      have hbound : q.outbox.tail.length ≤ maxOutboxSize := by
        have := h.bounded
        rw [List.length_tail]
        omega
      refine ok_startWrite (by simp [pending, hflight]) ?_ hbound ?_
      · exact fun hopen => (h.flag hopen).mpr hpending
      · simpa [unwritten, hdone] using hall

theorem Ok.step (h : q.Ok) (st : Step F) : (q.step st).Ok := by
  cases st with
  | sendText frame => exact h.sendText frame
  | complete i ok => exact h.complete i ok
  | handle => exact h.handle
  | close => exact h.close

theorem Ok.steps (h : q.Ok) (steps : List (Step F)) : (steps.foldl WriteQueue.step q).Ok := by
  induction steps generalizing q with
  | nil => exact h
  | cons st steps ih => exact ih (h.step st)

end WriteQueue

/-- The error code that a completion handler was given. -/
def Handler.completion {D : Type} : Handler D → Option Bool
  | .written ok => some ok
  | _ => none

/-- A session has the flags and the frames of a queue. -/
structure Session.Follows {D : Type} (ses : Session D) (q : WriteQueue (Frame D)) : Prop where
  isOpen : ses.isOpen = q.isOpen
  outbox : ses.outbox = q.outbox
  writing : ses.writing = q.writing
  inFlight : ses.inFlight = !q.inFlight.isEmpty
  accepted : ses.enqueued = q.accepted

namespace System
variable {D : Type} {s : System D} {q : WriteQueue (Frame D)}

structure Tracks (s : System D) (q : WriteQueue (Frame D)) : Prop where
  follows : s.session.Follows q
  completed : s.strand.filterMap Handler.completion = q.completed

theorem follows_startWrite {ses : Session D} (h : ses.Follows q) :
    (startWrite ses).Follows q.startWrite := by
  cases hq : q.isOpen with
  | false =>
    have heq : startWrite ses = { ses with writing := false, outbox := [] } := by
      simp [startWrite, h.isOpen, hq]
    rw [heq, WriteQueue.startWrite_of_closed hq]
    exact ⟨h.isOpen, rfl, rfl, h.inFlight, h.accepted⟩
  | true =>
    cases hout : q.outbox with
    | nil =>
      have heq : startWrite ses = { ses with writing := false } := by
        simp [startWrite, h.isOpen, hq, h.outbox, hout]
      rw [heq, WriteQueue.startWrite_of_nil hq hout]
      exact ⟨h.isOpen, h.outbox, rfl, h.inFlight, h.accepted⟩
    | cons front rest =>
      have heq : startWrite ses = { ses with inFlight := true } := by
        simp [startWrite, h.isOpen, hq, h.outbox, hout]
      rw [heq, WriteQueue.startWrite_of_cons hq hout]
      exact ⟨h.isOpen, h.outbox, h.writing, by simp, h.accepted⟩

theorem follows_enqueue {ses : Session D} (h : ses.Follows q) (frame : Frame D) :
    (enqueue ses frame).Follows (q.enqueue frame) := by
  have hbox : ses.outbox ++ [frame] = q.outbox ++ [frame] := by rw [h.outbox]
  have haccepted : ses.enqueued ++ [frame] = q.accepted ++ [frame] := by rw [h.accepted]
  unfold enqueue WriteQueue.enqueue
  simp only [h.writing]
  split_ifs with hwriting
  · exact ⟨h.isOpen, hbox, rfl, h.inFlight, haccepted⟩
  · exact follows_startWrite ⟨h.isOpen, hbox, rfl, h.inFlight, haccepted⟩

theorem Tracks.close (h : s.Tracks q) : s.close.Tracks q.close := by
  have hf := h.follows
  unfold System.close
  split_ifs with hopen
  · exact ⟨⟨rfl, hf.outbox, hf.writing, hf.inFlight, hf.accepted⟩, h.completed⟩
  · have hsame : s.session.isOpen = false := by simpa using hopen
    exact ⟨⟨hsame, hf.outbox, hf.writing, hf.inFlight, hf.accepted⟩, h.completed⟩

theorem Tracks.sendText (h : s.Tracks q) (frame : Frame D) :
    (s.sendText frame).Tracks (q.sendText frame) := by
  unfold System.sendText WriteQueue.sendText
  rw [h.follows.isOpen, h.follows.outbox]
  split_ifs
  · exact h
  · exact h.close
  · exact ⟨follows_enqueue h.follows frame,
      h.completed.trans (WriteQueue.enqueue_completed q frame).symm⟩

theorem Tracks.onWrite (h : s.Tracks q) (ok : Bool) : (s.onWrite ok).Tracks (q.onWrite ok) := by
  have hf := h.follows
  unfold System.onWrite WriteQueue.onWrite
  split_ifs
  · exact h.close
  · have htail : ({ s.session with outbox := s.session.outbox.tail } : Session D).Follows
        { q with outbox := q.outbox.tail } :=
      ⟨hf.isOpen, by rw [hf.outbox], hf.writing, hf.inFlight, hf.accepted⟩
    exact ⟨follows_startWrite htail,
      h.completed.trans (WriteQueue.startWrite_completed { q with outbox := q.outbox.tail }).symm⟩

/-- The socket is the only one to complete a write. -/
theorem Tracks.complete (h : s.Tracks q) (hq : q.Ok) (hflight : s.session.inFlight = true)
    (ok : Bool) :
    Tracks { s with session := { s.session with inFlight := false },
                    strand := s.strand ++ [.written ok] } (q.complete 0 ok) := by
  have hf := h.follows
  obtain ⟨buffer, rest, hbuffers⟩ : ∃ buffer rest, q.inFlight = buffer :: rest := by
    rw [hf.inFlight] at hflight
    cases hbuffers : q.inFlight with
    | nil => simp [hbuffers] at hflight
    | cons buffer rest => exact ⟨buffer, rest, rfl⟩
  have hget : q.inFlight[0]? = some buffer := by simp [hbuffers]
  obtain ⟨-, hone, -⟩ := hq.inFlight_eq hget
  unfold WriteQueue.complete
  rw [hget]
  refine ⟨⟨hf.isOpen, hf.outbox, hf.writing, by simp [hone], hf.accepted⟩, ?_⟩
  simp [Handler.completion, ← h.completed]

/-- Handlers are queued that complete no write. -/
theorem Tracks.queued (h : s.Tracks q) {handlers : List (Handler D)}
    (hnone : handlers.filterMap Handler.completion = []) :
    (s.strand ++ handlers).filterMap Handler.completion = q.completed := by
  rw [List.filterMap_append, hnone, List.append_nil, h.completed]

variable [Double D]

/-- A request is not a matter of the queue. -/
theorem Tracks.handleRequest (h : s.Tracks q) (env : SessionEnv D) (r : Json D) :
    (s.handleRequest env r).Tracks q := by
  have hf := h.follows
  rcases handleRequest_cases env r with
    ⟨location, message, heq⟩ | ⟨key, rq, result, rt, -, ⟨message, -, heq⟩ | ⟨built, -, -, heq⟩⟩
  · rw [heq]
    exact ⟨hf, h.completed⟩
  · rw [heq]
    exact ⟨hf, h.completed⟩
  · rw [heq]
    exact ⟨⟨hf.isOpen, hf.outbox, hf.writing, hf.inFlight, hf.accepted⟩, h.completed⟩

omit [Double D] in
theorem completion_cancelsOf (keyOf : Json D → Option RequestKey) (message : String)
    (elems : List (Json D)) :
    (cancelsOf keyOf message elems).filterMap Handler.completion = [] := by
  rw [cancelsOf, List.filterMap_append, List.filterMap_map]
  simp [Handler.completion, Function.comp_def]

omit [Double D] in
/-- A message completes no write. -/
theorem completion_handleMessage (env : SessionEnv D) (allowed : Bool) (doc : Option (Json D)) :
    (handleMessage env allowed doc).filterMap Handler.completion = [] := by
  unfold handleMessage
  split
  · split
    · unfold handleSubscribe
      split_ifs
      · rfl
      · rfl
      · split <;> rfl
    · unfold handleCancel
      split
      · rfl
      · exact completion_cancelsOf _ _ _
      · exact completion_cancelsOf _ _ _
      · rfl
    · rfl
    · rfl
  · rfl

/-- What the queue does while the strand runs a handler. -/
theorem Tracks.runStrand (h : s.Tracks q) (env : SessionEnv D) (allowed : Bool) :
    ∃ steps : List (WriteQueue.Step (Frame D)),
      (s.runStrand env allowed).Tracks (steps.foldl WriteQueue.step q) := by
  have hf := h.follows
  have hdone := h.completed
  unfold System.runStrand
  cases hstrand : s.strand with
  | nil => exact ⟨[], h⟩
  | cons handler rest =>
    rw [hstrand, List.filterMap_cons] at hdone
    cases handler with
    | message doc =>
      have hall : (handleMessage env allowed doc ++ rest).filterMap Handler.completion =
          q.completed := by
        rw [List.filterMap_append, completion_handleMessage]
        exact hdone
      exact ⟨[], hf, hall⟩
    | requests rs =>
      cases rs with
      | nil => exact ⟨[], hf, hdone⟩
      | cons r rs =>
        have hrest : Tracks (next { s with strand := rest } [.requests rs]) q := ⟨hf, hdone⟩
        exact ⟨[], hrest.handleRequest env r⟩
    | cancels keys =>
      cases keys with
      | nil => exact ⟨[], hf, hdone⟩
      | cons key keys =>
        exact ⟨[], ⟨hf.isOpen, hf.outbox, hf.writing, hf.inFlight, hf.accepted⟩, hdone⟩
    | send frame =>
      have hrest : Tracks { s with strand := rest } q := ⟨hf, hdone⟩
      exact ⟨[.sendText frame], hrest.sendText frame⟩
    | written ok =>
      -- the handler of the completed write runs
      have hrest : Tracks { s with strand := rest }
          { q with completed := rest.filterMap Handler.completion } :=
        ⟨⟨hf.isOpen, hf.outbox, hf.writing, hf.inFlight, hf.accepted⟩, rfl⟩
      have hstep : q.handle =
          WriteQueue.onWrite { q with completed := rest.filterMap Handler.completion } ok := by
        unfold WriteQueue.handle
        rw [← hdone]
        rfl
      refine ⟨[.handle], ?_⟩
      rw [List.foldl_cons, List.foldl_nil, WriteQueue.step, hstep]
      exact hrest.onWrite ok
    | close =>
      have hrest : Tracks { s with strand := rest } q := ⟨hf, hdone⟩
      exact ⟨[.close], hrest.close⟩

theorem Tracks.step (h : s.Tracks q) (hq : q.Ok) (env : SessionEnv D) (action : Action D) :
    ∃ steps : List (WriteQueue.Step (Frame D)),
      (s.step env action).Tracks (steps.foldl WriteQueue.step q) := by
  have hf := h.follows
  cases action with
  | receive doc => exact ⟨[], hf, h.queued rfl⟩
  | requestClose => exact ⟨[], hf, h.queued rfl⟩
  | writeDone ok =>
    unfold System.step
    dsimp only
    split_ifs with hflight
    · exact ⟨[.complete 0 ok], h.complete hq hflight ok⟩
    · exact ⟨[], h⟩
  | strand allowed => exact h.runStrand env allowed
  | notify symbol field value => exact ⟨[], hf, h.completed⟩
  | timer id => exact ⟨[], hf, h.completed⟩
  | work task store =>
    refine ⟨[], ?_⟩
    simp only [System.step, System.work]
    split
    · refine ⟨hf, h.queued ?_⟩
      split_ifs
      · rw [List.filterMap_map]
        exact List.filterMap_eq_nil_iff.mpr fun _ _ => rfl
      · rfl
    · exact h

/-- Every run of the system is one of the queue, so that what holds of the runs of the queue
holds of the sessions. -/
theorem run_tracks (env : SessionEnv D) (actions : List (Action D)) :
    ∃ steps, (run env {} actions).Tracks (WriteQueue.run steps) := by
  have hfrom : ∀ (s : System D) q, s.Tracks q → q.Ok →
      ∃ steps : List (WriteQueue.Step (Frame D)),
        (run env s actions).Tracks (steps.foldl WriteQueue.step q) := by
    induction actions with
    | nil => exact fun s q h _ => ⟨[], h⟩
    | cons action actions ih =>
      intro s q h hq
      obtain ⟨steps, hstep⟩ := h.step hq env action
      obtain ⟨more, hmore⟩ := ih _ _ hstep (hq.steps steps)
      refine ⟨steps ++ more, ?_⟩
      rw [List.foldl_append]
      exact hmore
  exact hfrom {} {} ⟨⟨rfl, rfl, rfl, rfl, rfl⟩, rfl⟩ WriteQueue.ok_empty

end System
end GmaEngine
