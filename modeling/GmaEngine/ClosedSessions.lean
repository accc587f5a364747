import GmaEngine.GuardedRuns
import GmaEngine.SessionCancellation

/-!
# Closed sessions

`close` shuts down the heads of a session and clears its tables. The handlers that come later do
not ask whether the session is open: a batch of requests goes on after a frame has found the
outbox full, and a message that was read before is still handled. A request that is accepted
then leaves a subscription that nothing ends.
-/

namespace GmaEngine.System
variable {D : Type}

section
variable [Double D]

/-- The head that a request makes, if it is accepted. -/
def headOf (env : SessionEnv D) (s : System D) (r : Json D) : Option NodeId :=
  match ClientSession.parseRequest r with
  | .error _ => none
  | .ok (key, rq) =>
    if (lookupKey s.session.active key).isNone &&
        decide (ClientSession.maxSubscriptions ≤ s.session.active.length) then none
    else
      match ((TreeBuilder.buildForRequest env.build rq (some s.rt.nodes.length)).run.run
        { s.rt with nodes := s.rt.nodes ++ [.responder key false] }).1 with
      | .error _ => none
      | .ok built => some built.head

/-- The head that the next handler of the strand makes. -/
def nextHead (env : SessionEnv D) (s : System D) : Option NodeId :=
  match s.strand with
  | .requests (r :: _) :: _ => s.headOf env r
  | _ => none

/-- The head that an action makes. -/
def headBy (env : SessionEnv D) (s : System D) : Action D → Option NodeId
  | .strand _ => s.nextHead env
  | _ => none

/-- The heads that a run makes. -/
def headsMade (env : SessionEnv D) (s : System D) : List (Action D) → List NodeId
  | [] => []
  | action :: rest => (s.headBy env action).toList ++ headsMade env (s.step env action) rest

/-- If the action accepts a request, the session is open. -/
def accepting (env : SessionEnv D) (s : System D) (action : Action D) : Bool :=
  (s.headBy env action).isNone || s.session.isOpen

/-- Every request that is accepted in a run finds the session open. -/
def acceptsOpen (env : SessionEnv D) : System D → List (Action D) → Bool :=
  GuardedRuns.along (step env) (accepting env)

end

/-- A closed session has empty tables, and none of the heads is registered. -/
def Released (s : System D) (made : List NodeId) : Prop :=
  s.session.isOpen = false → s.session.active = [] ∧ s.session.chains = [] ∧
    ∀ head ∈ made, ∀ symbol field, head ∉ s.rt.listeners symbol field

/-- A head that is registered is in the table of an open session. -/
structure Keeps (s : System D) (made : List NodeId) : Prop where
  heap : HeapOk s.rt s.origins
  keys : (s.session.active.map Prod.fst).Nodup
  closed : s.session.isOpen = false → s.session.active = [] ∧ s.session.chains = []
  old : ∀ head ∈ made, head < s.rt.nodes.length
  listed : ∀ head ∈ made, ∀ symbol field, head ∈ s.rt.listeners symbol field → head ∈ s.heads

theorem keeps_initial : Keeps ({} : System D) [] := by
  refine ⟨⟨rfl, ?_, ?_⟩, List.nodup_nil, (fun h => nomatch h), ?_, ?_⟩
  · intro id node hnode
    cases hnode
  · intro symbol field id hid
    cases hid
  · intro head hhead
    cases hhead
  · intro head hhead
    cases hhead

section
variable {s : System D} {made : List NodeId}

theorem Keeps.released (h : Keeps s made) : Released s made := by
  intro hopen
  obtain ⟨hactive, hchains⟩ := h.closed hopen
  refine ⟨hactive, hchains, ?_⟩
  intro head hhead symbol field hlisted
  have hmem := h.listed head hhead symbol field hlisted
  rw [heads, hactive] at hmem
  cases hmem

theorem startWrite_tables (ses : Session D) :
    (startWrite ses).isOpen = ses.isOpen ∧ (startWrite ses).active = ses.active ∧
      (startWrite ses).chains = ses.chains := by
  unfold startWrite
  split_ifs <;> exact ⟨rfl, rfl, rfl⟩

theorem enqueue_tables (ses : Session D) (frame : Frame D) :
    (enqueue ses frame).isOpen = ses.isOpen ∧ (enqueue ses frame).active = ses.active ∧
      (enqueue ses frame).chains = ses.chains := by
  unfold enqueue
  dsimp only
  split_ifs
  · exact ⟨rfl, rfl, rfl⟩
  · exact startWrite_tables _

/-- Only the strand, the pool or the frames change. -/
theorem Keeps.aside (h : Keeps s made) {s' : System D} (hrt : s'.rt = s.rt)
    (horigins : s'.origins = s.origins) (hopen : s'.session.isOpen = s.session.isOpen)
    (hactive : s'.session.active = s.session.active)
    (hchains : s'.session.chains = s.session.chains) : Keeps s' made := by
  refine ⟨?_, ?_, ?_, ?_, ?_⟩
  · rw [hrt, horigins]
    exact h.heap
  · rw [hactive]
    exact h.keys
  · rw [hopen, hactive, hchains]
    exact h.closed
  · rw [hrt]
    exact h.old
  · rw [hrt, heads, hactive]
    exact h.listed

/-- Nodes are made for a chain, or change in place. -/
theorem Keeps.evolves (h : Keeps s made) {rt : Runtime D} {chain : NodeId}
    (he : Evolves chain s.origins s.rt rt) : Keeps (s.withRuntime rt chain) made := by
  refine ⟨he.heap, h.keys, h.closed, ?_, ?_⟩
  · intro head hhead
    have hlt := h.old head hhead
    have hle := he.length_le
    exact Nat.lt_of_lt_of_le hlt hle
  · intro head hhead symbol field hlisted
    have hlt := h.old head hhead
    rcases he.listed hlisted with hold | hnew
    · exact h.listed head hhead symbol field hold
    · exact absurd hlt (Nat.not_lt.mpr hnew)

/-- Heads are shut down, and what is left of the table holds the others. -/
theorem Keeps.shuts (h : Keeps s made) {shut : List NodeId} {s' : System D}
    (hshuts : Shuts shut s.origins s.rt s'.rt) (horigins : s'.origins = s.origins)
    (hkeys : (s'.session.active.map Prod.fst).Nodup)
    (hclosed : s'.session.isOpen = false → s'.session.active = [] ∧ s'.session.chains = [])
    (hheads : ∀ head ∈ s.heads, head ∉ shut → head ∈ s'.heads) : Keeps s' made := by
  refine ⟨?_, hkeys, hclosed, ?_, ?_⟩
  · rw [horigins]
    exact hshuts.heap
  · intro head hhead
    rw [hshuts.length]
    exact h.old head hhead
  · intro head hhead symbol field hlisted
    obtain ⟨hold, hnot⟩ := hshuts.listed hlisted
    exact hheads head (h.listed head hhead symbol field hold) hnot

theorem Keeps.close (h : Keeps s made) : Keeps s.close made := by
  unfold System.close
  split_ifs
  · refine h.shuts (shuts_foldl (s.session.active.map Prod.snd) h.heap) rfl List.nodup_nil
      (fun _ => ⟨rfl, rfl⟩) ?_
    intro head hhead hnot
    exact absurd hhead hnot
  · exact h

/-- A head that is not the one under a key stays in the table without that key. -/
theorem mem_heads_of_ne (h : Keeps s made) {key : RequestKey} {head : NodeId}
    (hhead : head ∈ s.heads) (hnot : head ∉ (lookupKey s.session.active key).toList) :
    ∃ entry ∈ s.session.active, entry.1 ≠ key ∧ entry.2 = head := by
  obtain ⟨entry, hentry, rfl⟩ := List.mem_map.mp hhead
  refine ⟨entry, hentry, ?_, rfl⟩
  rintro rfl
  have hlookup : lookupKey s.session.active entry.1 = some entry.2 :=
    (lookupKey_eq_some_iff h.keys).mpr hentry
  rw [hlookup] at hnot
  exact hnot (List.mem_singleton.mpr rfl)

theorem Keeps.handleCancelKey (h : Keeps s made) (key : RequestKey) :
    Keeps (s.handleCancelKey key) made := by
  refine h.shuts (shuts_lookup h.heap (lookupKey s.session.active key)) rfl
    (nodup_removeKey h.keys) ?_ ?_
  · intro hopen
    obtain ⟨hactive, hchains⟩ := h.closed hopen
    simp only [System.handleCancelKey, hactive, hchains]
    exact ⟨rfl, rfl⟩
  · intro head hhead hnot
    obtain ⟨entry, hentry, hkey, heq⟩ := mem_heads_of_ne h hhead hnot
    have hkept : entry ∈ KeyedQueues.removeKey Prod.fst key s.session.active := by
      simpa [KeyedQueues.removeKey] using ⟨hentry, hkey⟩
    exact List.mem_map.mpr ⟨entry, hkept, heq⟩

/-- A chain is installed in an open session. -/
theorem Keeps.install (h : Keeps s made) (hopen : s.session.isOpen = true) (key : RequestKey)
    (terminal : NodeId) {built : BuiltChain} (hhead : built.head < s.rt.nodes.length) :
    Keeps (s.install key terminal built) (built.head :: made) := by
  have hshuts := shuts_lookup h.heap (lookupKey s.session.active key)
  have hkeeps : Keeps (s.install key terminal built) made := by
    refine h.shuts hshuts rfl (nodup_assignKey h.keys) ?_ ?_
    · intro hclosed
      exact absurd (hopen.symm.trans hclosed) Bool.noConfusion
    · intro head hmem hnot
      obtain ⟨entry, hentry, hkey, heq⟩ := mem_heads_of_ne h hmem hnot
      exact List.mem_map.mpr ⟨entry, mem_assignKey.mpr (.inr ⟨hentry, hkey⟩), heq⟩
  refine ⟨hkeeps.heap, hkeeps.keys, hkeeps.closed, ?_, ?_⟩
  · intro head hmem
    rcases List.mem_cons.mp hmem with rfl | hold
    · exact hshuts.length ▸ hhead
    · exact hkeeps.old head hold
  · intro head hmem symbol field hlisted
    rcases List.mem_cons.mp hmem with rfl | hold
    · exact List.mem_map.mpr ⟨(key, built.head), mem_assignKey.mpr (.inl rfl), rfl⟩
    · exact hkeeps.listed head hold symbol field hlisted

theorem Keeps.sendText (h : Keeps s made) (frame : Frame D) : Keeps (s.sendText frame) made := by
  unfold System.sendText
  split_ifs
  · exact h
  · exact h.close
  · obtain ⟨hopen, hactive, hchains⟩ := enqueue_tables s.session frame
    exact h.aside rfl rfl hopen hactive hchains

theorem Keeps.onWrite (h : Keeps s made) (ok : Bool) : Keeps (s.onWrite ok) made := by
  unfold System.onWrite
  split_ifs
  · exact h.close
  · obtain ⟨hopen, hactive, hchains⟩ :=
      startWrite_tables { s.session with outbox := s.session.outbox.tail }
    exact h.aside rfl rfl hopen hactive hchains

variable [Double D]

/-- A request leaves the tables, or installs a chain whose head is new. -/
theorem handleRequest_head (env : SessionEnv D) (h : HeapOk s.rt s.origins) (r : Json D) :
    ∃ rt, Evolves s.rt.nodes.length s.origins s.rt rt ∧
      ((s.headOf env r = none ∧ ∃ frame, s.handleRequest env r =
          (s.withRuntime rt s.rt.nodes.length).next [.send frame]) ∨
        ∃ key built, s.headOf env r = some built.head ∧ built.head < rt.nodes.length ∧
          s.handleRequest env r = ((s.withRuntime rt s.rt.nodes.length).install key
            s.rt.nodes.length built).next [.send (.subscribed key)]) := by
  have hsame : s.withRuntime s.rt s.rt.nodes.length = s := by simp [withRuntime]
  unfold headOf handleRequest
  cases ClientSession.parseRequest r with
  | error e =>
    refine ⟨s.rt, Evolves.refl h, .inl ⟨rfl, .error e.1 e.2, ?_⟩⟩
    rw [hsame]
  | ok parsed =>
    obtain ⟨key, rq⟩ := parsed
    dsimp only
    by_cases hfull : ((lookupKey s.session.active key).isNone &&
        decide (ClientSession.maxSubscriptions ≤ s.session.active.length)) = true
    · refine ⟨s.rt, Evolves.refl h, .inl ⟨if_pos hfull,
        .error "subscribe" "max subscriptions reached", ?_⟩⟩
      rw [if_pos hfull, hsame]
    · rw [if_neg hfull, if_neg hfull]
      have hspec := fun result rt =>
        @TreeBuilder.build_spec D _ s.rt rt s.origins h env.build rq key result
      generalize (TreeBuilder.buildForRequest env.build rq (some s.rt.nodes.length)).run.run
        { s.rt with nodes := s.rt.nodes ++ [.responder key false] } = out at hspec ⊢
      obtain ⟨result, rt⟩ := out
      obtain ⟨he, -, hbuilt⟩ := hspec result rt rfl
      refine ⟨rt, he, ?_⟩
      cases result with
      | error message => exact .inl ⟨rfl, _, rfl⟩
      | ok built =>
        obtain ⟨-, node, hnode, -⟩ := hbuilt built rfl
        exact .inr ⟨key, built, rfl, (List.getElem?_eq_some_iff.mp hnode).1, rfl⟩

theorem Keeps.handleRequest (h : Keeps s made) (env : SessionEnv D) {r : Json D}
    (hopen : (s.headOf env r).isNone || s.session.isOpen) :
    Keeps (s.handleRequest env r) (made ++ (s.headOf env r).toList) := by
  obtain ⟨rt, he, ⟨hnone, frame, heq⟩ | ⟨key, built, hsome, hlt, heq⟩⟩ :=
    handleRequest_head env h.heap r
  · rw [heq, hnone, Option.toList_none, List.append_nil]
    exact (h.evolves he).aside rfl rfl rfl rfl rfl
  · rw [heq, hsome]
    have hisOpen : s.session.isOpen = true := by simpa [hsome] using hopen
    have hinstall := (h.evolves he).install hisOpen key s.rt.nodes.length hlt
    have hkeeps : Keeps (((s.withRuntime rt s.rt.nodes.length).install key s.rt.nodes.length
        built).next [.send (.subscribed key)]) (built.head :: made) :=
      hinstall.aside rfl rfl rfl rfl rfl
    have hmem : ∀ head, head ∈ made ++ (some built.head).toList → head ∈ built.head :: made := by
      intro head hhead
      simpa [or_comm] using hhead
    exact ⟨hkeeps.heap, hkeeps.keys, hkeeps.closed,
      fun head hhead => hkeeps.old head (hmem head hhead), fun head hhead => hkeeps.listed head (hmem head hhead)⟩

omit [Double D] in
/-- No head is made. -/
theorem Keeps.unmade (h : Keeps s made) : Keeps s (made ++ (none : Option NodeId).toList) := by
  rw [Option.toList_none, List.append_nil]
  exact h

theorem Keeps.runStrand (h : Keeps s made) (env : SessionEnv D) (allowed : Bool)
    (hopen : (s.nextHead env).isNone || s.session.isOpen) :
    Keeps (s.runStrand env allowed) (made ++ (s.nextHead env).toList) := by
  unfold nextHead at hopen ⊢
  unfold System.runStrand
  cases hstrand : s.strand with
  | nil => exact h.unmade
  | cons handler rest =>
    rw [hstrand] at hopen
    have hrest : ∀ strand, Keeps { s with strand := strand } made :=
      fun _ => h.aside rfl rfl rfl rfl rfl
    cases handler with
    | message doc => exact Keeps.unmade (h.aside rfl rfl rfl rfl rfl)
    | requests rs =>
      cases rs with
      | nil => exact (hrest rest).unmade
      | cons r rs => exact Keeps.handleRequest (hrest (.requests rs :: rest)) env hopen
    | cancels keys =>
      cases keys with
      | nil => exact (hrest rest).unmade
      | cons key keys =>
        exact ((hrest ([.send (.canceled key), .cancels keys] ++ rest)).handleCancelKey key).unmade
    | send frame => exact ((hrest rest).sendText frame).unmade
    | written ok => exact ((hrest rest).onWrite ok).unmade
    | close => exact (hrest rest).close.unmade

theorem Keeps.step (h : Keeps s made) (env : SessionEnv D) (action : Action D)
    (hopen : s.accepting env action = true) :
    Keeps (s.step env action) (made ++ (s.headBy env action).toList) := by
  cases action with
  | receive doc => exact Keeps.unmade (h.aside rfl rfl rfl rfl rfl)
  | requestClose => exact Keeps.unmade (h.aside rfl rfl rfl rfl rfl)
  | writeDone ok =>
    apply Keeps.unmade
    unfold System.step
    dsimp only
    split_ifs
    · exact h.aside rfl rfl rfl rfl rfl
    · exact h
  | strand allowed => exact h.runStrand env allowed hopen
  | notify symbol field value => exact Keeps.unmade (h.aside rfl rfl rfl rfl rfl)
  | timer id =>
    apply Keeps.unmade
    obtain ⟨hlen, he, -⟩ := Runtime.timerLoop_spec h.heap 0 id
    refine (h.evolves he).aside rfl ?_ rfl rfl rfl
    simp [System.step, fireTimer, withRuntime, hlen]
  | work task store =>
    apply Keeps.unmade
    unfold System.step work
    dsimp only
    cases s.pool[task]? with
    | none => exact h
    | some calls =>
      cases calls with
      | nil => exact h
      | cons call rest =>
        have he := Runtime.evolves_onValue env.build store (s.rt.alive s.roots) h.heap call.node
          call.value
        exact (h.evolves he).aside rfl rfl rfl rfl rfl

theorem Keeps.run (h : Keeps s made) (env : SessionEnv D) {actions : List (Action D)}
    (hopen : acceptsOpen env s actions = true) :
    Keeps (s.run env actions) (made ++ headsMade env s actions) := by
  induction actions generalizing s made with
  | nil =>
    rw [headsMade, List.append_nil]
    exact h
  | cons action actions ih =>
    obtain ⟨hfirst, hrest⟩ := GuardedRuns.along_cons hopen
    have hkeeps := ih (h.step env action hfirst) hrest
    rw [List.append_assoc] at hkeeps
    exact hkeeps

/-- A request that is accepted in a closed session leaves an entry in its table. -/
theorem active_of_head (env : SessionEnv D) {action : Action D}
    (hheap : HeapOk s.rt s.origins) (hhead : (s.headBy env action).isSome = true) :
    (s.step env action).session.isOpen = s.session.isOpen ∧
      (s.step env action).session.active ≠ [] := by
  cases action with
  | strand allowed =>
    simp only [headBy, nextHead] at hhead
    simp only [System.step, System.runStrand]
    cases hstrand : s.strand with
    | nil =>
      rw [hstrand] at hhead
      cases hhead
    | cons handler rest =>
      rw [hstrand] at hhead
      cases handler with
      | requests rs =>
        cases rs with
        | nil => cases hhead
        | cons r rs =>
          obtain ⟨rt, -, ⟨hnone, -⟩ | ⟨key, built, -, -, heq⟩⟩ := @handleRequest_head D
            ({ s with strand := rest }.next [.requests rs]) _ env hheap r
          · have hsame : ({ s with strand := rest }.next [.requests rs]).headOf env r =
                s.headOf env r := rfl
            rw [hsame] at hnone
            dsimp only at hhead
            rw [hnone] at hhead
            cases hhead
          · dsimp only
            rw [heq]
            refine ⟨rfl, ?_⟩
            intro hempty
            have hmem : (key, built.head) ∈ assignKey s.session.active key built.head :=
              mem_assignKey.mpr (.inl rfl)
            have hempty' : assignKey s.session.active key built.head = [] := hempty
            rw [hempty'] at hmem
            cases hmem
      | _ => cases hhead
  | _ => cases hhead

/-- If every state on the way is released, no request was accepted in a closed session. -/
theorem acceptsOpen_of_released (h : Keeps s made) (env : SessionEnv D) {actions : List (Action D)}
    (hreleased : ∀ before after, actions = before ++ after →
      Released (s.run env before) (made ++ headsMade env s before)) :
    acceptsOpen env s actions = true := by
  induction actions generalizing s made with
  | nil => rfl
  | cons action actions ih =>
    have hfirst : s.accepting env action = true := by
      unfold accepting
      cases hhead : s.headBy env action with
      | none => rfl
      | some head =>
        cases hopen : s.session.isOpen with
        | true => rfl
        | false =>
          have hsome : (s.headBy env action).isSome = true := by
            rw [hhead]
            rfl
          obtain ⟨hsame, hne⟩ := active_of_head env h.heap hsome
          obtain ⟨hactive, -, -⟩ := hreleased [action] actions rfl (hsame.trans hopen)
          exact absurd hactive hne
    have hrest : acceptsOpen env (s.step env action) actions = true := by
      apply ih (h.step env action hfirst)
      intro before after heq
      have hprefix := hreleased (action :: before) after (by rw [heq, List.cons_append])
      rw [headsMade, ← List.append_assoc] at hprefix
      exact hprefix
    exact Bool.and_eq_true_iff.mpr ⟨hfirst, hrest⟩

end

/-- In a run from the start, closed sessions hold no subscription exactly when every request that
is accepted finds the session open. -/
theorem closed_session_holds_nothing_iff [Double D] (env : SessionEnv D)
    (actions : List (Action D)) :
    (∀ before after, actions = before ++ after →
      Released (run env {} before) (headsMade env {} before)) ↔
    acceptsOpen env {} actions = true := by
  constructor
  · intro h
    exact acceptsOpen_of_released keeps_initial env h
  · rintro h before after rfl
    exact (keeps_initial.run env (GuardedRuns.along_of_append h)).released

/-- A message was read before the session closes, and is handled after. -/
def readThenClosed : List (Action ExactDouble) :=
  [Action.requestClose, Action.receive (some (subscribeTo []))] ++
    List.replicate 4 (Action.strand true)

theorem closed_session_subscribes :
    ¬ ∀ (env : SessionEnv ExactDouble) (actions : List (Action ExactDouble)),
      Released (run env {} actions) (headsMade env {} actions) := by
  intro h
  have hclosed : (run fullSessionEnv {} readThenClosed).session.isOpen = false := by decide +kernel
  have hone : (run fullSessionEnv {} readThenClosed).session.active.length = 1 := by decide +kernel
  obtain ⟨hactive, -, -⟩ := h fullSessionEnv readThenClosed hclosed
  rw [hactive] at hone
  cases hone

end GmaEngine.System
