import GmaEngine.SessionChains

/-!
# Cancellation of subscriptions

Canceling a key, taking it over by another request and closing the session shut down the head
of a chain and nothing else. The other listeners and the timers of a chain go on, and so do
the calls and frames that are already on their way. The last theorem says that in every run
in which a chain has none of these when it ends, it stays quiet from then on.
-/

namespace GmaEngine

/-- The heads are out of the Dispatcher's table and stopped. -/
structure Shuts (heads : List NodeId) (origins : List NodeId) {D : Type} (rt rt' : Runtime D) :
    Prop where
  evolves : ∀ chain, Evolves chain origins rt rt'
  length : rt'.nodes.length = rt.nodes.length
  listed : ∀ {symbol field} {id : ℕ}, id ∈ rt'.listeners symbol field →
    id ∈ rt.listeners symbol field ∧ id ∉ heads
  stopped : ∀ id ∈ heads, (∃ node, rt.nodes[id]? = some node ∧ node.isListener = true) →
    ∃ new, rt'.nodes[id]? = some new ∧ new.isStopped = true

section Shuts
variable {D : Type} {heads heads' : List NodeId} {origins : List NodeId} {rt rt' rt'' : Runtime D}

/-- No node is made. -/
theorem Shuts.origins_eq (h : Shuts heads origins rt rt') (chain : NodeId) :
    origins ++ List.replicate (rt'.nodes.length - rt.nodes.length) chain = origins := by
  rw [h.length, Nat.sub_self, List.replicate_zero, List.append_nil]

theorem Shuts.heap (h : Shuts heads origins rt rt') : HeapOk rt' origins := by
  have hheap := (h.evolves 0).heap
  rw [h.origins_eq] at hheap
  exact hheap

theorem shuts_nil (h : HeapOk rt origins) : Shuts [] origins rt rt :=
  ⟨fun _ => Evolves.refl h, rfl, fun hid => ⟨hid, by simp⟩, fun _ hid => by cases hid⟩

theorem shuts_shutdownListener (h : HeapOk rt origins) (id : NodeId) :
    Shuts [id] origins rt (rt.shutdownListener id) := by
  refine ⟨fun chain => Runtime.evolves_shutdownListener h chain id, ?_, ?_, ?_⟩
  · unfold Runtime.shutdownListener
    split
    · simp [Runtime.unregisterListener, Runtime.setListeners, Runtime.setNode]
    · rfl
  · intro symbol field other hother
    obtain ⟨hmem, hne⟩ := Runtime.mem_listeners_shutdownListener h hother
    exact ⟨hmem, by simpa using hne⟩
  · intro other hother hlistener
    obtain rfl := List.mem_singleton.mp hother
    obtain ⟨node, hnode, hl⟩ := hlistener
    exact Runtime.isStopped_shutdownListener hnode hl

theorem Shuts.append (h : Shuts heads origins rt rt') (h' : Shuts heads' origins rt' rt'') :
    Shuts (heads ++ heads') origins rt rt'' := by
  refine ⟨?_, h'.length.trans h.length, ?_, ?_⟩
  · intro chain
    apply (h.evolves chain).trans
    rw [h.origins_eq chain]
    exact h'.evolves chain
  · intro symbol field id hid
    obtain ⟨hmem, hne⟩ := h'.listed hid
    obtain ⟨hmem', hne'⟩ := h.listed hmem
    exact ⟨hmem', by simp [hne, hne']⟩
  · intro id hid hlistener
    rcases List.mem_append.mp hid with hid | hid
    · obtain ⟨new, hnew, hstopped⟩ := h.stopped id hid hlistener
      obtain ⟨new', hnew', hbecomes⟩ := (h'.evolves 0).nodes hnew
      exact ⟨new', hnew', hbecomes.isStopped hstopped⟩
    · obtain ⟨node, hnode, hl⟩ := hlistener
      obtain ⟨new, hnew, hbecomes⟩ := (h.evolves 0).nodes hnode
      exact h'.stopped id hid ⟨new, hnew, hbecomes.isListener ▸ hl⟩

theorem shuts_foldl (heads : List NodeId) (h : HeapOk rt origins) :
    Shuts heads origins rt (heads.foldl Runtime.shutdownListener rt) := by
  induction heads generalizing rt with
  | nil => exact shuts_nil h
  | cons id heads ih =>
    have hfirst := shuts_shutdownListener h id
    exact hfirst.append (ih hfirst.heap)

theorem shuts_lookup (h : HeapOk rt origins) (head : Option NodeId) :
    Shuts head.toList origins rt (head.elim rt rt.shutdownListener) := by
  cases head with
  | none => exact shuts_nil h
  | some id => exact shuts_shutdownListener h id

/-- When only heads feed a chain, it is gone once they are shut down. -/
theorem Shuts.gone (h : Shuts heads origins rt rt') (hheap : HeapOk rt origins) {chain : NodeId}
    (hlisteners : ∀ id ∈ heads, ∃ node, rt.nodes[id]? = some node ∧ node.isListener = true)
    (hsources : ∀ (id : ℕ) node, rt.nodes[id]? = some node → origins[id]? = some chain →
      node.isSource = true → id ∈ heads) : System.Gone rt' origins chain := by
  refine ⟨?_, ?_⟩
  · intro symbol field id hid horigin
    obtain ⟨hmem, hne⟩ := h.listed hid
    obtain ⟨downstream, hnode⟩ := hheap.listed hmem
    exact hne (hsources id _ hnode horigin rfl)
  · rintro id horigin ⟨new, hnew, hticking⟩
    have hlt := hheap.lt horigin
    obtain ⟨new', hnew', hbecomes⟩ := (h.evolves chain).nodes (List.getElem?_eq_getElem hlt)
    rw [hnew] at hnew'
    cases hnew'
    obtain ⟨hsource, hnot⟩ := INode.isSource_of_ticking (hbecomes.ticking hticking)
    obtain ⟨node, hnode, hlistener⟩ :=
      hlisteners id (hsources id _ (List.getElem?_eq_getElem hlt) horigin hsource)
    rw [List.getElem?_eq_getElem hlt] at hnode
    cases hnode
    rw [hnot] at hlistener
    cases hlistener

end Shuts

namespace System
variable {D : Type}

def heads (s : System D) : List NodeId := s.session.active.map Prod.snd

/-- Of the nodes that feed the chain from outside, the session knows each as a head. -/
def sourcesAreHeads (s : System D) (chain : NodeId) : Bool :=
  (List.range s.rt.nodes.length).all (fun id => decide (s.origins[id]? ≠ some chain) ||
    !(s.rt.nodes[id]?).any INode.isSource || decide (id ∈ s.heads))

/-- The calls on the chain that wait in the pool are on heads. -/
def noCallBehind (s : System D) (chain : NodeId) : Bool :=
  s.pool.flatten.all (fun call => decide (s.origins[call.node]? ≠ some chain) ||
    decide (call.node ∈ s.heads))

def noUpdateQueued (s : System D) (chain : NodeId) : Bool :=
  s.strand.all (fun handler => match handler with
    | .send (.update c _ _) => decide (c ≠ chain)
    | _ => true)

def noSplit (s : System D) (chain : NodeId) : Bool :=
  (List.range s.rt.nodes.length).all (fun id => decide (s.origins[id]? ≠ some chain) ||
    !(s.rt.nodes[id]?).any INode.isSplit)

section
variable {s : System D} {chain : NodeId}

theorem sourcesAreHeads_iff : s.sourcesAreHeads chain = true ↔ ∀ (id : ℕ) node,
    s.rt.nodes[id]? = some node → s.origins[id]? = some chain → node.isSource = true →
      id ∈ s.heads := by
  simp only [sourcesAreHeads, List.all_eq_true, List.mem_range, Bool.or_eq_true, Bool.not_eq_true',
    decide_eq_true_eq]
  constructor
  · intro h id node hnode horigin hsource
    rcases h id (List.getElem?_eq_some_iff.mp hnode).1 with (hne | hnot) | hmem
    · exact absurd horigin hne
    · rw [hnode] at hnot
      simp [hsource] at hnot
    · exact hmem
  · intro h id hid
    by_cases horigin : s.origins[id]? = some chain
    · rw [List.getElem?_eq_getElem hid]
      cases hsource : (s.rt.nodes[id]).isSource with
      | false => exact .inl (.inr (by simp [hsource]))
      | true => exact .inr (h id _ (List.getElem?_eq_getElem hid) horigin hsource)
    · exact .inl (.inl horigin)

theorem noCallBehind_iff : s.noCallBehind chain = true ↔ ∀ task ∈ s.pool, ∀ call ∈ task,
    s.origins[call.node]? = some chain → call.node ∈ s.heads := by
  simp only [noCallBehind, List.all_eq_true, List.mem_flatten, Bool.or_eq_true, decide_eq_true_eq]
  constructor
  · intro h task htask call hcall horigin
    exact (h call ⟨task, htask, hcall⟩).resolve_left (not_not_intro horigin)
  · rintro h call ⟨task, htask, hcall⟩
    by_cases horigin : s.origins[call.node]? = some chain
    · exact .inr (h task htask call hcall horigin)
    · exact .inl horigin

theorem noUpdateQueued_iff : s.noUpdateQueued chain = true ↔
    ∀ key value, Handler.send (.update chain key value) ∉ s.strand := by
  simp only [noUpdateQueued, List.all_eq_true]
  constructor
  · intro h key value hmem
    simpa using h _ hmem
  · intro h handler hmem
    split
    · next c key value =>
      rw [decide_eq_true_eq]
      rintro rfl
      exact h key value hmem
    · rfl

theorem noSplit_iff : s.noSplit chain = true ↔ NoSplit s.rt s.origins chain := by
  simp only [noSplit, List.all_eq_true, List.mem_range, Bool.or_eq_true, Bool.not_eq_true',
    decide_eq_true_eq]
  constructor
  · intro h id node horigin hnode
    rcases h id (List.getElem?_eq_some_iff.mp hnode).1 with hne | hnot
    · exact absurd horigin hne
    · simpa [hnode] using hnot
  · intro h id hid
    by_cases horigin : s.origins[id]? = some chain
    · have hnot := h id _ horigin (List.getElem?_eq_getElem hid)
      exact .inr (by simpa [List.getElem?_eq_getElem hid] using hnot)
    · exact .inl horigin

end

/-- What must hold of a chain before a step that ends it. After a close nothing of it reaches
the outbox any more, but a waiting call may still build the child of a GroupSplit. -/
def endsCleanly (s : System D) (closes : Bool) (chain : NodeId) : Bool :=
  s.sourcesAreHeads chain &&
    if closes then s.noCallBehind chain || s.noSplit chain
    else s.noCallBehind chain && s.noUpdateQueued chain

/-- The chain whose head is in the table under a key. -/
def chainOf (s : System D) (key : RequestKey) : Option NodeId :=
  (lookupKey s.session.active key).bind (s.origins[·]?)

/-- The handler closes the session if it is open: a request to close, a failed write, or a frame
that finds the outbox full. -/
def closes (s : System D) : Handler D → Bool
  | .close => true
  | .written ok => !ok
  | .send _ => decide (ClientSession.maxOutboxSize ≤ s.session.outbox.length)
  | _ => false

section
variable [Double D]

/-- The key under which a request puts a new chain, if it is accepted. -/
def installs (env : SessionEnv D) (s : System D) (r : Json D) : Option RequestKey :=
  match ClientSession.parseRequest r with
  | .error _ => none
  | .ok (key, rq) =>
    if (lookupKey s.session.active key).isNone &&
        decide (ClientSession.maxSubscriptions ≤ s.session.active.length) then none
    else
      match ((TreeBuilder.buildForRequest env.build rq (some s.rt.nodes.length)).run.run
        { s.rt with nodes := s.rt.nodes ++ [.responder key false] }).1 with
      | .error _ => none
      | .ok _ => some key

/-- What must hold before the strand runs a handler: the chains that it ends, it ends cleanly,
and requests are accepted in open sessions only. -/
def meets (env : SessionEnv D) (s : System D) : Handler D → Bool
  | .cancels (key :: _) => (s.chainOf key).all (s.endsCleanly false)
  | .requests (r :: _) => (s.installs env r).all
      (fun key => s.session.isOpen && (s.chainOf key).all (s.endsCleanly false))
  | handler => !(s.session.isOpen && s.closes handler) ||
      s.session.accepted.all (fun chain => !s.live chain || s.endsCleanly true chain)

/-- Every handler that the strand runs in a run finds its chains so. -/
def cleanly (env : SessionEnv D) (s : System D) : List (Action D) → Bool
  | [] => true
  | .strand allowed :: rest =>
    s.strand.head?.all (s.meets env) && (s.step env (.strand allowed)).cleanly env rest
  | action :: rest => (s.step env action).cleanly env rest

end

section Ends
variable {s s' : System D}

theorem Advances.refl (h : s.Invariant) : Advances s s := ⟨h, fun _ he => he, fun _ _ => rfl⟩

theorem Advances.trans {s'' : System D} (h : Advances s s') (h' : Advances s' s'') :
    Advances s s'' :=
  ⟨h'.invariant, fun c hc => h'.ended c (h.ended c hc),
    fun c hc => (h'.frames c (h.ended c hc)).trans (h.frames c hc)⟩

/-- The calls that waited on heads are dropped once the heads are shut down. -/
theorem callsDropped_of_shuts (h : s.WellFormed) {rt : Runtime D} {shut : List NodeId}
    (hshuts : Shuts shut s.origins s.rt rt) {chain : NodeId}
    (hheads : ∀ id ∈ s.heads, s.origins[id]? = some chain → id ∈ shut)
    (hcalls : ∀ task ∈ s.pool, ∀ call ∈ task, s.origins[call.node]? = some chain →
      call.node ∈ s.heads) :
    ∀ task ∈ s.pool, ∀ call ∈ task, s.origins[call.node]? = some chain →
      ∃ node, rt.nodes[call.node]? = some node ∧ node.isStopped = true := by
  intro task htask call hcall horigin
  have hmem := hcalls task htask call hcall horigin
  obtain ⟨entry, hentry, heq⟩ := List.mem_map.mp hmem
  have hlistener := h.heads entry hentry
  rw [heq] at hlistener
  exact hshuts.stopped _ (hheads _ hmem horigin) hlistener

/-- Heads are shut down, and the session gets a table of listeners. -/
theorem wellFormed_of_shuts (h : s.WellFormed) {shut : List NodeId} {rt : Runtime D}
    (hshuts : Shuts shut s.origins s.rt rt) {session : Session D}
    (hheads : ∀ entry ∈ session.active,
      ∃ node, s.rt.nodes[entry.2]? = some node ∧ node.isListener = true)
    (hkeys : (session.active.map Prod.fst).Nodup)
    (haccepted : ∀ chain ∈ session.accepted, chain < s.rt.nodes.length) :
    WellFormed { s with rt := rt, session := session } := by
  refine ⟨hshuts.heap, ?_, hkeys, ?_, ?_⟩
  · intro entry hentry
    obtain ⟨node, hnode, hlistener⟩ := hheads entry hentry
    obtain ⟨new, hnew, hbecomes⟩ := (hshuts.evolves 0).nodes hnode
    exact ⟨new, hnew, hbecomes.isListener ▸ hlistener⟩
  · intro task htask call hcall
    change call.node < rt.nodes.length
    rw [hshuts.length]
    exact h.calls task htask call hcall
  · intro chain hchain
    change chain < rt.nodes.length
    rw [hshuts.length]
    exact haccepted chain hchain

/-- Closing ends every chain. -/
theorem advances_close (h : s.Invariant)
    (hclean : s.session.isOpen = true → ∀ chain ∈ s.session.accepted, s.live chain = true →
      s.endsCleanly true chain = true) : Advances s s.close := by
  cases hopen : s.session.isOpen with
  | false =>
    have hsame : s.close = s := by simp [close, hopen]
    rw [hsame]
    exact Advances.refl h
  | true =>
    have hwf := h.wellFormed
    have hclose : s.close = { s with
        rt := s.heads.foldl Runtime.shutdownListener s.rt
        session := { s.session with isOpen := false, active := [], chains := [] } } := by
      simp [close, hopen, heads]
    have hshuts := shuts_foldl s.heads hwf.heap
    have hlisteners : ∀ id ∈ s.heads, ∃ node, s.rt.nodes[id]? = some node ∧
        node.isListener = true := by
      intro id hid
      obtain ⟨entry, hentry, rfl⟩ := List.mem_map.mp hid
      exact hwf.heads entry hentry
    rw [hclose]
    refine ⟨⟨?_, ?_⟩, ?_, fun _ _ => rfl⟩
    · refine wellFormed_of_shuts hwf hshuts ?_ List.nodup_nil hwf.accepted
      intro entry hentry
      cases hentry
    · intro chain hended
      cases hlive : s.live chain with
      | false =>
        -- it had ended before
        have hdead := h.dead chain ⟨hended.1, fun _ => hlive⟩
        have hgone := hdead.gone.evolves hwf.heap (hshuts.evolves chain) (.inr hshuts.length)
        rw [hshuts.origins_eq] at hgone
        refine ⟨hgone, ?_, fun hfalse => by cases hfalse⟩
        rcases hdead.calls with hdropped | ⟨hclosed, -⟩
        · left
          intro task htask call hcall horigin
          obtain ⟨node, hnode, hstopped⟩ := hdropped task htask call hcall horigin
          obtain ⟨new, hnew, hbecomes⟩ := (hshuts.evolves chain).nodes hnode
          exact ⟨new, hnew, hbecomes.isStopped hstopped⟩
        · rw [hopen] at hclosed
          cases hclosed
      | true =>
        have hends := hclean hopen chain hended.1 hlive
        simp only [endsCleanly, if_true, Bool.and_eq_true, Bool.or_eq_true, sourcesAreHeads_iff,
          noCallBehind_iff, noSplit_iff] at hends
        obtain ⟨hsources, hcalls⟩ := hends
        refine ⟨hshuts.gone hwf.heap hlisteners hsources, ?_, fun hfalse => by cases hfalse⟩
        rcases hcalls with hcalls | hsplit
        · exact .inl (callsDropped_of_shuts hwf hshuts (fun _ hid _ => hid) hcalls)
        · right
          have hsplit' := hsplit.evolves hwf.heap (hshuts.evolves chain) (.inr hshuts.length)
          rw [hshuts.origins_eq] at hsplit'
          exact ⟨rfl, hsplit'⟩
    · intro chain hended
      exact ⟨hended.1, fun hfalse => by cases hfalse⟩

/-- A head whose chain leaves the table is the one under the key that changes. -/
theorem key_of_ends {key : RequestKey} {chain : NodeId}
    (hkeep : ∀ entry ∈ s.session.active, entry.1 ≠ key → entry ∈ s'.session.active)
    (horigins : s'.origins = s.origins) (hgone : s'.live chain = false)
    {entry : RequestKey × NodeId} (hentry : entry ∈ s.session.active)
    (horigin : s.origins[entry.2]? = some chain) : entry.1 = key := by
  by_contra hk
  have hstill : s'.live chain = true :=
    live_iff.mpr ⟨entry, hkeep entry hentry hk, by rw [horigins]; exact horigin⟩
  rw [hgone] at hstill
  cases hstill

/-- What has ended stays so as long as no head of it gets into the table. -/
theorem Ended.of_table {chain : NodeId} (hend : s.Ended chain)
    (hmono : s.session.accepted ⊆ s'.session.accepted)
    (hopen : s'.session.isOpen = true → s.session.isOpen = true) (horigins : s'.origins = s.origins)
    (hnew : ∀ entry ∈ s'.session.active, entry ∈ s.session.active ∨
      s.origins[entry.2]? ≠ some chain) : s'.Ended chain := by
  refine ⟨hmono hend.1, ?_⟩
  intro hopen'
  by_contra hlive
  obtain ⟨entry, hentry, horigin⟩ := live_iff.mp (by simpa using hlive)
  rw [horigins] at horigin
  rcases hnew entry hentry with hold | hne
  · have hwas : s.live chain = true := live_iff.mpr ⟨entry, hold, horigin⟩
    rw [hend.2 (hopen hopen')] at hwas
    cases hwas
  · exact hne horigin

/-- A chain that ends cleanly is dead once the heads that feed it are shut down. -/
theorem dead_of_endsCleanly (h : s.WellFormed) {shut : List NodeId} {rt : Runtime D}
    (hshuts : Shuts shut s.origins s.rt rt) {session : Session D} {chain : NodeId}
    (hends : s.endsCleanly false chain = true)
    (hheads : ∀ id ∈ s.heads, s.origins[id]? = some chain → id ∈ shut)
    (hlisteners : ∀ id ∈ shut, ∃ node, s.rt.nodes[id]? = some node ∧ node.isListener = true) :
    Dead { s with rt := rt, session := session } chain := by
  simp only [endsCleanly, Bool.false_eq_true, if_false, Bool.and_eq_true, sourcesAreHeads_iff,
    noCallBehind_iff, noUpdateQueued_iff] at hends
  obtain ⟨hsources, hcalls, hsends⟩ := hends
  refine ⟨?_, .inl (callsDropped_of_shuts h hshuts hheads hcalls), fun _ => hsends⟩
  apply hshuts.gone h.heap hlisteners
  intro id node hnode horigin hsource
  exact hheads id (hsources id node hnode horigin hsource) horigin

/-- The table of the session changes under one key, whose head is shut down. -/
theorem advances_retable (h : s.Invariant) (key : RequestKey) {active : List (RequestKey × NodeId)}
    {chains : List (RequestKey × List NodeId)} {accepted : List NodeId}
    (hs' : s' = { s with
      rt := (lookupKey s.session.active key).elim s.rt s.rt.shutdownListener
      session := { s.session with active := active, chains := chains, accepted := accepted } })
    (hkeep : ∀ entry ∈ s.session.active, entry.1 ≠ key → entry ∈ active)
    (hnew : ∀ entry ∈ active, entry ∈ s.session.active ∨
      (∃ node, s.rt.nodes[entry.2]? = some node ∧ node.isListener = true) ∧
        ∀ chain ∈ s.session.accepted, s.origins[entry.2]? ≠ some chain)
    (hkeys : (active.map Prod.fst).Nodup) (hmono : s.session.accepted ⊆ accepted)
    (haccepted : ∀ chain ∈ accepted, chain ∈ s.session.accepted ∨
      s.session.isOpen = true ∧ s'.live chain = true ∧ chain < s.rt.nodes.length)
    (hclean : s.session.isOpen = true → ∀ chain ∈ s.session.accepted, s.live chain = true →
      s'.live chain = false → s.endsCleanly false chain = true) : Advances s s' := by
  have hwf := h.wellFormed
  have hshuts := shuts_lookup hwf.heap (lookupKey s.session.active key)
  have horigins : s'.origins = s.origins := by rw [hs']
  have hactive : s'.session.active = active := by rw [hs']
  have hisOpen : s'.session.isOpen = s.session.isOpen := by rw [hs']
  have haccepted' : s'.session.accepted = accepted := by rw [hs']
  have hwf' : s'.WellFormed := by
    rw [hs']
    refine wellFormed_of_shuts hwf hshuts ?_ hkeys ?_
    · intro entry hentry
      rcases hnew entry hentry with hold | hnew
      · exact hwf.heads entry hold
      · exact hnew.1
    · intro chain hchain
      rcases haccepted chain hchain with hold | ⟨-, -, hlt⟩
      · exact hwf.accepted chain hold
      · exact hlt
  refine ⟨⟨hwf', ?_⟩, ?_, fun chain _ => by rw [hs']⟩
  · intro chain hend
    have hold : chain ∈ s.session.accepted := by
      rcases haccepted chain (haccepted' ▸ hend.1) with hold | ⟨hopen, hlive, -⟩
      · exact hold
      · rw [hend.2 (hisOpen.trans hopen)] at hlive
        cases hlive
    by_cases hbefore : s.Ended chain
    · have hdead := h.dead chain hbefore
      rw [hs']
      exact hdead.evolves hwf (hshuts.evolves chain) (hshuts.origins_eq chain).symm
        (.inr hshuts.length) rfl (fun _ task htask call hcall _ => ⟨task, htask, hcall⟩)
        (fun _ _ _ hmem => hmem)
    · -- it ends in this step
      obtain ⟨hopen, hlive⟩ : s.session.isOpen = true ∧ s.live chain = true := by
        by_contra hnot
        refine hbefore ⟨hold, ?_⟩
        intro hopen
        by_contra hlive
        exact hnot ⟨hopen, by simpa using hlive⟩
      have hgone := hend.2 (hisOpen.trans hopen)
      have hends := hclean hopen chain hold hlive hgone
      rw [hs']
      apply dead_of_endsCleanly hwf hshuts hends
      · intro id hid horigin
        obtain ⟨entry, hentry, rfl⟩ := List.mem_map.mp hid
        have hkey := key_of_ends (hactive ▸ hkeep) horigins hgone hentry horigin
        subst hkey
        rw [(lookupKey_eq_some_iff hwf.keys).mpr hentry]
        exact List.mem_singleton_self _
      · intro id hid
        have hentry := (lookupKey_eq_some_iff hwf.keys).mp (Option.mem_toList.mp hid)
        exact hwf.heads _ hentry
  · intro chain hend
    apply hend.of_table (haccepted' ▸ hmono) (fun hopen => hisOpen ▸ hopen) horigins
    intro entry hentry
    rw [hactive] at hentry
    rcases hnew entry hentry with hold | ⟨-, hne⟩
    · exact .inl hold
    · exact .inr (hne chain hend.1)

/-- A chain leaves the table with the key it is under. -/
theorem chainOf_of_ends (h : s.WellFormed) {key : RequestKey} {chain : NodeId}
    (hkeep : ∀ entry ∈ s.session.active, entry.1 ≠ key → entry ∈ s'.session.active)
    (horigins : s'.origins = s.origins) (hlive : s.live chain = true)
    (hgone : s'.live chain = false) : s.chainOf key = some chain := by
  obtain ⟨entry, hentry, horigin⟩ := live_iff.mp hlive
  have hkey := key_of_ends hkeep horigins hgone hentry horigin
  have hlookup : lookupKey s.session.active key = some entry.2 := by
    subst hkey
    exact (lookupKey_eq_some_iff h.keys).mpr hentry
  simp only [chainOf, hlookup, Option.bind_some, horigin]

theorem Beside.chainOf_eq (hb : Beside s s') (h : s.WellFormed) (key : RequestKey) :
    s'.chainOf key = s.chainOf key := by
  unfold chainOf
  rw [hb.active]
  cases hlookup : lookupKey s.session.active key with
  | none => rfl
  | some id =>
    obtain ⟨chain, hchain⟩ := h.head_origin ((lookupKey_eq_some_iff h.keys).mp hlookup)
    simp only [Option.bind_some, hchain, hb.origins hchain]

theorem advances_handleCancelKey (h : s.Invariant) (key : RequestKey)
    (hclean : ∀ chain, s.chainOf key = some chain → s.endsCleanly false chain = true) :
    Advances s (s.handleCancelKey key) := by
  have hkeep : ∀ entry ∈ s.session.active, entry.1 ≠ key →
      entry ∈ (s.handleCancelKey key).session.active := by
    intro entry hentry hk
    exact KeyedQueues.mem_removeKey.mpr ⟨hentry, hk⟩
  refine advances_retable h key (show s.handleCancelKey key = _ from rfl) hkeep ?_
    (nodup_removeKey h.wellFormed.keys) (List.Subset.refl _) (fun _ hchain => .inl hchain) ?_
  · intro entry hentry
    exact .inl (KeyedQueues.mem_removeKey.mp hentry).1
  · intro _ chain _ hlive hgone
    exact hclean chain (chainOf_of_ends h.wellFormed hkeep rfl hlive hgone)

/-- Only what the write queue keeps for itself changes. -/
theorem advances_writes (h : s.Invariant) {session : Session D}
    (hopen : session.isOpen = s.session.isOpen) (hactive : session.active = s.session.active)
    (haccepted : session.accepted = s.session.accepted)
    (hframes : ∀ chain, s.Ended chain →
      updates chain session.enqueued = updates chain s.session.enqueued) :
    Advances s { s with session := session } := by
  have hwf := h.wellFormed
  have hiff : ∀ chain, Ended { s with session := session } chain ↔ s.Ended chain := by
    intro chain
    unfold Ended live
    simp only [hopen, hactive, haccepted]
  refine ⟨⟨⟨hwf.heap, ?_, ?_, hwf.calls, ?_⟩, ?_⟩, fun chain => (hiff chain).mpr, hframes⟩
  · intro entry hentry
    exact hwf.heads entry (hactive ▸ hentry)
  · exact hactive ▸ hwf.keys
  · intro chain hchain
    exact hwf.accepted chain (haccepted ▸ hchain)
  · intro chain hended
    have hdead := h.dead chain ((hiff chain).mp hended)
    refine ⟨hdead.gone, ?_, ?_⟩
    · rcases hdead.calls with hdropped | ⟨hclosed, hsplit⟩
      · exact .inl hdropped
      · exact .inr ⟨hopen.trans hclosed, hsplit⟩
    · intro hopen'
      exact hdead.sends (hopen ▸ hopen')

theorem startWrite_core (ses : Session D) :
    (startWrite ses).isOpen = ses.isOpen ∧ (startWrite ses).active = ses.active ∧
      (startWrite ses).accepted = ses.accepted ∧ (startWrite ses).enqueued = ses.enqueued := by
  unfold startWrite
  split_ifs <;> exact ⟨rfl, rfl, rfl, rfl⟩

theorem enqueue_core (ses : Session D) (frame : Frame D) :
    (enqueue ses frame).isOpen = ses.isOpen ∧ (enqueue ses frame).active = ses.active ∧
      (enqueue ses frame).accepted = ses.accepted ∧
      (enqueue ses frame).enqueued = ses.enqueued ++ [frame] := by
  unfold enqueue
  dsimp only
  split_ifs
  · exact ⟨rfl, rfl, rfl, rfl⟩
  · exact startWrite_core _

theorem advances_onWrite (h : s.Invariant) (ok : Bool)
    (hclean : ok = false → s.session.isOpen = true → ∀ chain ∈ s.session.accepted,
      s.live chain = true → s.endsCleanly true chain = true) : Advances s (s.onWrite ok) := by
  unfold onWrite
  split_ifs with hok
  · exact advances_close h (hclean (by simpa using hok))
  · obtain ⟨hopen, hactive, haccepted, henqueued⟩ :=
      startWrite_core { s.session with outbox := s.session.outbox.tail }
    exact advances_writes h hopen hactive haccepted (fun _ _ => by rw [henqueued])

theorem updates_append (chain : NodeId) (frames : List (Frame D)) {frame : Frame D}
    (hframe : ∀ key value, frame ≠ .update chain key value) :
    updates chain (frames ++ [frame]) = updates chain frames := by
  have hnone : updates chain [frame] = [] := by
    unfold updates
    rw [List.filter_eq_nil_iff]
    intro other hother
    obtain rfl := List.mem_singleton.mp hother
    split
    · next c key value =>
      simp only [decide_eq_true_eq]
      rintro rfl
      exact hframe key value rfl
    · simp
  unfold updates at hnone ⊢
  rw [List.filter_append, hnone, List.append_nil]

/-- A frame is put in the outbox unless the session is closed or the outbox is full. -/
theorem advances_sendText (h : s.Invariant) {frame : Frame D}
    (hframe : s.session.isOpen = true → ∀ chain, s.Ended chain → ∀ key value,
      frame ≠ .update chain key value)
    (hclean : ClientSession.maxOutboxSize ≤ s.session.outbox.length → s.session.isOpen = true →
      ∀ chain ∈ s.session.accepted, s.live chain = true → s.endsCleanly true chain = true) :
    Advances s (s.sendText frame) := by
  unfold sendText
  split_ifs with hopen hfull
  · exact Advances.refl h
  · exact advances_close h (hclean hfull)
  · have hopen' : s.session.isOpen = true := by simpa using hopen
    obtain ⟨hcore, hactive, haccepted, henqueued⟩ := enqueue_core s.session frame
    apply advances_writes h hcore hactive haccepted
    intro chain hended
    rw [henqueued]
    exact updates_append chain _ (hframe hopen' chain hended)

/-- New nodes of another chain do not change how a chain would end. -/
theorem endsCleanly_withRuntime (h : s.WellFormed) {rt : Runtime D} {chain other : NodeId}
    (he : Evolves other s.origins s.rt rt) (hother : other ≠ chain) {closes : Bool}
    (hclean : s.endsCleanly closes chain = true) :
    (s.withRuntime rt other).endsCleanly closes chain = true := by
  have hold : ∀ {id : ℕ}, (s.withRuntime rt other).origins[id]? = some chain →
      s.origins[id]? = some chain := fun hid => origin_of_extended (.inl hother) hid
  have hsources : s.sourcesAreHeads chain = true →
      (s.withRuntime rt other).sourcesAreHeads chain = true := by
    rw [sourcesAreHeads_iff, sourcesAreHeads_iff]
    intro hs id node hnode horigin hsource
    have hlt := h.heap.lt (hold horigin)
    obtain ⟨new, hnew, hbecomes⟩ := he.nodes (List.getElem?_eq_getElem hlt)
    have hsame : some new = some node := hnew.symm.trans hnode
    cases hsame
    exact hs id _ (List.getElem?_eq_getElem hlt) (hold horigin) (hbecomes.isSource hsource)
  have hcalls : s.noCallBehind chain = true →
      (s.withRuntime rt other).noCallBehind chain = true := by
    rw [noCallBehind_iff, noCallBehind_iff]
    intro hs task htask call hcall horigin
    exact hs task htask call hcall (hold horigin)
  have hsplit : s.noSplit chain = true → (s.withRuntime rt other).noSplit chain = true := by
    rw [noSplit_iff, noSplit_iff]
    intro hs
    exact hs.evolves h.heap he (.inl hother)
  have hsends : (s.withRuntime rt other).noUpdateQueued chain = s.noUpdateQueued chain := rfl
  unfold endsCleanly at hclean ⊢
  rw [Bool.and_eq_true] at hclean ⊢
  refine ⟨hsources hclean.1, ?_⟩
  have hrest := hclean.2
  split_ifs at hrest ⊢ with hcloses
  · rw [Bool.or_eq_true] at hrest ⊢
    exact hrest.imp hcalls hsplit
  · rw [Bool.and_eq_true] at hrest ⊢
    rw [hsends]
    exact ⟨hcalls hrest.1, hrest.2⟩

/-- A build beside the chains that are there. -/
theorem advances_withRuntime (h : s.Invariant) {rt : Runtime D} {chain : NodeId}
    (he : Evolves chain s.origins s.rt rt) (hfresh : chain ∉ s.session.accepted) :
    Beside s (s.withRuntime rt chain) ∧ Advances s (s.withRuntime rt chain) := by
  have hb : Beside s (s.withRuntime rt chain) :=
    ⟨rfl, rfl, rfl, rfl, fun hid => extended_of_origin hid⟩
  refine ⟨hb, hb.advances h ?_ ?_⟩
  · refine h.wellFormed.evolves he rfl rfl rfl ?_
    intro task htask call hcall
    exact (h.wellFormed.calls task htask call hcall).trans_le he.length_le
  · intro ended hended
    have hne : chain ≠ ended := by
      rintro rfl
      exact hfresh hended.1
    exact (h.dead ended hended).evolves h.wellFormed he rfl (.inl hne) rfl
      (fun _ task htask call hcall _ => ⟨task, htask, hcall⟩) (fun _ _ _ hmem => hmem)

theorem advances_next (h : s.Invariant) {handlers : List (Handler D)}
    (hnew : ∀ handler ∈ handlers, ∀ chain key value, handler ≠ .send (.update chain key value)) :
    Advances s (s.next handlers) := by
  apply advances_handlers h
  intro handler hmem
  rcases List.mem_append.mp hmem with hmem | hmem
  · exact .inr (hnew handler hmem)
  · exact .inl hmem

/-- A built chain is put in the place of the one under its key. -/
theorem advances_install (h : s.Invariant) (key : RequestKey) {terminal : NodeId}
    {built : BuiltChain} (hopen : s.session.isOpen = true)
    (hfresh : terminal ∉ s.session.accepted) (hlt : terminal < s.rt.nodes.length)
    (horigin : s.origins[built.head]? = some terminal)
    (hlistener : ∃ node, s.rt.nodes[built.head]? = some node ∧ node.isListener = true)
    (hclean : ∀ chain ∈ s.session.accepted, s.live chain = true →
      (s.install key terminal built).live chain = false → s.endsCleanly false chain = true) :
    Advances s (s.install key terminal built) := by
  refine advances_retable h key (show s.install key terminal built = _ from rfl) ?_ ?_
    (nodup_assignKey h.wellFormed.keys) (List.subset_append_left _ _) ?_ (fun _ => hclean)
  · intro entry hentry hk
    exact mem_assignKey.mpr (.inr ⟨hentry, hk⟩)
  · intro entry hentry
    rcases mem_assignKey.mp hentry with rfl | ⟨hold, -⟩
    · right
      refine ⟨hlistener, ?_⟩
      intro chain hchain hsame
      obtain rfl := Option.some.inj (horigin.symm.trans hsame)
      exact hfresh hchain
    · exact .inl hold
  · intro chain hchain
    rcases List.mem_append.mp hchain with hold | hnew
    · exact .inl hold
    · obtain rfl := List.mem_singleton.mp hnew
      exact .inr ⟨hopen, live_iff.mpr ⟨(key, built.head), mem_assignKey.mpr (.inl rfl), horigin⟩, hlt⟩

variable [Double D]

/-- A request is refused, or built and then refused or installed. -/
theorem handleRequest_cases (env : SessionEnv D) (r : Json D) :
    (∃ location message, s.handleRequest env r = s.next [.send (.error location message)]) ∨
    ∃ key rq result rt, (TreeBuilder.buildForRequest env.build rq (some s.rt.nodes.length)).run.run
        { s.rt with nodes := s.rt.nodes ++ [.responder key false] } = (result, rt) ∧
      ((∃ message, result = .error message ∧ s.handleRequest env r =
          (s.withRuntime rt s.rt.nodes.length).next [.send (.error "build" message)]) ∨
        ∃ built, result = .ok built ∧ s.installs env r = some key ∧ s.handleRequest env r =
          ((s.withRuntime rt s.rt.nodes.length).install key s.rt.nodes.length built).next
            [.send (.subscribed key)]) := by
  unfold handleRequest installs
  rcases ClientSession.parseRequest r with ⟨location, message⟩ | ⟨key, rq⟩
  · exact .inl ⟨location, message, rfl⟩
  · dsimp only
    split_ifs
    · exact .inl ⟨_, _, rfl⟩
    · right
      rcases hrun : (TreeBuilder.buildForRequest env.build rq (some s.rt.nodes.length)).run.run
        { s.rt with nodes := s.rt.nodes ++ [.responder key false] } with ⟨result, rt⟩
      refine ⟨key, rq, result, rt, hrun, ?_⟩
      cases result with
      | error message => exact .inl ⟨message, rfl, rfl⟩
      | ok built => exact .inr ⟨built, rfl, by simp, rfl⟩

omit [Double D] in
theorem advances_answer (h : s.Invariant) {frame : Frame D}
    (hframe : ∀ chain key value, frame ≠ .update chain key value) :
    Advances s (s.next [.send frame]) := by
  apply advances_next h
  intro handler hmem chain key value heq
  obtain rfl := List.mem_singleton.mp hmem
  exact hframe chain key value (Handler.send.inj heq)

theorem advances_handleRequest (h : s.Invariant) (env : SessionEnv D) (r : Json D)
    (hclean : ∀ key, s.installs env r = some key →
      s.session.isOpen = true ∧ ∀ chain, s.chainOf key = some chain →
        s.endsCleanly false chain = true) : Advances s (s.handleRequest env r) := by
  rcases handleRequest_cases env r with ⟨location, message, heq⟩ | ⟨key, rq, result, rt, hrun, hcases⟩
  · rw [heq]
    exact advances_answer h (by simp)
  · obtain ⟨hev, hlt, hbuilt⟩ := TreeBuilder.build_spec h.wellFormed.heap env.build rq key hrun
    have hfresh : s.rt.nodes.length ∉ s.session.accepted := by
      intro hmem
      exact absurd (h.wellFormed.accepted _ hmem) (Nat.lt_irrefl _)
    obtain ⟨hbeside, hstep⟩ := advances_withRuntime h hev hfresh
    rcases hcases with ⟨message, -, heq⟩ | ⟨built, hresult, hinstalls, heq⟩
    · rw [heq]
      exact hstep.trans (advances_answer hstep.invariant (by simp))
    · rw [heq]
      obtain ⟨horigin, hlistener⟩ := hbuilt built hresult
      obtain ⟨hopen, hends⟩ := hclean key hinstalls
      have hinstall : Advances (s.withRuntime rt s.rt.nodes.length) _ :=
        advances_install hstep.invariant key hopen hfresh hlt horigin hlistener ?_
      · exact hstep.trans (hinstall.trans (advances_answer hinstall.invariant (by simp)))
      · intro chain hchain hlive hgone
        have hne : s.rt.nodes.length ≠ chain := by
          rintro rfl
          exact hfresh hchain
        have hkeep : ∀ entry ∈ (s.withRuntime rt s.rt.nodes.length).session.active, entry.1 ≠ key →
            entry ∈ ((s.withRuntime rt s.rt.nodes.length).install key s.rt.nodes.length
              built).session.active := by
          intro entry hentry hk
          exact mem_assignKey.mpr (.inr ⟨hentry, hk⟩)
        have hchainOf := chainOf_of_ends hstep.invariant.wellFormed hkeep rfl hlive hgone
        rw [hbeside.chainOf_eq h.wellFormed] at hchainOf
        exact endsCleanly_withRuntime h.wellFormed hev hne (hends chain hchainOf)

omit [Double D] in
/-- What is put on the strand for a message are answers, not updates. -/
theorem ne_update_of_mem_handleMessage (env : SessionEnv D) (allowed : Bool) (doc : Option (Json D))
    {handler : Handler D} (hmem : handler ∈ ClientSession.handleMessage env allowed doc)
    (chain : NodeId) (key : RequestKey) (value : StreamValue D) :
    handler ≠ .send (.update chain key value) := by
  have hcancels : ∀ (keyOf : Json D → Option RequestKey) message elems,
      Handler.send (.update chain key value) ∉ ClientSession.cancelsOf keyOf message elems := by
    intro keyOf message elems hin
    simp [ClientSession.cancelsOf] at hin
  rintro rfl
  unfold ClientSession.handleMessage at hmem
  split at hmem
  · split at hmem
    · unfold ClientSession.handleSubscribe at hmem
      split_ifs at hmem
      · simp at hmem
      · simp at hmem
      · split at hmem <;> simp at hmem
    · unfold ClientSession.handleCancel at hmem
      split at hmem
      · simp at hmem
      · exact hcancels _ _ _ hmem
      · exact hcancels _ _ _ hmem
      · simp at hmem
    · simp at hmem
    · simp at hmem
  · simp at hmem

omit [Double D] in
/-- What was popped from the strand and what answers are put on it do not change how a chain
would end. -/
theorem endsCleanly_handlers {handlers : List (Handler D)} {chain : NodeId} {closes : Bool}
    (hnew : ∀ handler ∈ handlers, handler ∈ s.strand ∨
      ∀ key value, handler ≠ .send (.update chain key value))
    (hclean : s.endsCleanly closes chain = true) :
    endsCleanly { s with strand := handlers } closes chain = true := by
  unfold endsCleanly at hclean ⊢
  rw [Bool.and_eq_true] at hclean ⊢
  refine ⟨hclean.1, ?_⟩
  have hrest := hclean.2
  split_ifs at hrest ⊢
  · exact hrest
  · rw [Bool.and_eq_true, noUpdateQueued_iff] at hrest ⊢
    refine ⟨hrest.1, ?_⟩
    intro key value hmem
    rcases hnew _ hmem with hold | hne
    · exact hrest.2 key value hold
    · exact hne key value rfl

/-- The strand runs its first handler. -/
theorem advances_runStrand (h : s.Invariant) (env : SessionEnv D) (allowed : Bool)
    (hmeets : s.strand.head?.all (s.meets env) = true) : Advances s (s.runStrand env allowed) := by
  unfold runStrand
  split
  · exact Advances.refl h
  · next handler rest hstrand =>
    rw [hstrand, List.head?_cons, Option.all_some] at hmeets
    have hpopped : ∀ other ∈ rest, other ∈ s.strand := by
      intro other hother
      rw [hstrand]
      exact List.mem_cons_of_mem _ hother
    have hpop : Advances s { s with strand := rest } :=
      advances_handlers h (fun other hother => .inl (hpopped other hother))
    -- more handlers that are no updates come first
    have hnext : ∀ handlers : List (Handler D), (∀ other ∈ handlers, ∀ chain key value,
        other ≠ .send (.update chain key value)) →
        Advances s (next { s with strand := rest } handlers) ∧
          ∀ closes chain, s.endsCleanly closes chain = true →
            (next { s with strand := rest } handlers).endsCleanly closes chain = true := by
      intro handlers hhandlers
      refine ⟨hpop.trans (advances_next hpop.invariant hhandlers), ?_⟩
      intro closes chain hclean
      refine endsCleanly_handlers (s := s) ?_ hclean
      intro other hother
      rcases List.mem_append.mp hother with hnew | hold
      · exact .inr (hhandlers other hnew chain)
      · exact .inl (hpopped other hold)
    have hall : s.session.isOpen = true → s.session.accepted.all
        (fun chain => !s.live chain || s.endsCleanly true chain) = true →
        ∀ chain ∈ s.session.accepted, s.live chain = true →
          endsCleanly { s with strand := rest } true chain = true := by
      intro _ hevery chain hchain hlive
      have hclean := List.all_eq_true.mp hevery chain hchain
      rw [hlive, Bool.not_true, Bool.false_or] at hclean
      exact endsCleanly_handlers (fun other hother => .inl (hpopped other hother)) hclean
    dsimp only
    cases handler with
    | message doc =>
      exact (hnext _ fun other hother => ne_update_of_mem_handleMessage env allowed doc hother).1
    | requests requests =>
      cases requests with
      | nil => exact hpop
      | cons r requests =>
        obtain ⟨hadv, hends⟩ := hnext [.requests requests] (by simp)
        apply hadv.trans (advances_handleRequest hadv.invariant env r ?_)
        intro key hkey
        have hinstalls : s.installs env r = some key := hkey
        simp only [meets, hinstalls, Option.all_some, Bool.and_eq_true, Option.all_eq_true] at hmeets
        exact ⟨hmeets.1, fun chain hchain => hends false chain (hmeets.2 chain hchain)⟩
    | cancels keys =>
      cases keys with
      | nil => exact hpop
      | cons key keys =>
        obtain ⟨hadv, hends⟩ := hnext [.send (.canceled key), .cancels keys] (by simp)
        apply hadv.trans (advances_handleCancelKey hadv.invariant key ?_)
        intro chain hchain
        simp only [meets, Option.all_eq_true] at hmeets
        exact hends false chain (hmeets chain hchain)
    | send frame =>
      apply hpop.trans (advances_sendText hpop.invariant ?_ ?_)
      · intro hopen chain hended key value heq
        have hmem : Handler.send (.update chain key value) ∈ s.strand := by
          rw [hstrand, ← heq]
          exact List.mem_cons_self
        exact (h.dead chain hended).sends hopen key value hmem
      · intro hfull hopen
        apply hall hopen
        simpa [meets, closes, show s.session.isOpen = true from hopen,
          show ClientSession.maxOutboxSize ≤ s.session.outbox.length from hfull] using hmeets
    | written ok =>
      apply hpop.trans (advances_onWrite hpop.invariant ok ?_)
      intro hok hopen
      apply hall hopen
      simpa [meets, closes, show s.session.isOpen = true from hopen, hok] using hmeets
    | close =>
      apply hpop.trans (advances_close hpop.invariant ?_)
      intro hopen
      apply hall hopen
      simpa [meets, closes, show s.session.isOpen = true from hopen] using hmeets

/-- The step lemma. -/
theorem advances_step (h : s.Invariant) (env : SessionEnv D) {action : Action D}
    (hmeets : ∀ allowed, action = .strand allowed → s.strand.head?.all (s.meets env) = true) :
    Advances s (s.step env action) := by
  have hpush : ∀ handler : Handler D, (∀ chain key value, handler ≠ .send (.update chain key value)) →
      Advances s { s with strand := s.strand ++ [handler] } := by
    intro handler hne
    apply advances_handlers h
    intro other hother
    rcases List.mem_append.mp hother with hold | hnew
    · exact .inl hold
    · obtain rfl := List.mem_singleton.mp hnew
      exact .inr hne
  cases action with
  | receive doc => exact hpush _ (by simp)
  | requestClose => exact hpush _ (by simp)
  | writeDone ok =>
    unfold step
    dsimp only
    split_ifs
    · have hpushed := hpush (.written ok) (by simp)
      exact hpushed.trans (advances_writes hpushed.invariant rfl rfl rfl (fun _ _ => rfl))
    · exact Advances.refl h
  | strand allowed => exact advances_runStrand h env allowed (hmeets allowed rfl)
  | notify symbol field value => exact advances_notifyListeners h symbol field value
  | timer id => exact advances_fireTimer h id
  | work task store => exact advances_work h env store task

theorem cleanly_cons {env : SessionEnv D} {action : Action D} {rest : List (Action D)}
    (h : s.cleanly env (action :: rest) = true) :
    (∀ allowed, action = .strand allowed → s.strand.head?.all (s.meets env) = true) ∧
      (s.step env action).cleanly env rest = true := by
  cases action with
  | strand allowed =>
    rw [cleanly, Bool.and_eq_true] at h
    exact ⟨fun _ _ => h.1, h.2⟩
  | _ => exact ⟨by simp, h⟩

/-- The run lemma. -/
theorem advances_run (h : s.Invariant) (env : SessionEnv D) {actions : List (Action D)}
    (hclean : s.cleanly env actions = true) : Advances s (s.run env actions) := by
  induction actions generalizing s with
  | nil => exact Advances.refl h
  | cons action rest ih =>
    obtain ⟨hmeets, hrest⟩ := cleanly_cons hclean
    have hstep := advances_step h env hmeets
    exact hstep.trans (ih hstep.invariant hrest)

theorem cleanly_append {env : SessionEnv D} (before after : List (Action D))
    (h : s.cleanly env (before ++ after) = true) :
    s.cleanly env before = true ∧ (s.run env before).cleanly env after = true := by
  induction before generalizing s with
  | nil => exact ⟨rfl, h⟩
  | cons action rest ih =>
    obtain ⟨hmeets, hrest⟩ := cleanly_cons h
    obtain ⟨hfirst, hsecond⟩ := ih hrest
    refine ⟨?_, hsecond⟩
    cases action with
    | strand allowed =>
      rw [cleanly, Bool.and_eq_true]
      exact ⟨hmeets allowed rfl, hfirst⟩
    | _ => exact hfirst

omit [Double D] in
theorem invariant_initial : Invariant ({} : System D) := by
  refine ⟨⟨⟨rfl, ?_, ?_⟩, ?_, List.nodup_nil, ?_, ?_⟩, ?_⟩
  · intro id node hnode
    simp at hnode
  · intro symbol field id hid
    cases hid
  · intro entry hentry
    cases hentry
  · intro task htask
    cases htask
  · intro chain hchain
    cases hchain
  · intro chain hended
    cases hended.1

/-- In every run in which chains end cleanly, a chain that was canceled, taken over or closed is
registered nowhere, none of its timers runs, and no update of it is put in the outbox any more. -/
theorem ended_chain_stays_quiet (env : SessionEnv D) (before after : List (Action D))
    (hclean : cleanly env ({} : System D) (before ++ after) = true) (chain : NodeId)
    (hended : (run env ({} : System D) before).Ended chain) :
    (∀ symbol field, ∀ id ∈ (run env ({} : System D) (before ++ after)).rt.listeners symbol field,
      (run env ({} : System D) (before ++ after)).origins[id]? ≠ some chain) ∧
    (∀ id : ℕ, (run env ({} : System D) (before ++ after)).origins[id]? = some chain →
      ¬ (run env ({} : System D) (before ++ after)).rt.Ticking id) ∧
    updates chain (run env ({} : System D) (before ++ after)).session.enqueued =
      updates chain (run env ({} : System D) before).session.enqueued := by
  obtain ⟨hfirst, hsecond⟩ := cleanly_append before after hclean
  have hbefore := advances_run invariant_initial env hfirst
  have hafter := advances_run hbefore.invariant env hsecond
  have hrun : run env ({} : System D) (before ++ after) = (run env {} before).run env after :=
    List.foldl_append
  have hdead := hafter.invariant.dead chain (hafter.ended chain hended)
  rw [hrun]
  exact ⟨fun _ _ _ hid => hdead.gone.unlisted hid, fun _ hid => hdead.gone.still hid,
    hafter.frames chain hended⟩

end Ends

/-- A subscription to AAPL's last price with a pipeline. -/
def subscribeTo (pipeline : List (Json ExactDouble)) : Json ExactDouble :=
  .object [("type", .string "subscribe"), ("requests", .array [.object [
    ("key", .int ⟨1, by decide, by decide⟩), ("streamKey", .string "AAPL"),
    ("field", .string "lastPrice"), ("pipeline", .array pipeline)]])]

def cancelOne : Json ExactDouble :=
  .object [("type", .string "cancel"), ("keys", .array [.int ⟨1, by decide, by decide⟩])]

/-- A session with an execution context and all dependencies. -/
def fullSessionEnv : SessionEnv ExactDouble :=
  ⟨true, ⟨⟨true, true, true⟩, false, ⟨fun _ => none, fun _ => none⟩⟩⟩

/-- The client subscribes and cancels, and the strand runs all handlers. -/
def subscribeAndCancel (pipeline : List (Json ExactDouble)) : List (Action ExactDouble) :=
  [Action.receive (some (subscribeTo pipeline))] ++ List.replicate 4 (Action.strand true) ++
  [Action.receive (some cancelOne)] ++ List.replicate 4 (Action.strand true)

/-- A value comes, goes through the workers and is sent, and the client cancels. -/
def sentAndCanceled : List (Action ExactDouble) :=
  [Action.receive (some (subscribeTo []))] ++ List.replicate 4 (Action.strand true) ++
  [.notify "AAPL" "lastPrice" (.fin 7), .work 0 (fun _ _ => none), .work 1 (fun _ _ => none),
    .strand true, .writeDone true, .strand true, .receive (some cancelOne)] ++
  List.replicate 4 (Action.strand true)

/-- After another value the client subscribes again under the same key, and gets a third one. -/
def subscribedAgain : List (Action ExactDouble) :=
  [.notify "AAPL" "lastPrice" (.fin 8), .receive (some (subscribeTo []))] ++
  List.replicate 4 (Action.strand true) ++
  [.notify "AAPL" "lastPrice" (.fin 9), .work 2 (fun _ _ => none), .work 3 (fun _ _ => none),
    .strand true]

theorem canceled_subscription_stays_quiet :
    cleanly fullSessionEnv {} (sentAndCanceled ++ subscribedAgain) = true ∧
    (run fullSessionEnv {} sentAndCanceled).Ended 0 ∧
    (updates 0 (run fullSessionEnv {} sentAndCanceled).session.enqueued).length = 1 ∧
    updates 0 (run fullSessionEnv {} (sentAndCanceled ++ subscribedAgain)).session.enqueued =
      updates 0 (run fullSessionEnv {} sentAndCanceled).session.enqueued ∧
    (updates 2 (run fullSessionEnv {}
      (sentAndCanceled ++ subscribedAgain)).session.enqueued).length = 1 := by
  have hclean : cleanly fullSessionEnv {} (sentAndCanceled ++ subscribedAgain) = true := by
    decide +kernel
  have hended : (run fullSessionEnv {} sentAndCanceled).Ended 0 := by decide +kernel
  refine ⟨hclean, hended, by decide +kernel, ?_, by decide +kernel⟩
  exact (ended_chain_stays_quiet fullSessionEnv _ _ hclean 0 hended).2.2

def everySecond : List (Json ExactDouble) :=
  [.object [("type", .string "Interval"), ("ms", .int ⟨1000, by decide, by decide⟩)]]

def keyOne : Json ExactDouble := .int ⟨1, by decide, by decide⟩

def oneSecond : Json ExactDouble := .int ⟨1000, by decide, by decide⟩

/-- The Interval's thread fires once, a worker makes its call and the strand sends the frame. -/
def fireOnce : List (Action ExactDouble) := [.timer 1, .work 0 (fun _ _ => none), .strand true]

theorem canceled_interval_keeps_sending :
    ¬ ∀ (env : SessionEnv ExactDouble) (before after : List (Action ExactDouble)) (chain : NodeId),
      (run env {} before).Ended chain →
      (∀ symbol field, ∀ id ∈ (run env {} (before ++ after)).rt.listeners symbol field,
        (run env {} (before ++ after)).origins[id]? ≠ some chain) ∧
      (∀ id : ℕ, (run env {} (before ++ after)).origins[id]? = some chain →
        ¬ (run env {} (before ++ after)).rt.Ticking id) ∧
      updates chain (run env {} (before ++ after)).session.enqueued =
        updates chain (run env {} before).session.enqueued := by
  intro h
  have hended : (run fullSessionEnv {} (subscribeAndCancel everySecond)).Ended 0 := by decide +kernel
  have hsame := congrArg List.length
    (h fullSessionEnv (subscribeAndCancel everySecond) fireOnce 0 hended).2.2
  have hbefore : (updates 0 (run fullSessionEnv {}
      (subscribeAndCancel everySecond)).session.enqueued).length = 0 := by decide +kernel
  have hafter : (updates 0 (run fullSessionEnv {}
      (subscribeAndCancel everySecond ++ fireOnce)).session.enqueued).length = 1 := by decide +kernel
  omega

end System
end GmaEngine
