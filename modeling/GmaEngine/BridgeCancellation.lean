import GmaEngine.ChainCalls
import GmaEngine.EntryMaps
import GmaEngine.FailedBuilds
import GmaEngine.HeapSteps

/-!
# Cancellation on the bridge

The terminal of a subscription is the first node that its chain keeps, and every branch of the
chain ends there. Whoever takes a subscription out of the tables shuts the terminal down, and a
terminal that was shut down never sends again, whatever still runs in front of it.
-/

namespace GmaEngine

namespace Bridge

section
variable {α : Type} {table : List (String × List (String × α))}
  {connId connId' reqId reqId' : String} {a : α}

/-- What a table holds under an id of a connection. -/
def entry (table : List (String × List (String × α))) (connId reqId : String) : Option α :=
  lookupKey (ofConn table connId) reqId

theorem ofConn_assign {m : List (String × α)} :
    ofConn (assignKey table connId m) connId' =
      if connId' = connId then m else ofConn table connId' := by
  unfold ofConn
  rw [lookupKey_assignKey]
  split_ifs <;> rfl

theorem ofConn_remove : ofConn (KeyedQueues.removeKey Prod.fst connId table) connId' =
    if connId' = connId then [] else ofConn table connId' := by
  unfold ofConn
  rw [lookupKey_removeKey]
  split_ifs <;> rfl

theorem entry_assign :
    entry (assignKey table connId (assignKey (ofConn table connId) reqId a)) connId' reqId' =
      if connId' = connId ∧ reqId' = reqId then some a else entry table connId' reqId' := by
  unfold entry
  rw [ofConn_assign]
  by_cases hconn : connId' = connId
  · subst hconn
    rw [if_pos rfl, lookupKey_assignKey]
    simp
  · simp [hconn]

theorem ofConn_eraseId : ofConn (eraseId table connId reqId) connId' =
    if connId' = connId then KeyedQueues.removeKey Prod.fst reqId (ofConn table connId)
    else ofConn table connId' := by
  unfold eraseId
  split_ifs with hsome hconn hconn
  · rw [ofConn_assign, if_pos hconn]
  · rw [ofConn_assign, if_neg hconn]
  · have hnone : lookupKey (ofConn table connId) reqId = none := by simpa using hsome
    rw [hconn, KeyedQueues.removeKey_eq_self (lookupKey_eq_none_iff.mp hnone)]
  · rfl

theorem entry_eraseId : entry (eraseId table connId reqId) connId' reqId' =
    if connId' = connId ∧ reqId' = reqId then none else entry table connId' reqId' := by
  unfold entry
  rw [ofConn_eraseId]
  by_cases hconn : connId' = connId
  · subst hconn
    rw [if_pos rfl, lookupKey_removeKey]
    simp
  · simp [hconn]

theorem entry_remove : entry (KeyedQueues.removeKey Prod.fst connId table) connId' reqId' =
    if connId' = connId then none else entry table connId' reqId' := by
  unfold entry
  rw [ofConn_remove]
  split_ifs <;> rfl

/-- An empty map of a connection may as well go. -/
theorem entry_tidy : entry (if (ofConn table connId).isEmpty then
      KeyedQueues.removeKey Prod.fst connId table else table) connId' reqId' =
    entry table connId' reqId' := by
  split_ifs with hempty
  · rw [entry_remove]
    split_ifs with hconn
    · rw [entry, hconn, List.isEmpty_iff.mp hempty]
      rfl
    · rfl
  · rfl

end

variable {D : Type}

/-- The terminal of the subscription under an id. -/
def terminalOf (b : Bridge D) (connId reqId : String) : Option NodeId :=
  (entry b.chains connId reqId).bind List.head?

/-- The update frames of a chain among some frames. -/
def updates (chain : NodeId) (frames : List (BridgeFrame D)) : List (BridgeFrame D) :=
  frames.filter (fun frame => match frame with
    | .update c _ _ => decide (c = chain)
    | _ => false)

structure Invariant (b : Bridge D) : Prop where
  heap : HeapOk b.rt b.origins
  own : ∀ id, b.rt.IsTerminal id → b.origins[id]? = some id
  pairs : ∀ connId reqId,
    (entry b.active connId reqId).isSome = (entry b.chains connId reqId).isSome
  limit : ∀ connId, (ofConn b.active connId).length ≤ maxSubsPerConn
  chains : ∀ connId reqId nodes, entry b.chains connId reqId = some nodes →
    ∃ terminal rest, nodes = terminal :: rest ∧ b.rt.IsTerminal terminal

theorem invariant_initial : Invariant ({} : Bridge D) := by
  refine ⟨⟨rfl, ?_, ?_⟩, ?_, fun _ _ => rfl, fun _ => Nat.zero_le _, ?_⟩
  · intro id node hnode
    cases hnode
  · intro symbol field id hid
    cases hid
  · rintro id ⟨node, key, hnode, -⟩
    cases hnode
  · intro connId reqId nodes hnodes
    cases hnodes

/-- No terminal is made. -/
def noTerminal (core : NodeCore D) : Prop := ∀ key, core ≠ .responder key

theorem permits_noTerminal (env : BuildEnv D) : Permits env noTerminal (fun _ => True) where
  other _ h := by cases h
  listener _ _ _ _ _ _ _ _ h := by cases h
  groupSplit _ _ _ _ _ _ _ h := by cases h
  child _ _ _ _ _ _ _ := trivial
  inputs _ _ _ _ _ _ _ := trivial
  stages _ _ _ _ _ _ _ := trivial
  template _ _ _ := trivial

/-- A terminal was one before. -/
theorem isTerminal_of_step {rt rt' : Runtime D} (h : HeapStep noTerminal rt rt') {id : ℕ}
    (hid : rt'.IsTerminal id) : rt.IsTerminal id := by
  obtain ⟨node, key, hnode, hcore⟩ := hid
  rcases Nat.lt_or_ge id rt.nodes.length with hlt | hge
  · obtain ⟨node', hnode', hsame, -⟩ := h.old id _ (List.getElem?_eq_getElem hlt)
    rw [hnode] at hnode'
    cases hnode'
    exact ⟨_, key, List.getElem?_eq_getElem hlt, hsame.symm.trans hcore⟩
  · exact absurd hcore (h.new id node hge hnode key)

section
variable {b : Bridge D}

/-- The heap makes a step; the tables stay. -/
theorem Invariant.withRuntime (h : b.Invariant) {rt : Runtime D}
    (hstep : HeapStep noTerminal b.rt rt) {chain : NodeId}
    (hheap : HeapOk rt (b.withRuntime rt chain).origins) : (b.withRuntime rt chain).Invariant := by
  refine ⟨hheap, ?_, h.pairs, h.limit, ?_⟩
  · intro id hid
    have hown := h.own id (isTerminal_of_step hstep hid)
    simp only [Bridge.withRuntime]
    rw [List.getElem?_append_left (List.getElem?_eq_some_iff.mp hown).1]
    exact hown
  · intro connId reqId nodes hnodes
    obtain ⟨terminal, rest, heq, hterminal⟩ := h.chains connId reqId nodes hnodes
    exact ⟨terminal, rest, heq, hterminal.mono hstep⟩

/-- What a step does about subscriptions that have ended or end with it. -/
structure Advances (b b' : Bridge D) : Prop where
  invariant : b'.Invariant
  silenced : ∀ terminal, b.rt.Silenced terminal → b'.rt.Silenced terminal
  frames : ∀ terminal, b.rt.Silenced terminal → updates terminal b'.sent = updates terminal b.sent
  ended : ∀ connId reqId terminal, b.terminalOf connId reqId = some terminal →
    b'.terminalOf connId reqId ≠ some terminal → b'.rt.Silenced terminal

theorem Advances.refl (h : b.Invariant) : Advances b b :=
  ⟨h, fun _ hs => hs, fun _ _ => rfl, fun _ _ _ h h' => absurd h h'⟩

theorem Advances.trans {b' b'' : Bridge D} (h : Advances b b') (h' : Advances b' b'') :
    Advances b b'' := by
  refine ⟨h'.invariant, fun t hs => h'.silenced t (h.silenced t hs), ?_, ?_⟩
  · intro t hs
    rw [h'.frames t (h.silenced t hs), h.frames t hs]
  · intro connId reqId t hbefore hafter
    by_cases hmid : b'.terminalOf connId reqId = some t
    · exact h'.ended connId reqId t hmid hafter
    · exact h'.silenced t (h.ended connId reqId t hbefore hmid)

/-- Only the calls that are pending, the connections, the pool or other frames change. -/
theorem advances_aside (h : b.Invariant) {b' : Bridge D} (hrt : b'.rt = b.rt)
    (horigins : b'.origins = b.origins) (hactive : b'.active = b.active)
    (hchains : b'.chains = b.chains) (hsent : ∀ t, updates t b'.sent = updates t b.sent) :
    Advances b b' := by
  refine ⟨⟨?_, ?_, ?_, ?_, ?_⟩, ?_, fun t _ => hsent t, ?_⟩
  · rw [hrt, horigins]
    exact h.heap
  · rw [hrt, horigins]
    exact h.own
  · rw [hactive, hchains]
    exact h.pairs
  · rw [hactive]
    exact h.limit
  · rw [hrt, hchains]
    exact h.chains
  · rw [hrt]
    exact fun _ hs => hs
  · intro connId reqId t hbefore hafter
    unfold terminalOf at hbefore hafter
    rw [hchains] at hafter
    exact absurd hbefore hafter

theorem updates_append (t : NodeId) (frames : List (BridgeFrame D)) {more : List (BridgeFrame D)}
    (hmore : ∀ key value, .update t key value ∉ more) :
    updates t (frames ++ more) = updates t frames := by
  have hnone : updates t more = [] := by
    apply List.filter_eq_nil_iff.mpr
    intro frame hframe
    cases frame with
    | update c key value =>
      have hne : c ≠ t := by
        intro heq
        subst heq
        exact hmore key value hframe
      simpa using hne
    | _ => exact Bool.false_ne_true
  have hsplit : updates t (frames ++ more) = updates t frames ++ updates t more :=
    List.filter_append frames more
  rw [hsplit, hnone, List.append_nil]

theorem advances_sendTo (h : b.Invariant) (connId : String) {frame : BridgeFrame D}
    (hframe : ∀ t key value, frame ≠ .update t key value) : Advances b (b.sendTo connId frame) := by
  unfold sendTo
  split_ifs
  · refine advances_aside h rfl rfl rfl rfl (fun t => updates_append t b.sent ?_)
    intro key value hmem
    exact hframe t key value (List.mem_singleton.mp hmem).symm
  · exact Advances.refl h

theorem advances_error (h : b.Invariant) (connId message : String) :
    Advances b (b.sendTo connId (.error connId message)) :=
  advances_sendTo h connId (fun _ _ _ heq => nomatch heq)

theorem advances_withRuntime (h : b.Invariant) {rt : Runtime D}
    (hstep : HeapStep noTerminal b.rt rt) {chain : NodeId}
    (hheap : HeapOk rt (b.withRuntime rt chain).origins) : Advances b (b.withRuntime rt chain) :=
  ⟨h.withRuntime hstep hheap, fun _ hs => hs.mono hstep, fun _ _ => rfl,
    fun _ _ _ hbefore hafter => absurd hbefore hafter⟩

/-- The tables change and nodes are shut down. -/
theorem advances_retable (h : b.Invariant) {b' : Bridge D}
    (hstep : HeapStep (fun _ => False) b.rt b'.rt) (hheap : HeapOk b'.rt b.origins)
    (horigins : b'.origins = b.origins) (hsent : b'.sent = b.sent)
    (hpairs : ∀ connId reqId,
      (entry b'.active connId reqId).isSome = (entry b'.chains connId reqId).isSome)
    (hlimit : ∀ connId, (ofConn b'.active connId).length ≤ maxSubsPerConn)
    (hchains : ∀ connId reqId nodes, entry b'.chains connId reqId = some nodes →
      entry b.chains connId reqId = some nodes ∨
        ∃ terminal rest, nodes = terminal :: rest ∧ b.rt.IsTerminal terminal)
    (hended : ∀ connId reqId terminal, b.terminalOf connId reqId = some terminal →
      b'.terminalOf connId reqId ≠ some terminal → b'.rt.Silenced terminal) : Advances b b' := by
  have hno : HeapStep noTerminal b.rt b'.rt := hstep.imp (fun _ hfalse => hfalse.elim)
  refine ⟨⟨?_, ?_, hpairs, hlimit, ?_⟩, fun _ hs => hs.mono hstep, ?_, hended⟩
  · rw [horigins]
    exact hheap
  · intro id hid
    rw [horigins]
    exact h.own id (isTerminal_of_step hno hid)
  · intro connId reqId nodes hnodes
    rcases hchains connId reqId nodes hnodes with hold | ⟨t, rest, heq, ht⟩
    · obtain ⟨t, rest, heq, ht⟩ := h.chains connId reqId nodes hold
      exact ⟨t, rest, heq, ht.mono hstep⟩
    · exact ⟨t, rest, heq, ht.mono hstep⟩
  · intro t _
    rw [hsent]

theorem heapStep_head (b : Bridge D) (head : Option NodeId) :
    HeapStep (fun _ => False) b.rt (head.elim b.rt b.rt.shutdown) := by
  cases head with
  | none => exact HeapStep.refl _ _
  | some head => exact Runtime.heapStep_shutdown b.rt head

theorem heapStep_shutdownSub (b : Bridge D) (connId reqId : String) :
    HeapStep (fun _ => False) b.rt (b.shutdownSub connId reqId) :=
  (heapStep_head b _).trans (Runtime.heapStep_foldl Runtime.heapStep_shutdown _ _)

theorem heapOk_head (h : b.Invariant) (head : Option NodeId) :
    HeapOk (head.elim b.rt b.rt.shutdown) b.origins := by
  cases head with
  | none => exact h.heap
  | some head => exact Runtime.heapOk_shutdown h.heap head

theorem heapOk_shutdownSub (h : b.Invariant) (connId reqId : String) :
    HeapOk (b.shutdownSub connId reqId) b.origins :=
  Runtime.heapOk_foldl Runtime.heapOk_shutdown _ (heapOk_head h _)

/-- Terminals that are shut down among others are silenced. -/
theorem silenced_shutdownAll {rt : Runtime D} {ids : List NodeId} {terminal : NodeId}
    (hid : terminal ∈ ids) (h : rt.IsTerminal terminal) :
    (ids.foldl Runtime.shutdown rt).Silenced terminal :=
  Runtime.silenced_foldl (fun rt id => Runtime.heapStep_shutdown (P := fun _ => False) rt id)
    (fun _ _ ht => Runtime.silenced_shutdown ht) hid h

/-- The terminal of a subscription is in its chain. -/
theorem terminalOf_spec (h : b.Invariant) {connId reqId : String} {terminal : NodeId}
    (hterminal : b.terminalOf connId reqId = some terminal) :
    ∃ rest, entry b.chains connId reqId = some (terminal :: rest) ∧ b.rt.IsTerminal terminal := by
  obtain ⟨nodes, hnodes, hhead⟩ := Option.bind_eq_some_iff.mp hterminal
  obtain ⟨t, rest, rfl, hisTerminal⟩ := h.chains connId reqId nodes hnodes
  obtain rfl : t = terminal := Option.some.inj hhead
  exact ⟨rest, hnodes, hisTerminal⟩

/-- Shutting down a subscription silences its terminal. -/
theorem silenced_shutdownSub (h : b.Invariant) {connId reqId : String} {terminal : NodeId}
    (hterminal : b.terminalOf connId reqId = some terminal) :
    (b.shutdownSub connId reqId).Silenced terminal := by
  obtain ⟨rest, hentry, hisTerminal⟩ := terminalOf_spec h hterminal
  have hlookup : lookupKey (ofConn b.chains connId) reqId = some (terminal :: rest) := hentry
  unfold shutdownSub
  rw [hlookup]
  exact silenced_shutdownAll List.mem_cons_self (hisTerminal.mono (heapStep_head b _))

theorem advances_cancelId (h : b.Invariant) (connId reqId : String) :
    Advances b (b.cancelId connId reqId) := by
  have hremoved : ∀ connId' reqId',
      entry (if (ofConn (eraseId b.chains connId reqId) connId).isEmpty then
        KeyedQueues.removeKey Prod.fst connId (eraseId b.chains connId reqId)
        else eraseId b.chains connId reqId) connId' reqId' =
      if connId' = connId ∧ reqId' = reqId then none else entry b.chains connId' reqId' := by
    intro connId' reqId'
    rw [entry_tidy, entry_eraseId]
  have hretable : Advances b { b with
      rt := b.shutdownSub connId reqId
      active := eraseId b.active connId reqId
      chains := if (ofConn (eraseId b.chains connId reqId) connId).isEmpty then
        KeyedQueues.removeKey Prod.fst connId (eraseId b.chains connId reqId)
        else eraseId b.chains connId reqId } := by
    refine advances_retable h (heapStep_shutdownSub b connId reqId)
      (heapOk_shutdownSub h connId reqId) rfl rfl ?_ ?_ ?_ ?_
    · intro connId' reqId'
      rw [entry_eraseId, hremoved]
      split_ifs
      · rfl
      · exact h.pairs connId' reqId'
    · intro connId'
      have hlimit := h.limit connId'
      dsimp only
      rw [ofConn_eraseId]
      split_ifs with hconn
      · subst hconn
        exact (List.length_filter_le _ _).trans hlimit
      · exact hlimit
    · intro connId' reqId' nodes hnodes
      rw [hremoved] at hnodes
      split_ifs at hnodes
      exact .inl hnodes
    · intro connId' reqId' t hbefore hafter
      unfold terminalOf at hafter
      dsimp only at hafter
      rw [hremoved] at hafter
      split_ifs at hafter with hkey
      · obtain ⟨rfl, rfl⟩ := hkey
        exact silenced_shutdownSub h hbefore
      · exact absurd hbefore hafter
  refine hretable.trans (advances_sendTo hretable.invariant connId ?_)
  intro _ _ _ heq
  cases heq

theorem mem_of_lookupKey {κ α : Type} [DecidableEq κ] {entries : List (κ × α)} {k : κ} {a : α}
    (h : lookupKey entries k = some a) : (k, a) ∈ entries := by
  obtain ⟨entry, hentry, rfl⟩ := Option.map_eq_some_iff.mp h
  have hkey : entry.1 = k := by simpa using List.find?_some hentry
  rw [← hkey]
  exact List.mem_of_find?_eq_some hentry

theorem advances_onClose (h : b.Invariant) (connId : String) : Advances b (b.onClose connId) := by
  have hheads : HeapStep (fun _ => False) b.rt
      (((ofConn b.active connId).map Prod.snd).foldl Runtime.shutdown b.rt) :=
    Runtime.heapStep_foldl Runtime.heapStep_shutdown _ _
  have hheap : HeapOk (b.onClose connId).rt b.origins :=
    Runtime.heapOk_foldl Runtime.heapOk_shutdown _
      (Runtime.heapOk_foldl Runtime.heapOk_shutdown _ h.heap)
  refine advances_retable h (hheads.trans (Runtime.heapStep_foldl Runtime.heapStep_shutdown _ _))
    hheap rfl rfl ?_ ?_ ?_ ?_
  · intro connId' reqId'
    simp only [onClose, entry_remove]
    split_ifs
    · rfl
    · exact h.pairs connId' reqId'
  · intro connId'
    simp only [onClose, ofConn_remove]
    split_ifs
    · exact Nat.zero_le _
    · exact h.limit connId'
  · intro connId' reqId' nodes hnodes
    simp only [onClose, entry_remove] at hnodes
    split_ifs at hnodes
    exact .inl hnodes
  · intro connId' reqId' t hbefore hafter
    simp only [terminalOf, onClose, entry_remove] at hafter
    split_ifs at hafter with hconn
    · subst hconn
      obtain ⟨rest, hentry, hterminal⟩ := terminalOf_spec h hbefore
      refine silenced_shutdownAll ?_ (hterminal.mono hheads)
      exact List.mem_flatMap.mpr ⟨_, mem_of_lookupKey hentry, List.mem_cons_self⟩
    · exact absurd hbefore hafter

/-- A chain is installed under an id that is not beyond the limit. -/
theorem advances_install (h : b.Invariant) {connId reqId : String}
    (hlimit : b.overLimit connId reqId = false) {built : BuiltChain} {terminal : NodeId}
    {rest : List NodeId} (hkeep : built.keepAlive = terminal :: rest)
    (hterminal : b.rt.IsTerminal terminal) : Advances b (b.install connId reqId built) := by
  refine advances_retable h (heapStep_shutdownSub b connId reqId)
      (heapOk_shutdownSub h connId reqId) rfl rfl ?_ ?_ ?_ ?_
  · intro connId' reqId'
    simp only [install, entry_assign]
    split_ifs
    · rfl
    · exact h.pairs connId' reqId'
  · intro connId'
    have hold := h.limit connId'
    simp only [install, ofConn_assign]
    split_ifs with hconn
    · subst hconn
      rw [length_assignKey]
      cases hlookup : lookupKey (ofConn b.active connId') reqId with
      | some head => simpa using hold
      | none =>
        simp only [overLimit, hlookup, Option.isNone_none, Bool.true_and, decide_eq_false_iff_not]
          at hlimit
        simp only [Option.isSome_none, Bool.false_eq_true, if_false]
        omega
    · exact hold
  · intro connId' reqId' nodes hnodes
    simp only [install, entry_assign] at hnodes
    split_ifs at hnodes
    · cases hnodes
      exact .inr ⟨terminal, rest, hkeep, hterminal⟩
    · exact .inl hnodes
  · intro connId' reqId' t hbefore hafter
    simp only [terminalOf, install, entry_assign] at hafter
    split_ifs at hafter with hkey
    · obtain ⟨rfl, rfl⟩ := hkey
      exact silenced_shutdownSub h hbefore
    · exact absurd hbefore hafter

/-- The heap after the terminal of a request was made. -/
def withTerminal (b : Bridge D) (reqId : String) : Runtime D :=
  { b.rt with nodes := b.rt.nodes ++ [.responder (.str reqId) false] }

theorem isTerminal_withTerminal (b : Bridge D) (reqId : String) :
    (b.withTerminal reqId).IsTerminal b.rt.nodes.length :=
  ⟨.responder (.str reqId) false, .str reqId, by simp [withTerminal], rfl⟩

/-- A terminal and some nodes of its chain are made. -/
theorem advances_terminal (h : b.Invariant) {reqId : String} {rt : Runtime D}
    (hstep : HeapStep noTerminal (b.withTerminal reqId) rt)
    (hheap : HeapOk rt (b.withRuntime rt b.rt.nodes.length).origins) :
    Advances b (b.withRuntime rt b.rt.nodes.length) := by
  have hpush : HeapStep (fun _ => True) b.rt (b.withTerminal reqId) := HeapStep.push b.rt trivial
  have hall := hpush.trans (hstep.imp (fun _ _ => trivial))
  have hle := hstep.length_le
  rw [withTerminal, List.length_append, List.length_singleton] at hle
  refine ⟨⟨hheap, ?_, h.pairs, h.limit, ?_⟩, fun _ hs => hs.mono hall, fun _ _ => rfl,
    fun _ _ _ hbefore hafter => absurd hbefore hafter⟩
  · intro id hid
    obtain ⟨node, key, hnode, hcore⟩ := isTerminal_of_step hstep hid
    rcases Nat.lt_or_ge id b.rt.nodes.length with hlt | hge
    · have hnode' : b.rt.nodes[id]? = some node := by
        rw [← hnode, withTerminal, List.getElem?_append_left hlt]
      have hown := h.own id ⟨node, key, hnode', hcore⟩
      simp only [Bridge.withRuntime]
      rw [List.getElem?_append_left (List.getElem?_eq_some_iff.mp hown).1]
      exact hown
    · -- the only terminal that was made is the one of the request
      have hlt := (List.getElem?_eq_some_iff.mp hnode).1
      rw [withTerminal, List.length_append, List.length_singleton] at hlt
      obtain rfl : id = b.rt.nodes.length := by omega
      have hlength := h.heap.length
      simp only [Bridge.withRuntime]
      rw [List.getElem?_append_right (by omega), List.getElem?_replicate]
      exact if_pos (by omega)
  · intro connId reqId nodes hnodes
    obtain ⟨terminal, rest, heq, hterminal⟩ := h.chains connId reqId nodes hnodes
    exact ⟨terminal, rest, heq, hterminal.mono hall⟩

variable [Double D]

/-- What a build leaves, whether or not it fails. -/
theorem build_spec (h : b.Invariant) (env : BuildEnv D) (rq : Json D) {reqId : String}
    {result : Except String BuiltChain} {rt : Runtime D}
    (hrun : (TreeBuilder.buildForRequest env rq (some b.rt.nodes.length)).run.run
      (b.withTerminal reqId) = (result, rt)) :
    HeapStep noTerminal (b.withTerminal reqId) rt ∧
      HeapOk rt (b.withRuntime rt b.rt.nodes.length).origins ∧
      ∀ built, result = .ok built → ∃ rest, built.keepAlive = b.rt.nodes.length :: rest := by
  have hmakes := (TreeBuilder.makes_buildForRequest (permits_noTerminal env) rq b.rt.nodes.length
    (fun _ _ => trivial) (fun _ _ _ _ hcore => nomatch hcore) (b.withTerminal reqId) trivial).1
  have hout : EffectPlans.outcome (TreeBuilder.buildForRequest env rq (some b.rt.nodes.length))
      (b.withTerminal reqId) = (result, rt) := hrun
  rw [hout] at hmakes
  refine ⟨hmakes, (TreeBuilder.build_spec h.heap env rq _ hrun).1.heap, ?_⟩
  intro built hresult
  subst hresult
  obtain ⟨rb, -, hlayout, -⟩ := TreeBuilder.buildForRequest_ok_iff.mp hout
  rw [hlayout]
  exact ⟨_, rfl⟩

theorem advances_subscribe (h : b.Invariant) (env : BuildEnv D) {connId reqId : String}
    (hlimit : b.overLimit connId reqId = false) (rq : Json D) :
    Advances b (b.subscribe env connId reqId rq) := by
  unfold subscribe
  have hspec := fun result rt => @build_spec D b _ h env rq reqId result rt
  unfold withTerminal at hspec
  dsimp only
  generalize (TreeBuilder.buildForRequest env rq (some b.rt.nodes.length)).run.run
    { b.rt with nodes := b.rt.nodes ++ [.responder (.str reqId) false] } = out at hspec ⊢
  obtain ⟨result, rt⟩ := out
  obtain ⟨hstep, hheap, hkeep⟩ := hspec result rt rfl
  cases result with
  | error message =>
    have hshut : HeapStep noTerminal (b.withTerminal reqId) (rt.shutdown b.rt.nodes.length) :=
      hstep.trans (Runtime.heapStep_shutdown rt _)
    have hlen : (rt.shutdown b.rt.nodes.length).nodes.length = rt.nodes.length :=
      (Runtime.heapStep_shutdown rt _).length_eq
    have hheap' : HeapOk (rt.shutdown b.rt.nodes.length)
        (b.withRuntime (rt.shutdown b.rt.nodes.length) b.rt.nodes.length).origins := by
      simp only [Bridge.withRuntime, hlen]
      exact Runtime.heapOk_shutdown hheap _
    have hadvances := advances_terminal h hshut hheap'
    exact hadvances.trans (advances_error hadvances.invariant connId message)
  | ok built =>
    obtain ⟨rest, hrest⟩ := hkeep built rfl
    have hadvances := advances_terminal h hstep hheap
    have hterminal : rt.IsTerminal b.rt.nodes.length :=
      (isTerminal_withTerminal b reqId).mono hstep
    have hinstall : Advances (b.withRuntime rt b.rt.nodes.length) _ :=
      advances_install hadvances.invariant hlimit hrest hterminal
    exact (hadvances.trans hinstall).trans
      (advances_sendTo hinstall.invariant connId (fun _ _ _ heq => nomatch heq))

omit [Double D] in
theorem sent_sendTo (b : Bridge D) (connId : String) (frame : BridgeFrame D) :
    (b.sendTo connId frame).sent = b.sent ∨ (b.sendTo connId frame).sent = b.sent ++ [frame] := by
  unfold sendTo
  split_ifs
  · exact .inr rfl
  · exact .inl rfl

/-- A request is passed over, refused, or built. -/
theorem handleRequest_cases (b : Bridge D) (env : BuildEnv D) (connId : String) (r : Json D) :
    b.handleRequest env connId r = b ∨
    (∃ message, b.handleRequest env connId r = b.sendTo connId (.error connId message)) ∨
    ∃ reqId rq, b.overLimit connId reqId = false ∧
      b.handleRequest env connId r = b.subscribe env connId reqId rq := by
  unfold handleRequest
  split
  · exact .inl rfl
  · cases (r.member "id").bind idOf with
    | none => exact .inr (.inl ⟨_, rfl⟩)
    | some reqId =>
      cases (r.member "streamKey").bind Json.getString with
      | none => exact .inr (.inl ⟨_, rfl⟩)
      | some streamKey =>
        cases (r.member "field").bind Json.getString with
        | none => exact .inr (.inl ⟨_, rfl⟩)
        | some field =>
          dsimp only
          split_ifs with _ _ hlimit
          · exact .inr (.inl ⟨_, rfl⟩)
          · exact .inr (.inl ⟨_, rfl⟩)
          · exact .inr (.inl ⟨_, rfl⟩)
          · exact .inl rfl
          · cases ClientSession.validateSpecs r with
            | error message => exact .inr (.inl ⟨_, rfl⟩)
            | ok _ => exact .inr (.inr ⟨reqId, _, by simpa using hlimit, rfl⟩)

theorem advances_handleRequest (h : b.Invariant) (env : BuildEnv D) (connId : String) (r : Json D) :
    Advances b (b.handleRequest env connId r) := by
  rcases handleRequest_cases b env connId r with heq | ⟨message, heq⟩ | ⟨reqId, rq, hlimit, heq⟩
  · rw [heq]
    exact Advances.refl h
  · rw [heq]
    exact advances_error h connId message
  · rw [heq]
    exact advances_subscribe h env hlimit rq

omit [Double D] in
theorem advances_onMessage (h : b.Invariant) (connId : String) (doc : Option (Json D)) :
    Advances b (b.onMessage connId doc) := by
  have herror := advances_error h connId
  have hpending : ∀ calls, Advances b { b with pending := calls } :=
    fun _ => advances_aside h rfl rfl rfl rfl (fun _ => rfl)
  unfold onMessage
  split
  · split
    · unfold handleSubscribe
      split
      · exact hpending _
      · exact herror _
    · unfold handleCancel
      split
      · exact hpending _
      · exact herror _
    · exact herror _
    · exact herror _
  · exact herror _

theorem advances_serve (h : b.Invariant) (env : BuildEnv D) : Advances b (b.serve env) := by
  have hpending : ∀ calls, Advances b { b with pending := calls } :=
    fun _ => advances_aside h rfl rfl rfl rfl (fun _ => rfl)
  unfold serve
  cases b.pending with
  | nil => exact Advances.refl h
  | cons call rest =>
    have hrest := hpending rest
    cases call with
    | onOpen connId callable => exact advances_aside h rfl rfl rfl rfl (fun _ => rfl)
    | onMessage connId doc => exact hrest.trans (advances_onMessage hrest.invariant connId doc)
    | requests connId rs =>
      cases rs with
      | nil => exact hrest
      | cons r rs =>
        have hmore := hpending (.requests connId rs :: rest)
        exact hmore.trans (advances_handleRequest hmore.invariant env connId r)
    | cancels connId ids =>
      cases ids with
      | nil => exact hrest
      | cons reqId ids =>
        have hmore := hpending (.cancels connId ids :: rest)
        exact hmore.trans (advances_cancelId hmore.invariant connId reqId)
    | onClose connId => exact hrest.trans (advances_onClose hrest.invariant connId)

/-- Only a terminal that was not shut down sends. -/
theorem responder_of_sent {rt : Runtime D} {env : BuildEnv D}
    {store : String → String → Option (ArgType D)} {live : NodeId → Bool} {id : ℕ}
    {sv value : StreamValue D} {key : RequestKey}
    (h : (key, value) ∈ (rt.onValue env store live id sv).2.sent) :
    rt.nodes[id]? = some (.responder key false) := by
  cases hnode : rt.nodes[id]? with
  | none =>
    rw [Runtime.onValue_of_none store live hnode] at h
    cases h
  | some node =>
    have hhandles : Runtime.Handles env rt id sv node _ :=
      Runtime.handles_onValue store live hnode sv
    generalize rt.onValue env store live id sv = out at hhandles h
    cases hhandles with
    | forwards hforwards =>
      rw [hforwards.sent] at h
      cases h
    | collects _ hforwards =>
      rw [hforwards.sent] at h
      cases h
    | sends hresponder =>
      obtain ⟨rfl, -⟩ := Prod.mk.inj (List.mem_singleton.mp h)
      rw [hresponder]
    | splits _ _ => cases h
    | fails _ _ => cases h

theorem advances_work (h : b.Invariant) (env : BuildEnv D)
    (store : String → String → Option (ArgType D)) (task : ℕ) :
    Advances b (b.work env store task) := by
  unfold work
  cases b.pool[task]? with
  | none => exact Advances.refl h
  | some calls =>
    cases calls with
    | nil => exact Advances.refl h
    | cons call rest =>
      have hstep : HeapStep noTerminal b.rt
          (b.rt.onValue env store (b.rt.alive b.roots) call.node call.value).1 :=
        Runtime.heapStep_onValue (permits_noTerminal env) (fun _ _ _ _ _ _ => trivial) store _
          call.node call.value
      have hadvances := advances_withRuntime h hstep
        (Runtime.evolves_onValue env store _ h.heap call.node call.value).heap
      have hinvariant := hadvances.invariant
      refine ⟨⟨hinvariant.heap, hinvariant.own, hinvariant.pairs, hinvariant.limit,
        hinvariant.chains⟩, hadvances.silenced, ?_, hadvances.ended⟩
      intro t hsilenced
      apply updates_append
      intro key value hmem
      obtain ⟨⟨key', value'⟩, hsent, hframe⟩ := List.mem_map.mp hmem
      -- the frame is marked with the terminal that sent it, and that one still runs
      have hnode := responder_of_sent hsent
      have hown := h.own call.node ⟨_, key', hnode, rfl⟩
      rw [hown] at hframe
      obtain rfl : call.node = t := by
        cases hframe
        rfl
      obtain ⟨node, hnode', hs⟩ := hsilenced
      rw [hnode] at hnode'
      cases hnode'
      cases hs

theorem advances_fireTimer (h : b.Invariant) (id : NodeId) : Advances b (b.fireTimer id) := by
  have hlen : (b.rt.timerLoop id).1.nodes.length = b.rt.nodes.length :=
    (Runtime.heapStep_timerLoop b.rt id).length_eq
  have hheap := (Runtime.timerLoop_spec h.heap 0 id).2.1.heap
  rw [hlen, Nat.sub_self, List.replicate_zero, List.append_nil] at hheap
  exact advances_retable h (Runtime.heapStep_timerLoop b.rt id) hheap rfl rfl h.pairs h.limit
    (fun _ _ _ hnodes => .inl hnodes) (fun _ _ _ hbefore hafter => absurd hbefore hafter)

theorem advances_step (h : b.Invariant) (env : BuildEnv D) (action : BridgeAction D) :
    Advances b (b.step env action) := by
  cases action with
  | call call => exact advances_aside h rfl rfl rfl rfl (fun _ => rfl)
  | serve => exact advances_serve h env
  | notify symbol field value => exact advances_aside h rfl rfl rfl rfl (fun _ => rfl)
  | timer id => exact advances_fireTimer h id
  | work task store => exact advances_work h env store task

theorem advances_run (h : b.Invariant) (env : BuildEnv D) (actions : List (BridgeAction D)) :
    Advances b (b.run env actions) := by
  induction actions generalizing b with
  | nil => exact Advances.refl h
  | cons action actions ih =>
    have hstep := advances_step h env action
    exact hstep.trans (ih hstep.invariant)

/-- The next call cancels the id, closes its connection, or is a request that is accepted under
the id. -/
inductive Ends (env : BuildEnv D) (b : Bridge D) (connId reqId : String) : Prop
  | canceled {ids rest} (h : b.pending = .cancels connId (reqId :: ids) :: rest)
  | closed {rest} (h : b.pending = .onClose connId :: rest)
  | replaced {r rs rest} (h : b.pending = .requests connId (r :: rs) :: rest)
      (hsent : (b.serve env).sent = b.sent ++ [.subscribed connId reqId])

omit [Double D] in
theorem terminalOf_sendTo (b : Bridge D) (connId : String) (frame : BridgeFrame D) :
    (b.sendTo connId frame).terminalOf = b.terminalOf := by
  unfold sendTo
  split_ifs <;> rfl

omit [Double D] in
theorem terminalOf_cancelId (b : Bridge D) (connId reqId : String) :
    (b.cancelId connId reqId).terminalOf connId reqId = none := by
  unfold cancelId
  rw [terminalOf_sendTo, terminalOf, entry_tidy, entry_eraseId, if_pos ⟨rfl, rfl⟩]
  rfl

omit [Double D] in
theorem terminalOf_onClose (b : Bridge D) (connId reqId : String) :
    (b.onClose connId).terminalOf connId reqId = none := by
  unfold terminalOf onClose
  rw [entry_remove, if_pos rfl]
  rfl

/-- A request that is accepted has a terminal of its own. -/
theorem terminalOf_subscribe (h : b.Invariant) (env : BuildEnv D) (connId : String)
    {reqId reqId' : String} {rq : Json D}
    (hsent : (b.subscribe env connId reqId' rq).sent = b.sent ++ [.subscribed connId reqId]) :
    (b.subscribe env connId reqId' rq).terminalOf connId reqId = some b.rt.nodes.length := by
  unfold subscribe at hsent ⊢
  have hspec := fun result rt => @build_spec D b _ h env rq reqId' result rt
  unfold withTerminal at hspec
  dsimp only at hsent ⊢
  generalize (TreeBuilder.buildForRequest env rq (some b.rt.nodes.length)).run.run
    { b.rt with nodes := b.rt.nodes ++ [.responder (.str reqId') false] } = out at hspec hsent ⊢
  obtain ⟨result, rt⟩ := out
  obtain ⟨-, -, hkeep⟩ := hspec result rt rfl
  cases result with
  | error message =>
    rcases sent_sendTo (b.withRuntime (rt.shutdown b.rt.nodes.length) b.rt.nodes.length) connId
      (.error connId message) with heq | heq
    · have hnot := heq.symm.trans hsent
      simp [Bridge.withRuntime] at hnot
    · have hframe := heq.symm.trans hsent
      simp [Bridge.withRuntime] at hframe
  | ok built =>
    obtain ⟨rest, hrest⟩ := hkeep built rfl
    rcases sent_sendTo ((b.withRuntime rt b.rt.nodes.length).install connId reqId' built) connId
      (.subscribed connId reqId') with heq | heq
    · have hnot := heq.symm.trans hsent
      simp [Bridge.withRuntime, install] at hnot
    · have hframe := heq.symm.trans hsent
      obtain rfl : reqId' = reqId := by simpa [Bridge.withRuntime, install] using hframe
      dsimp only
      rw [terminalOf_sendTo, terminalOf, install, entry_assign, if_pos ⟨rfl, rfl⟩, hrest]
      rfl

/-- A call that ends a subscription takes its terminal out of the tables. -/
theorem terminalOf_of_ends (h : b.Invariant) {env : BuildEnv D} {connId reqId : String}
    {t : NodeId} (hterminal : b.terminalOf connId reqId = some t)
    (hends : Ends env b connId reqId) :
    (b.serve env).terminalOf connId reqId ≠ some t := by
  cases hends with
  | canceled hpending =>
    simp only [serve, hpending, terminalOf_cancelId]
    exact fun hnone => nomatch hnone
  | closed hpending =>
    simp only [serve, hpending, terminalOf_onClose]
    exact fun hnone => nomatch hnone
  | @replaced r rs rest hpending hsent =>
    simp only [serve, hpending] at hsent ⊢
    have haside : Advances b { b with pending := .requests connId rs :: rest } :=
      advances_aside h rfl rfl rfl rfl (fun _ => rfl)
    rcases handleRequest_cases { b with pending := .requests connId rs :: rest } env connId r with
      heq | ⟨message, heq⟩ | ⟨reqId', rq, -, heq⟩
    · rw [heq] at hsent
      simp at hsent
    · rw [heq] at hsent
      rcases sent_sendTo { b with pending := .requests connId rs :: rest } connId
        (.error connId message) with hsame | hone
      · rw [hsame] at hsent
        simp at hsent
      · rw [hone] at hsent
        simp at hsent
    · rw [heq] at hsent ⊢
      rw [terminalOf_subscribe haside.invariant env connId hsent]
      obtain ⟨-, -, node, key, hnode, -⟩ := terminalOf_spec h hterminal
      have hlt := (List.getElem?_eq_some_iff.mp hnode).1
      intro hsame
      have hsame' : b.rt.nodes.length = t := Option.some.inj hsame
      omega

end

/-- The two tables agree, no connection is beyond its limit, and a subscription that has ended
sends nothing more. Pointers stay inside a chain, so that what is marked with a terminal comes
from the chain of that terminal. -/
theorem ended_subscriptions_stay_silent [Double D] (env : BuildEnv D)
    (before : List (BridgeAction D)) :
    let b := run env {} before
    (∀ connId reqId,
      (entry b.active connId reqId).isSome = (entry b.chains connId reqId).isSome) ∧
    (∀ connId, (ofConn b.active connId).length ≤ maxSubsPerConn) ∧
    (∀ (id : ℕ) node, b.rt.nodes[id]? = some node → ∀ x ∈ node.targets,
      b.origins[x]? = b.origins[id]?) ∧
    ∀ connId reqId, (entry b.active connId reqId).isSome = true →
      ∃ t, b.terminalOf connId reqId = some t ∧ b.origins[t]? = some t ∧
        (Ends env b connId reqId → ∀ later,
          updates t ((b.serve env).run env later).sent = updates t (b.serve env).sent) := by
  intro b
  have h : b.Invariant := (advances_run invariant_initial env before).invariant
  refine ⟨h.pairs, h.limit, fun id node hnode => h.heap.targets hnode, ?_⟩
  intro connId reqId hactive
  rw [h.pairs] at hactive
  obtain ⟨nodes, hnodes⟩ := Option.isSome_iff_exists.mp hactive
  obtain ⟨t, rest, rfl, ht⟩ := h.chains connId reqId nodes hnodes
  have hterminal : b.terminalOf connId reqId = some t := by
    rw [terminalOf, hnodes]
    rfl
  refine ⟨t, hterminal, h.own t ht, ?_⟩
  intro hends later
  have hserve := advances_serve h env
  have hsilenced := hserve.ended connId reqId t hterminal (terminalOf_of_ends h hterminal hends)
  exact (advances_run hserve.invariant env later).frames t hsilenced

/-- One connection subscribes, is sent a value, and its cancellation is next. -/
def subscribeThenCancel : List (BridgeAction ExactDouble) :=
  [.call (.onOpen "c" true), .serve,
    .call (.onMessage "c" (some (.object [("type", .string "subscribe"), ("requests", .array [
      .object [("id", .string "1"), ("streamKey", .string "AAPL"),
        ("field", .string "lastPrice")]])]))),
    .serve, .serve, .serve, .notify "AAPL" "lastPrice" (.fin 7), .work 0 (fun _ _ => none),
    .work 1 (fun _ _ => none),
    .call (.onMessage "c" (some (.object [("type", .string "cancel"),
      ("ids", .array [.string "1"])]))),
    .serve]

theorem canceled_bridge_subscription_is_silent :
    (updates 0 (run TreeBuilder.fullEnv {} subscribeThenCancel).sent).length = 1 ∧ ∀ later,
      updates 0 (((run TreeBuilder.fullEnv {} subscribeThenCancel).serve TreeBuilder.fullEnv).run
        TreeBuilder.fullEnv later).sent =
      updates 0
        ((run TreeBuilder.fullEnv {} subscribeThenCancel).serve TreeBuilder.fullEnv).sent := by
  obtain ⟨-, -, -, hsubscriptions⟩ :=
    ended_subscriptions_stay_silent TreeBuilder.fullEnv subscribeThenCancel
  have hactive : (entry (run TreeBuilder.fullEnv {} subscribeThenCancel).active "c" "1").isSome =
      true := by decide +kernel
  have hzero : (run TreeBuilder.fullEnv {} subscribeThenCancel).terminalOf "c" "1" = some 0 := by
    decide +kernel
  have hone : (updates 0 (run TreeBuilder.fullEnv {} subscribeThenCancel).sent).length = 1 := by
    decide +kernel
  obtain ⟨t, ht, -, hsilent⟩ := hsubscriptions "c" "1" hactive
  obtain rfl : 0 = t := Option.some.inj (hzero.symm.trans ht)
  have hnext : (run TreeBuilder.fullEnv {} subscribeThenCancel).pending =
      .cancels "c" ["1"] :: [] := rfl
  exact ⟨hone, hsilent (.canceled hnext)⟩

end Bridge
end GmaEngine
