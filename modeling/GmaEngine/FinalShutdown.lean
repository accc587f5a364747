import GmaEngine.Blueprints
import GmaEngine.HeapSteps

/-!
# Calls after shutdown

Every node type but one has a flag, or nothing to do, so that `onValue` returns at once when the
node was shut down. A GroupSplit only gives up its children: the next value builds new ones. The
calls on it stay without effect exactly if the specification of its children fails before the
first node is made.
-/

namespace GmaEngine

open EffectPlans
variable {D : Type}

namespace TreeBuilder

def fails {α : Type} : Except String α → Bool
  | .ok _ => false
  | .error _ => true

section
variable [Double D]

mutual

/-- The build of the specification throws before it makes a node. -/
def failsFirst (env : BuildEnv D) (spec : Json D) (defaultStreamKey : String) : Bool :=
  match nodeType spec with
  | .error _ => true
  | .ok .listener => fails (listenerKeys env spec defaultStreamKey)
  | .ok .interval =>
    fails (intervalPeriod env spec) || childFailsFirst env spec defaultStreamKey
  | .ok .bucketTime =>
    fails (bucketTimePeriod env spec) || childFailsFirst env spec defaultStreamKey
  | .ok .tumblingWindow => fails (tumblingWindowPeriod env spec)
  | .ok .vectorReducer => fails (reducerFromName env.functionMap spec)
  | .ok .atomicAccessor => fails (accessorKeys env spec defaultStreamKey)
  | .ok .worker => fails (fnFromName env.functionMap spec)
  -- an Aggregate is made before its inputs are read
  | .ok .aggregate => fails (aggregateArity spec)
  | .ok .groupSplit => fails (groupSplitChild spec)
  | .ok .chain =>
    match _h : spec.member "stages" with
    | some (.array (stage :: stages)) => lastFailsFirst env stage stages defaultStreamKey
    | _ => true
termination_by 2 * sizeOf spec + 1
decreasing_by
  · omega
  · omega
  · have hlt := Json.sizeOf_member_cons _h
    omega

def childFailsFirst (env : BuildEnv D) (spec : Json D) (defaultStreamKey : String) : Bool :=
  match _h : spec.member "child" with
  | some child => failsFirst env child defaultStreamKey
  | none => false
termination_by 2 * sizeOf spec
decreasing_by
  have hlt := Json.sizeOf_member _h
  omega

/-- The stages of a Chain are built from the last one on. -/
def lastFailsFirst (env : BuildEnv D) (stage : Json D) (stages : List (Json D))
    (defaultStreamKey : String) : Bool :=
  match stages with
  | [] => failsFirst env stage defaultStreamKey
  | next :: stages => lastFailsFirst env next stages defaultStreamKey
termination_by 2 * sizeOf stage + 2 * sizeOf stages + 2
decreasing_by
  · simp only [List.nil.sizeOf_spec]
    omega
  · simp only [List.cons.sizeOf_spec]
    omega

end

end

/-- A build that throws before it makes a node leaves the heap as it is; any other makes one. -/
def Starts {α : Type} (build : Build D α) (barren : Bool) : Prop :=
  ∀ rt, if barren then ∃ message, outcome build rt = (.error message, rt)
    else rt.nodes.length < (outcome build rt).2.nodes.length

section
variable {α β : Type} {barren : Bool}

theorem starts_make (node : INode D) : Starts (make node) false := by
  intro rt
  rw [outcome_make]
  simp

theorem starts_makeListener (symbol field : String) (downstream : Option NodeId) :
    Starts (makeListener symbol field downstream : Build D NodeId) false := by
  intro rt
  rw [outcome_makeListener]
  simp [Runtime.registerListener, Runtime.setListeners]

theorem starts_throw (message : String) : Starts (throw message : Build D α) true :=
  fun _ => ⟨message, rfl⟩

/-- What comes after the first node only adds nodes. -/
theorem Starts.bind {build : Build D α} (h : Starts build barren) {next : α → Build D β}
    (hnext : ∀ a, Builds Grown (next a)) : Starts (build >>= next) barren := by
  intro rt
  have hrt := h rt
  rw [outcome_bind]
  cases barren with
  | true =>
    obtain ⟨message, hmessage⟩ := hrt
    rw [hmessage]
    exact ⟨message, rfl⟩
  | false =>
    generalize outcome build rt = out at hrt
    obtain ⟨message | a, rt'⟩ := out
    · exact hrt
    · have hgrown := (hnext a rt' trivial).1
      exact Nat.lt_of_lt_of_le hrt hgrown.nodes.length_le

/-- What a build returns does not matter for it. -/
theorem Starts.of_map {build : Build D α} {f : α → β}
    (h : Starts (build >>= fun a => pure (f a)) barren) : Starts build barren := by
  intro rt
  have hrt := h rt
  rw [outcome_bind] at hrt
  generalize outcome build rt = out at hrt ⊢
  obtain ⟨message | a, rt'⟩ := out
  · cases barren with
    | true =>
      obtain ⟨message', hmessage⟩ := hrt
      cases hmessage
      exact ⟨_, rfl⟩
    | false => exact hrt
  · cases barren with
    | true =>
      obtain ⟨message, hmessage⟩ := hrt
      cases hmessage
    | false => exact hrt

theorem Starts.bind_bind {γ : Type} {build : Build D α} {next : α → Build D β}
    (h : Starts (build >>= next) barren) {last : α → β → Build D γ}
    (hlast : ∀ a b, Builds Grown (last a b)) :
    Starts (build >>= fun a => next a >>= last a) barren := by
  have hpair : Starts (build >>= fun a => next a >>= fun b => pure (a, b)) barren := by
    apply Starts.of_map (f := Prod.snd)
    simpa only [bind_assoc, pure_bind, bind_pure] using h
  have hsame : (build >>= fun a => next a >>= last a) =
      (build >>= fun a => next a >>= fun b => pure (a, b)) >>= fun p => last p.1 p.2 := by
    simp only [bind_assoc, pure_bind]
  rw [hsame]
  exact hpair.bind (fun p => hlast p.1 p.2)

theorem Starts.checked {check : Except String α} {next : α → Build D β}
    (hnext : ∀ a, check = .ok a → Starts (next a) barren) :
    Starts (liftM check >>= next) (fails check || barren) := by
  intro rt
  rw [outcome_bind, outcome_liftM]
  cases check with
  | error message => exact ⟨message, rfl⟩
  | ok a => exact hnext a rfl rt

theorem Starts.read {check : Except String α} {next : α → Build D β}
    (hnext : ∀ a, check = .ok a → Starts (next a) false) :
    Starts (liftM check >>= next) (fails check) := by
  have h := Starts.checked hnext
  rwa [Bool.or_false] at h

end

theorem starts_ok {α β : Type} {barren : Bool} {a : α} {next : α → Build D β}
    (h : Starts (next a) barren) :
    Starts (liftM (Except.ok a : Except String α) >>= next) barren := h

theorem builds_grown_make (node : INode D) : Builds Grown (make node) :=
  fun rt _ => ⟨grown_make node rt, fun _ _ => trivial⟩

section
variable [Double D]

theorem builds_grown_buildOne (env : BuildEnv D) (spec : Json D) (key : String)
    (downstream : Option NodeId) : Builds Grown (buildOne env spec key downstream) :=
  fun rt _ => ⟨grown_buildOne env spec key downstream rt, fun _ _ => trivial⟩

mutual

theorem starts_buildOne (env : BuildEnv D) (spec : Json D) (key : String)
    (downstream : Option NodeId) :
    Starts (buildOne env spec key downstream) (failsFirst env spec key) := by
  rw [buildOne, failsFirst]
  cases htype : nodeType spec with
  | error message => exact starts_throw message
  | ok t =>
    apply starts_ok
    cases t with
    | listener =>
      apply Starts.read
      intro keys _
      exact starts_makeListener keys.1 keys.2 downstream
    | interval =>
      apply Starts.checked
      intro ms _
      exact starts_clock env spec key downstream .interval ms
    | bucketTime =>
      apply Starts.checked
      intro ms _
      exact starts_clock env spec key downstream .bucketTime ms
    | tumblingWindow =>
      apply Starts.read
      intro ms _
      exact starts_make _
    | vectorReducer =>
      apply Starts.read
      intro reducer _
      exact starts_make _
    | atomicAccessor =>
      apply Starts.read
      intro keys _
      exact starts_make _
    | worker =>
      apply Starts.read
      intro fn _
      exact starts_make _
    | aggregate =>
      apply Starts.read
      intro arity _
      apply (starts_make _).bind
      intro agg
      generalize spec.member "inputs" = member
      cases member with
      | none => exact Along.throw _
      | some value =>
        cases value with
        | array inputs =>
          apply (builds_buildInputs admits_grown (permits_all env) inputs key agg
            (fun _ _ => trivial)).bind
          intro roots
          apply Along.checked
          intro _ _
          exact builds_grown_make _
        | _ => exact Along.throw _
    | groupSplit =>
      apply Starts.read
      intro child _
      exact starts_make _
    | chain =>
      generalize hstages : spec.member "stages" = member
      cases member with
      | none => exact starts_throw _
      | some value =>
        cases value with
        | array elems =>
          cases elems with
          | nil => exact starts_throw _
          | cons stage stages =>
            have hlt := Json.sizeOf_member_cons hstages
            exact starts_stages env stage stages key downstream
        | _ => exact starts_throw _
termination_by 2 * sizeOf spec + 1
decreasing_by all_goals omega

theorem starts_clock (env : BuildEnv D) (spec : Json D) (key : String)
    (downstream : Option NodeId) (kind : Clock) (ms : ℤ) :
    Starts (buildChild env spec key downstream >>= fun child => make (.clock kind ms child false))
      (childFailsFirst env spec key) := by
  rw [buildChild, childFailsFirst]
  generalize hchild : spec.member "child" = member
  cases member with
  | none => exact starts_make _
  | some child =>
    have hlt := Json.sizeOf_member hchild
    dsimp only
    rw [bind_map_left]
    exact (starts_buildOne env child key downstream).bind (fun _ => builds_grown_make _)
termination_by 2 * sizeOf spec
decreasing_by omega

/-- The first stage is built behind the others. -/
theorem starts_stages (env : BuildEnv D) (stage : Json D) (stages : List (Json D)) (key : String)
    (downstream : Option NodeId) :
    Starts (buildStages env stages key downstream >>= fun below =>
        buildOne env stage key (below.head?.or downstream))
      (lastFailsFirst env stage stages key) := by
  cases stages with
  | nil =>
    rw [buildStages, lastFailsFirst]
    exact starts_buildOne env stage key _
  | cons next stages =>
    rw [lastFailsFirst, buildStages]
    apply ((starts_stages env next stages key downstream).bind_bind _).bind
    · intro below
      exact builds_grown_buildOne env stage key _
    · intro below node
      exact Along.pure _ (fun _ _ => trivial)
termination_by 2 * sizeOf stage + 2 * sizeOf stages + 2
decreasing_by
  · simp only [List.nil.sizeOf_spec]
    omega
  · simp only [List.cons.sizeOf_spec]
    omega

end

end
end TreeBuilder

/-- What `onValue` checks before it does anything. A GroupSplit checks nothing; after `shutdown` it
has no children. -/
def INode.muted : INode D → Bool
  | .listener _ _ _ stopping => stopping
  | .clock _ _ _ _ => true
  | .tumblingWindow _ _ stopping _ => stopping
  | .vectorReducer _ _ stopping => stopping
  | .atomicAccessor _ _ _ stopping => stopping
  | .worker _ _ stopping _ => stopping
  | .aggregate _ _ stopping _ => stopping
  | .compositeRoot _ => true
  | .groupSplit _ _ _ children => children.isEmpty
  | .responder _ stopped => stopped

theorem INode.muted_stop (node : INode D) : node.stop.muted = true := by
  cases node <;> rfl

namespace Runtime

/-- The node is there, for the same purpose, and was shut down. -/
def Muted (rt : Runtime D) (id : NodeId) (core : NodeCore D) : Prop :=
  ∃ node, rt.nodes[id]? = some node ∧ node.muted = true ∧ node.core = core

theorem Muted.of_same {rt rt' : Runtime D} {id : NodeId} {core : NodeCore D}
    (h : rt.Muted id core) (hsame : rt'.nodes[id]? = rt.nodes[id]?) : rt'.Muted id core := by
  obtain ⟨node, hnode, hmuted⟩ := h
  exact ⟨node, hsame.trans hnode, hmuted⟩

theorem Muted.setNode {rt : Runtime D} {id : NodeId} {core : NodeCore D} (h : rt.Muted id core)
    {other : NodeId} {node : INode D}
    (hnode : other = id → node.muted = true ∧ node.core = core) :
    (rt.setNode other node).Muted id core := by
  obtain ⟨old, hold, hmuted⟩ := h
  have hlt := (List.getElem?_eq_some_iff.mp hold).1
  rcases eq_or_ne other id with rfl | hne
  · exact ⟨node, List.getElem?_set_self hlt, hnode rfl⟩
  · exact ⟨old, (List.getElem?_set_ne hne).trans hold, hmuted⟩

/-- What a call may not do: hand on a value, post or send one, or make a node. -/
structure Effectless (rt : Runtime D) (out : Runtime D × Effects D) : Prop where
  calls : out.2.calls = []
  posted : out.2.posted = []
  sent : out.2.sent = []
  nodes : out.1.nodes.length = rt.nodes.length

section Shutdowns
variable {rt : Runtime D} {id : NodeId} {core : NodeCore D}

theorem Muted.shutdownOne (h : rt.Muted id core) (other : NodeId) :
    (rt.shutdownOne other).Muted id core := by
  have hset : ∀ node, rt.nodes[other]? = some node →
      (rt.setNode other node.stop).Muted id core := by
    intro node hnode
    apply h.setNode
    rintro rfl
    obtain ⟨old, hold, -, hcore⟩ := h
    rw [hnode] at hold
    cases hold
    exact ⟨node.muted_stop, node.core_stop.trans hcore⟩
  unfold Runtime.shutdownOne
  cases hnode : rt.nodes[other]? with
  | none => exact h
  | some node =>
    cases node with
    | listener symbol field downstream stopping =>
      dsimp only
      unfold shutdownListener
      rw [hnode]
      cases stopping with
      | true => exact h
      | false => exact hset _ hnode
    | _ => exact hset _ hnode

theorem Muted.shutdownAll (h : rt.Muted id core) (ids : List NodeId) :
    (ids.foldl Runtime.shutdownOne rt).Muted id core := by
  induction ids generalizing rt with
  | nil => exact h
  | cons other ids ih => exact ih (h.shutdownOne other)

/-- `shutdown` of the node itself. -/
theorem muted_shutdownOne {node : INode D} (hnode : rt.nodes[id]? = some node) :
    (rt.shutdownOne id).Muted id node.core := by
  have hlt := (List.getElem?_eq_some_iff.mp hnode).1
  have hset : (rt.setNode id node.stop).Muted id node.core :=
    ⟨node.stop, List.getElem?_set_self hlt, node.muted_stop, node.core_stop⟩
  unfold Runtime.shutdownOne
  rw [hnode]
  cases node with
  | listener symbol field downstream stopping =>
    dsimp only
    unfold shutdownListener
    rw [hnode]
    cases stopping with
    | true => exact ⟨_, hnode, rfl, rfl⟩
    | false => exact hset
  | _ => exact hset

theorem muted_shutdownAll {ids : List NodeId} (hid : id ∈ ids) {node : INode D}
    (hnode : rt.nodes[id]? = some node) :
    (ids.foldl Runtime.shutdownOne rt).Muted id node.core := by
  induction ids generalizing rt node with
  | nil => cases hid
  | cons other ids ih =>
    rcases List.mem_cons.mp hid with rfl | hmem
    · exact (muted_shutdownOne hnode).shutdownAll ids
    · have hstep : HeapStep (fun _ => False) rt (rt.shutdownOne other) :=
        heapStep_shutdownOne rt other
      obtain ⟨node', hnode', hcore, -⟩ := hstep.old id node hnode
      rw [← hcore]
      exact ih hmem hnode'

theorem muted_shutdown {node : INode D} (hnode : rt.nodes[id]? = some node) :
    (rt.shutdown id).Muted id node.core :=
  muted_shutdownAll (mem_shutdownSet (List.getElem?_eq_some_iff.mp hnode).1) hnode

end Shutdowns

/-- The calls on a node of this kind stay without effect after its shutdown: it is no GroupSplit,
or nothing is made for the symbol. -/
def inert [Double D] (env : BuildEnv D) (core : NodeCore D) (symbol : String) : Bool :=
  match core with
  | .groupSplit childDoc defaultStreamKey => TreeBuilder.failsFirst env childDoc
      (if symbol = "" then defaultStreamKey else symbol)
  | _ => true

section Calls
variable [Double D] (env : BuildEnv D) (store : String → String → Option (ArgType D))
  (live : NodeId → Bool) {rt : Runtime D} {id : NodeId} {core : NodeCore D}

theorem onValue_of_muted {node : INode D} (hnode : rt.nodes[id]? = some node)
    (hmuted : node.muted = true) (hsplit : node.isSplit = false) (sv : StreamValue D) :
    onValue env store live rt id sv = (rt, {}) := by
  cases node with
  | listener symbol field downstream stopping =>
    cases hmuted
    simp [onValue, hnode, listenerOnValue]
  | clock kind period child stopping => simp [onValue, hnode]
  | tumblingWindow period downstream stopping acc =>
    cases hmuted
    simp [onValue, hnode, tumblingWindowOnValue]
  | vectorReducer fn downstream stopping =>
    cases hmuted
    simp [onValue, hnode, vectorReducerOnValue]
  | atomicAccessor symbol field downstream stopping =>
    cases hmuted
    simp [onValue, hnode, atomicAccessorOnValue]
  | worker fn downstream stopping acc =>
    cases hmuted
    simp [onValue, hnode, workerOnValue]
  | aggregate arity parent stopping buf =>
    cases hmuted
    simp [onValue, hnode, aggregateOnValue]
  | compositeRoot roots => simp [onValue, hnode]
  | groupSplit childDoc key downstream children => cases hsplit
  | responder key stopped =>
    cases hmuted
    simp [onValue, hnode]

/-- A GroupSplit without children. -/
theorem onValue_of_childless {childDoc : Json D} {key : String} {downstream : Option NodeId}
    (hnode : rt.nodes[id]? = some (.groupSplit childDoc key downstream []))
    (sv : StreamValue D) :
    (inert env (.groupSplit childDoc key) sv.symbol = true ∧
      onValue env store live rt id sv = (rt, { thrown := true })) ∨
    (inert env (.groupSplit childDoc key) sv.symbol = false ∧
      rt.nodes.length < (onValue env store live rt id sv).1.nodes.length) := by
  have hcall : onValue env store live rt id sv =
      groupSplitOnValue env rt id childDoc key downstream [] sv := by
    rw [onValue, hnode]
  have hroom : ¬ 10000 < ([] : List (String × NodeId)).length + 1 := by simp
  have hstarts := TreeBuilder.starts_buildOne env childDoc
    (if sv.symbol = "" then key else sv.symbol) downstream rt
  have hnone : lookupKey ([] : List (String × NodeId)) sv.symbol = none := rfl
  rw [hcall, groupSplitOnValue, hnone]
  simp only [if_neg hroom, inert]
  generalize (if sv.symbol = "" then key else sv.symbol) = childKey at hstarts ⊢
  have hrun : (TreeBuilder.buildOne env childDoc childKey downstream).run.run rt =
      outcome (TreeBuilder.buildOne env childDoc childKey downstream) rt := rfl
  rw [hrun]
  generalize outcome (TreeBuilder.buildOne env childDoc childKey downstream) rt = out at hstarts ⊢
  generalize TreeBuilder.failsFirst env childDoc childKey = barren at hstarts ⊢
  cases barren with
  | true =>
    obtain ⟨message, rfl⟩ := hstarts
    exact .inl ⟨rfl, rfl⟩
  | false =>
    obtain ⟨message | child, rt'⟩ := out
    · exact .inr ⟨rfl, hstarts⟩
    · refine .inr ⟨rfl, ?_⟩
      simp only [setNode, List.length_set]
      exact hstarts

/-- One call on a node that was shut down. -/
theorem call_of_muted (h : rt.Muted id core) (sv : StreamValue D) :
    (inert env core sv.symbol = true ∧ (onValue env store live rt id sv).1 = rt ∧
      Effectless rt (onValue env store live rt id sv)) ∨
    (inert env core sv.symbol = false ∧
      ¬ Effectless rt (onValue env store live rt id sv)) := by
  obtain ⟨node, hnode, hmuted, rfl⟩ := h
  cases hsplit : node.isSplit with
  | false =>
    have hinert : inert env node.core sv.symbol = true := by
      cases node with
      | groupSplit childDoc key downstream children => cases hsplit
      | _ => rfl
    rw [onValue_of_muted env store live hnode hmuted hsplit]
    exact .inl ⟨hinert, rfl, rfl, rfl, rfl, rfl⟩
  | true =>
    cases node with
    | groupSplit childDoc key downstream children =>
      obtain rfl : children = [] := List.isEmpty_iff.mp hmuted
      rcases onValue_of_childless env store live hnode sv with
        ⟨hinert, hcall⟩ | ⟨hinert, hgrown⟩
      · rw [hcall]
        exact .inl ⟨hinert, rfl, rfl, rfl, rfl, rfl⟩
      · refine .inr ⟨hinert, ?_⟩
        intro heffectless
        have hlen := heffectless.nodes
        omega
    | _ => cases hsplit

omit [Double D] in
theorem Muted.grown {rt' : Runtime D} (h : rt.Muted id core) (hgrown : TreeBuilder.Grown rt rt') :
    rt'.Muted id core := by
  have hcopy := h
  obtain ⟨node, hnode, -⟩ := hcopy
  exact h.of_same (hgrown.getElem? (List.getElem?_eq_some_iff.mp hnode).1)

/-- A call on another node. -/
theorem Muted.onValue_other (h : rt.Muted id core) {other : NodeId} (hother : other ≠ id)
    (sv : StreamValue D) : (onValue env store live rt other sv).1.Muted id core := by
  have hset : ∀ {rt' : Runtime D} (node : INode D), rt'.Muted id core →
      (rt'.setNode other node).Muted id core :=
    fun node hmuted => hmuted.setNode (fun heq => absurd heq hother)
  cases hnode : rt.nodes[other]? with
  | none =>
    rw [onValue_of_none store live hnode]
    exact h
  | some node =>
    have hhandles : Handles env rt other sv node _ := handles_onValue store live hnode sv
    generalize onValue env store live rt other sv = out at hhandles ⊢
    cases hhandles with
    | forwards _ => exact h
    | collects _ _ => exact hset _ h
    | sends _ => exact h
    | @splits childDoc key downstream children childKey child rt' _ hbuild =>
      have hgrown := TreeBuilder.grown_buildOne env childDoc childKey downstream rt
      change outcome _ rt = _ at hbuild
      rw [hbuild] at hgrown
      exact hset _ (h.grown hgrown)
    | @fails childDoc key downstream children childKey message rt' _ hbuild =>
      have hgrown := TreeBuilder.grown_buildOne env childDoc childKey downstream rt
      change outcome _ rt = _ at hbuild
      rw [hbuild] at hgrown
      exact h.grown hgrown

theorem Muted.timerLoop (h : rt.Muted id core) (other : NodeId) :
    (rt.timerLoop other).1.Muted id core := by
  unfold Runtime.timerLoop
  cases hnode : rt.nodes[other]? with
  | none => exact h
  | some node =>
    cases node with
    | clock kind period child stopping =>
      dsimp only
      split_ifs <;> exact h
    | tumblingWindow period downstream stopping acc =>
      dsimp only
      split_ifs with hstop
      · exact h
      · apply h.setNode
        rintro rfl
        obtain ⟨node, hmuted, hflag, -⟩ := h
        rw [hnode] at hmuted
        cases hmuted
        rw [Bool.or_eq_true, not_or] at hstop
        exact absurd hflag hstop.1
    | _ => exact h

end Calls

/-- What may happen after a shutdown: calls on any nodes, rounds of any timers, more shutdowns and
builds. -/
inductive LaterAction (D : Type) where
  | onValue (id : NodeId) (sv : StreamValue D) (store : String → String → Option (ArgType D))
    (live : NodeId → Bool)
  | timer (id : NodeId)
  | shutdown (id : NodeId)
  | build (spec : Json D) (defaultStreamKey : String) (downstream : Option NodeId)

section Runs
variable [Double D] (env : BuildEnv D) {rt : Runtime D} {id : NodeId} {core : NodeCore D}

def laterStep (rt : Runtime D) : LaterAction D → Runtime D
  | .onValue id sv store live => (rt.onValue env store live id sv).1
  | .timer id => (rt.timerLoop id).1
  | .shutdown id => rt.shutdown id
  | .build spec defaultStreamKey downstream =>
    (outcome (TreeBuilder.buildOne env spec defaultStreamKey downstream) rt).2

theorem Muted.laterStep (h : rt.Muted id core) {action : LaterAction D}
    (hinert : ∀ sv store live, action = .onValue id sv store live →
      inert env core sv.symbol = true) : (laterStep env rt action).Muted id core := by
  cases action with
  | onValue target sv store live =>
    rcases eq_or_ne target id with rfl | hne
    · rcases call_of_muted env store live h sv with
        ⟨-, hsame, -⟩ | ⟨hmakes, -⟩
      · exact h.of_same (by rw [Runtime.laterStep, hsame])
      · rw [hinert sv store live rfl] at hmakes
        cases hmakes
    · exact h.onValue_other env store live hne sv
  | timer target => exact h.timerLoop target
  | shutdown target => exact h.shutdownAll _
  | build spec key downstream =>
    exact h.grown (TreeBuilder.grown_buildOne env spec key downstream rt)

/-- No call on the node does anything exactly if the node is no GroupSplit, or nothing is made for
the symbols that come. -/
theorem effectless_iff_inert (h : rt.Muted id core) (actions : List (LaterAction D)) :
    (∀ before sv store live later, actions = before ++ .onValue id sv store live :: later →
      Effectless (before.foldl (Runtime.laterStep env) rt)
        ((before.foldl (Runtime.laterStep env) rt).onValue env store live id sv)) ↔
    ∀ sv store live, .onValue id sv store live ∈ actions → inert env core sv.symbol = true := by
  induction actions generalizing rt with
  | nil => simp
  | cons action actions ih =>
    constructor
    · intro hall sv store live hmem
      have hfirst : ∀ sv store live, action = .onValue id sv store live →
          inert env core sv.symbol = true := by
        intro sv store live heq
        have heffectless := hall [] sv store live actions (by rw [heq]; rfl)
        rcases call_of_muted env store live h sv with ⟨hinert, -⟩ | ⟨-, hmakes⟩
        · exact hinert
        · exact absurd heffectless hmakes
      rcases List.mem_cons.mp hmem with heq | hlater
      · exact hfirst sv store live heq.symm
      · refine (ih (h.laterStep env hfirst)).mp ?_ sv store live hlater
        intro before sv store live later heq
        exact hall (action :: before) sv store live later (by rw [heq]; rfl)
    · intro hinert before sv store live later heq
      have hfirst : ∀ sv store live, action = .onValue id sv store live →
          inert env core sv.symbol = true :=
        fun sv store live hsame => hinert sv store live (hsame ▸ List.mem_cons_self)
      cases before with
      | nil =>
        injection heq with hsame _
        rcases call_of_muted env store live h sv with ⟨-, -, heffectless⟩ | ⟨hmakes, -⟩
        · exact heffectless
        · rw [hfirst sv store live hsame] at hmakes
          cases hmakes
      | cons first before =>
        injection heq with hsame htail
        subst hsame
        refine (ih (h.laterStep env hfirst)).mpr ?_ before sv store live later htail
        intro sv store live hmem
        exact hinert sv store live (List.mem_cons_of_mem _ hmem)

theorem shutdown_final_iff {node : INode D} (hnode : rt.nodes[id]? = some node)
    (actions : List (LaterAction D)) :
    (∀ before sv store live later, actions = before ++ .onValue id sv store live :: later →
      Effectless (before.foldl (Runtime.laterStep env) (rt.shutdown id))
        ((before.foldl (Runtime.laterStep env) (rt.shutdown id)).onValue env store live id sv)) ↔
    ∀ sv store live, .onValue id sv store live ∈ actions →
      inert env node.core sv.symbol = true :=
  effectless_iff_inert env (muted_shutdown hnode) actions

end Runs
end Runtime

namespace TreeBuilder

def accessorSpec : Json ExactDouble :=
  .object [("type", .string "AtomicAccessor"), ("field", .string "bid")]

def splitSpec : Json ExactDouble :=
  .object [("type", .string "GroupSplit"), ("child", accessorSpec)]

/-- An AtomicAccessor in front of a terminal. -/
def accessorOnly : Runtime ExactDouble :=
  { nodes := [.responder (.int 1) false, .atomicAccessor "AAPL" "bid" (some 0) false] }

theorem shutdown_final_accessor :
    Runtime.Effectless (accessorOnly.shutdown 1)
      ((accessorOnly.shutdown 1).onValue fullEnv (fun _ _ => some (.int 9)) (fun _ => true) 1
        ⟨"AAPL", .int 7⟩) := by
  have hnode : accessorOnly.nodes[1]? = some (.atomicAccessor "AAPL" "bid" (some 0) false) := rfl
  have hiff := Runtime.shutdown_final_iff fullEnv hnode
    [.onValue 1 ⟨"AAPL", .int 7⟩ (fun _ _ => some (.int 9)) (fun _ => true)]
  exact hiff.mpr (fun _ _ _ _ => rfl) [] _ _ _ [] rfl

theorem blueprint_splitSpec : blueprint fullEnv splitSpec "AAPL" =
    .ok (.single (.groupSplit accessorSpec "AAPL")) := by
  rw [blueprint]
  rfl

/-- A value of a GroupSplit that was shut down builds a child again. -/
theorem shutdown_revived :
    ¬ ∀ (spec : Json ExactDouble) (root : NodeId) (rt : Runtime ExactDouble),
      outcome (buildOne fullEnv spec "AAPL" (some 0)) terminalOnly = (.ok root, rt) →
      ∀ sv, Runtime.Effectless (rt.shutdown root)
        ((rt.shutdown root).onValue fullEnv (fun _ _ => none) (fun _ => true) root sv) := by
  intro hall
  have hbuild : outcome (buildOne fullEnv splitSpec "AAPL" (some 0)) terminalOnly =
      (.ok 1, terminalOnly.install [.groupSplit accessorSpec "AAPL" (some 0) []]) :=
    buildOne_ok_iff.mpr ⟨_, blueprint_splitSpec, rfl, rfl⟩
  have heffectless := hall splitSpec 1 _ hbuild ⟨"AAPL", .int 7⟩
  have hnode : (terminalOnly.install [.groupSplit accessorSpec "AAPL" (some 0) []]).nodes[1]? =
      some (.groupSplit accessorSpec "AAPL" (some 0) []) := rfl
  have hmuted := Runtime.muted_shutdown hnode
  have hmakes : Runtime.inert fullEnv (.groupSplit accessorSpec "AAPL") "AAPL" = false := by
    decide +kernel
  rcases Runtime.call_of_muted fullEnv (fun _ _ => none) (fun _ => true) hmuted
    ⟨"AAPL", .int 7⟩ with ⟨hinert, -⟩ | ⟨-, hnot⟩
  · exact nomatch hmakes.symm.trans hinert
  · exact hnot heffectless

end TreeBuilder
end GmaEngine
