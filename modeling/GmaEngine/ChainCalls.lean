import GmaEngine.ChainHeap

/-!
# Calls stay in their chain

What a call of `onValue`, a round of a timer thread or the child of a GroupSplit brings about
concerns the chain of the node it starts from.
-/

namespace GmaEngine.Runtime
variable {D : Type}

theorem node_of_mem_callTo {target : Option NodeId} {value : StreamValue D} {call : Call D}
    (h : call ∈ callTo target value) : call.node ∈ target.toList := by
  obtain ⟨x, hx, rfl⟩ := List.mem_map.mp h
  exact hx

/-- Only the values that the node has collected change. -/
inductive Collects : INode D → INode D → Prop
  | tumblingWindow {period downstream stopping acc acc'} :
    Collects (.tumblingWindow period downstream stopping acc)
      (.tumblingWindow period downstream stopping acc')
  | worker {fn downstream stopping acc acc'} :
    Collects (.worker fn downstream stopping acc) (.worker fn downstream stopping acc')
  | aggregate {arity parent stopping buf buf'} :
    Collects (.aggregate arity parent stopping buf) (.aggregate arity parent stopping buf')

theorem Collects.becomes {old new : INode D} (h : Collects old new) :
    old.Becomes new ∧ old.isListener = false ∧ new.targets = old.targets := by
  cases h <;> exact ⟨INode.Becomes.of_same rfl rfl rfl rfl rfl, rfl, rfl⟩

/-- The calls that follow are on the targets of the node, and nothing is sent. -/
structure Forwards (node : INode D) (effects : Effects D) : Prop where
  sent : effects.sent = []
  calls : ∀ call ∈ effects.calls ++ effects.posted, call.node ∈ node.targets

theorem forwards_nothing (node : INode D) : Forwards node {} :=
  ⟨rfl, fun _ hcall => nomatch hcall⟩

theorem forwards_downstream {node : INode D} {downstream : Option NodeId} {value : StreamValue D}
    (htargets : downstream.toList ⊆ node.targets) :
    Forwards node { calls := callTo downstream value } := by
  refine ⟨rfl, ?_⟩
  intro call hcall
  rw [List.append_nil] at hcall
  exact htargets (node_of_mem_callTo hcall)

section Handles
variable [Double D] {env : BuildEnv D} {rt : Runtime D} {id : ℕ} {sv : StreamValue D}

/-- What a call of `onValue` on a node can lead to. -/
inductive Handles (env : BuildEnv D) (rt : Runtime D) (id : ℕ) (sv : StreamValue D)
    (node : INode D) : Runtime D × Effects D → Prop
  | forwards {effects} (h : Forwards node effects) : Handles env rt id sv node (rt, effects)
  | collects {new effects} (hnew : Collects node new) (h : Forwards node effects) :
    Handles env rt id sv node (rt.setNode id new, effects)
  | sends {key} (hnode : node = .responder key false) :
    Handles env rt id sv node (rt, { sent := [(key, sv)] })
  /-- A GroupSplit builds a child for a new symbol. -/
  | splits {childDoc key downstream children childKey child rt'}
    (hnode : node = .groupSplit childDoc key downstream children)
    (hbuild : (TreeBuilder.buildOne env childDoc childKey downstream).run.run rt = (.ok child, rt')) :
    Handles env rt id sv node
      (rt'.setNode id (.groupSplit childDoc key downstream (children ++ [(sv.symbol, child)])),
        { calls := [⟨child, sv⟩] })
  | fails {childDoc key downstream children childKey message rt'}
    (hnode : node = .groupSplit childDoc key downstream children)
    (hbuild : (TreeBuilder.buildOne env childDoc childKey downstream).run.run rt =
      (.error message, rt')) :
    Handles env rt id sv node (rt', { thrown := true })

theorem Handles.nothing (node : INode D) : Handles env rt id sv node (rt, {}) :=
  .forwards (forwards_nothing node)

theorem handles_listenerOnValue (live : NodeId → Bool) (symbol field : String)
    (downstream : Option NodeId) (stopping : Bool) :
    Handles env rt id sv (.listener symbol field downstream stopping)
      (listenerOnValue live rt downstream stopping sv) := by
  unfold listenerOnValue
  split_ifs
  · exact Handles.nothing _
  · refine .forwards ⟨rfl, ?_⟩
    intro call hcall
    have hmem := node_of_mem_callTo (by simpa using hcall)
    obtain ⟨-, hsome⟩ : live call.node = true ∧ downstream = some call.node := by
      simpa [Option.filter_eq_some_iff, and_comm] using hmem
    simp [INode.targets, hsome]

theorem handles_tumblingWindowOnValue (period : ℤ) (downstream : Option NodeId) (stopping : Bool)
    (acc : List (String × List D)) :
    Handles env rt id sv (.tumblingWindow period downstream stopping acc)
      (tumblingWindowOnValue rt id period downstream stopping acc sv) := by
  unfold tumblingWindowOnValue
  split_ifs
  · exact Handles.nothing _
  · exact .collects .tumblingWindow (forwards_nothing _)

theorem handles_vectorReducerOnValue (fn : Func D) (downstream : Option NodeId) (stopping : Bool) :
    Handles env rt id sv (.vectorReducer fn downstream stopping)
      (vectorReducerOnValue rt fn downstream stopping sv) := by
  unfold vectorReducerOnValue
  split_ifs
  · exact Handles.nothing _
  · split
    · split
      · exact .forwards (forwards_downstream (List.Subset.refl _))
      · exact Handles.nothing _
    · exact Handles.nothing _

theorem handles_atomicAccessorOnValue (store : String → String → Option (ArgType D))
    (symbol field : String) (downstream : Option NodeId) (stopping : Bool) :
    Handles env rt id sv (.atomicAccessor symbol field downstream stopping)
      (atomicAccessorOnValue store rt symbol field downstream stopping) := by
  unfold atomicAccessorOnValue
  split_ifs
  · exact Handles.nothing _
  · split
    · exact .forwards (forwards_downstream (List.Subset.refl _))
    · exact Handles.nothing _

theorem handles_workerOnValue (fn : List (ArgType D) → Option (ArgType D))
    (downstream : Option NodeId) (stopping : Bool) (acc : List (String × List (ArgType D))) :
    Handles env rt id sv (.worker fn downstream stopping acc)
      (workerOnValue rt id fn downstream stopping acc sv) := by
  unfold workerOnValue
  split_ifs
  · exact Handles.nothing _
  · dsimp only
    split
    · exact .collects .worker (forwards_downstream (List.Subset.refl _))
    · exact .collects .worker (forwards_nothing _)

theorem handles_aggregateOnValue (arity : ℕ) (parent : Option NodeId) (stopping : Bool)
    (buf : List (String × List (ArgType D))) :
    Handles env rt id sv (.aggregate arity parent stopping buf)
      (aggregateOnValue rt id arity parent stopping buf sv) := by
  unfold aggregateOnValue
  split_ifs
  · exact Handles.nothing _
  · dsimp only
    split_ifs
    · exact .collects .aggregate (forwards_nothing _)
    · refine .collects .aggregate ⟨rfl, ?_⟩
      intro call hcall
      rw [List.append_nil] at hcall
      obtain ⟨v, -, hv⟩ := List.mem_flatMap.mp hcall
      exact node_of_mem_callTo hv

theorem handles_groupSplitOnValue (childDoc : Json D) (key : String) (downstream : Option NodeId)
    (children : List (String × NodeId)) :
    Handles env rt id sv (.groupSplit childDoc key downstream children)
      (groupSplitOnValue env rt id childDoc key downstream children sv) := by
  unfold groupSplitOnValue
  split
  · next child hchild =>
    refine .forwards ⟨rfl, ?_⟩
    intro call hcall
    obtain rfl : call = ⟨child, sv⟩ := by simpa using hcall
    obtain ⟨entry, hentry, rfl⟩ := Option.map_eq_some_iff.mp hchild
    exact List.mem_append_right _ (List.mem_map_of_mem (List.mem_of_find?_eq_some hentry))
  · split
    · exact Handles.nothing _
    · generalize (if sv.symbol = "" then key else sv.symbol) = childKey
      dsimp only
      split
      · next child rt' hout => exact .splits rfl hout
      · next message rt' hout => exact .fails rfl hout

theorem handles_onValue (store : String → String → Option (ArgType D)) (live : NodeId → Bool)
    {node : INode D} (hnode : rt.nodes[id]? = some node) (sv : StreamValue D) :
    Handles env rt id sv node (onValue env store live rt id sv) := by
  unfold onValue
  rw [hnode]
  cases node with
  | listener symbol field downstream stopping => exact handles_listenerOnValue live _ _ _ _
  | clock kind period child stopping => exact Handles.nothing _
  | tumblingWindow period downstream stopping acc => exact handles_tumblingWindowOnValue _ _ _ _
  | vectorReducer fn downstream stopping => exact handles_vectorReducerOnValue _ _ _
  | atomicAccessor symbol field downstream stopping =>
    exact handles_atomicAccessorOnValue store _ _ _ _
  | worker fn downstream stopping acc => exact handles_workerOnValue _ _ _ _
  | aggregate arity parent stopping buf => exact handles_aggregateOnValue _ _ _ _
  | compositeRoot roots => exact Handles.nothing _
  | groupSplit childDoc key downstream children => exact handles_groupSplitOnValue _ _ _ _
  | responder key stopped =>
    cases stopped with
    | true => exact Handles.nothing _
    | false => exact .sends rfl

/-- A node that is not there does nothing. -/
theorem onValue_of_none (store : String → String → Option (ArgType D)) (live : NodeId → Bool)
    (hnone : rt.nodes[id]? = none) (sv : StreamValue D) :
    onValue env store live rt id sv = (rt, {}) := by
  unfold onValue
  rw [hnone]

end Handles

/-- The heap evolves for the chain, and the calls that follow are on nodes of the chain. -/
def Stays (chain : NodeId) (origins : List NodeId) (rt : Runtime D)
    (out : Runtime D × Effects D) : Prop :=
  Evolves chain origins rt out.1 ∧ ∀ call ∈ out.2.calls ++ out.2.posted,
    (origins ++ List.replicate (out.1.nodes.length - rt.nodes.length) chain)[call.node]? = some chain

section Stays
variable {rt : Runtime D} {origins : List NodeId} {chain : NodeId} {id : ℕ} {node : INode D}

theorem stays_same (h : HeapOk rt origins) {effects : Effects D}
    (hcalls : ∀ call ∈ effects.calls ++ effects.posted, origins[call.node]? = some chain) :
    Stays chain origins rt (rt, effects) := by
  refine ⟨Evolves.refl h, ?_⟩
  intro call hcall
  simpa using hcalls call hcall

/-- The node changes its own state and calls some of its targets. -/
theorem stays_update (h : HeapOk rt origins) (hnode : rt.nodes[id]? = some node)
    (hchain : origins[id]? = some chain) {new : INode D} {effects : Effects D}
    (hnew : Collects node new) (hcalls : Forwards node effects) :
    Stays chain origins rt (rt.setNode id new, effects) := by
  obtain ⟨hbecomes, hlistener, htargets⟩ := hnew.becomes
  refine ⟨Evolves.setNode h hnode hbecomes hlistener ?_, ?_⟩
  · intro x hx
    rw [htargets] at hx
    exact h.targets hnode x hx
  · intro call hcall
    have hlen : (rt.setNode id new).nodes.length = rt.nodes.length := by simp [setNode]
    have hin := h.targets hnode _ (hcalls.calls call hcall)
    simp only [hlen, Nat.sub_self, List.replicate_zero, List.append_nil]
    exact hin.trans hchain

theorem stays_calls (h : HeapOk rt origins) (hnode : rt.nodes[id]? = some node)
    (hchain : origins[id]? = some chain) {effects : Effects D} (hcalls : Forwards node effects) :
    Stays chain origins rt (rt, effects) := by
  apply stays_same h
  intro call hcall
  exact (h.targets hnode _ (hcalls.calls call hcall)).trans hchain

variable [Double D]

omit [Double D] in
/-- The child that was built is entered in the GroupSplit and called. -/
theorem stays_newChild {rt' : Runtime D} (hevolves : Evolves chain origins rt rt')
    {childDoc : Json D} {key : String} {downstream : Option NodeId}
    {children : List (String × NodeId)} (hchain : origins[id]? = some chain) {child : NodeId}
    (hchild : (origins ++ List.replicate (rt'.nodes.length - rt.nodes.length) chain)[child]? =
      some chain) {sv : StreamValue D}
    (hsame : rt'.nodes[id]? = some (.groupSplit childDoc key downstream children)) :
    Stays chain origins rt
      (rt'.setNode id (.groupSplit childDoc key downstream (children ++ [(sv.symbol, child)])),
        { calls := [⟨child, sv⟩] }) := by
  have hid : (origins ++ List.replicate (rt'.nodes.length - rt.nodes.length) chain)[id]? =
      some chain := by
    rw [List.getElem?_append_left (List.getElem?_eq_some_iff.mp hchain).1]
    exact hchain
  have hlen : (rt'.setNode id (.groupSplit childDoc key downstream
      (children ++ [(sv.symbol, child)]))).nodes.length = rt'.nodes.length := by simp [setNode]
  refine ⟨hevolves.trans (Evolves.setNode hevolves.heap hsame
    (INode.Becomes.of_same rfl rfl rfl rfl rfl) rfl ?_), ?_⟩
  · intro x hx
    have hcases : x ∈ (INode.groupSplit childDoc key downstream children).targets ∨ x = child := by
      simp only [INode.targets, List.map_append, List.mem_append, List.map_cons, List.map_nil,
        List.mem_singleton] at hx ⊢
      tauto
    rcases hcases with hx | rfl
    · exact hevolves.heap.targets hsame x hx
    · rw [hid, hchild]
  · intro call hcall
    obtain rfl : call = ⟨child, sv⟩ := by simpa using hcall
    rw [hlen]
    exact hchild

/-- What a GroupSplit builds belongs to its chain. -/
theorem buildOne_inChain (env : BuildEnv D) (spec : Json D) (key : String)
    (h : HeapOk rt origins) {childDoc : Json D} {defaultKey : String}
    {downstream : Option NodeId} {children : List (String × NodeId)}
    (hnode : rt.nodes[id]? = some (.groupSplit childDoc defaultKey downstream children))
    (hchain : origins[id]? = some chain) :
    let out := (TreeBuilder.buildOne env spec key downstream).run.run rt
    TreeBuilder.Adds rt.nodes.length origins chain rt out.2 ∧ ∀ child, out.1 = .ok child →
      TreeBuilder.Ready rt.nodes.length origins chain [child] out.2 := by
  have hready : TreeBuilder.Ready rt.nodes.length origins chain downstream.toList rt := by
    refine ⟨le_rfl, ?_⟩
    intro x hx
    have hin := h.targets hnode x (List.mem_append_left _ hx)
    simpa [TreeBuilder.tags] using hin.trans hchain
  obtain ⟨hadds, hpost⟩ := TreeBuilder.along_buildOne h.length env spec key
    (List.Subset.refl downstream.toList) rt hready
  exact ⟨hadds, fun child hchild => (hpost child hchild).mono (by simp)⟩

theorem stays_onValue (env : BuildEnv D) (store : String → String → Option (ArgType D))
    (live : NodeId → Bool) (h : HeapOk rt origins) (hchain : origins[id]? = some chain)
    (sv : StreamValue D) : Stays chain origins rt (onValue env store live rt id sv) := by
  obtain ⟨node, hnode⟩ : ∃ node, rt.nodes[id]? = some node :=
    ⟨_, List.getElem?_eq_getElem (h.lt hchain)⟩
  have hhandles : Handles env rt id sv node _ := handles_onValue store live hnode sv
  generalize onValue env store live rt id sv = out at hhandles ⊢
  cases hhandles with
  | forwards hforwards => exact stays_calls h hnode hchain hforwards
  | collects hnew hforwards => exact stays_update h hnode hchain hnew hforwards
  | sends hresponder => exact stays_same h (fun _ hcall => nomatch hcall)
  | splits hsplit hbuild =>
    subst hsplit
    obtain ⟨hadds, hready⟩ := buildOne_inChain env _ _ h hnode hchain
    rw [hbuild] at hadds hready
    have hchild := (hready _ rfl).inChain _ List.mem_cons_self
    refine stays_newChild (Evolves.of_adds h hadds) hchain hchild ?_
    obtain ⟨added, hadded⟩ := hadds.nodes
    rw [← hadded, List.getElem?_append_left (List.getElem?_eq_some_iff.mp hnode).1]
    exact hnode
  | fails hsplit hbuild =>
    subst hsplit
    obtain ⟨hadds, -⟩ := buildOne_inChain env _ _ h hnode hchain
    rw [hbuild] at hadds
    exact ⟨Evolves.of_adds h hadds, fun _ hcall => nomatch hcall⟩

/-- Whatever node is called, the heap evolves for its chain. -/
theorem evolves_onValue (env : BuildEnv D) (store : String → String → Option (ArgType D))
    (live : NodeId → Bool) (h : HeapOk rt origins) (id : ℕ) (sv : StreamValue D) :
    Evolves ((origins[id]?).getD id) origins rt (onValue env store live rt id sv).1 := by
  cases horigin : origins[id]? with
  | some chain => exact (stays_onValue env store live h horigin sv).1
  | none =>
    have hge := List.getElem?_eq_none_iff.mp horigin
    rw [h.length] at hge
    rw [onValue_of_none store live (List.getElem?_eq_none_iff.mpr hge)]
    exact Evolves.refl h

end Stays

section Quiet
variable {rt : Runtime D} {origins : List NodeId} {id : ℕ} {node : INode D} [Double D]

/-- A Listener that was shut down drops what reaches it. -/
theorem onValue_of_stopped (env : BuildEnv D) (store : String → String → Option (ArgType D))
    (live : NodeId → Bool) (hnode : rt.nodes[id]? = some node) (hstopped : node.isStopped = true)
    (sv : StreamValue D) : onValue env store live rt id sv = (rt, {}) := by
  cases node with
  | listener symbol field downstream stopping =>
    cases hstopped
    simp only [onValue, hnode, listenerOnValue, if_true]
  | _ => cases hstopped

/-- Only a GroupSplit makes nodes. -/
theorem onValue_of_not_split (env : BuildEnv D) (store : String → String → Option (ArgType D))
    (live : NodeId → Bool) (hnode : rt.nodes[id]? = some node) (hsplit : node.isSplit = false)
    (sv : StreamValue D) :
    (onValue env store live rt id sv).1.nodes.length = rt.nodes.length ∧
      (onValue env store live rt id sv).1.listeners = rt.listeners := by
  have hhandles : Handles env rt id sv node _ := handles_onValue store live hnode sv
  generalize onValue env store live rt id sv = out at hhandles ⊢
  cases hhandles with
  | forwards _ => exact ⟨rfl, rfl⟩
  | collects _ _ => exact ⟨by simp [setNode], rfl⟩
  | sends _ => exact ⟨rfl, rfl⟩
  | splits hgroup _ =>
    rw [hgroup] at hsplit
    cases hsplit
  | fails hgroup _ =>
    rw [hgroup] at hsplit
    cases hsplit

/-- A round posts calls to the nodes behind the timer, if its thread runs. -/
theorem timerLoop_spec (h : HeapOk rt origins) (chain : NodeId) (id : ℕ) :
    (rt.timerLoop id).1.nodes.length = rt.nodes.length ∧
    Evolves chain origins rt (rt.timerLoop id).1 ∧
    ∀ call ∈ (rt.timerLoop id).2, rt.Ticking id ∧ origins[call.node]? = origins[id]? := by
  have hquiet : rt.nodes.length = rt.nodes.length ∧ Evolves chain origins rt rt ∧
      ∀ call ∈ ([] : List (Call D)), rt.Ticking id ∧ origins[call.node]? = origins[id]? :=
    ⟨rfl, Evolves.refl h, fun _ hcall => by cases hcall⟩
  unfold timerLoop
  split
  · next period child stopping hnode =>
    split_ifs with hstop
    · exact hquiet
    · refine ⟨rfl, Evolves.refl h, ?_⟩
      intro call hcall
      have hmem := node_of_mem_callTo hcall
      have hsome : child = some call.node := by simpa using hmem
      refine ⟨⟨_, hnode, ?_⟩, h.targets hnode _ hmem⟩
      simp [INode.ticking, hsome, hstop]
  · next period downstream stopping acc hnode =>
    split_ifs with hstop
    · exact hquiet
    · refine ⟨by simp [setNode], ?_, ?_⟩
      · apply Evolves.setNode h hnode
        · exact INode.Becomes.of_same rfl rfl rfl rfl rfl
        · rfl
        · intro x hx
          exact h.targets hnode x hx
      · intro call hcall
        obtain ⟨entry, -, hentry⟩ := List.mem_flatMap.mp hcall
        have hmem := node_of_mem_callTo hentry
        have hsome : downstream = some call.node := by simpa using hmem
        refine ⟨⟨_, hnode, ?_⟩, h.targets hnode _ hmem⟩
        simpa [INode.ticking, hsome] using hstop
  · exact hquiet

end Quiet
end GmaEngine.Runtime
