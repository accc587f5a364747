import GmaEngine.EffectPlans
import GmaEngine.NodeValues

/-!
# Chains in the node heap

Every node belongs to the chain it was built for, and pointers stay inside a chain. What a
build, a call or a shutdown can do to the heap is said once here: nodes are added to one
chain, old nodes keep their kind, and only new listeners enter the Dispatcher's table.
-/

namespace GmaEngine

namespace INode
variable {D : Type}

def isListener : INode D → Bool
  | listener _ _ _ _ => true
  | _ => false

/-- A Listener that has been shut down. -/
def isStopped : INode D → Bool
  | listener _ _ _ stopping => stopping
  | _ => false

def isSplit : INode D → Bool
  | groupSplit _ _ _ _ => true
  | _ => false

/-- The node feeds values into its chain from outside: from the Dispatcher or from a timer. -/
def isSource : INode D → Bool
  | listener _ _ _ _ => true
  | clock _ _ _ _ => true
  | tumblingWindow _ _ _ _ => true
  | _ => false

theorem isSource_of_ticking {node : INode D} (h : node.ticking = true) :
    node.isSource = true ∧ node.isListener = false := by
  cases node <;> simp_all [ticking, isSource, isListener]

/-- How a node may change in place. -/
structure Becomes (old new : INode D) : Prop where
  ticking : new.ticking = true → old.ticking = true
  isListener : old.isListener = new.isListener
  isStopped : old.isStopped = true → new.isStopped = true
  isSplit : new.isSplit = true → old.isSplit = true
  isSource : new.isSource = true → old.isSource = true

theorem Becomes.refl (node : INode D) : Becomes node node := ⟨id, rfl, id, id, id⟩

theorem Becomes.trans {a b c : INode D} (hab : Becomes a b) (hbc : Becomes b c) : Becomes a c :=
  ⟨fun h => hab.ticking (hbc.ticking h), hab.isListener.trans hbc.isListener,
    fun h => hbc.isStopped (hab.isStopped h), fun h => hab.isSplit (hbc.isSplit h),
    fun h => hab.isSource (hbc.isSource h)⟩

/-- A change that none of these kinds sees. -/
theorem Becomes.of_same {old new : INode D} (hticking : new.ticking = old.ticking)
    (hlistener : new.isListener = old.isListener) (hstopped : new.isStopped = old.isStopped)
    (hsplit : new.isSplit = old.isSplit) (hsource : new.isSource = old.isSource) :
    Becomes old new :=
  ⟨fun h => hticking ▸ h, hlistener.symm, fun h => hstopped.symm ▸ h, fun h => hsplit ▸ h,
    fun h => hsource ▸ h⟩

end INode

variable {D : Type}

/-- `origins` names the chain of each node. -/
structure HeapOk (rt : Runtime D) (origins : List NodeId) : Prop where
  length : origins.length = rt.nodes.length
  targets : ∀ {id : ℕ} {node}, rt.nodes[id]? = some node → ∀ x ∈ node.targets,
    origins[x]? = origins[id]?
  listed : ∀ {symbol field} {id : ℕ}, id ∈ rt.listeners symbol field →
    ∃ downstream, rt.nodes[id]? = some (.listener symbol field downstream false)

theorem HeapOk.lt {rt : Runtime D} {origins : List NodeId} (h : HeapOk rt origins) {id : ℕ}
    {chain : NodeId} (hid : origins[id]? = some chain) : id < rt.nodes.length := by
  rw [← h.length]
  exact (List.getElem?_eq_some_iff.mp hid).1

theorem HeapOk.push {rt : Runtime D} {origins : List NodeId} (h : HeapOk rt origins)
    {node : INode D} {chain : NodeId} (hnode : ∀ x ∈ node.targets, origins[x]? = some chain) :
    HeapOk { rt with nodes := rt.nodes ++ [node] } (origins ++ [chain]) := by
  have hold : ∀ {x : ℕ} {c : NodeId}, origins[x]? = some c →
      (origins ++ [chain])[x]? = some c := by
    intro x c hx
    rw [List.getElem?_append_left (List.getElem?_eq_some_iff.mp hx).1]
    exact hx
  refine ⟨by simp [h.length], ?_, ?_⟩
  · intro id other hother x hx
    rcases Nat.lt_or_ge id rt.nodes.length with hlt | hge
    · rw [List.getElem?_append_left hlt] at hother
      have heq := h.targets hother x hx
      obtain ⟨c, hc⟩ : ∃ c, origins[id]? = some c := by
        rw [← h.length] at hlt
        exact ⟨_, List.getElem?_eq_getElem hlt⟩
      rw [hold hc, hold (heq.trans hc)]
    · have hlt := (List.getElem?_eq_some_iff.mp hother).1
      rw [List.length_append, List.length_singleton] at hlt
      obtain rfl : id = rt.nodes.length := by omega
      have hsame : other = node := by simpa using hother.symm
      rw [hold (hnode x (hsame ▸ hx)), ← h.length]
      simp
  · intro symbol field id hid
    obtain ⟨downstream, hlistener⟩ := h.listed hid
    refine ⟨downstream, ?_⟩
    change (rt.nodes ++ [node])[id]? = _
    rw [List.getElem?_append_left (List.getElem?_eq_some_iff.mp hlistener).1]
    exact hlistener

theorem HeapOk.register {rt : Runtime D} {origins : List NodeId} (h : HeapOk rt origins)
    {symbol field : String} {downstream : Option NodeId} {id : NodeId}
    (hid : rt.nodes[id]? = some (.listener symbol field downstream false)) :
    HeapOk (rt.registerListener symbol field id) origins := by
  refine ⟨h.length, h.targets, ?_⟩
  intro s f other hother
  rw [Runtime.listeners_registerListener, List.mem_append] at hother
  rcases hother with hother | hother
  · exact h.listed hother
  · split_ifs at hother with hkey
    · obtain ⟨rfl, rfl⟩ := hkey
      obtain rfl := List.mem_singleton.mp hother
      exact ⟨downstream, hid⟩
    · cases hother

namespace TreeBuilder
open EffectPlans

section Adds
variable (base : ℕ) (origins : List NodeId) (chain : NodeId)

/-- The chains of the nodes when those beyond the base belong to the chain that is built. -/
def tags (rt : Runtime D) : List NodeId :=
  origins ++ List.replicate (rt.nodes.length - base) chain

structure Adds (rt rt' : Runtime D) : Prop where
  nodes : rt.nodes <+: rt'.nodes
  listed : ∀ {symbol field} {id : ℕ}, id ∈ rt'.listeners symbol field →
    id ∈ rt.listeners symbol field ∨ rt.nodes.length ≤ id
  heap : HeapOk rt (tags base origins chain rt) → HeapOk rt' (tags base origins chain rt')

instance : Std.Refl (Adds (D := D) base origins chain) :=
  ⟨fun _ => ⟨List.prefix_rfl, fun h => .inl h, id⟩⟩

instance : IsTrans (Runtime D) (Adds base origins chain) := by
  refine ⟨?_⟩
  intro a b c hab hbc
  refine ⟨hab.nodes.trans hbc.nodes, ?_, fun h => hbc.heap (hab.heap h)⟩
  intro symbol field id hid
  have hlen := hab.nodes.length_le
  rcases hbc.listed hid with h | h
  · exact hab.listed h
  · exact .inr (hlen.trans h)

/-- The nodes are there and belong to the chain. -/
structure Ready (ids : List NodeId) (rt : Runtime D) : Prop where
  base_le : base ≤ rt.nodes.length
  inChain : ∀ x ∈ ids, (tags base origins chain rt)[x]? = some chain

variable {base origins chain}

theorem tags_push {rt : Runtime D} (hbase : base ≤ rt.nodes.length) (node : INode D) :
    tags base origins chain { rt with nodes := rt.nodes ++ [node] } =
      tags base origins chain rt ++ [chain] := by
  have hlen : (rt.nodes ++ [node]).length - base = rt.nodes.length - base + 1 := by
    rw [List.length_append, List.length_singleton]
    omega
  simp only [tags, hlen, List.replicate_succ', List.append_assoc]

theorem Ready.push {ids : List NodeId} {rt : Runtime D} (horigins : origins.length = base)
    (h : Ready base origins chain ids rt) (node : INode D) :
    Ready base origins chain (rt.nodes.length :: ids) { rt with nodes := rt.nodes ++ [node] } := by
  have hbase := h.base_le
  have hlen : (tags base origins chain rt).length = rt.nodes.length := by
    simp only [tags, List.length_append, List.length_replicate, horigins]
    omega
  refine ⟨by simp only [List.length_append]; omega, ?_⟩
  intro x hx
  rw [tags_push hbase]
  rcases List.mem_cons.mp hx with rfl | hx
  · rw [← hlen]
    simp
  · have hin := h.inChain x hx
    rw [List.getElem?_append_left (List.getElem?_eq_some_iff.mp hin).1]
    exact hin

theorem Ready.mono {ids ids' : List NodeId} {rt : Runtime D} (h : Ready base origins chain ids rt)
    (hsub : ids' ⊆ ids) : Ready base origins chain ids' rt :=
  ⟨h.base_le, fun x hx => h.inChain x (hsub hx)⟩

/-- Making a node that points into the chain. -/
theorem along_make (horigins : origins.length = base) {ids : List NodeId} {node : INode D}
    (hnode : node.targets ⊆ ids) :
    Along (Adds base origins chain) (Ready base origins chain ids) (make node)
      (fun id rt => Ready base origins chain (id :: ids) rt) := by
  intro rt hrt
  refine ⟨⟨List.prefix_append _ _, fun h => .inl h, ?_⟩, ?_⟩
  · intro hheap
    change HeapOk _ (tags base origins chain { rt with nodes := rt.nodes ++ [node] })
    rw [tags_push hrt.base_le]
    exact hheap.push (fun x hx => hrt.inChain x (hnode hx))
  · intro id hid
    cases hid
    exact hrt.push horigins node

/-- The nodes made on the way are forgotten. -/
theorem along_make_behind (horigins : origins.length = base) {ids behind : List NodeId}
    {node : INode D} (hnode : node.targets ⊆ behind ++ ids) :
    Along (Adds base origins chain) (Ready base origins chain (behind ++ ids)) (make node)
      (fun id rt => Ready base origins chain (id :: ids) rt) := by
  apply (along_make horigins hnode).imp
  intro id rt hrt
  exact hrt.mono (List.cons_subset_cons _ (List.subset_append_right _ _))

theorem along_makeListener (horigins : origins.length = base) {ids : List NodeId}
    {symbol field : String} {downstream : Option NodeId} (hdown : downstream.toList ⊆ ids) :
    Along (Adds (D := D) base origins chain) (Ready base origins chain ids)
      (makeListener symbol field downstream)
      (fun id rt => Ready base origins chain (id :: ids) rt ∧
        ∃ node, rt.nodes[id]? = some node ∧ node.isListener = true) := by
  intro rt hrt
  have htargets : (INode.listener (D := D) symbol field downstream false).targets ⊆ ids := hdown
  obtain ⟨hadds, hready⟩ := along_make horigins htargets rt hrt
  have hnew : (rt.nodes ++ [INode.listener symbol field downstream false])[rt.nodes.length]? =
      some (.listener symbol field downstream false) := by simp
  refine ⟨⟨hadds.nodes, ?_, ?_⟩, ?_⟩
  · intro s f id hid
    have hid' : id ∈ (Runtime.registerListener { rt with nodes := rt.nodes ++
        [.listener symbol field downstream false] } symbol field rt.nodes.length).listeners s f := hid
    rw [Runtime.listeners_registerListener, List.mem_append] at hid'
    rcases hid' with hid' | hid'
    · exact .inl hid'
    · split_ifs at hid'
      · exact .inr (List.mem_singleton.mp hid').ge
      · cases hid'
  · intro hheap
    exact (hadds.heap hheap).register hnew
  · intro id hid
    cases hid
    have hr := hready rt.nodes.length rfl
    exact ⟨⟨hr.base_le, hr.inChain⟩, _, hnew, rfl⟩

theorem along_createListener (horigins : origins.length = base) {ids : List NodeId}
    {symbol field : String} {downstream : Option NodeId} (hdown : downstream.toList ⊆ ids) :
    Along (Adds (D := D) base origins chain) (Ready base origins chain ids)
      (createListener symbol field downstream)
      (fun id rt => Ready base origins chain (id :: ids) rt ∧
        ∃ node, rt.nodes[id]? = some node ∧ node.isListener = true) :=
  Along.checked (fun _ _ => along_makeListener horigins hdown)

theorem downstream_subset (below : List NodeId) {downstream : Option NodeId} {ids : List NodeId}
    (hdown : downstream.toList ⊆ ids) : (below.head?.or downstream).toList ⊆ below ++ ids := by
  cases below with
  | nil => exact hdown
  | cons node below => simp

variable [Double D]

mutual

theorem along_buildOne (horigins : origins.length = base) (env : BuildEnv D) (spec : Json D)
    (key : String) {downstream : Option NodeId} {ids : List NodeId}
    (hdown : downstream.toList ⊆ ids) :
    Along (Adds base origins chain) (Ready base origins chain ids)
      (buildOne env spec key downstream)
      (fun id rt => Ready base origins chain (id :: ids) rt) := by
  rw [buildOne]
  apply Along.checked
  intro t ht
  cases t with
  | listener =>
    apply Along.checked
    intro keys _
    exact (along_makeListener horigins hdown).imp (fun _ _ h => h.1)
  | interval =>
    apply Along.checked
    intro ms _
    apply (along_buildChild horigins env spec key hdown).bind
    intro child
    exact along_make_behind horigins (List.subset_append_left _ _)
  | bucketTime =>
    apply Along.checked
    intro ms _
    apply (along_buildChild horigins env spec key hdown).bind
    intro child
    exact along_make_behind horigins (List.subset_append_left _ _)
  | tumblingWindow =>
    apply Along.checked
    intro ms _
    exact along_make horigins hdown
  | vectorReducer =>
    apply Along.checked
    intro reducer _
    exact along_make horigins hdown
  | atomicAccessor =>
    apply Along.checked
    intro keys _
    exact along_make horigins hdown
  | worker =>
    apply Along.checked
    intro fn _
    exact along_make horigins hdown
  | aggregate =>
    apply Along.checked
    intro arity _
    apply (along_make horigins hdown).bind
    intro agg
    split
    · next inputs hinputs =>
      have hlt := Json.sizeOf_member_array hinputs
      apply (along_buildInputs horigins env inputs key List.mem_cons_self).bind
      intro roots
      apply Along.checked
      intro _ _
      apply (along_make_behind horigins (by simp [INode.targets])).imp
      intro id rt hrt
      exact hrt.mono (by simp)
    · exact Along.throw _
  | groupSplit =>
    apply Along.checked
    intro child _
    exact along_make horigins (by simpa [INode.targets] using hdown)
  | chain =>
    dsimp only
    split
    · exact Along.throw _
    · next stage stages hstages =>
      have hlt := Json.sizeOf_member_cons hstages
      apply (along_buildStages horigins env stages key hdown).bind
      intro below
      apply (along_buildOne horigins env stage key (downstream_subset below hdown)).imp
      intro node rt hrt
      exact hrt.mono (List.cons_subset_cons _ (List.subset_append_right _ _))
    · exact Along.throw _
termination_by 2 * sizeOf spec + 1
decreasing_by all_goals omega

theorem along_buildChild (horigins : origins.length = base) (env : BuildEnv D) (spec : Json D)
    (key : String) {downstream : Option NodeId} {ids : List NodeId}
    (hdown : downstream.toList ⊆ ids) :
    Along (Adds base origins chain) (Ready base origins chain ids)
      (buildChild env spec key downstream)
      (fun child rt => Ready base origins chain (child.toList ++ ids) rt) := by
  rw [buildChild]
  split
  · next child hchild =>
    have hlt := Json.sizeOf_member hchild
    exact (along_buildOne horigins env child key hdown).map some (fun _ _ h => h)
  · apply Along.pure
    intro rt hrt
    exact hrt.mono (List.append_subset.mpr ⟨hdown, List.Subset.refl _⟩)
termination_by 2 * sizeOf spec
decreasing_by omega

theorem along_buildInputs (horigins : origins.length = base) (env : BuildEnv D)
    (inputs : List (Json D)) (key : String) {agg : NodeId} {ids : List NodeId} (hagg : agg ∈ ids) :
    Along (Adds base origins chain) (Ready base origins chain ids)
      (buildInputs env inputs key agg)
      (fun roots rt => Ready base origins chain (roots ++ ids) rt) := by
  cases inputs with
  | nil =>
    rw [buildInputs]
    exact Along.pure _ (fun _ h => h)
  | cons input inputs =>
    rw [buildInputs]
    have hdown : (some agg).toList ⊆ ids := by simpa using hagg
    apply (along_buildOne horigins env input key hdown).bind
    intro root
    apply (along_buildInputs horigins env inputs key (List.mem_cons_of_mem root hagg)).map
    intro roots rt hrt
    exact hrt.mono (by simp)
termination_by 2 * sizeOf inputs
decreasing_by
  all_goals
    simp only [List.cons.sizeOf_spec]
    omega

theorem along_buildStages (horigins : origins.length = base) (env : BuildEnv D)
    (stages : List (Json D)) (key : String) {downstream : Option NodeId} {ids : List NodeId}
    (hdown : downstream.toList ⊆ ids) :
    Along (Adds base origins chain) (Ready base origins chain ids)
      (buildStages env stages key downstream)
      (fun nodes rt => Ready base origins chain (nodes ++ ids) rt) := by
  cases stages with
  | nil =>
    rw [buildStages]
    exact Along.pure _ (fun _ h => h)
  | cons stage stages =>
    rw [buildStages]
    apply (along_buildStages horigins env stages key hdown).bind
    intro below
    have hbelow := downstream_subset below hdown
    apply (along_buildOne horigins env stage key hbelow).map
    intro node rt hrt
    exact hrt
termination_by 2 * sizeOf stages
decreasing_by
  all_goals
    simp only [List.cons.sizeOf_spec]
    omega

end

theorem along_buildForRequest (horigins : origins.length = base) (env : BuildEnv D)
    (requestJson : Json D) {terminal : NodeId} :
    Along (Adds base origins chain) (Ready base origins chain [terminal])
      (buildForRequest env requestJson (some terminal))
      (fun built rt => Ready base origins chain [built.head] rt ∧
        ∃ node, rt.nodes[built.head]? = some node ∧ node.isListener = true) := by
  unfold buildForRequest
  apply Along.checked
  intro keys _
  have hterminal : (some terminal).toList ⊆ [terminal] := List.Subset.refl _
  have hnode : Along (Adds base origins chain) (Ready base origins chain [terminal])
      ((nodeOf requestJson).mapM (buildOne env · keys.1 (some terminal)))
      (fun node rt => Ready base origins chain (node.toList ++ [terminal]) rt) :=
    Along.mapM (fun spec => along_buildOne horigins env spec keys.1 hterminal) (fun _ h => h)
      (fun _ _ h => h) _
  apply hnode.bind
  intro node
  have hstages : Along (Adds base origins chain)
      (Ready base origins chain (node.toList ++ [terminal]))
      ((pipelineOf requestJson).mapM (buildStages env · keys.1 (some terminal)))
      (fun stages rt => Ready base origins chain (stages.getD [] ++ (node.toList ++ [terminal])) rt) :=
    Along.mapM (fun stages => along_buildStages horigins env stages keys.1
      (List.subset_append_of_subset_right _ hterminal)) (fun _ h => h) (fun _ _ h => h) _
  apply hstages.bind
  intro stages
  apply Along.checked
  intro _ _
  refine (along_createListener horigins ?hmid).bind ?hbuilt
  case hmid => rcases stages with _ | (_ | ⟨stage, stages⟩) <;> cases node <;> simp
  intro head
  apply Along.pure
  rintro rt ⟨hready, hlistener⟩
  exact ⟨hready.mono (by simp), hlistener⟩

end Adds

end TreeBuilder

theorem Runtime.getElem?_setNode {rt : Runtime D} {id : ℕ} (hid : id < rt.nodes.length)
    (node : INode D) (other : ℕ) :
    (rt.setNode id node).nodes[other]? = if other = id then some node else rt.nodes[other]? := by
  split_ifs with heq
  · rw [heq]
    exact List.getElem?_set_self hid
  · exact List.getElem?_set_ne (Ne.symm heq)

/-- Nodes are added for one chain, the others change in place, and only new listeners enter
the Dispatcher's table. -/
structure Evolves (chain : NodeId) (origins : List NodeId) (rt rt' : Runtime D) : Prop where
  length_le : rt.nodes.length ≤ rt'.nodes.length
  nodes : ∀ {id : ℕ} {old}, rt.nodes[id]? = some old →
    ∃ new, rt'.nodes[id]? = some new ∧ old.Becomes new
  listed : ∀ {symbol field} {id : ℕ}, id ∈ rt'.listeners symbol field →
    id ∈ rt.listeners symbol field ∨ rt.nodes.length ≤ id
  heap : HeapOk rt'
    (origins ++ List.replicate (rt'.nodes.length - rt.nodes.length) chain)

namespace Evolves
variable {chain : NodeId} {origins : List NodeId} {rt rt' : Runtime D}

theorem refl (h : HeapOk rt origins) : Evolves chain origins rt rt :=
  ⟨le_rfl, fun hold => ⟨_, hold, INode.Becomes.refl _⟩, fun h => .inl h, by simpa using h⟩

theorem of_adds (h : HeapOk rt origins)
    (hadds : TreeBuilder.Adds rt.nodes.length origins chain rt rt') :
    Evolves chain origins rt rt' := by
  refine ⟨hadds.nodes.length_le, ?_, hadds.listed, hadds.heap (by simpa [TreeBuilder.tags] using h)⟩
  intro id old hold
  obtain ⟨added, hadded⟩ := hadds.nodes
  refine ⟨old, ?_, INode.Becomes.refl old⟩
  rw [← hadded, List.getElem?_append_left (List.getElem?_eq_some_iff.mp hold).1]
  exact hold

/-- A node that is not a Listener changes in place. -/
theorem setNode {id : ℕ} {old new : INode D} (h : HeapOk rt origins) (hold : rt.nodes[id]? = some old)
    (hbecomes : old.Becomes new) (hlistener : old.isListener = false)
    (htargets : ∀ x ∈ new.targets, origins[x]? = origins[id]?) :
    Evolves chain origins rt (rt.setNode id new) := by
  have hlt := (List.getElem?_eq_some_iff.mp hold).1
  have hget := Runtime.getElem?_setNode hlt new
  refine ⟨by simp [Runtime.setNode], ?_, fun h => .inl h, ?_⟩
  · intro other node hnode
    rw [hget]
    split_ifs with heq
    · subst heq
      rw [hold] at hnode
      cases hnode
      exact ⟨new, rfl, hbecomes⟩
    · exact ⟨node, hnode, INode.Becomes.refl node⟩
  · have hlen : (rt.setNode id new).nodes.length = rt.nodes.length := by simp [Runtime.setNode]
    rw [hlen, Nat.sub_self, List.replicate_zero, List.append_nil]
    refine ⟨by rw [hlen]; exact h.length, ?_, ?_⟩
    · intro other node hnode x hx
      rw [hget] at hnode
      split_ifs at hnode with heq
      · cases hnode
        rw [heq]
        exact htargets x hx
      · exact h.targets hnode x hx
    · intro symbol field other hother
      obtain ⟨downstream, hnode⟩ := h.listed hother
      refine ⟨downstream, ?_⟩
      rw [hget]
      split_ifs with heq
      · subst heq
        rw [hold] at hnode
        cases hnode
        cases hlistener
      · exact hnode

theorem trans {rt'' : Runtime D} (h : Evolves chain origins rt rt')
    (h' : Evolves chain (origins ++ List.replicate (rt'.nodes.length - rt.nodes.length) chain)
      rt' rt'') : Evolves chain origins rt rt'' := by
  refine ⟨h.length_le.trans h'.length_le, ?_, ?_, ?_⟩
  · intro id old hold
    obtain ⟨mid, hmid, hbecomes⟩ := h.nodes hold
    obtain ⟨new, hnew, hbecomes'⟩ := h'.nodes hmid
    exact ⟨new, hnew, hbecomes.trans hbecomes'⟩
  · intro symbol field id hid
    have hlen := h.length_le
    rcases h'.listed hid with hmid | hge
    · exact h.listed hmid
    · exact .inr (hlen.trans hge)
  · have hlen := h.length_le
    have hlen' := h'.length_le
    have hsum : rt'.nodes.length - rt.nodes.length + (rt''.nodes.length - rt'.nodes.length) =
        rt''.nodes.length - rt.nodes.length := by omega
    have hheap := h'.heap
    rw [List.append_assoc, List.replicate_append_replicate, hsum] at hheap
    exact hheap

end Evolves

/-- What a build leaves, the terminal of the request included. -/
theorem TreeBuilder.build_spec [Double D] {rt rt' : Runtime D} {origins : List NodeId}
    (h : HeapOk rt origins) (env : BuildEnv D) (rq : Json D) (key : RequestKey)
    {result : Except String BuiltChain}
    (hrun : (buildForRequest env rq (some rt.nodes.length)).run.run
      { rt with nodes := rt.nodes ++ [.responder key false] } = (result, rt')) :
    Evolves rt.nodes.length origins rt rt' ∧ rt.nodes.length < rt'.nodes.length ∧
      ∀ built, result = .ok built →
        (tags rt.nodes.length origins rt.nodes.length rt')[built.head]? = some rt.nodes.length ∧
        ∃ node, rt'.nodes[built.head]? = some node ∧ node.isListener = true := by
  have hlen := h.length
  have hstart : Ready rt.nodes.length origins rt.nodes.length [] rt :=
    ⟨le_rfl, fun x hx => by cases hx⟩
  obtain ⟨hpush, hready⟩ := along_make hlen
    (show (INode.responder (D := D) key false).targets ⊆ [] from List.Subset.refl _) rt hstart
  obtain ⟨hadds, hbuilt⟩ := along_buildForRequest hlen env rq _ (hready rt.nodes.length rfl)
  have hout : EffectPlans.outcome (buildForRequest env rq (some rt.nodes.length))
      (EffectPlans.outcome (make (.responder key false)) rt).2 = (result, rt') := hrun
  rw [hout] at hadds hbuilt
  have hlonger := hadds.nodes.length_le
  have hone : (EffectPlans.outcome (make (.responder key false)) rt).2.nodes.length =
      rt.nodes.length + 1 := List.length_append
  refine ⟨Evolves.of_adds h (IsTrans.trans _ _ _ hpush hadds), ?_, ?_⟩
  · dsimp only at hlonger
    omega
  · intro built hresult
    obtain ⟨hhead, hlistener⟩ := hbuilt built hresult
    exact ⟨hhead.inChain built.head (by simp), hlistener⟩

namespace Runtime

theorem listeners_unregisterListener (rt : Runtime D) (symbol field : String) (id : NodeId)
    (s f : String) : (rt.unregisterListener symbol field id).listeners s f =
      if s = symbol ∧ f = field then (rt.listeners s f).filter (· ≠ id) else rt.listeners s f := by
  simp only [unregisterListener, setListeners, Function.update_apply]
  by_cases hs : s = symbol
  · by_cases hf : f = field
    · simp [hs, hf]
    · simp [hs, hf]
  · simp [hs]

/-- The table only loses the listener, and no list holds it any more. -/
theorem mem_listeners_shutdownListener {rt : Runtime D} {origins : List NodeId}
    (h : HeapOk rt origins) {id other : ℕ} {s f : String}
    (hother : other ∈ (rt.shutdownListener id).listeners s f) :
    other ∈ rt.listeners s f ∧ other ≠ id := by
  unfold shutdownListener at hother
  split at hother
  · next symbol field downstream hid =>
    rw [listeners_unregisterListener] at hother
    split_ifs at hother with hkey
    · obtain ⟨hmem, hne⟩ := List.mem_filter.mp hother
      exact ⟨hmem, by simpa using hne⟩
    · refine ⟨hother, ?_⟩
      rintro rfl
      obtain ⟨downstream', hnode⟩ := h.listed (show other ∈ rt.listeners s f from hother)
      rw [hid] at hnode
      cases hnode
      exact hkey ⟨rfl, rfl⟩
  · next hid =>
    refine ⟨hother, ?_⟩
    rintro rfl
    obtain ⟨downstream, hnode⟩ := h.listed hother
    exact hid s f downstream hnode

theorem evolves_shutdownListener {rt : Runtime D} {origins : List NodeId} (h : HeapOk rt origins)
    (chain : NodeId) (id : ℕ) : Evolves chain origins rt (rt.shutdownListener id) := by
  have hlisted : ∀ {s f : String} {other : ℕ}, other ∈ (rt.shutdownListener id).listeners s f →
      other ∈ rt.listeners s f ∧ other ≠ id := fun hother => mem_listeners_shutdownListener h hother
  unfold shutdownListener at hlisted ⊢
  split at hlisted
  · next symbol field downstream hid =>
    have hlt := (List.getElem?_eq_some_iff.mp hid).1
    have hlen : (rt.setNode id (.listener symbol field none true)).nodes.length =
        rt.nodes.length := by simp [setNode]
    have hget := getElem?_setNode hlt (.listener symbol field none true)
    refine ⟨hlen.ge, ?_, fun hother => .inl (hlisted hother).1, ?_⟩
    · intro other old hold
      change ∃ new, (rt.setNode id _).nodes[other]? = some new ∧ _
      rw [hget]
      split_ifs with heq
      · subst heq
        rw [hid] at hold
        cases hold
        exact ⟨_, rfl, ⟨by simp [INode.ticking], rfl, by simp [INode.isStopped], by simp [INode.isSplit],
          fun h => h⟩⟩
      · exact ⟨old, hold, INode.Becomes.refl old⟩
    · change HeapOk _ (origins ++ List.replicate
        ((rt.setNode id (.listener symbol field none true)).nodes.length - _) chain)
      rw [hlen, Nat.sub_self, List.replicate_zero, List.append_nil]
      refine ⟨h.length.trans hlen.symm, ?_, ?_⟩
      · intro other node hnode x hx
        change (rt.setNode id _).nodes[other]? = some node at hnode
        rw [hget] at hnode
        split_ifs at hnode with heq
        · cases hnode
          cases hx
        · exact h.targets hnode x hx
      · intro s f other hother
        obtain ⟨hmem, hne⟩ := hlisted hother
        obtain ⟨downstream', hnode⟩ := h.listed hmem
        refine ⟨downstream', ?_⟩
        change (rt.setNode id _).nodes[other]? = _
        rw [hget, if_neg hne]
        exact hnode
  · exact Evolves.refl h

/-- A head that is shut down is stopped. -/
theorem isStopped_shutdownListener {rt : Runtime D} {id : ℕ} {node : INode D}
    (hid : rt.nodes[id]? = some node) (hlistener : node.isListener = true) :
    ∃ new, (rt.shutdownListener id).nodes[id]? = some new ∧ new.isStopped = true := by
  cases node with
  | listener symbol field downstream stopping =>
    cases stopping with
    | false =>
      refine ⟨.listener symbol field none true, ?_, rfl⟩
      have hlt := (List.getElem?_eq_some_iff.mp hid).1
      simp only [shutdownListener, hid]
      change (rt.setNode id _).nodes[id]? = _
      rw [getElem?_setNode hlt, if_pos rfl]
    | true =>
      refine ⟨.listener symbol field downstream true, ?_, rfl⟩
      simp only [shutdownListener, hid]
  | _ => cases hlistener

end Runtime
end GmaEngine
