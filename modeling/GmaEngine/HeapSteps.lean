import GmaEngine.ChainCalls
import GmaEngine.FailedBuilds
import GmaEngine.SpecReadings
import GmaEngine.WsBridge

/-!
# Steps of the heap

What a node is for does not change: a Listener keeps its symbol and field, a GroupSplit its
template, a terminal its key. Every step of the heap keeps the cores of the old nodes, and the
cores of the new ones are those that the specifications permit.
-/

namespace GmaEngine

/-- What a node is for. -/
inductive NodeCore (D : Type) where
  | listener (symbol field : String)
  | groupSplit (childDoc : Json D) (key : String)
  | responder (key : RequestKey)
  | other

namespace INode
variable {D : Type}

def core : INode D → NodeCore D
  | listener symbol field _ _ => .listener symbol field
  | groupSplit childDoc key _ _ => .groupSplit childDoc key
  | responder key _ => .responder key
  | _ => .other

/-- A terminal that was shut down. -/
def silenced : INode D → Bool
  | responder _ stopped => stopped
  | _ => false

theorem core_stop (node : INode D) : node.stop.core = node.core := by
  cases node <;> rfl

theorem silenced_stop {node : INode D} {key : RequestKey} (h : node.core = .responder key) :
    node.stop.silenced = true := by
  cases node with
  | responder key stopped => rfl
  | _ => cases h

end INode

variable {D : Type}

/-- New nodes and new entries of the Dispatcher's table are permitted ones. -/
structure HeapStep (P : NodeCore D → Prop) (rt rt' : Runtime D) : Prop where
  length_le : rt.nodes.length ≤ rt'.nodes.length
  old : ∀ (id : ℕ) node, rt.nodes[id]? = some node → ∃ node', rt'.nodes[id]? = some node' ∧
    node'.core = node.core ∧ (node.silenced = true → node'.silenced = true)
  new : ∀ (id : ℕ) node, rt.nodes.length ≤ id → rt'.nodes[id]? = some node → P node.core
  listed : ∀ symbol field (id : ℕ), id ∈ rt'.listeners symbol field →
    id ∈ rt.listeners symbol field ∨ P (.listener symbol field)

namespace HeapStep
variable {P : NodeCore D → Prop} {rt rt' rt'' : Runtime D}

theorem refl (P : NodeCore D → Prop) (rt : Runtime D) : HeapStep P rt rt := by
  refine ⟨Nat.le_refl _, fun _ node h => ⟨node, h, rfl, fun hs => hs⟩, ?_, fun _ _ _ h => .inl h⟩
  intro id node hle hnode
  have hlt := (List.getElem?_eq_some_iff.mp hnode).1
  omega

theorem trans (h : HeapStep P rt rt') (h' : HeapStep P rt' rt'') : HeapStep P rt rt'' := by
  refine ⟨h.length_le.trans h'.length_le, ?_, ?_, ?_⟩
  · intro id node hnode
    obtain ⟨node', hnode', hcore, hsilenced⟩ := h.old id node hnode
    obtain ⟨node'', hnode'', hcore', hsilenced'⟩ := h'.old id node' hnode'
    exact ⟨node'', hnode'', hcore'.trans hcore, fun hs => hsilenced' (hsilenced hs)⟩
  · intro id node hle hnode
    rcases Nat.lt_or_ge id rt'.nodes.length with hlt | hge
    · obtain ⟨node', hnode', hcore, -⟩ := h'.old id _ (List.getElem?_eq_getElem hlt)
      rw [hnode] at hnode'
      cases hnode'
      rw [hcore]
      exact h.new id _ hle (List.getElem?_eq_getElem hlt)
    · exact h'.new id node hge hnode
  · intro symbol field id hid
    rcases h'.listed symbol field id hid with hmid | hp
    · exact h.listed symbol field id hmid
    · exact .inr hp

theorem imp {Q : NodeCore D → Prop} (h : HeapStep P rt rt') (hpq : ∀ core, P core → Q core) :
    HeapStep Q rt rt' :=
  ⟨h.length_le, h.old, fun id node hle hnode => hpq _ (h.new id node hle hnode),
    fun symbol field id hid => (h.listed symbol field id hid).imp_right (hpq _)⟩

/-- Where nothing is permitted, nothing is made. -/
theorem length_eq (h : HeapStep (fun _ => False) rt rt') : rt'.nodes.length = rt.nodes.length := by
  have hle := h.length_le
  rcases Nat.lt_or_ge rt.nodes.length rt'.nodes.length with hlt | hge
  · exact (h.new rt.nodes.length _ (Nat.le_refl _) (List.getElem?_eq_getElem hlt)).elim
  · omega

instance : Std.Refl (HeapStep P) := ⟨refl P⟩

instance : IsTrans (Runtime D) (HeapStep P) := ⟨fun _ _ _ h h' => h.trans h'⟩

theorem push (rt : Runtime D) {node : INode D} (hnode : P node.core) :
    HeapStep P rt { rt with nodes := rt.nodes ++ [node] } := by
  refine ⟨by simp, ?_, ?_, fun _ _ _ h => .inl h⟩
  · intro id old hold
    have hlt := (List.getElem?_eq_some_iff.mp hold).1
    refine ⟨old, ?_, rfl, fun h => h⟩
    rw [List.getElem?_append_left hlt]
    exact hold
  · intro id new hle hnew
    rw [List.getElem?_append_right hle] at hnew
    have hmem := List.mem_of_getElem? hnew
    rw [List.mem_singleton.mp hmem]
    exact hnode

/-- A node changes in place. -/
theorem setNode {id : ℕ} {old new : INode D} (hold : rt.nodes[id]? = some old)
    (hcore : new.core = old.core) (hsilenced : old.silenced = true → new.silenced = true) :
    HeapStep P rt (rt.setNode id new) := by
  have hlt := (List.getElem?_eq_some_iff.mp hold).1
  refine ⟨by simp [Runtime.setNode], ?_, ?_, fun _ _ _ h => .inl h⟩
  · intro other node hnode
    by_cases heq : id = other
    · subst heq
      rw [hold] at hnode
      cases hnode
      exact ⟨new, List.getElem?_set_self hlt, hcore, hsilenced⟩
    · refine ⟨node, ?_, rfl, fun h => h⟩
      rw [Runtime.setNode, List.getElem?_set_ne heq]
      exact hnode
  · intro other node hle hnode
    have hlt' := (List.getElem?_eq_some_iff.mp hnode).1
    rw [Runtime.setNode, List.length_set] at hlt'
    omega

/-- A change of the table alone. -/
theorem of_listeners (rt : Runtime D) {listeners : String → String → List NodeId}
    (h : ∀ symbol field (id : ℕ), id ∈ listeners symbol field →
      id ∈ rt.listeners symbol field ∨ P (.listener symbol field)) :
    HeapStep P rt { rt with listeners := listeners } := by
  have hsame := refl P rt
  exact ⟨hsame.length_le, hsame.old, hsame.new, h⟩

end HeapStep

/-- The specifications that are permitted, and what is built for them. -/
structure Permits (env : BuildEnv D) (P : NodeCore D → Prop) (S : Json D → Prop) : Prop where
  other : P .other
  listener : ∀ spec key symbol field, S spec → TreeBuilder.nodeType spec = .ok .listener →
    TreeBuilder.listenerKeys env spec key = .ok (symbol, field) → P (.listener symbol field)
  groupSplit : ∀ spec child key, S spec → TreeBuilder.nodeType spec = .ok .groupSplit →
    spec.member "child" = some child → P (.groupSplit child key)
  child : ∀ spec child t, S spec → TreeBuilder.nodeType spec = .ok t → t.clock?.isSome = true →
    spec.member "child" = some child → S child
  inputs : ∀ spec inputs, S spec → TreeBuilder.nodeType spec = .ok .aggregate →
    spec.member "inputs" = some (.array inputs) → ∀ input ∈ inputs, S input
  stages : ∀ spec stages, S spec → TreeBuilder.nodeType spec = .ok .chain →
    spec.member "stages" = some (.array stages) → ∀ stage ∈ stages, S stage
  template : ∀ child key, P (.groupSplit child key) → S child

namespace TreeBuilder
open EffectPlans
variable {P : NodeCore D → Prop} {S : Json D → Prop} {env : BuildEnv D}

/-- A relation of heaps that holds when a permitted node is made. -/
structure Admits (R : Runtime D → Runtime D → Prop) (P : NodeCore D → Prop) : Prop where
  node : ∀ rt node, P node.core → R rt { rt with nodes := rt.nodes ++ [node] }
  listener : ∀ (rt : Runtime D) symbol field downstream, P (.listener symbol field) →
    R rt (Runtime.registerListener
      { rt with nodes := rt.nodes ++ [.listener symbol field downstream false] }
      symbol field rt.nodes.length)

/-- Whatever it returns or throws, the build relates the heap before it to the one after it. -/
def Builds {α : Type} (R : Runtime D → Runtime D → Prop) (build : Build D α) : Prop :=
  Along R (fun _ => True) build (fun _ _ => True)

/-- Whatever it returns or throws, the build only makes permitted nodes. -/
def Makes {α : Type} (P : NodeCore D → Prop) (build : Build D α) : Prop :=
  Along (HeapStep P) (fun _ => True) build (fun _ _ => True)

theorem admits_heapStep : Admits (HeapStep P) P where
  node rt node hnode := HeapStep.push rt hnode
  listener rt symbol field downstream h := by
    have hpush : HeapStep P rt
        { rt with nodes := rt.nodes ++ [.listener symbol field downstream false] } :=
      HeapStep.push rt h
    refine hpush.trans (HeapStep.of_listeners _ ?_)
    intro s f id hid
    have hmem : id ∈ (Runtime.registerListener
        { rt with nodes := rt.nodes ++ [.listener symbol field downstream false] }
        symbol field rt.nodes.length).listeners s f := hid
    rw [Runtime.listeners_registerListener, List.mem_append] at hmem
    rcases hmem with hmem | hmem
    · exact .inl hmem
    · split_ifs at hmem with hkey
      · obtain ⟨rfl, rfl⟩ := hkey
        exact .inr h
      · cases hmem

section
variable {R : Runtime D → Runtime D → Prop}

theorem Admits.builds_node (h : Admits R P) {node : INode D} (hnode : P node.core) :
    Builds R (make node) :=
  fun rt _ => ⟨h.node rt node hnode, fun _ _ => trivial⟩

theorem Admits.builds_listener (h : Admits R P) {symbol field : String}
    (hp : P (.listener symbol field)) (downstream : Option NodeId) :
    Builds R (makeListener symbol field downstream) :=
  fun rt _ => ⟨h.listener rt symbol field downstream hp, fun _ _ => trivial⟩

end

theorem makes_listener {symbol field : String} (h : P (.listener symbol field))
    (downstream : Option NodeId) : Makes P (makeListener symbol field downstream) :=
  admits_heapStep.builds_listener h downstream

theorem Makes.bind {α β : Type} {build : Build D α} (h : Makes P build) {next : α → Build D β}
    (hnext : ∀ a, Makes P (next a)) : Makes P (build >>= next) :=
  Along.bind h hnext

theorem Makes.checked {α β : Type} {check : Except String α} {next : α → Build D β}
    (hnext : ∀ a, check = .ok a → Makes P (next a)) : Makes P (liftM check >>= next) :=
  Along.checked hnext

theorem makes_pure {α : Type} (a : α) : Makes P (pure a : Build D α) :=
  Along.pure a (fun _ _ => trivial)

variable [Double D] {R : Runtime D → Runtime D → Prop} [Std.Refl R] [IsTrans (Runtime D) R]

mutual

theorem builds_buildOne (hadmits : Admits R P) (hpermits : Permits env P S)
    (spec : Json D) (key : String) (downstream : Option NodeId) (hspec : S spec) :
    Builds R (buildOne env spec key downstream) := by
  rw [buildOne]
  apply Along.checked
  intro t ht
  cases t with
  | listener =>
    apply Along.checked
    intro keys hkeys
    have hlistener := hpermits.listener spec key keys.1 keys.2 hspec ht hkeys
    exact hadmits.builds_listener hlistener downstream
  | interval =>
    apply Along.checked
    intro ms _
    apply (builds_buildChild hadmits hpermits spec key downstream
      (fun child hchild => hpermits.child spec child _ hspec ht rfl hchild)).bind
    intro child
    exact hadmits.builds_node hpermits.other
  | bucketTime =>
    apply Along.checked
    intro ms _
    apply (builds_buildChild hadmits hpermits spec key downstream
      (fun child hchild => hpermits.child spec child _ hspec ht rfl hchild)).bind
    intro child
    exact hadmits.builds_node hpermits.other
  | tumblingWindow =>
    apply Along.checked
    intro ms _
    exact hadmits.builds_node hpermits.other
  | vectorReducer =>
    apply Along.checked
    intro reducer _
    exact hadmits.builds_node hpermits.other
  | atomicAccessor =>
    apply Along.checked
    intro keys _
    exact hadmits.builds_node hpermits.other
  | worker =>
    apply Along.checked
    intro fn _
    exact hadmits.builds_node hpermits.other
  | aggregate =>
    apply Along.checked
    intro arity _
    refine Along.bind (hadmits.builds_node hpermits.other) ?_
    intro agg
    generalize hinputs : spec.member "inputs" = member
    cases member with
    | none => exact Along.throw _
    | some value =>
      cases value with
      | array inputs =>
        have hlt := Json.sizeOf_member_array hinputs
        apply (builds_buildInputs hadmits hpermits inputs key agg
          (hpermits.inputs spec inputs hspec ht hinputs)).bind
        intro roots
        apply Along.checked
        intro _ _
        exact hadmits.builds_node hpermits.other
      | _ => exact Along.throw _
  | groupSplit =>
    apply Along.checked
    intro child hchild
    have hmember := member_of_groupSplitChild hchild
    exact hadmits.builds_node (hpermits.groupSplit spec child key hspec ht hmember)
  | chain =>
    generalize hstages : spec.member "stages" = member
    cases member with
    | none => exact Along.throw _
    | some value =>
      cases value with
      | array stages =>
        cases stages with
        | nil => exact Along.throw _
        | cons stage stages =>
          have hlt := Json.sizeOf_member_cons hstages
          have hall := hpermits.stages spec _ hspec ht hstages
          apply (builds_buildStages hadmits hpermits stages key downstream
            (fun other hother => hall other (List.mem_cons_of_mem _ hother))).bind
          intro below
          exact builds_buildOne hadmits hpermits stage key _ (hall stage List.mem_cons_self)
      | _ => exact Along.throw _
termination_by 2 * sizeOf spec + 1
decreasing_by all_goals omega

theorem builds_buildChild (hadmits : Admits R P) (hpermits : Permits env P S)
    (spec : Json D) (key : String) (downstream : Option NodeId)
    (hspec : ∀ child, spec.member "child" = some child → S child) :
    Builds R (buildChild env spec key downstream) := by
  rw [buildChild]
  generalize hchild : spec.member "child" = member
  cases member with
  | none => exact Along.pure _ (fun _ _ => trivial)
  | some child =>
    have hlt := Json.sizeOf_member hchild
    exact (builds_buildOne hadmits hpermits child key downstream (hspec child hchild)).bind
      (fun _ => Along.pure _ (fun _ _ => trivial))
termination_by 2 * sizeOf spec
decreasing_by omega

theorem builds_buildInputs (hadmits : Admits R P) (hpermits : Permits env P S)
    (inputs : List (Json D)) (key : String) (agg : NodeId) :
    (∀ input ∈ inputs, S input) → Builds R (buildInputs env inputs key agg) := by
  cases inputs with
  | nil =>
    intro _
    rw [buildInputs]
    exact Along.pure _ (fun _ _ => trivial)
  | cons input inputs =>
    intro hinputs
    rw [buildInputs]
    apply (builds_buildOne hadmits hpermits input key agg (hinputs input List.mem_cons_self)).bind
    intro root
    apply (builds_buildInputs hadmits hpermits inputs key agg
      (fun other hother => hinputs other (List.mem_cons_of_mem _ hother))).bind
    intro roots
    exact Along.pure _ (fun _ _ => trivial)
termination_by 2 * sizeOf inputs
decreasing_by
  all_goals
    simp only [List.cons.sizeOf_spec]
    omega

theorem builds_buildStages (hadmits : Admits R P) (hpermits : Permits env P S)
    (stages : List (Json D)) (key : String) (downstream : Option NodeId) :
    (∀ stage ∈ stages, S stage) → Builds R (buildStages env stages key downstream) := by
  cases stages with
  | nil =>
    intro _
    rw [buildStages]
    exact Along.pure _ (fun _ _ => trivial)
  | cons stage stages =>
    intro hstages
    rw [buildStages]
    apply (builds_buildStages hadmits hpermits stages key downstream
      (fun other hother => hstages other (List.mem_cons_of_mem _ hother))).bind
    intro below
    apply (builds_buildOne hadmits hpermits stage key _ (hstages stage List.mem_cons_self)).bind
    intro root
    exact Along.pure _ (fun _ _ => trivial)
termination_by 2 * sizeOf stages
decreasing_by
  all_goals
    simp only [List.cons.sizeOf_spec]
    omega

end

theorem makes_buildOne (hpermits : Permits env P S) (spec : Json D) (key : String)
    (downstream : Option NodeId) (hspec : S spec) : Makes P (buildOne env spec key downstream) :=
  builds_buildOne admits_heapStep hpermits spec key downstream hspec

theorem makes_buildStages (hpermits : Permits env P S) (stages : List (Json D)) (key : String)
    (downstream : Option NodeId) (hstages : ∀ stage ∈ stages, S stage) :
    Makes P (buildStages env stages key downstream) :=
  builds_buildStages admits_heapStep hpermits stages key downstream hstages

instance : Std.Refl (Grown (D := D)) := ⟨Grown.refl⟩

instance : IsTrans (Runtime D) Grown := ⟨fun _ _ _ h h' => h.trans h'⟩

omit [Double D] in
theorem permits_all (env : BuildEnv D) : Permits env (fun _ => True) (fun _ => True) := by
  constructor <;> intros <;> trivial

omit [Double D] in
theorem admits_grown : Admits (D := D) Grown (fun _ => True) :=
  ⟨fun rt node _ => grown_make node rt,
    fun rt symbol field downstream _ => (follows_makeListener symbol field downstream rt).1⟩

/-- Whatever it returns or throws, a build leaves the nodes that are there as they are. -/
theorem grown_buildOne (env : BuildEnv D) (spec : Json D) (key : String)
    (downstream : Option NodeId) (rt : Runtime D) :
    Grown rt (outcome (buildOne env spec key downstream) rt).2 :=
  (builds_buildOne admits_grown (permits_all env) spec key downstream trivial rt trivial).1

/-- A request makes the nodes of its specifications and a head that may listen to its field. -/
theorem makes_buildForRequest (hpermits : Permits env P S) (requestJson : Json D)
    (terminal : NodeId) (hspecs : ∀ spec ∈ (nodeOf requestJson).toList ++
      (pipelineOf requestJson).getD [], S spec)
    (hhead : ∀ keys, requestKeys requestJson = .ok keys → isPipelineOnlyKey keys.2 = false →
      P (.listener keys.1 keys.2)) :
    Makes P (buildForRequest env requestJson (some terminal)) := by
  unfold buildForRequest
  apply Makes.checked
  intro keys hkeys
  have hnode : Makes P ((nodeOf requestJson).mapM (buildOne env · keys.1 (some terminal))) := by
    cases hspec : nodeOf requestJson with
    | none => exact makes_pure _
    | some spec =>
      rw [Option.mapM_some]
      exact (makes_buildOne hpermits spec keys.1 _ (hspecs spec (by simp [hspec]))).bind
        (fun _ => makes_pure _)
  have hstages : Makes P ((pipelineOf requestJson).mapM
      (buildStages env · keys.1 (some terminal))) := by
    cases hlist : pipelineOf requestJson with
    | none => exact makes_pure _
    | some stages =>
      rw [Option.mapM_some]
      exact (makes_buildStages hpermits stages keys.1 _
        (fun spec hspec => hspecs spec (by simp [hlist, hspec]))).bind (fun _ => makes_pure _)
  apply hnode.bind
  intro node
  apply hstages.bind
  intro stages
  apply Makes.checked
  intro _ _
  refine Makes.bind ?_ (fun _ => makes_pure _)
  unfold createListener
  apply Makes.checked
  intro _ hcheck
  apply makes_listener
  apply hhead keys hkeys
  unfold rejectPipelineOnly «require» at hcheck
  split_ifs at hcheck with hreject
  simpa using hreject

end TreeBuilder

namespace Runtime
variable {P : NodeCore D → Prop} {S : Json D → Prop} {env : BuildEnv D} {rt : Runtime D}

/-- The templates in the heap are permitted. -/
def TemplatesOk (S : Json D → Prop) (rt : Runtime D) : Prop :=
  ∀ (id : ℕ) node childDoc key, rt.nodes[id]? = some node →
    node.core = .groupSplit childDoc key → S childDoc

variable [Double D]

omit [Double D] in
theorem Collects.core {old new : INode D} (h : Collects old new) :
    new.core = old.core ∧ old.silenced = false := by
  cases h <;> exact ⟨rfl, rfl⟩

/-- What the template of a GroupSplit builds. -/
theorem heapStep_buildOne (hpermits : Permits env P S) {childDoc : Json D} (hdoc : S childDoc)
    (key : String) (downstream : Option NodeId) :
    HeapStep P rt ((TreeBuilder.buildOne env childDoc key downstream).run.run rt).2 :=
  (TreeBuilder.makes_buildOne hpermits childDoc key downstream hdoc rt trivial).1

/-- A call keeps the cores of the nodes and makes permitted ones. -/
theorem heapStep_onValue (hpermits : Permits env P S) (htemplates : TemplatesOk S rt)
    (store : String → String → Option (ArgType D)) (live : NodeId → Bool) (id : ℕ)
    (sv : StreamValue D) : HeapStep P rt (rt.onValue env store live id sv).1 := by
  have hrefl := HeapStep.refl P rt
  cases hnode : rt.nodes[id]? with
  | none =>
    rw [onValue_of_none store live hnode]
    exact hrefl
  | some node =>
    have hhandles : Handles env rt id sv node _ := handles_onValue store live hnode sv
    generalize rt.onValue env store live id sv = out at hhandles ⊢
    cases hhandles with
    | forwards _ => exact hrefl
    | collects hnew _ =>
      obtain ⟨hcore, hsilenced⟩ := hnew.core
      exact HeapStep.setNode hnode hcore (fun hs => nomatch hsilenced.symm.trans hs)
    | sends _ => exact hrefl
    | @splits childDoc key downstream children childKey child rt' hsplit hbuild =>
      subst hsplit
      have hdoc := htemplates id _ childDoc key hnode rfl
      have hbuilt : HeapStep P rt _ := heapStep_buildOne hpermits hdoc childKey downstream
      rw [hbuild] at hbuilt
      obtain ⟨node, hnode', hcore, -⟩ := hbuilt.old id _ hnode
      refine hbuilt.trans (HeapStep.setNode hnode' hcore.symm ?_)
      intro hs
      cases node with
      | responder key stopped => cases hcore
      | _ => cases hs
    | @fails childDoc key downstream children childKey message rt' hsplit hbuild =>
      subst hsplit
      have hdoc := htemplates id _ childDoc key hnode rfl
      have hbuilt : HeapStep P rt _ := heapStep_buildOne hpermits hdoc childKey downstream
      rw [hbuild] at hbuilt
      exact hbuilt

theorem heapStep_timerLoop (rt : Runtime D) (id : ℕ) : HeapStep P rt (rt.timerLoop id).1 := by
  have hrefl := HeapStep.refl P rt
  unfold timerLoop
  cases hnode : rt.nodes[id]? with
  | none => exact hrefl
  | some node =>
    cases node with
    | clock kind period child stopping =>
      dsimp only
      split_ifs <;> exact hrefl
    | tumblingWindow period downstream stopping acc =>
      dsimp only
      split_ifs
      · exact hrefl
      · exact HeapStep.setNode hnode rfl (fun h => h)
    | _ => exact hrefl

omit [Double D] in
theorem heapStep_shutdownListener (rt : Runtime D) (id : ℕ) :
    HeapStep P rt (rt.shutdownListener id) := by
  unfold shutdownListener
  cases hnode : rt.nodes[id]? with
  | none => exact HeapStep.refl P rt
  | some node =>
    cases node with
    | listener symbol field downstream stopping =>
      cases stopping with
      | true => exact HeapStep.refl P rt
      | false =>
        have hset : HeapStep P rt (rt.setNode id (.listener symbol field none true)) :=
          HeapStep.setNode hnode rfl (fun h => h)
        refine hset.trans (HeapStep.of_listeners _ ?_)
        intro s f other hother
        have hmem : other ∈ ((rt.setNode id (.listener symbol field none true)).unregisterListener
            symbol field id).listeners s f := hother
        rw [listeners_unregisterListener] at hmem
        split_ifs at hmem
        · exact .inl (List.mem_filter.mp hmem).1
        · exact .inl hmem
    | _ => exact HeapStep.refl P rt

omit [Double D] in
theorem heapStep_shutdownOne (rt : Runtime D) (id : ℕ) : HeapStep P rt (rt.shutdownOne id) := by
  unfold shutdownOne
  cases hnode : rt.nodes[id]? with
  | none => exact HeapStep.refl P rt
  | some node =>
    have hset : HeapStep P rt (rt.setNode id node.stop) := by
      refine HeapStep.setNode hnode node.core_stop ?_
      intro hs
      cases node with
      | responder key stopped => rfl
      | _ => cases hs
    cases node with
    | listener symbol field downstream stopping => exact heapStep_shutdownListener rt id
    | _ => exact hset

omit [Double D] in
/-- Steps one after the other. -/
theorem heapStep_foldl {α : Type} {f : Runtime D → α → Runtime D}
    (hf : ∀ rt a, HeapStep P rt (f rt a)) (as : List α) (rt : Runtime D) :
    HeapStep P rt (as.foldl f rt) := by
  induction as generalizing rt with
  | nil => exact HeapStep.refl P rt
  | cons a as ih => exact (hf rt a).trans (ih (f rt a))

omit [Double D] in
theorem heapStep_shutdown (rt : Runtime D) (id : ℕ) : HeapStep P rt (rt.shutdown id) :=
  heapStep_foldl heapStep_shutdownOne (rt.shutdownSet id) rt

omit [Double D] in
theorem targets_stop_subset (node : INode D) : node.stop.targets ⊆ node.targets := by
  cases node <;> simp [INode.stop, INode.targets]

omit [Double D] in
/-- Shutdown keeps the pointers inside the chains. -/
theorem heapOk_shutdownOne {origins : List NodeId} (h : HeapOk rt origins) (id : ℕ) :
    HeapOk (rt.shutdownOne id) origins := by
  unfold shutdownOne
  cases hnode : rt.nodes[id]? with
  | none => exact h
  | some node =>
    have hset : node.isListener = false → HeapOk (rt.setNode id node.stop) origins := by
      intro hlistener
      have hlt := (List.getElem?_eq_some_iff.mp hnode).1
      have hget := getElem?_setNode hlt node.stop
      refine ⟨by simpa [setNode] using h.length, ?_, ?_⟩
      · intro other new hnew x hx
        rw [hget] at hnew
        split_ifs at hnew with heq
        · cases hnew
          rw [heq]
          exact h.targets hnode x (targets_stop_subset node hx)
        · exact h.targets hnew x hx
      · intro symbol field other hother
        obtain ⟨downstream, hlisted⟩ := h.listed hother
        refine ⟨downstream, ?_⟩
        rw [hget]
        split_ifs with heq
        · rw [heq, hnode] at hlisted
          cases hlisted
          cases hlistener
        · exact hlisted
    cases node with
    | listener symbol field downstream stopping =>
      have hlen : (rt.shutdownListener id).nodes.length = rt.nodes.length :=
        (heapStep_shutdownListener rt id).length_eq
      have hheap := (evolves_shutdownListener h 0 id).heap
      rw [hlen, Nat.sub_self, List.replicate_zero, List.append_nil] at hheap
      exact hheap
    | _ => exact hset rfl

omit [Double D] in
theorem heapOk_foldl {α : Type} {origins : List NodeId} {f : Runtime D → α → Runtime D}
    (hf : ∀ {rt}, HeapOk rt origins → ∀ a, HeapOk (f rt a) origins) (as : List α)
    (h : HeapOk rt origins) : HeapOk (as.foldl f rt) origins := by
  induction as generalizing rt with
  | nil => exact h
  | cons a as ih => exact ih (hf h a)

omit [Double D] in
theorem heapOk_shutdown {origins : List NodeId} (h : HeapOk rt origins) (id : ℕ) :
    HeapOk (rt.shutdown id) origins :=
  heapOk_foldl heapOk_shutdownOne (rt.shutdownSet id) h

/-- The node is a terminal, and it was shut down. -/
def Silenced (rt : Runtime D) (id : ℕ) : Prop :=
  ∃ node, rt.nodes[id]? = some node ∧ node.silenced = true

omit [Double D] in
theorem Silenced.mono {rt' : Runtime D} {id : ℕ} (h : rt.Silenced id) (hstep : HeapStep P rt rt') :
    rt'.Silenced id := by
  obtain ⟨node, hnode, hs⟩ := h
  obtain ⟨node', hnode', -, hkeep⟩ := hstep.old id node hnode
  exact ⟨node', hnode', hkeep hs⟩

/-- The node is a terminal. -/
def IsTerminal (rt : Runtime D) (id : ℕ) : Prop :=
  ∃ node key, rt.nodes[id]? = some node ∧ node.core = .responder key

omit [Double D] in
theorem IsTerminal.mono {rt' : Runtime D} {id : ℕ} (h : rt.IsTerminal id)
    (hstep : HeapStep P rt rt') : rt'.IsTerminal id := by
  obtain ⟨node, key, hnode, hcore⟩ := h
  obtain ⟨node', hnode', hsame, -⟩ := hstep.old id node hnode
  exact ⟨node', key, hnode', hsame.trans hcore⟩

omit [Double D] in
theorem silenced_shutdownOne {id : ℕ} (h : rt.IsTerminal id) : (rt.shutdownOne id).Silenced id := by
  obtain ⟨node, key, hnode, hcore⟩ := h
  have hlt := (List.getElem?_eq_some_iff.mp hnode).1
  refine ⟨node.stop, ?_, INode.silenced_stop hcore⟩
  unfold shutdownOne
  rw [hnode]
  cases node with
  | responder key stopped => exact List.getElem?_set_self hlt
  | _ => cases hcore

omit [Double D] in
theorem mem_shutdownSet {id : ℕ} (hlt : id < rt.nodes.length) : id ∈ rt.shutdownSet id := by
  unfold shutdownSet
  rw [List.mem_filter, decide_eq_true_eq, BoundedClosure.mem_closure_iff]
  refine ⟨List.mem_range.mpr hlt, id, ?_⟩
  exact ⟨Finset.mem_singleton_self id, Finset.mem_range.mpr hlt, .refl⟩

omit [Double D] in
/-- Shutting down a terminal, among others, silences it. -/
theorem silenced_foldl {f : Runtime D → ℕ → Runtime D} (hf : ∀ rt id, HeapStep P rt (f rt id))
    (hsilences : ∀ rt id, rt.IsTerminal id → (f rt id).Silenced id) {ids : List ℕ} {id : ℕ}
    (hid : id ∈ ids) (h : rt.IsTerminal id) : (ids.foldl f rt).Silenced id := by
  induction ids generalizing rt with
  | nil => cases hid
  | cons first ids ih =>
    rcases List.mem_cons.mp hid with rfl | hmem
    · exact (hsilences rt id h).mono (heapStep_foldl hf ids (f rt id))
    · exact ih hmem (h.mono (hf rt first))

omit [Double D] in
theorem silenced_shutdown {id : ℕ} (h : rt.IsTerminal id) : (rt.shutdown id).Silenced id := by
  have hlt : id < rt.nodes.length := by
    obtain ⟨node, key, hnode, -⟩ := h
    exact (List.getElem?_eq_some_iff.mp hnode).1
  exact silenced_foldl (P := fun _ => False) heapStep_shutdownOne
    (fun _ _ hterminal => silenced_shutdownOne hterminal) (mem_shutdownSet hlt) h

end Runtime

end GmaEngine
