import GmaEngine.TreeBuilder
import GmaEngine.EffectPlans

/-!
# Blueprints

Reading a node specification and laying out its nodes are two things: the builders do both at
once, but what they read does not depend on the heap. A blueprint is a specification that has
passed all checks; its layout says which nodes stand where, behind which downstream. A build that
succeeds adds the layout of the blueprint to the heap, and registers its Listeners.
-/

namespace GmaEngine

/-- The nodes that are built alone and own their downstream. -/
inductive Single (D : Type) where
  | clock (kind : Clock) (period : ℤ)
  | tumblingWindow (period : ℤ)
  | vectorReducer (fn : Func D)
  | atomicAccessor (symbol field : String)
  | worker (fn : List (ArgType D) → Option (ArgType D))
  | groupSplit (childDoc : Json D) (defaultStreamKey : String)

def Single.node {D : Type} (downstream : Option NodeId) : Single D → INode D
  | clock kind period => .clock kind period downstream false
  | tumblingWindow period => .tumblingWindow period downstream false []
  | vectorReducer fn => .vectorReducer fn downstream false
  | atomicAccessor symbol field => .atomicAccessor symbol field downstream false
  | worker fn => .worker fn downstream false []
  | groupSplit childDoc defaultStreamKey => .groupSplit childDoc defaultStreamKey downstream []

inductive Blueprint (D : Type) where
  | listener (symbol field : String)
  | single (node : Single D)
  | clockOf (kind : Clock) (period : ℤ) (child : Blueprint D)
  | aggregate (arity : ℕ) (inputs : List (Blueprint D))
  /-- A stage in front of the rest of its chain. -/
  | behind (stage rest : Blueprint D)

/-- Nodes that are added to a heap, one of them the root. -/
structure Layout (D : Type) where
  nodes : List (INode D)
  root : ℕ

namespace Blueprint
variable {D : Type}

mutual

/-- The nodes of a blueprint in front of a downstream, the first of them at `base`. -/
def layout (downstream : Option NodeId) (base : ℕ) : Blueprint D → Layout D
  | listener symbol field => ⟨[.listener symbol field downstream false], base⟩
  | single node => ⟨[node.node downstream], base⟩
  | clockOf kind period child =>
    let below := child.layout downstream base
    ⟨below.nodes ++ [.clock kind period (some below.root) false], base + below.nodes.length⟩
  | aggregate arity inputs =>
    let heads := layouts base (base + 1) inputs
    ⟨.aggregate arity downstream false [] :: heads.1 ++ [.compositeRoot (heads.2 ++ [base])],
      base + 1 + heads.1.length⟩
  | behind stage rest =>
    let below := rest.layout downstream base
    let front := stage.layout (some below.root) (base + below.nodes.length)
    ⟨below.nodes ++ front.nodes, front.root⟩

/-- The nodes of the inputs of an Aggregate, and their roots. -/
def layouts (agg : NodeId) (base : ℕ) : List (Blueprint D) → List (INode D) × List NodeId
  | [] => ([], [])
  | input :: inputs =>
    let first := input.layout (some agg) base
    let others := layouts agg (base + first.nodes.length) inputs
    (first.nodes ++ others.1, first.root :: others.2)

end

/-- The nodes of the stages of a pipeline, the last stage first, and the roots of the stages. -/
def layoutStages (downstream : Option NodeId) (base : ℕ) :
    List (Blueprint D) → List (INode D) × List NodeId
  | [] => ([], [])
  | stage :: stages =>
    let below := layoutStages downstream base stages
    let front := stage.layout (below.2.head?.or downstream) (base + below.1.length)
    (below.1 ++ front.nodes, front.root :: below.2)

/-- A chain of stages, of which there is at least one. -/
def chain : Blueprint D → List (Blueprint D) → Blueprint D
  | stage, [] => stage
  | stage, next :: stages => behind stage (chain next stages)

theorem layout_chain (downstream : Option NodeId) (base : ℕ) (stage : Blueprint D)
    (stages : List (Blueprint D)) :
    (chain stage stages).layout downstream base =
      ⟨(layoutStages downstream base (stage :: stages)).1,
        (stage.layout ((layoutStages downstream base stages).2.head?.or downstream)
          (base + (layoutStages downstream base stages).1.length)).root⟩ := by
  induction stages generalizing stage with
  | nil => simp [chain, layoutStages]
  | cons next stages ih =>
    rw [chain, layout, ih next]
    simp [layoutStages]

end Blueprint

/-- A request that has passed all checks. -/
structure RequestBlueprint (D : Type) where
  streamKey : String
  field : String
  node : Option (Blueprint D)
  stages : Option (List (Blueprint D))

namespace RequestBlueprint
variable {D : Type}

/-- The nodes of the specification under `node`, and its root. -/
def nodeLayout (rb : RequestBlueprint D) (terminal : NodeId) (base : ℕ) :
    List (INode D) × Option NodeId :=
  rb.node.elim ([], none)
    (fun bp => ((bp.layout (some terminal) base).nodes, some (bp.layout (some terminal) base).root))

/-- The nodes of the pipeline, and the roots of its stages. -/
def stagesLayout (rb : RequestBlueprint D) (terminal : NodeId) (base : ℕ) :
    List (INode D) × Option (List NodeId) :=
  rb.stages.elim ([], none) (fun bps => ((Blueprint.layoutStages (some terminal) base bps).1,
    some (Blueprint.layoutStages (some terminal) base bps).2))

/-- The nodes of a request, the head Listener last, and the chain that is returned. -/
def layout (rb : RequestBlueprint D) (terminal : NodeId) (base : ℕ) :
    List (INode D) × BuiltChain :=
  let node := rb.nodeLayout terminal base
  let stages := rb.stagesLayout terminal (base + node.1.length)
  let midHead := match stages.2 with
    | some stages => stages.head?.getD terminal
    | none => node.2.getD terminal
  (node.1 ++ stages.1 ++ [.listener rb.streamKey rb.field (some midHead) false],
    ⟨base + (node.1 ++ stages.1).length,
      terminal :: node.2.toList ++ (stages.2.getD []).reverse⟩)

end RequestBlueprint

namespace Runtime
variable {D : Type}

/-- A node is added at the end of the heap, and registered if it is a Listener. -/
def add (rt : Runtime D) (node : INode D) : Runtime D :=
  let rt' : Runtime D := { rt with nodes := rt.nodes ++ [node] }
  match node with
  | .listener symbol field _ _ => rt'.registerListener symbol field rt.nodes.length
  | _ => rt'

def install (rt : Runtime D) (nodes : List (INode D)) : Runtime D := nodes.foldl add rt

@[simp] theorem nodes_add (rt : Runtime D) (node : INode D) :
    (rt.add node).nodes = rt.nodes ++ [node] := by
  cases node <;> rfl

@[simp] theorem nodes_install (rt : Runtime D) (nodes : List (INode D)) :
    (rt.install nodes).nodes = rt.nodes ++ nodes := by
  induction nodes generalizing rt with
  | nil => simp [install]
  | cons node nodes ih =>
    have hstep : rt.install (node :: nodes) = (rt.add node).install nodes := rfl
    rw [hstep, ih, nodes_add, List.append_assoc, List.singleton_append]

theorem install_append (rt : Runtime D) (nodes nodes' : List (INode D)) :
    rt.install (nodes ++ nodes') = (rt.install nodes).install nodes' := List.foldl_append

theorem install_singleton (rt : Runtime D) (node : INode D) : rt.install [node] = rt.add node := rfl

end Runtime

namespace TreeBuilder
open EffectPlans
variable {D : Type} [Double D]

mutual

/-- The checks of `buildOne`, without the heap. -/
def blueprint (env : BuildEnv D) (spec : Json D) (defaultStreamKey : String) :
    Except String (Blueprint D) := do
  match ← nodeType spec with
  | .listener =>
    let (symbol, field) ← listenerKeys env spec defaultStreamKey
    return .listener symbol field
  | .interval =>
    let ms ← intervalPeriod env spec
    return (← childBlueprint env spec defaultStreamKey).elim (.single (.clock .interval ms))
      (.clockOf .interval ms)
  | .bucketTime =>
    let ms ← bucketTimePeriod env spec
    return (← childBlueprint env spec defaultStreamKey).elim (.single (.clock .bucketTime ms))
      (.clockOf .bucketTime ms)
  | .tumblingWindow => return .single (.tumblingWindow (← tumblingWindowPeriod env spec))
  | .vectorReducer => return .single (.vectorReducer (← reducerFromName env.functionMap spec))
  | .atomicAccessor =>
    let (symbol, field) ← accessorKeys env spec defaultStreamKey
    return .single (.atomicAccessor symbol field)
  | .worker => return .single (.worker (← fnFromName env.functionMap spec))
  | .aggregate =>
    let arity ← aggregateArity spec
    match _h : spec.member "inputs" with
    | some (.array inputs) =>
      let inputs ← blueprints env inputs defaultStreamKey
      «require» (!inputs.isEmpty) "Aggregate: empty 'inputs' array"
      return .aggregate arity inputs
    | _ => throw "Aggregate: 'inputs' must be an array"
  | .groupSplit =>
    let child ← groupSplitChild spec
    return .single (.groupSplit child defaultStreamKey)
  | .chain =>
    match _h : spec.member "stages" with
    | some (.array []) => throw "Chain: 'stages' must not be empty"
    | some (.array (stage :: stages)) =>
      let below ← stageBlueprints env stages defaultStreamKey
      return .chain (← blueprint env stage defaultStreamKey) below
    | _ => throw "Chain: 'stages' must be an array"
termination_by 2 * sizeOf spec + 1
decreasing_by
  · omega
  · omega
  · have hlt := Json.sizeOf_member_array _h
    omega
  all_goals
    have hlt := Json.sizeOf_member_cons _h
    omega

def childBlueprint (env : BuildEnv D) (spec : Json D) (defaultStreamKey : String) :
    Except String (Option (Blueprint D)) :=
  match _h : spec.member "child" with
  | some child => some <$> blueprint env child defaultStreamKey
  | none => return none
termination_by 2 * sizeOf spec
decreasing_by
  have hlt := Json.sizeOf_member _h
  omega

/-- First to last, as the inputs of an Aggregate are built. -/
def blueprints (env : BuildEnv D) (inputs : List (Json D)) (defaultStreamKey : String) :
    Except String (List (Blueprint D)) :=
  match inputs with
  | [] => return []
  | input :: inputs => do
    let first ← blueprint env input defaultStreamKey
    return first :: (← blueprints env inputs defaultStreamKey)
termination_by 2 * sizeOf inputs
decreasing_by
  all_goals
    simp only [List.cons.sizeOf_spec]
    omega

/-- Last to first, as the stages of a pipeline are built. -/
def stageBlueprints (env : BuildEnv D) (stages : List (Json D)) (defaultStreamKey : String) :
    Except String (List (Blueprint D)) :=
  match stages with
  | [] => return []
  | stage :: stages => do
    let below ← stageBlueprints env stages defaultStreamKey
    return (← blueprint env stage defaultStreamKey) :: below
termination_by 2 * sizeOf stages
decreasing_by
  all_goals
    simp only [List.cons.sizeOf_spec]
    omega

end

/-- After `pre` has been added to the heap, the build returns what the reading says and leaves the
nodes that it says, or throws what the reading throws. -/
def Realizes {α β : Type} (rt : Runtime D) (pre : List (INode D)) (build : Build D α)
    (read : Except String β) (value : β → α) (nodes : β → List (INode D)) : Prop :=
  match read with
  | .ok b => outcome build (rt.install pre) = (.ok (value b), rt.install (nodes b))
  | .error e => (outcome build (rt.install pre)).1 = .error e

section
variable {α β γ δ : Type} {rt : Runtime D} {pre : List (INode D)}

omit [Double D] in
theorem Realizes.bind {build : Build D α} {read : Except String β} {value : β → α}
    {nodes : β → List (INode D)} (h : Realizes rt pre build read value nodes)
    {next : α → Build D γ} {read' : β → Except String δ} {value' : δ → γ}
    {nodes' : δ → List (INode D)}
    (hnext : ∀ b, read = .ok b →
      Realizes rt (nodes b) (next (value b)) (read' b) value' nodes') :
    Realizes rt pre (build >>= next) (read >>= read') value' nodes' := by
  cases hread : read with
  | error e =>
    rw [hread] at h
    change (outcome (build >>= next) (rt.install pre)).1 = .error e
    change (outcome build (rt.install pre)).1 = .error e at h
    rw [outcome_bind]
    generalize outcome build (rt.install pre) = out at h
    obtain ⟨result, rt'⟩ := out
    cases h
    rfl
  | ok b =>
    rw [hread] at h
    change outcome build (rt.install pre) = (.ok (value b), rt.install (nodes b)) at h
    change Realizes rt pre (build >>= next) (read' b) value' nodes'
    have hb := hnext b hread
    have hout : outcome (build >>= next) (rt.install pre) =
        outcome (next (value b)) (rt.install (nodes b)) := by
      rw [outcome_bind, h]
    unfold Realizes at hb ⊢
    rw [hout]
    exact hb

omit [Double D] in
theorem Realizes.checked {check : Except String α} {next : α → Build D γ}
    {read : α → Except String δ} {value : δ → γ} {nodes : δ → List (INode D)}
    (hnext : ∀ a, check = .ok a → Realizes rt pre (next a) (read a) value nodes) :
    Realizes rt pre (liftM check >>= next) (check >>= read) value nodes := by
  cases check with
  | error e => rfl
  | ok a => exact hnext a rfl

omit [Double D] in
theorem realizes_pure {a : α} {b : β} {value : β → α} {nodes : β → List (INode D)}
    (hvalue : value b = a) (hnodes : nodes b = pre) :
    Realizes rt pre (pure a) (.ok b) value nodes := by
  change outcome (pure a : Build D α) (rt.install pre) = (.ok (value b), rt.install (nodes b))
  rw [hvalue, hnodes, outcome_pure]

omit [Double D] in
theorem realizes_throw {e : String} {value : β → α} {nodes : β → List (INode D)} :
    Realizes rt pre (throw e) (.error e) value nodes := rfl

omit [Double D] in
theorem install_concat (rt : Runtime D) (pre : List (INode D)) (node : INode D) :
    rt.install (pre ++ [node]) = (rt.install pre).add node := by
  rw [Runtime.install_append, Runtime.install_singleton]

omit [Double D] in
theorem realizes_make {node : INode D} (hnode : ∀ symbol field downstream stopping,
      node ≠ .listener symbol field downstream stopping) {b : β} {value : β → NodeId}
    {nodes : β → List (INode D)} (hvalue : value b = rt.nodes.length + pre.length)
    (hnodes : nodes b = pre ++ [node]) :
    Realizes rt pre (make node) (.ok b) value nodes := by
  change outcome (make node) (rt.install pre) = (.ok (value b), rt.install (nodes b))
  have hout : outcome (make node) (rt.install pre) = (.ok (rt.install pre).nodes.length,
      { rt.install pre with nodes := (rt.install pre).nodes ++ [node] }) := rfl
  rw [hout, hvalue, hnodes, install_concat, Runtime.nodes_install, List.length_append]
  cases node with
  | listener symbol field downstream stopping =>
    exact absurd rfl (hnode symbol field downstream stopping)
  | _ => simp [Runtime.add]

omit [Double D] in
theorem realizes_makeListener {symbol field : String} {downstream : Option NodeId} {b : β}
    {value : β → NodeId} {nodes : β → List (INode D)}
    (hvalue : value b = rt.nodes.length + pre.length)
    (hnodes : nodes b = pre ++ [.listener symbol field downstream false]) :
    Realizes rt pre (makeListener symbol field downstream) (.ok b) value nodes := by
  change outcome (makeListener symbol field downstream) (rt.install pre) =
    (.ok (value b), rt.install (nodes b))
  have hout : outcome (makeListener symbol field downstream) (rt.install pre) =
      (.ok (rt.install pre).nodes.length,
        (rt.install pre).add (.listener symbol field downstream false)) := rfl
  rw [hout, hvalue, hnodes, install_concat, Runtime.nodes_install, List.length_append]

omit [Double D] in
/-- A clock is made after its child. -/
theorem realizes_clock {downstream : Option NodeId} (kind : Clock) (ms : ℤ)
    (child : Option (Blueprint D)) :
    Realizes rt (pre ++ child.elim []
        (fun bp => (bp.layout downstream (rt.nodes.length + pre.length)).nodes))
      (make (.clock kind ms (child.elim downstream
        (fun bp => some (bp.layout downstream (rt.nodes.length + pre.length)).root)) false))
      (.ok (child.elim (Blueprint.single (.clock kind ms)) (Blueprint.clockOf kind ms)))
      (fun bp => (bp.layout downstream (rt.nodes.length + pre.length)).root)
      (fun bp => pre ++ (bp.layout downstream (rt.nodes.length + pre.length)).nodes) := by
  refine realizes_make (fun _ _ _ _ heq => by cases heq) ?_ ?_
  · cases child with
    | none => simp [Blueprint.layout, Single.node]
    | some child =>
      simp only [Option.elim_some, Blueprint.layout, List.length_append]
      exact Nat.add_assoc _ _ _
  · cases child with
    | none => simp [Blueprint.layout, Single.node]
    | some child => simp [Blueprint.layout]

omit [Double D] in
/-- What is read is wrapped. -/
theorem Realizes.map {build : Build D α} {read : Except String β} {value : β → α}
    {nodes : β → List (INode D)} (h : Realizes rt pre build read value nodes) {f : β → δ}
    {value' : δ → α} {nodes' : δ → List (INode D)} (hvalue : ∀ b, value' (f b) = value b)
    (hnodes : ∀ b, nodes' (f b) = nodes b) :
    Realizes rt pre build (read >>= fun b => pure (f b)) value' nodes' := by
  cases read with
  | error e => exact h
  | ok b =>
    change outcome build (rt.install pre) = (.ok (value' (f b)), rt.install (nodes' (f b)))
    rw [hvalue, hnodes]
    exact h

omit [Double D] in
/-- A node that is made before the rest is read. -/
theorem Realizes.made {node : INode D} (hnode : ∀ symbol field downstream stopping,
      node ≠ .listener symbol field downstream stopping) {next : NodeId → Build D γ}
    {read : Except String δ} {value : δ → γ} {nodes : δ → List (INode D)}
    (hnext : Realizes rt (pre ++ [node]) (next (rt.nodes.length + pre.length)) read value nodes) :
    Realizes rt pre (make node >>= next) read value nodes := by
  have hmake : Realizes rt pre (make node) (.ok ()) (fun _ => rt.nodes.length + pre.length)
      (fun _ => pre ++ [node]) := realizes_make hnode rfl rfl
  change Realizes rt pre (make node >>= next) ((.ok () : Except String Unit) >>= fun _ => read) _ _
  exact hmake.bind (fun _ _ => hnext)

end

mutual

theorem realizes_buildOne (env : BuildEnv D) (spec : Json D) (key : String)
    (downstream : Option NodeId) (rt : Runtime D) (pre : List (INode D)) :
    Realizes rt pre (buildOne env spec key downstream) (blueprint env spec key)
      (fun bp => (bp.layout downstream (rt.nodes.length + pre.length)).root)
      (fun bp => pre ++ (bp.layout downstream (rt.nodes.length + pre.length)).nodes) := by
  rw [buildOne, blueprint]
  apply Realizes.checked
  intro t ht
  cases t with
  | listener =>
    apply Realizes.checked
    intro keys _
    exact realizes_makeListener rfl rfl
  | interval =>
    apply Realizes.checked
    intro ms _
    apply (realizes_buildChild env spec key downstream rt pre).bind
    intro child _
    exact realizes_clock .interval ms child
  | bucketTime =>
    apply Realizes.checked
    intro ms _
    apply (realizes_buildChild env spec key downstream rt pre).bind
    intro child _
    exact realizes_clock .bucketTime ms child
  | tumblingWindow =>
    apply Realizes.checked
    intro ms _
    exact realizes_make (by simp) rfl rfl
  | vectorReducer =>
    apply Realizes.checked
    intro reducer _
    exact realizes_make (by simp) rfl rfl
  | atomicAccessor =>
    apply Realizes.checked
    intro keys _
    exact realizes_make (by simp) rfl rfl
  | worker =>
    apply Realizes.checked
    intro fn _
    exact realizes_make (by simp) rfl rfl
  | aggregate =>
    apply Realizes.checked
    intro arity _
    generalize hinputs : spec.member "inputs" = member
    apply Realizes.made (fun _ _ _ _ heq => by cases heq)
    cases member with
    | none => exact realizes_throw
    | some value =>
      cases value with
      | array inputs =>
        have hlt := Json.sizeOf_member_array hinputs
        apply (realizes_buildInputs env inputs key _ rt _).bind
        intro bps _
        have hempty : (Blueprint.layouts (rt.nodes.length + pre.length) (rt.nodes.length +
            (pre ++ [INode.aggregate arity downstream false []]).length) bps).2.isEmpty =
              bps.isEmpty := by
          cases bps <;> simp [Blueprint.layouts]
        rw [hempty]
        apply Realizes.checked
        intro _ _
        refine realizes_make (fun _ _ _ _ heq => by cases heq) ?_ ?_
        · simp only [Blueprint.layout, List.length_append, List.length_singleton]
          simp only [Nat.add_assoc]
        · simp [Blueprint.layout, Nat.add_assoc]
      | _ => exact realizes_throw
  | groupSplit =>
    apply Realizes.checked
    intro child _
    exact realizes_make (by simp) rfl rfl
  | chain =>
    generalize hstages : spec.member "stages" = member
    cases member with
    | none => exact realizes_throw
    | some value =>
      cases value with
      | array stages =>
        cases stages with
        | nil => exact realizes_throw
        | cons stage stages =>
          have hlt := Json.sizeOf_member_cons hstages
          apply (realizes_buildStages env stages key downstream rt pre).bind
          intro below _
          refine (realizes_buildOne env stage key _ rt _).map ?_ ?_
          · intro bp
            rw [Blueprint.layout_chain, List.length_append, Nat.add_assoc]
          · intro bp
            rw [Blueprint.layout_chain, Blueprint.layoutStages, List.length_append,
              List.append_assoc, Nat.add_assoc]
      | _ => exact realizes_throw
termination_by 2 * sizeOf spec + 1
decreasing_by all_goals omega

theorem realizes_buildChild (env : BuildEnv D) (spec : Json D) (key : String)
    (downstream : Option NodeId) (rt : Runtime D) (pre : List (INode D)) :
    Realizes rt pre (buildChild env spec key downstream) (childBlueprint env spec key)
      (fun child => child.elim downstream
        (fun bp => some (bp.layout downstream (rt.nodes.length + pre.length)).root))
      (fun child => pre ++ child.elim []
        (fun bp => (bp.layout downstream (rt.nodes.length + pre.length)).nodes)) := by
  rw [buildChild, childBlueprint]
  generalize hchild : spec.member "child" = member
  cases member with
  | none => exact realizes_pure rfl (List.append_nil pre)
  | some child =>
    have hlt := Json.sizeOf_member hchild
    apply (realizes_buildOne env child key downstream rt pre).bind
    intro bp _
    exact realizes_pure rfl rfl
termination_by 2 * sizeOf spec
decreasing_by omega

theorem realizes_buildInputs (env : BuildEnv D) (inputs : List (Json D)) (key : String)
    (agg : NodeId) (rt : Runtime D) (pre : List (INode D)) :
    Realizes rt pre (buildInputs env inputs key agg) (blueprints env inputs key)
      (fun bps => (Blueprint.layouts agg (rt.nodes.length + pre.length) bps).2)
      (fun bps => pre ++ (Blueprint.layouts agg (rt.nodes.length + pre.length) bps).1) := by
  cases inputs with
  | nil =>
    rw [buildInputs, blueprints]
    exact realizes_pure rfl (by simp [Blueprint.layouts])
  | cons input inputs =>
    rw [buildInputs, blueprints]
    apply (realizes_buildOne env input key agg rt pre).bind
    intro first _
    apply (realizes_buildInputs env inputs key agg rt _).bind
    intro others _
    refine realizes_pure ?_ ?_
    · simp [Blueprint.layouts, Nat.add_assoc]
    · simp [Blueprint.layouts, Nat.add_assoc]
termination_by 2 * sizeOf inputs
decreasing_by
  all_goals
    simp only [List.cons.sizeOf_spec]
    omega

theorem realizes_buildStages (env : BuildEnv D) (stages : List (Json D)) (key : String)
    (downstream : Option NodeId) (rt : Runtime D) (pre : List (INode D)) :
    Realizes rt pre (buildStages env stages key downstream) (stageBlueprints env stages key)
      (fun bps => (Blueprint.layoutStages downstream (rt.nodes.length + pre.length) bps).2)
      (fun bps => pre ++
        (Blueprint.layoutStages downstream (rt.nodes.length + pre.length) bps).1) := by
  cases stages with
  | nil =>
    rw [buildStages, stageBlueprints]
    exact realizes_pure rfl (by simp [Blueprint.layoutStages])
  | cons stage stages =>
    rw [buildStages, stageBlueprints]
    apply (realizes_buildStages env stages key downstream rt pre).bind
    intro below _
    apply (realizes_buildOne env stage key _ rt _).bind
    intro first _
    refine realizes_pure ?_ ?_
    · simp [Blueprint.layoutStages, Nat.add_assoc]
    · simp [Blueprint.layoutStages, Nat.add_assoc]
termination_by 2 * sizeOf stages
decreasing_by
  all_goals
    simp only [List.cons.sizeOf_spec]
    omega

end

/-- The checks of `buildForRequest` when there is a terminal. -/
def requestBlueprint (env : BuildEnv D) (requestJson : Json D) :
    Except String (RequestBlueprint D) := do
  let (streamKey, field) ← requestKeys requestJson
  let node ← (nodeOf requestJson).mapM (blueprint env · streamKey)
  let stages ← (pipelineOf requestJson).mapM (stageBlueprints env · streamKey)
  «require» (env.deps.dispatcher && env.deps.pool) "buildForRequest: missing dispatcher/pool"
  rejectPipelineOnly field
  return ⟨streamKey, field, node, stages⟩

section
variable {α β γ : Type} {rt : Runtime D} {pre : List (INode D)}

omit [Double D] in
/-- An optional part of a request. -/
theorem Realizes.mapM {build : γ → Build D α} {read : γ → Except String β} {value : β → α}
    {nodes : β → List (INode D)}
    (h : ∀ c, Realizes rt pre (build c) (read c) value (fun b => pre ++ nodes b)) (x : Option γ) :
    Realizes rt pre (x.mapM build) (x.mapM read) (Option.map value)
      (fun b => pre ++ b.elim [] nodes) := by
  cases x with
  | none => exact realizes_pure rfl (List.append_nil pre)
  | some c =>
    rw [Option.mapM_some, Option.mapM_some]
    apply (h c).bind
    intro b _
    exact realizes_pure rfl rfl

omit [Double D] in
theorem realizes_createListener (symbol field : String) {downstream : Option NodeId} :
    Realizes rt pre (createListener symbol field downstream) (rejectPipelineOnly field)
      (fun _ => rt.nodes.length + pre.length)
      (fun _ => pre ++ [.listener symbol field downstream false]) := by
  unfold createListener
  cases hcheck : rejectPipelineOnly field with
  | error e => rfl
  | ok a => exact realizes_makeListener (b := a) rfl rfl

/-- A request is built as its blueprint says. -/
theorem realizes_buildForRequest (env : BuildEnv D) (requestJson : Json D) (terminal : NodeId)
    (rt : Runtime D) :
    Realizes rt [] (buildForRequest env requestJson (some terminal))
      (requestBlueprint env requestJson) (fun rb => (rb.layout terminal rt.nodes.length).2)
      (fun rb => (rb.layout terminal rt.nodes.length).1) := by
  unfold buildForRequest requestBlueprint
  apply Realizes.checked
  intro keys _
  apply (Realizes.mapM (fun spec => realizes_buildOne env spec keys.1 (some terminal) rt [])
    (nodeOf requestJson)).bind
  intro node _
  apply (Realizes.mapM (fun stages => realizes_buildStages env stages keys.1 (some terminal) rt _)
    (pipelineOf requestJson)).bind
  intro stages _
  apply Realizes.checked
  intro _ _
  apply (realizes_createListener keys.1 keys.2).bind
  intro _ _
  refine realizes_pure ?_ ?_
  · cases node <;> cases stages <;> simp [RequestBlueprint.layout, RequestBlueprint.nodeLayout,
      RequestBlueprint.stagesLayout]
  · cases node <;> cases stages <;> simp [RequestBlueprint.layout, RequestBlueprint.nodeLayout,
      RequestBlueprint.stagesLayout]

omit [Double D] in
/-- What a build can return. -/
theorem Realizes.ok_iff {build : Build D α} {read : Except String β} {value : β → α}
    {nodes : β → List (INode D)} (h : Realizes rt pre build read value nodes) {a : α}
    {rt' : Runtime D} : outcome build (rt.install pre) = (.ok a, rt') ↔
      ∃ b, read = .ok b ∧ a = value b ∧ rt' = rt.install (nodes b) := by
  unfold Realizes at h
  cases hread : read with
  | error e =>
    rw [hread] at h
    constructor
    · intro hout
      change (outcome build (rt.install pre)).1 = .error e at h
      rw [hout] at h
      cases h
    · rintro ⟨b, hb, -⟩
      cases hb
  | ok b =>
    rw [hread] at h
    change outcome build (rt.install pre) = _ at h
    rw [h]
    constructor
    · intro hout
      obtain ⟨hvalue, hrt⟩ := Prod.mk.inj hout
      exact ⟨b, rfl, (Except.ok.inj hvalue).symm, hrt.symm⟩
    · rintro ⟨b', hb', rfl, rfl⟩
      cases hb'
      rfl

theorem buildForRequest_ok_iff {env : BuildEnv D} {requestJson : Json D} {terminal : NodeId}
    {rt' : Runtime D} {built : BuiltChain} :
    outcome (buildForRequest env requestJson (some terminal)) rt = (.ok built, rt') ↔
      ∃ rb, requestBlueprint env requestJson = .ok rb ∧
        built = (rb.layout terminal rt.nodes.length).2 ∧
        rt' = rt.install (rb.layout terminal rt.nodes.length).1 :=
  (realizes_buildForRequest env requestJson terminal rt).ok_iff

theorem buildOne_ok_iff {env : BuildEnv D} {spec : Json D} {key : String}
    {downstream : Option NodeId} {rt' : Runtime D} {root : NodeId} :
    outcome (buildOne env spec key downstream) rt = (.ok root, rt') ↔
      ∃ bp, blueprint env spec key = .ok bp ∧
        root = (bp.layout downstream rt.nodes.length).root ∧
        rt' = rt.install (bp.layout downstream rt.nodes.length).nodes :=
  (realizes_buildOne env spec key downstream rt []).ok_iff

theorem buildStages_ok_iff {env : BuildEnv D} {stages : List (Json D)} {key : String}
    {downstream : Option NodeId} {rt' : Runtime D} {ids : List NodeId} :
    outcome (buildStages env stages key downstream) rt = (.ok ids, rt') ↔
      ∃ bps, stageBlueprints env stages key = .ok bps ∧
        ids = (Blueprint.layoutStages downstream rt.nodes.length bps).2 ∧
        rt' = rt.install (Blueprint.layoutStages downstream rt.nodes.length bps).1 :=
  (realizes_buildStages env stages key downstream rt []).ok_iff

end

end TreeBuilder
end GmaEngine
