import GmaEngine.EffectPlans
import GmaEngine.TreeBuilder

/-!
# What a failed build leaves behind

A build registers listeners and starts timer threads while it reads the specification, last
pipeline stage first. The table of the Dispatcher and the threads own what was started, so
it stays when the build throws. The plan of a request lists its faults and its starts in the
order of the build; a failed build leaves nothing exactly when the plan begins with a fault.
-/

namespace GmaEngine.TreeBuilder
open EffectPlans

variable {D : Type}

section
variable [Double D]

mutual

def plan (env : BuildEnv D) (spec : Json D) (defaultStreamKey : String) : List (Event String) :=
  match nodeType spec with
  | .error message => [.fault message]
  | .ok .listener => faults (listenerKeys env spec defaultStreamKey) ++ [.start]
  | .ok .interval =>
    faults (intervalPeriod env spec) ++ (childPlan env spec defaultStreamKey ++ [.start])
  | .ok .bucketTime =>
    faults (bucketTimePeriod env spec) ++ (childPlan env spec defaultStreamKey ++ [.start])
  | .ok .tumblingWindow => faults (tumblingWindowPeriod env spec) ++ [.start]
  | .ok .vectorReducer => faults (reducerFromName env.functionMap spec)
  | .ok .atomicAccessor => faults (accessorKeys env spec defaultStreamKey)
  | .ok .worker => faults (fnFromName env.functionMap spec)
  | .ok .aggregate =>
    faults (aggregateArity spec) ++ match _h : spec.member "inputs" with
      | some (.array inputs) => inputsPlan env inputs defaultStreamKey ++
          faults («require» (!inputs.isEmpty) "Aggregate: empty 'inputs' array")
      | _ => [.fault "Aggregate: 'inputs' must be an array"]
  -- the child of a GroupSplit is built later, when values arrive
  | .ok .groupSplit => faults (groupSplitChild spec)
  | .ok .chain =>
    match _h : spec.member "stages" with
    | some (.array []) => [.fault "Chain: 'stages' must not be empty"]
    | some (.array (stage :: stages)) =>
      stagesPlan env stages defaultStreamKey ++ plan env stage defaultStreamKey
    | _ => [.fault "Chain: 'stages' must be an array"]
termination_by 2 * sizeOf spec + 1
decreasing_by
  · omega
  · omega
  · have hlt := Json.sizeOf_member_array _h
    omega
  all_goals
    have hlt := Json.sizeOf_member_cons _h
    omega

def childPlan (env : BuildEnv D) (spec : Json D) (defaultStreamKey : String) :
    List (Event String) :=
  match _h : spec.member "child" with
  | some child => plan env child defaultStreamKey
  | none => []
termination_by 2 * sizeOf spec
decreasing_by
  have hlt := Json.sizeOf_member _h
  omega

def inputsPlan (env : BuildEnv D) (inputs : List (Json D)) (defaultStreamKey : String) :
    List (Event String) :=
  match inputs with
  | [] => []
  | input :: inputs => plan env input defaultStreamKey ++ inputsPlan env inputs defaultStreamKey
termination_by 2 * sizeOf inputs
decreasing_by
  all_goals
    simp only [List.cons.sizeOf_spec]
    omega

/-- Last stage first. -/
def stagesPlan (env : BuildEnv D) (stages : List (Json D)) (defaultStreamKey : String) :
    List (Event String) :=
  match stages with
  | [] => []
  | stage :: stages => stagesPlan env stages defaultStreamKey ++ plan env stage defaultStreamKey
termination_by 2 * sizeOf stages
decreasing_by
  all_goals
    simp only [List.cons.sizeOf_spec]
    omega

end

/-- The plan of a request: its own checks, the specification under `node`, the pipeline, and
the head Listener. -/
def requestPlan (env : BuildEnv D) (requestJson : Json D) (terminal : Option NodeId) :
    List (Event String) :=
  match requestKeys requestJson, terminal with
  | .error message, _ => [.fault message]
  | .ok _, none => [.fault "buildForRequest: terminal node cannot be null"]
  | .ok (streamKey, field), some _ =>
    ((nodeOf requestJson).elim [] (plan env · streamKey)) ++
    (((pipelineOf requestJson).elim [] (stagesPlan env · streamKey)) ++
    (faults («require» (env.deps.dispatcher && env.deps.pool)
      "buildForRequest: missing dispatcher/pool") ++
    (faults (rejectPipelineOnly field) ++ [.start])))

end

/-- Nodes and listeners are only added at the end. -/
structure Grown (rt rt' : Runtime D) : Prop where
  nodes : rt.nodes <+: rt'.nodes
  listeners : ∀ symbol field, rt.listeners symbol field <+: rt'.listeners symbol field

/-- The listener table is what it was, and no timer thread of a new node runs. -/
def NothingLeft (rt rt' : Runtime D) : Prop :=
  rt'.listeners = rt.listeners ∧ ∀ id, rt.nodes.length ≤ id → ¬ rt'.Ticking id

theorem Grown.refl (rt : Runtime D) : Grown rt rt := ⟨List.prefix_rfl, fun _ _ => List.prefix_rfl⟩

theorem Grown.trans {a b c : Runtime D} (hab : Grown a b) (hbc : Grown b c) : Grown a c :=
  ⟨hab.nodes.trans hbc.nodes, fun s f => (hab.listeners s f).trans (hbc.listeners s f)⟩

theorem Grown.getElem? {a b : Runtime D} (h : Grown a b) {id : ℕ} (hid : id < a.nodes.length) :
    b.nodes[id]? = a.nodes[id]? := by
  obtain ⟨added, hadded⟩ := h.nodes
  rw [← hadded, List.getElem?_append_left hid]

theorem Grown.ticking_iff {a b : Runtime D} (h : Grown a b) {id : ℕ}
    (hid : id < a.nodes.length) : b.Ticking id ↔ a.Ticking id := by
  unfold Runtime.Ticking
  rw [h.getElem? hid]

theorem nothingLeft_refl (rt : Runtime D) : NothingLeft rt rt := by
  refine ⟨rfl, ?_⟩
  intro id hid htick
  have hlt := htick.lt
  omega

theorem nothingLeft_trans_iff {a b c : Runtime D} (hab : Grown a b) (hbc : Grown b c) :
    NothingLeft a c ↔ NothingLeft a b ∧ NothingLeft b c := by
  have hlen := hab.nodes.length_le
  constructor
  · rintro ⟨htable, hquiet⟩
    have hmid : b.listeners = a.listeners := by
      funext symbol field
      have hca : c.listeners symbol field = a.listeners symbol field := by rw [htable]
      have hba : (b.listeners symbol field).length ≤ (a.listeners symbol field).length := by
        rw [← hca]
        exact (hbc.listeners symbol field).length_le
      exact ((hab.listeners symbol field).eq_of_length_le hba).symm
    refine ⟨⟨hmid, ?_⟩, ⟨htable.trans hmid.symm, ?_⟩⟩
    · intro id hid htick
      exact hquiet id hid ((hbc.ticking_iff (htick.lt)).mpr htick)
    · intro id hid
      exact hquiet id (hlen.trans hid)
  · rintro ⟨⟨htable, hquiet⟩, ⟨htable', hquiet'⟩⟩
    refine ⟨htable'.trans htable, ?_⟩
    intro id hid htick
    rcases Nat.lt_or_ge id b.nodes.length with hlt | hge
    · exact hquiet id hid ((hbc.ticking_iff hlt).mp htick)
    · exact hquiet' id hge htick

def watch : Watch (Runtime D) where
  grown := Grown
  quiet := NothingLeft
  grown_refl := Grown.refl
  grown_trans := Grown.trans
  quiet_refl := nothingLeft_refl
  quiet_trans_iff := nothingLeft_trans_iff

theorem outcome_make (node : INode D) (rt : Runtime D) :
    outcome (make node) rt = (.ok rt.nodes.length, { rt with nodes := rt.nodes ++ [node] }) := rfl

theorem outcome_makeListener (symbol field : String) (downstream : Option NodeId)
    (rt : Runtime D) : outcome (makeListener symbol field downstream) rt =
      (.ok rt.nodes.length,
        Runtime.registerListener { rt with nodes := rt.nodes ++ [.listener symbol field downstream false] }
          symbol field rt.nodes.length) := rfl

theorem grown_make (node : INode D) (rt : Runtime D) :
    Grown rt { rt with nodes := rt.nodes ++ [node] } :=
  ⟨List.prefix_append _ _, fun _ _ => List.prefix_rfl⟩

theorem nothingLeft_make_iff (node : INode D) (rt : Runtime D) :
    NothingLeft rt { rt with nodes := rt.nodes ++ [node] } ↔ node.ticking = false := by
  constructor
  · intro h
    by_contra hne
    refine h.2 rt.nodes.length le_rfl ⟨node, ?_, by simpa using hne⟩
    simp
  · intro h
    refine ⟨rfl, ?_⟩
    rintro id hid ⟨other, hother, htick⟩
    have hlt := (List.getElem?_eq_some_iff.mp hother).1
    rw [List.length_append, List.length_singleton] at hlt
    have heq : id = rt.nodes.length := by omega
    subst heq
    have hnode : other = node := by simpa using hother.symm
    rw [hnode, h] at htick
    cases htick

theorem follows_make {node : INode D} (h : node.ticking = false) :
    Follows watch (make node) [] := by
  intro rt
  rw [outcome_make]
  exact ⟨grown_make node rt, rfl, by simpa [watch, h] using nothingLeft_make_iff node rt⟩

/-- Making a clock or a window starts its thread. -/
theorem follows_make_ticking {node : INode D} (h : node.ticking = true) :
    Follows watch (make node) [.start] := by
  intro rt
  rw [outcome_make]
  exact ⟨grown_make node rt, rfl, by simpa [watch, h] using nothingLeft_make_iff node rt⟩

theorem follows_makeListener (symbol field : String) (downstream : Option NodeId) :
    Follows (watch (D := D)) (makeListener symbol field downstream) [.start] := by
  intro rt
  rw [outcome_makeListener]
  refine ⟨⟨List.prefix_append _ _, ?_⟩, rfl, ?_⟩
  · intro s f
    rw [Runtime.listeners_registerListener]
    exact List.prefix_append _ _
  · refine iff_of_false ?_ (by simp)
    intro h
    have htable := congrFun (congrFun h.1 symbol) field
    simp [Runtime.listeners_registerListener] at htable

section
variable [Double D]

theorem buildChild_isSome {env : BuildEnv D} {spec : Json D} {key : String} {d : NodeId}
    {rt : Runtime D} {child : Option NodeId}
    (h : (outcome (buildChild env spec key (some d)) rt).1 = .ok child) : child.isSome := by
  rw [buildChild] at h
  split at h
  · obtain ⟨id, -, hid⟩ := outcome_bind_ok h
    cases hid
    rfl
  · cases h
    rfl

theorem buildInputs_length {env : BuildEnv D} {inputs : List (Json D)} {key : String}
    {agg : NodeId} {rt : Runtime D} {roots : List NodeId}
    (h : (outcome (buildInputs env inputs key agg) rt).1 = .ok roots) :
    roots.length = inputs.length := by
  induction inputs generalizing rt roots with
  | nil =>
    rw [buildInputs] at h
    cases h
    rfl
  | cons input inputs ih =>
    rw [buildInputs] at h
    obtain ⟨root, -, h⟩ := outcome_bind_ok h
    obtain ⟨rest, hrest, h⟩ := outcome_bind_ok h
    cases h
    simp [ih hrest]

omit [Double D] in
theorem head_or_some (below : List NodeId) (d : NodeId) :
    below.head?.or (some d) = some (below.head?.getD d) := by
  cases below <;> rfl

mutual

theorem follows_buildOne (env : BuildEnv D) (spec : Json D) (key : String) (d : NodeId) :
    Follows watch (buildOne env spec key (some d)) (plan env spec key) := by
  rw [buildOne, plan]
  cases ht : nodeType spec with
  | error message => exact Follows.throw message
  | ok t =>
    apply Follows.checked_ok
    cases t with
    | listener =>
      apply Follows.checked
      intro keys _
      exact follows_makeListener keys.1 keys.2 (some d)
    | interval =>
      apply Follows.checked
      intro ms _
      apply (follows_buildChild env spec key d).bind
      intro rt child hchild
      apply follows_make_ticking
      simpa [INode.ticking] using buildChild_isSome hchild
    | bucketTime =>
      apply Follows.checked
      intro ms _
      apply (follows_buildChild env spec key d).bind
      intro rt child hchild
      apply follows_make_ticking
      simpa [INode.ticking] using buildChild_isSome hchild
    | tumblingWindow =>
      apply Follows.checked
      intro ms _
      exact follows_make_ticking rfl
    | vectorReducer =>
      apply Follows.checked_quiet
      intro reducer _
      exact follows_make rfl
    | atomicAccessor =>
      apply Follows.checked_quiet
      intro keys _
      exact follows_make rfl
    | worker =>
      apply Follows.checked_quiet
      intro fn _
      exact follows_make rfl
    | aggregate =>
      apply Follows.checked
      intro arity _
      apply (follows_make rfl).bind_quiet
      intro rt agg _
      generalize hinputs : spec.member "inputs" = member
      cases member with
      | none => exact Follows.throw _
      | some value =>
        cases value with
        | array inputs =>
          have hlt := Json.sizeOf_member_array hinputs
          apply (follows_buildInputs env inputs key agg).bind
          intro rt roots hroots
          have hempty : roots.isEmpty = inputs.isEmpty := by
            have hlen := buildInputs_length hroots
            cases inputs <;> cases roots <;> simp_all
          rw [hempty]
          apply Follows.checked_quiet
          intro _ _
          exact follows_make rfl
        | _ => exact Follows.throw _
    | groupSplit =>
      apply Follows.checked_quiet
      intro child _
      exact follows_make rfl
    | chain =>
      generalize hstages : spec.member "stages" = member
      cases member with
      | none => exact Follows.throw _
      | some value =>
        cases value with
        | array elems =>
          cases elems with
          | nil => exact Follows.throw _
          | cons stage stages =>
            have hlt := Json.sizeOf_member_cons hstages
            apply (follows_buildStages env stages key d).bind
            intro rt below _
            rw [head_or_some]
            exact follows_buildOne env stage key (below.head?.getD d)
        | _ => exact Follows.throw _
termination_by 2 * sizeOf spec + 1
decreasing_by all_goals omega

theorem follows_buildChild (env : BuildEnv D) (spec : Json D) (key : String) (d : NodeId) :
    Follows watch (buildChild env spec key (some d)) (childPlan env spec key) := by
  rw [buildChild, childPlan]
  generalize hchild : spec.member "child" = member
  cases member with
  | none => exact Follows.pure _
  | some child =>
    have hlt := Json.sizeOf_member hchild
    exact (follows_buildOne env child key d).map some
termination_by 2 * sizeOf spec
decreasing_by omega

theorem follows_buildInputs (env : BuildEnv D) (inputs : List (Json D)) (key : String)
    (agg : NodeId) : Follows watch (buildInputs env inputs key agg) (inputsPlan env inputs key) := by
  cases inputs with
  | nil =>
    rw [buildInputs, inputsPlan]
    exact Follows.pure _
  | cons input inputs =>
    rw [buildInputs, inputsPlan]
    apply (follows_buildOne env input key agg).bind
    intro rt root _
    exact (follows_buildInputs env inputs key agg).map (root :: ·)
termination_by 2 * sizeOf inputs
decreasing_by
  all_goals
    simp only [List.cons.sizeOf_spec]
    omega

theorem follows_buildStages (env : BuildEnv D) (stages : List (Json D)) (key : String)
    (d : NodeId) :
    Follows watch (buildStages env stages key (some d)) (stagesPlan env stages key) := by
  cases stages with
  | nil =>
    rw [buildStages, stagesPlan]
    exact Follows.pure _
  | cons stage stages =>
    rw [buildStages, stagesPlan]
    apply (follows_buildStages env stages key d).bind
    intro rt below _
    rw [head_or_some]
    exact (follows_buildOne env stage key (below.head?.getD d)).map (· :: below)
termination_by 2 * sizeOf stages
decreasing_by
  all_goals
    simp only [List.cons.sizeOf_spec]
    omega

end

theorem follows_buildForRequest (env : BuildEnv D) (requestJson : Json D)
    (terminal : Option NodeId) : Follows watch (buildForRequest env requestJson terminal)
      (requestPlan env requestJson terminal) := by
  unfold buildForRequest requestPlan
  cases hkeys : requestKeys requestJson with
  | error message => exact Follows.throw message
  | ok keys =>
    apply Follows.checked_ok
    obtain ⟨streamKey, field⟩ := keys
    cases terminal with
    | none => exact Follows.throw _
    | some terminal =>
      apply (Follows.mapM (fun spec => follows_buildOne env spec streamKey terminal) _).bind
      intro rt node _
      apply (Follows.mapM (fun stages => follows_buildStages env stages streamKey terminal) _).bind
      intro rt stages _
      apply Follows.checked
      intro _ _
      exact (Follows.checked (fun _ _ => follows_makeListener streamKey field _)).map _

/-- A request leaves nothing behind when it fails, exactly when no listener and no timer of
its plan is started before the first fault. -/
theorem failed_build_leaves_nothing_iff (env : BuildEnv D) (requestJson : Json D)
    (terminal : Option NodeId) (rt : Runtime D) :
    (∀ message rt', (buildForRequest env requestJson terminal).run.run rt = (.error message, rt') →
      rt'.listeners = rt.listeners ∧ ∀ id, rt.nodes.length ≤ id → ¬ rt'.Ticking id) ↔
    ((requestPlan env requestJson terminal).head? = some .start →
      firstFault (requestPlan env requestJson terminal) = none) :=
  (follows_buildForRequest env requestJson terminal).quiet_of_throw_iff rt

end

/-- A pipeline whose last stage listens to the bid and whose first stage is a Worker without
a function. -/
def listenerThenFault : Json ExactDouble :=
  .object [("streamKey", .string "AAPL"), ("field", .string "lastPrice"),
    ("pipeline", .array [.object [("type", .string "Worker")],
      .object [("type", .string "Listener"), ("field", .string "bid")]])]

/-- All dependencies are there, and no function is registered. -/
def fullEnv : BuildEnv ExactDouble := ⟨⟨true, true, true⟩, false, ⟨fun _ => none, fun _ => none⟩⟩

/-- A runtime that holds the terminal only. -/
def terminalOnly : Runtime ExactDouble := { nodes := [.responder (.int 1) false] }

theorem failed_build_keeps_listener :
    ¬ ∀ (env : BuildEnv ExactDouble) (requestJson : Json ExactDouble) (terminal : Option NodeId)
      (rt : Runtime ExactDouble) (message : String) (rt' : Runtime ExactDouble),
      (buildForRequest env requestJson terminal).run.run rt = (.error message, rt') →
      rt'.listeners = rt.listeners ∧ ∀ id, rt.nodes.length ≤ id → ¬ rt'.Ticking id := by
  intro h
  have hthrow : ((buildForRequest fullEnv listenerThenFault (some 0)).run.run terminalOnly).1 =
      .error "Worker: missing 'fn'" := by decide +kernel
  have htable := (h fullEnv listenerThenFault (some 0) terminalOnly _ _ (Prod.ext hthrow rfl)).1
  have hleft : ((buildForRequest fullEnv listenerThenFault (some 0)).run.run terminalOnly).2.listeners
      "AAPL" "bid" = [1] := by decide +kernel
  rw [htable] at hleft
  cases hleft

end GmaEngine.TreeBuilder
