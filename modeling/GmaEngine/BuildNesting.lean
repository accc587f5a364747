import Mathlib.Data.List.Induction
import GmaEngine.CallLevels
import GmaEngine.PermittedSteps
import GmaEngine.ValidatorLimits

/-!
# How deep builds nest

`buildOne` calls itself for the stages of a Chain, the inputs of an Aggregate and the child of a
clock; the template of a GroupSplit is built by a later call. The validator bounds the depth of
objects, whatever members they are under, and so the calls that are inside one another.
-/

namespace GmaEngine

namespace TreeBuilder
variable {D : Type}

section
variable (call : Json D → String → Option NodeId → Build D NodeId)

def childWith (spec : Json D) (defaultStreamKey : String) (downstream : Option NodeId) :
    Build D (Option NodeId) :=
  match spec.member "child" with
  | some child => some <$> call child defaultStreamKey downstream
  | none => return downstream

def inputsWith (inputs : List (Json D)) (defaultStreamKey : String) (agg : NodeId) :
    Build D (List NodeId) :=
  match inputs with
  | [] => return []
  | input :: inputs => do
    let root ← call input defaultStreamKey agg
    let roots ← inputsWith inputs defaultStreamKey agg
    return root :: roots

def stagesWith (stages : List (Json D)) (defaultStreamKey : String) (downstream : Option NodeId) :
    Build D (List NodeId) :=
  match stages with
  | [] => return []
  | stage :: stages => do
    let below ← stagesWith stages defaultStreamKey downstream
    let node ← call stage defaultStreamKey (below.head?.or downstream)
    return node :: below

end

section
variable {call call' : Json D → String → Option NodeId → Build D NodeId}

theorem childWith_congr {spec : Json D}
    (h : ∀ child, spec.member "child" = some child → call child = call' child) (key : String)
    (downstream : Option NodeId) :
    childWith call spec key downstream = childWith call' spec key downstream := by
  unfold childWith
  cases hchild : spec.member "child" with
  | none => rfl
  | some child =>
    dsimp only
    rw [h child hchild]

theorem inputsWith_congr {inputs : List (Json D)} (h : ∀ input ∈ inputs, call input = call' input)
    (key : String) (agg : NodeId) :
    inputsWith call inputs key agg = inputsWith call' inputs key agg := by
  induction inputs with
  | nil => rfl
  | cons input inputs ih =>
    obtain ⟨hfirst, hrest⟩ := List.forall_mem_cons.mp h
    rw [inputsWith, inputsWith, hfirst, ih hrest]

theorem stagesWith_congr {stages : List (Json D)} (h : ∀ stage ∈ stages, call stage = call' stage)
    (key : String) (downstream : Option NodeId) :
    stagesWith call stages key downstream = stagesWith call' stages key downstream := by
  induction stages with
  | nil => rfl
  | cons stage stages ih =>
    obtain ⟨hfirst, hrest⟩ := List.forall_mem_cons.mp h
    rw [stagesWith, stagesWith, hfirst, ih hrest]

end

variable [Double D]

section
variable (env : BuildEnv D) (call : Json D → String → Option NodeId → Build D NodeId)

/-- The body of `buildOne`, with `call` for the calls of `buildOne` in it. -/
def buildWith (spec : Json D) (defaultStreamKey : String) (downstream : Option NodeId) :
    Build D NodeId := do
  match ← nodeType spec with
  | .listener =>
    let (symbol, field) ← listenerKeys env spec defaultStreamKey
    makeListener symbol field downstream
  | .interval =>
    let ms ← intervalPeriod env spec
    let child ← childWith call spec defaultStreamKey downstream
    make (.clock .interval ms child false)
  | .bucketTime =>
    let ms ← bucketTimePeriod env spec
    let child ← childWith call spec defaultStreamKey downstream
    make (.clock .bucketTime ms child false)
  | .tumblingWindow =>
    let ms ← tumblingWindowPeriod env spec
    make (.tumblingWindow ms downstream false [])
  | .vectorReducer =>
    let reducer ← reducerFromName env.functionMap spec
    make (.vectorReducer reducer downstream false)
  | .atomicAccessor =>
    let (symbol, field) ← accessorKeys env spec defaultStreamKey
    make (.atomicAccessor symbol field downstream false)
  | .worker =>
    let fn ← fnFromName env.functionMap spec
    make (.worker fn downstream false [])
  | .aggregate =>
    let arity ← aggregateArity spec
    let agg ← make (.aggregate arity downstream false [])
    match spec.member "inputs" with
    | some (.array inputs) =>
      let roots ← inputsWith call inputs defaultStreamKey agg
      «require» (!roots.isEmpty) "Aggregate: empty 'inputs' array"
      make (.compositeRoot (roots ++ [agg]))
    | _ => throw "Aggregate: 'inputs' must be an array"
  | .groupSplit =>
    let child ← groupSplitChild spec
    make (.groupSplit child defaultStreamKey downstream [])
  | .chain =>
    match spec.member "stages" with
    | some (.array []) => throw "Chain: 'stages' must not be empty"
    | some (.array (stage :: stages)) =>
      let below ← stagesWith call stages defaultStreamKey downstream
      call stage defaultStreamKey (below.head?.or downstream)
    | _ => throw "Chain: 'stages' must be an array"

/-- `buildForRequest`, with `call` for the calls of `buildOne`. -/
def buildForRequestWith (requestJson : Json D) (terminal : Option NodeId) :
    Build D BuiltChain := do
  let (streamKey, field) ← requestKeys requestJson
  let some terminal := terminal | throw "buildForRequest: terminal node cannot be null"
  let node ← (nodeOf requestJson).mapM (call · streamKey (some terminal))
  let stages ← (pipelineOf requestJson).mapM (stagesWith call · streamKey (some terminal))
  let midHead := match stages with
    | some stages => stages.head?.getD terminal
    | none => node.getD terminal
  «require» (env.deps.dispatcher && env.deps.pool) "buildForRequest: missing dispatcher/pool"
  let head ← createListener streamKey field (some midHead)
  return ⟨head, terminal :: node.toList ++ (stages.getD []).reverse⟩

end

theorem childWith_buildOne (env : BuildEnv D) (spec : Json D) (key : String)
    (downstream : Option NodeId) :
    childWith (buildOne env) spec key downstream = buildChild env spec key downstream := by
  rw [childWith, buildChild]
  generalize spec.member "child" = member
  cases member <;> rfl

theorem inputsWith_buildOne (env : BuildEnv D) (inputs : List (Json D)) (key : String)
    (agg : NodeId) :
    inputsWith (buildOne env) inputs key agg = buildInputs env inputs key agg := by
  induction inputs with
  | nil => rw [inputsWith, buildInputs]
  | cons input inputs ih => rw [inputsWith, buildInputs, ih]

theorem stagesWith_buildOne (env : BuildEnv D) (stages : List (Json D)) (key : String)
    (downstream : Option NodeId) :
    stagesWith (buildOne env) stages key downstream = buildStages env stages key downstream := by
  induction stages with
  | nil => rw [stagesWith, buildStages]
  | cons stage stages ih => rw [stagesWith, buildStages, ih]

theorem buildWith_buildOne (env : BuildEnv D) (spec : Json D) :
    buildOne env spec = buildWith env (buildOne env) spec := by
  funext key downstream
  rw [buildOne, buildWith]
  refine bind_congr fun t => ?_
  cases t with
  | interval => rw [childWith_buildOne]
  | bucketTime => rw [childWith_buildOne]
  | aggregate =>
    dsimp only
    refine bind_congr fun arity => bind_congr fun agg => ?_
    generalize spec.member "inputs" = member
    cases member with
    | none => rfl
    | some inputs =>
      cases inputs with
      | array inputs =>
        dsimp only
        rw [inputsWith_buildOne]
      | _ => rfl
  | chain =>
    dsimp only
    generalize spec.member "stages" = member
    cases member with
    | none => rfl
    | some stages =>
      cases stages with
      | array stages =>
        cases stages with
        | nil => rfl
        | cons stage stages =>
          dsimp only
          rw [stagesWith_buildOne]
      | _ => rfl
  | _ => rfl

/-- The specifications that a call of `buildOne` calls itself for. -/
inductive Calls (spec : Json D) : Json D → Prop
  | child {t child} (htype : nodeType spec = .ok t) (hclock : t.clock?.isSome = true)
      (hchild : spec.member "child" = some child) : Calls spec child
  | input {inputs input} (htype : nodeType spec = .ok .aggregate)
      (hinputs : spec.member "inputs" = some (.array inputs)) (hmem : input ∈ inputs) :
      Calls spec input
  | stage {stages stage} (htype : nodeType spec = .ok .chain)
      (hstages : spec.member "stages" = some (.array stages)) (hmem : stage ∈ stages) :
      Calls spec stage

omit [Double D] in
/-- A checked value is what the rest of the build goes on with. -/
theorem checked_bind {α β : Type} {check : Except String α} {a : α} (h : check = .ok a)
    (next : α → Build D β) : (liftM check : Build D α) >>= next = next a := by
  rw [h]
  rfl

theorem makes_buildWith (env : BuildEnv D) : CallLevels.Makes Calls (buildWith env) := by
  intro call call' spec h
  funext key downstream
  unfold buildWith
  cases htype : nodeType spec with
  | error message => rfl
  | ok t =>
    rw [checked_bind rfl, checked_bind rfl]
    cases t with
    | interval =>
      have hchild := childWith_congr (fun child => h child ∘ .child htype rfl) key downstream
      dsimp only
      rw [hchild]
    | bucketTime =>
      have hchild := childWith_congr (fun child => h child ∘ .child htype rfl) key downstream
      dsimp only
      rw [hchild]
    | aggregate =>
      dsimp only
      refine bind_congr fun arity => bind_congr fun agg => ?_
      cases hinputs : spec.member "inputs" with
      | none => rfl
      | some value =>
        cases value with
        | array inputs =>
          have hcall := inputsWith_congr (fun input => h input ∘ .input htype hinputs) key agg
          dsimp only
          rw [hcall]
        | _ => rfl
    | chain =>
      dsimp only
      cases hstages : spec.member "stages" with
      | none => rfl
      | some value =>
        cases value with
        | array stages =>
          cases stages with
          | nil => rfl
          | cons stage stages =>
            obtain ⟨hfirst, hrest⟩ := List.forall_mem_cons.mp
              (fun other => h other ∘ .stage htype hstages)
            dsimp only
            rw [stagesWith_congr hrest, hfirst]
        | _ => rfl
    | _ => rfl

end TreeBuilder

namespace JsonValidator
open TreeBuilder
variable {D : Type} {depth : ℕ} {spec : Json D}

/-- If it is an object, the validator has passed it below `depth` objects. -/
def Validated (depth : ℕ) (spec : Json D) : Prop :=
  spec.isObject = true → validateTree spec depth = .ok ()

theorem PassedAlone.validated (h : PassedAlone depth spec) : Validated depth spec := by
  intro hobject
  cases spec with
  | object members => exact h
  | _ => cases hobject

theorem Passed.validated (h : Passed depth spec) : Validated depth spec := by
  intro hobject
  cases spec with
  | object members => exact h
  | _ => cases hobject

/-- What is under a member of a specification has passed, one object deeper. -/
theorem Validated.member {t : NodeType} {key : String} {value : Json D}
    (h : Validated depth spec) (htype : nodeType spec = .ok t)
    (hvalue : spec.member key = some value) :
    depth ≤ maxTreeDepth ∧ Passed (depth + 1) value := by
  obtain ⟨_, hobject, -⟩ := bind_eq_ok htype
  have hspec := ok_of_require hobject
  cases spec with
  | object members =>
    obtain ⟨hdepth, hmembers, -⟩ := passed_of_validateTree (h hspec)
    obtain ⟨m, hm, rfl⟩ := Option.map_eq_some_iff.mp hvalue
    exact ⟨hdepth, hmembers m (List.mem_of_find?_eq_some hm)⟩
  | _ => cases hspec

theorem Validated.element {t : NodeType} {key : String} {elems : List (Json D)}
    (h : Validated depth spec) (htype : nodeType spec = .ok t)
    (hvalue : spec.member key = some (.array elems)) :
    depth ≤ maxTreeDepth ∧ ∀ elem ∈ elems, Validated (depth + 1) elem := by
  obtain ⟨hdepth, -, helems⟩ := h.member htype hvalue
  exact ⟨hdepth, fun elem helem => (helems elem helem).validated⟩

theorem Validated.calls {sub : Json D} (h : Validated depth spec) (hcall : Calls spec sub) :
    depth ≤ maxTreeDepth ∧ Validated (depth + 1) sub := by
  cases hcall with
  | child htype _ hchild =>
    obtain ⟨hdepth, hpassed⟩ := h.member htype hchild
    exact ⟨hdepth, hpassed.validated⟩
  | input htype hinputs hmem =>
    obtain ⟨hdepth, helems⟩ := h.element htype hinputs
    exact ⟨hdepth, helems _ hmem⟩
  | stage htype hstages hmem =>
    obtain ⟨hdepth, helems⟩ := h.element htype hstages
    exact ⟨hdepth, helems _ hmem⟩

/-- An object may be `MAX_TREE_DEPTH` deep, and what is no object is one more call, which throws. -/
theorem Validated.shallow {n : ℕ} (h : Validated depth spec)
    (hn : maxTreeDepth + 2 ≤ n + 1 + depth) : CallLevels.Shallow Calls (n + 1) spec := by
  induction n generalizing depth spec with
  | zero =>
    refine .intro fun sub hsub => ?_
    have hdepth := (h.calls hsub).1
    omega
  | succ n ih =>
    refine .intro fun sub hsub => ih (h.calls hsub).2 ?_
    omega

theorem validated_of_validateAll {elems : List (Json D)}
    (h : ClientSession.validateAll elems = .ok ()) : ∀ elem ∈ elems, Validated 0 elem := by
  induction elems with
  | nil => exact nofun
  | cons first elems ih =>
    rw [ClientSession.validateAll] at h
    have hboth : Validated 0 first ∧ ClientSession.validateAll elems = .ok () := by
      by_cases hobject : first.isObject = true
      · rw [if_pos hobject] at h
        obtain ⟨_, hfirst, hrest⟩ := bind_eq_ok h
        exact ⟨fun _ => hfirst, hrest⟩
      · rw [if_neg hobject] at h
        exact ⟨fun hfirst => absurd hfirst hobject, h⟩
    exact List.forall_mem_cons.mpr ⟨hboth.1, ih hboth.2⟩

end JsonValidator

namespace ClientSession
open TreeBuilder JsonValidator
variable {D : Type} {r : Json D} {streamKey field : String}

theorem member_requestFor :
    (requestFor r streamKey field).member "node" = nodeOf r ∧
    (requestFor r streamKey field).member "pipeline" = (r.member "pipeline").filter Json.isArray ∧
    (requestFor r streamKey field).member "stages" = (r.member "stages").filter Json.isArray := by
  unfold requestFor
  cases (r.member "pipeline").filter Json.isArray <;>
    cases (r.member "stages").filter Json.isArray <;>
    cases nodeOf r <;> simp [Json.member]

theorem elemsOf_filter (value : Option (Json D)) :
    elemsOf (value.filter Json.isArray) = elemsOf value := by
  cases value with
  | none => rfl
  | some v => cases v <;> rfl

/-- The builder finds no specification that was not validated. -/
theorem validated_requestFor (h : validateSpecs r = .ok ()) :
    ∀ spec ∈ (nodeOf (requestFor r streamKey field)).toList ++
      (pipelineOf (requestFor r streamKey field)).getD [], Validated 0 spec := by
  obtain ⟨_, hpipeline, h⟩ := bind_eq_ok h
  obtain ⟨_, hstages, hnode⟩ := bind_eq_ok h
  obtain ⟨hnodeOf, hpipe, hstage⟩ := @member_requestFor D r streamKey field
  intro spec hspec
  obtain hspec | hspec := List.mem_append.mp hspec
  · refine validated_of_validateAll hnode spec ?_
    rw [nodeOf, hnodeOf] at hspec
    simpa [nodeOf] using hspec
  · have helems : spec ∈ elemsOf (r.member "pipeline") ∨ spec ∈ elemsOf (r.member "stages") := by
      rw [pipelineOf, hpipe, hstage] at hspec
      rw [← elemsOf_filter (r.member "pipeline"), ← elemsOf_filter (r.member "stages")]
      split at hspec
      case h_1 stages hfound =>
        left
        rw [hfound]
        exact hspec
      case h_2 stages hfound _ =>
        right
        rw [hfound]
        exact hspec
      case h_3 => cases hspec
    obtain hmem | hmem := helems
    · exact validated_of_validateAll hpipeline spec hmem
    · exact validated_of_validateAll hstages spec hmem

/-- A check that throws has not thrown. -/
theorem ok_of_guard {ε α : Type} {condition : Bool} {e : ε} {next : Unit → Except ε α} {a : α}
    (h : (if condition = true then throw e >>= next else next ()) = .ok a) : next () = .ok a := by
  cases condition with
  | true => cases h
  | false => exact h

theorem requestFor_of_parseRequest {key : RequestKey} {rq : Json D}
    (h : parseRequest r = .ok (key, rq)) :
    validateSpecs r = .ok () ∧ ∃ streamKey field, rq = requestFor r streamKey field := by
  unfold parseRequest at h
  have hparts := ok_of_guard (ok_of_guard h)
  split at hparts
  case h_4 streamKey field _ _ _ =>
    have hvalidated := ok_of_guard (ok_of_guard hparts)
    cases hvalid : validateSpecs r with
    | error message =>
      rw [hvalid] at hvalidated
      cases hvalidated
    | ok _ =>
      rw [hvalid] at hvalidated
      cases hvalidated
      exact ⟨rfl, streamKey, field, rfl⟩
  all_goals cases hparts

end ClientSession

namespace TreeBuilder
open JsonValidator
variable {D : Type}

/-- The template of a GroupSplit is part of a validated specification. -/
def validatedTemplate : NodeCore D → Prop
  | .groupSplit childDoc _ => ∃ depth, Validated depth childDoc
  | _ => True

theorem permits_validated (env : BuildEnv D) :
    Permits env validatedTemplate (fun spec => ∃ depth, Validated depth spec) where
  other := trivial
  listener _ _ _ _ _ _ _ := trivial
  groupSplit spec child _ hspec htype hchild := by
    obtain ⟨depth, hvalid⟩ := hspec
    exact ⟨depth + 1, (hvalid.member htype hchild).2.validated⟩
  child spec child t hspec htype hclock hchild := by
    obtain ⟨depth, hvalid⟩ := hspec
    exact ⟨depth + 1, (hvalid.calls (.child htype hclock hchild)).2⟩
  inputs spec inputs hspec htype hinputs input hmem := by
    obtain ⟨depth, hvalid⟩ := hspec
    exact ⟨depth + 1, (hvalid.calls (.input htype hinputs hmem)).2⟩
  stages spec stages hspec htype hstages stage hmem := by
    obtain ⟨depth, hvalid⟩ := hspec
    exact ⟨depth + 1, (hvalid.calls (.stage htype hstages hmem)).2⟩
  template _ _ h := h

variable [Double D]

theorem asks_validated (env : BuildEnv D) {r : Json D} {streamKey field : String}
    (h : ClientSession.validateSpecs r = .ok ()) :
    Asks env validatedTemplate (ClientSession.requestFor r streamKey field) := by
  refine asks_request (permits_validated env) (fun _ => trivial) ?_ (fun _ _ _ => trivial)
  exact fun spec hspec => ⟨0, ClientSession.validated_requestFor h spec hspec⟩

/-- `buildOne` with room for `limit` calls inside one another; a deeper call is `overflow`. -/
def buildWithin (env : BuildEnv D) (overflow : Json D → String → Option NodeId → Build D NodeId)
    (limit : ℕ) : Json D → String → Option NodeId → Build D NodeId :=
  CallLevels.level (buildWith env) overflow limit

/-- A validated specification is built in `MAX_TREE_DEPTH + 2` calls inside one another. -/
theorem buildWithin_eq (env : BuildEnv D)
    (overflow : Json D → String → Option NodeId → Build D NodeId) {depth : ℕ} {spec : Json D}
    (h : Validated depth spec) :
    buildWithin env overflow (maxTreeDepth + 2) spec = buildOne env spec := by
  have hshallow : CallLevels.Shallow Calls (maxTreeDepth + 2) spec := h.shallow (by omega)
  exact hshallow.level_eq (makes_buildWith env) (buildWith_buildOne env) overflow

theorem buildForRequestWith_eq (env : BuildEnv D)
    {call : Json D → String → Option NodeId → Build D NodeId} {rq : Json D}
    (h : ∀ spec ∈ (nodeOf rq).toList ++ (pipelineOf rq).getD [], call spec = buildOne env spec)
    (terminal : Option NodeId) :
    buildForRequestWith env call rq terminal = buildForRequest env rq terminal := by
  have hnode (streamKey : String) (downstream : Option NodeId) :
      (nodeOf rq).mapM (call · streamKey downstream) =
        (nodeOf rq).mapM (buildOne env · streamKey downstream) := by
    cases hspec : nodeOf rq with
    | none => rfl
    | some spec =>
      rw [Option.mapM_some, Option.mapM_some, h spec (by simp [hspec])]
  have hstages (streamKey : String) (downstream : Option NodeId) :
      (pipelineOf rq).mapM (stagesWith call · streamKey downstream) =
        (pipelineOf rq).mapM (buildStages env · streamKey downstream) := by
    cases hlist : pipelineOf rq with
    | none => rfl
    | some stages =>
      have hall : ∀ stage ∈ stages, call stage = buildOne env stage :=
        fun stage hmem => h stage (by simp [hlist, hmem])
      rw [Option.mapM_some, Option.mapM_some, stagesWith_congr hall, stagesWith_buildOne]
  unfold buildForRequestWith buildForRequest
  refine bind_congr fun keys => ?_
  cases terminal with
  | none => rfl
  | some terminal =>
    refine (congrArg (· >>= _) (hnode keys.1 (some terminal))).trans (bind_congr fun node => ?_)
    exact congrArg (· >>= _) (hstages keys.1 (some terminal))

end TreeBuilder

namespace System
open TreeBuilder
variable {D : Type} [Double D]

omit [Double D] in
theorem parsed_of_buildingOf {s : System D} {r rq : Json D} (h : s.buildingOf r = some rq) :
    ∃ key, ClientSession.parseRequest r = .ok (key, rq) := by
  unfold buildingOf at h
  cases hparse : ClientSession.parseRequest r with
  | error e =>
    rw [hparse] at h
    cases h
  | ok parsed =>
    obtain ⟨key, rq'⟩ := parsed
    rw [hparse] at h
    dsimp only at h
    obtain ⟨-, hsome⟩ := Option.ite_none_left_eq_some.mp h
    cases hsome
    exact ⟨key, rfl⟩

omit [Double D] in
theorem parsed_of_building {s : System D} {rq : Json D} (h : s.building = some rq) :
    ∃ r key, ClientSession.parseRequest r = .ok (key, rq) := by
  unfold building at h
  split at h
  case h_1 r _ _ _ => exact ⟨r, parsed_of_buildingOf h⟩
  case h_2 => cases h

theorem validated_step (env : SessionEnv D) (action : Action D) {s : System D}
    (h : s.rt.TemplatesOk (fun spec => ∃ depth, JsonValidator.Validated depth spec)) :
    (s.step env action).rt.TemplatesOk
      (fun spec => ∃ depth, JsonValidator.Validated depth spec) := by
  refine h.step (fun _ _ h => h) (heapStep_step env (permits_validated env.build) h ?_)
  intro allowed _ rq hrq
  obtain ⟨r, key, hparse⟩ := parsed_of_building hrq
  obtain ⟨hvalid, streamKey, field, rfl⟩ := ClientSession.requestFor_of_parseRequest hparse
  exact asks_validated env.build hvalid

/-- Every template there ever is in the heap of a session is part of a validated specification. -/
theorem validated_templates (env : SessionEnv D) (actions : List (Action D)) :
    (run env {} actions).rt.TemplatesOk
      (fun spec => ∃ depth, JsonValidator.Validated depth spec) := by
  induction actions using List.reverseRecOn with
  | nil => exact Runtime.templatesOk_empty
  | append_singleton actions action ih =>
    have hrun : run env {} (actions ++ [action]) = (run env {} actions).step env action :=
      List.foldl_concat ..
    rw [hrun]
    exact validated_step env action ih

/-- With room for `MAX_TREE_DEPTH + 2` calls of `buildOne` inside one another a request that passes
the checks is built as without a limit, and so is every template there ever is in the heap of a
session. Whatever a deeper call would do, it is not made. -/
theorem build_nesting_bounded (env : SessionEnv D)
    (overflow : Json D → String → Option NodeId → Build D NodeId) :
    (∀ (r : Json D) (streamKey field : String) (terminal : Option NodeId),
      ClientSession.validateSpecs r = .ok () →
        buildForRequestWith env.build
            (buildWithin env.build overflow (JsonValidator.maxTreeDepth + 2))
            (ClientSession.requestFor r streamKey field) terminal =
          buildForRequest env.build (ClientSession.requestFor r streamKey field) terminal) ∧
    (∀ (actions : List (Action D)) (id : ℕ) childDoc defaultStreamKey downstream children,
      (run env {} actions).rt.nodes[id]? =
          some (.groupSplit childDoc defaultStreamKey downstream children) →
        ∀ symbol, buildWithin env.build overflow (JsonValidator.maxTreeDepth + 2)
            childDoc symbol downstream =
          buildOne env.build childDoc symbol downstream) := by
  constructor
  · intro r streamKey field terminal hvalid
    refine buildForRequestWith_eq env.build (fun spec hspec => ?_) terminal
    exact buildWithin_eq env.build overflow (ClientSession.validated_requestFor hvalid spec hspec)
  · intro actions id childDoc defaultStreamKey downstream children hnode symbol
    obtain ⟨depth, hvalid⟩ :=
      validated_templates env actions id _ childDoc defaultStreamKey hnode rfl
    rw [buildWithin_eq env.build overflow hvalid]

def bidAccessor : Json ExactDouble :=
  .object [("type", .string "AtomicAccessor"), ("field", .string "bid")]

/-- An Interval within a Chain. -/
def timedChain : Json ExactDouble :=
  .object [("type", .string "Chain"), ("stages", .array [.object [("type", .string "Interval"),
    ("ms", oneSecond), ("child", bidAccessor)], bidAccessor])]

/-- A GroupSplit whose template is this Chain, and the Chain itself. -/
def nestedRequest : Json ExactDouble :=
  .object [("key", keyOne), ("streamKey", .string "AAPL"), ("field", .string "lastPrice"),
    ("pipeline", .array [.object [("type", .string "GroupSplit"), ("child", timedChain)],
      timedChain])]

def subscribeNested : List (Action ExactDouble) :=
  [Action.receive (some (.object [("type", .string "subscribe"),
    ("requests", .array [nestedRequest])])), .strand true, .strand true]

/-- A call that is too deep. -/
def tooDeep (_ : Json ExactDouble) (_ : String) (_ : Option NodeId) : Build ExactDouble NodeId :=
  throw "too deep"

def isGroupSplit : INode ExactDouble → Bool
  | .groupSplit _ _ _ _ => true
  | _ => false

theorem build_nesting_bounded_nested :
    buildForRequestWith fullSessionEnv.build
        (buildWithin fullSessionEnv.build tooDeep (JsonValidator.maxTreeDepth + 2))
        (ClientSession.requestFor nestedRequest "AAPL" "lastPrice") (some 0) =
      buildForRequest fullSessionEnv.build
        (ClientSession.requestFor nestedRequest "AAPL" "lastPrice") (some 0) ∧
    ∃ (id : ℕ) (childDoc : Json ExactDouble) (defaultStreamKey : String)
        (downstream : Option NodeId) (children : List (String × NodeId)),
      (run fullSessionEnv {} subscribeNested).rt.nodes[id]? =
        some (.groupSplit childDoc defaultStreamKey downstream children) ∧
      buildWithin fullSessionEnv.build tooDeep (JsonValidator.maxTreeDepth + 2) childDoc "MSFT"
          downstream =
        buildOne fullSessionEnv.build childDoc "MSFT" downstream := by
  obtain ⟨hrequest, htemplate⟩ := build_nesting_bounded fullSessionEnv tooDeep
  constructor
  · have hok : (ClientSession.validateSpecs nestedRequest).isOk = true := by decide +kernel
    refine hrequest nestedRequest "AAPL" "lastPrice" (some 0) ?_
    cases hvalid : ClientSession.validateSpecs nestedRequest with
    | ok _ => rfl
    | error message =>
      rw [hvalid] at hok
      cases hok
  · have hsplit : ((run fullSessionEnv {} subscribeNested).rt.nodes.find? isGroupSplit).isSome =
        true := by decide +kernel
    obtain ⟨node, hnode⟩ := Option.isSome_iff_exists.mp hsplit
    obtain ⟨id, hid⟩ := List.getElem?_of_mem (List.mem_of_find?_eq_some hnode)
    have hgroup := List.find?_some hnode
    cases node with
    | groupSplit childDoc defaultStreamKey downstream children =>
      exact ⟨id, childDoc, defaultStreamKey, downstream, children, hid,
        htemplate subscribeNested id _ _ _ _ hid "MSFT"⟩
    | _ => cases hgroup

end System
end GmaEngine
