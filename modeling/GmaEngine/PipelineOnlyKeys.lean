import GmaEngine.GuardedRuns
import GmaEngine.PermittedSteps

/-!
# Pipeline-only keys

`ob.*` keys are not for Listeners: their values never reach the Dispatcher's listeners. The head
of a request is checked for them, a Listener that a specification asks for is not. Listeners
stand at any depth of a specification, and below a GroupSplit they are made later, by a value.
-/

namespace GmaEngine

namespace TreeBuilder
variable {D : Type}

mutual

/-- The fields of the Listeners that a specification asks for. -/
def listenerFields (spec : Json D) : List String :=
  match nodeType spec with
  | .ok .listener => [strOr spec "field" ""]
  | .ok .interval => childFields spec
  | .ok .bucketTime => childFields spec
  | .ok .groupSplit => childFields spec
  | .ok .aggregate =>
    match _h : spec.member "inputs" with
    | some (.array inputs) => listenerFieldsOf inputs
    | _ => []
  | .ok .chain =>
    match _h : spec.member "stages" with
    | some (.array stages) => listenerFieldsOf stages
    | _ => []
  | _ => []
termination_by 2 * sizeOf spec + 1
decreasing_by
  · omega
  · omega
  · omega
  all_goals
    have hlt := Json.sizeOf_member_array _h
    omega

def childFields (spec : Json D) : List String :=
  match _h : spec.member "child" with
  | some child => listenerFields child
  | none => []
termination_by 2 * sizeOf spec
decreasing_by
  have hlt := Json.sizeOf_member _h
  omega

def listenerFieldsOf (specs : List (Json D)) : List String :=
  match specs with
  | [] => []
  | spec :: specs => listenerFields spec ++ listenerFieldsOf specs
termination_by 2 * sizeOf specs
decreasing_by
  all_goals
    simp only [List.cons.sizeOf_spec]
    omega

end

/-- No Listener of the specification has a pipeline-only field. -/
def subscribable (spec : Json D) : Bool := (listenerFields spec).all (fun f => !isPipelineOnlyKey f)

/-- The same of the specifications of a request. -/
def subscribableRequest (rq : Json D) : Bool :=
  ((nodeOf rq).toList ++ (pipelineOf rq).getD []).all subscribable

theorem listenerFieldsOf_eq (specs : List (Json D)) :
    listenerFieldsOf specs = specs.flatMap listenerFields := by
  induction specs with
  | nil =>
    rw [listenerFieldsOf]
    rfl
  | cons spec specs ih => rw [listenerFieldsOf, ih, List.flatMap_cons]

theorem childFields_eq {spec child : Json D} (h : spec.member "child" = some child) :
    childFields spec = listenerFields child := by
  rw [childFields]
  generalize hmember : spec.member "child" = member
  rw [hmember] at h
  cases h
  rfl

theorem subscribable_of_subset {spec part : Json D}
    (hsub : listenerFields part ⊆ listenerFields spec) (h : subscribable spec = true) :
    subscribable part = true := by
  unfold subscribable at h ⊢
  rw [List.all_eq_true] at h ⊢
  exact fun f hf => h f (hsub hf)

theorem listenerFields_child {spec child : Json D} {t : NodeType} (ht : nodeType spec = .ok t)
    (hkind : t.clock?.isSome = true ∨ t = .groupSplit) (hchild : spec.member "child" = some child) :
    listenerFields child ⊆ listenerFields spec := by
  rw [← childFields_eq hchild, listenerFields.eq_def spec, ht]
  cases t with
  | interval => exact List.Subset.refl _
  | bucketTime => exact List.Subset.refl _
  | groupSplit => exact List.Subset.refl _
  | _ => rcases hkind with hclock | hsplit <;> contradiction

theorem listenerFields_inputs {spec input : Json D} {inputs : List (Json D)}
    (ht : nodeType spec = .ok .aggregate) (hinputs : spec.member "inputs" = some (.array inputs))
    (hmem : input ∈ inputs) : listenerFields input ⊆ listenerFields spec := by
  rw [listenerFields.eq_def spec, ht]
  dsimp only
  generalize hmember : spec.member "inputs" = member
  rw [hmember] at hinputs
  cases hinputs
  dsimp only
  rw [listenerFieldsOf_eq]
  exact fun f hf => List.mem_flatMap.mpr ⟨_, hmem, hf⟩

theorem listenerFields_stages {spec stage : Json D} {stages : List (Json D)}
    (ht : nodeType spec = .ok .chain) (hstages : spec.member "stages" = some (.array stages))
    (hmem : stage ∈ stages) : listenerFields stage ⊆ listenerFields spec := by
  rw [listenerFields.eq_def spec, ht]
  dsimp only
  generalize hmember : spec.member "stages" = member
  rw [hmember] at hstages
  cases hstages
  dsimp only
  rw [listenerFieldsOf_eq]
  exact fun f hf => List.mem_flatMap.mpr ⟨_, hmem, hf⟩

/-- What may be made: no Listener of a pipeline-only field, now or from a template. -/
def subscribableCore : NodeCore D → Prop
  | .listener _ field => isPipelineOnlyKey field = false
  | .groupSplit childDoc _ => subscribable childDoc = true
  | _ => True

theorem field_of_listenerKeys {env : BuildEnv D} {spec : Json D} {key symbol field : String}
    (h : listenerKeys env spec key = .ok (symbol, field)) : field = strOr spec "field" "" := by
  unfold listenerKeys at h
  obtain ⟨-, -, h⟩ := bind_eq_ok h
  obtain ⟨-, -, h⟩ := bind_eq_ok h
  obtain ⟨-, -, h⟩ := bind_eq_ok h
  cases h
  rfl

theorem permits_subscribable (env : BuildEnv D) :
    Permits env subscribableCore (fun spec => subscribable spec = true) where
  other := trivial
  listener spec key symbol field hspec ht hkeys := by
    unfold subscribable at hspec
    rw [listenerFields.eq_def, ht] at hspec
    rw [field_of_listenerKeys hkeys]
    simpa [subscribableCore] using hspec
  groupSplit spec child _ hspec ht hchild :=
    subscribable_of_subset (listenerFields_child ht (.inr rfl) hchild) hspec
  child spec child _ hspec ht hclock hchild :=
    subscribable_of_subset (listenerFields_child ht (.inl hclock) hchild) hspec
  inputs _ _ hspec ht hinputs _ hmem :=
    subscribable_of_subset (listenerFields_inputs ht hinputs hmem) hspec
  stages _ _ hspec ht hstages _ hmem :=
    subscribable_of_subset (listenerFields_stages ht hstages hmem) hspec
  template _ _ h := h

theorem asks_subscribable [Double D] (env : BuildEnv D) {rq : Json D}
    (h : subscribableRequest rq = true) : Asks env subscribableCore rq := by
  refine asks_request (permits_subscribable env) (fun _ => trivial) ?_ (fun _ _ hkey => hkey)
  unfold subscribableRequest at h
  rw [List.all_eq_true] at h
  exact h

end TreeBuilder

namespace Runtime
variable {D : Type} {rt rt' : Runtime D}

/-- No pipeline-only key has a listener, and no template asks for one. -/
structure Clean (rt : Runtime D) : Prop where
  listeners : ∀ symbol field, TreeBuilder.isPipelineOnlyKey field = true →
    rt.listeners symbol field = []
  templates : rt.TemplatesOk (fun spec => TreeBuilder.subscribable spec = true)

theorem clean_empty : Clean ({} : Runtime D) := ⟨fun _ _ _ => rfl, templatesOk_empty⟩

theorem Clean.step (h : rt.Clean) (hstep : HeapStep TreeBuilder.subscribableCore rt rt') :
    rt'.Clean := by
  refine ⟨?_, h.templates.step (fun _ _ hchild => hchild) hstep⟩
  intro symbol field hkey
  apply List.eq_nil_iff_forall_not_mem.mpr
  intro id hid
  rcases hstep.listed symbol field id hid with hold | hnew
  · rw [h.listeners symbol field hkey] at hold
    cases hold
  · exact Bool.false_ne_true (hnew.symm.trans hkey)

end Runtime

namespace System
variable {D : Type}

/-- A request that the action hands to the builder asks for no such Listener. -/
def asksSubscribable (s : System D) : Action D → Bool
  | .strand _ => s.building.all TreeBuilder.subscribableRequest
  | _ => true

variable [Double D]

/-- Every request that is built on the way asks for no Listener of a pipeline-only field. -/
def buildsSubscribable (env : SessionEnv D) : System D → List (Action D) → Bool :=
  GuardedRuns.along (step env) asksSubscribable

theorem clean_step (env : SessionEnv D) (s : System D) (action : Action D) (h : s.rt.Clean)
    (hasks : s.asksSubscribable action = true) : (s.step env action).rt.Clean := by
  refine h.step (heapStep_step env (TreeBuilder.permits_subscribable env.build) h.templates ?_)
  rintro allowed rfl rq hrq
  exact TreeBuilder.asks_subscribable env.build ((Option.all_eq_true _ _).mp hasks rq hrq)

end System

namespace Bridge
variable {D : Type}

/-- A request that the action hands to the builder asks for no such Listener. -/
def asksSubscribable (b : Bridge D) : BridgeAction D → Bool
  | .serve => b.building.all TreeBuilder.subscribableRequest
  | _ => true

variable [Double D]

/-- Every request that is built on the way asks for no Listener of a pipeline-only field. -/
def buildsSubscribable (env : BuildEnv D) : Bridge D → List (BridgeAction D) → Bool :=
  GuardedRuns.along (step env) asksSubscribable

theorem clean_step (env : BuildEnv D) (b : Bridge D) (action : BridgeAction D) (h : b.rt.Clean)
    (hasks : b.asksSubscribable action = true) : (b.step env action).rt.Clean := by
  refine h.step (heapStep_step env (TreeBuilder.permits_subscribable env) h.templates ?_)
  rintro rfl rq hrq
  exact TreeBuilder.asks_subscribable env ((Option.all_eq_true _ _).mp hasks rq hrq)

end Bridge

/-- A session, or a bridge, whose requests ask for no such Listener never registers one. -/
theorem pipeline_only_key_has_no_listener {D : Type} [Double D] :
    (∀ (env : SessionEnv D) (actions : List (Action D)),
      System.buildsSubscribable env {} actions = true →
      ∀ symbol field, TreeBuilder.isPipelineOnlyKey field = true →
        (System.run env {} actions).rt.listeners symbol field = []) ∧
    (∀ (env : BuildEnv D) (actions : List (BridgeAction D)),
      Bridge.buildsSubscribable env {} actions = true →
      ∀ symbol field, TreeBuilder.isPipelineOnlyKey field = true →
        (Bridge.run env {} actions).rt.listeners symbol field = []) := by
  constructor
  · intro env actions hbuilds
    have hclean : (System.run env {} actions).rt.Clean :=
      GuardedRuns.invariant_foldl (System.clean_step env) Runtime.clean_empty hbuilds
    exact hclean.listeners
  · intro env actions hbuilds
    have hclean : (Bridge.run env {} actions).rt.Clean :=
      GuardedRuns.invariant_foldl (Bridge.clean_step env) Runtime.clean_empty hbuilds
    exact hclean.listeners

/-- A pipeline of one Listener. -/
def listenTo (field : String) : List (Json ExactDouble) :=
  [.object [("type", .string "Listener"), ("field", .string field)]]

/-- A client of a session subscribes with such a pipeline. -/
def sessionListens (field : String) : List (Action ExactDouble) :=
  .receive (some (System.subscribeTo (listenTo field))) :: List.replicate 3 (.strand true)

/-- A client of the bridge does. -/
def bridgeListens (field : String) : List (BridgeAction ExactDouble) :=
  [.call (.onOpen "c" true),
    .call (.onMessage "c" (some (.object [("type", .string "subscribe"), ("requests", .array [
      .object [("id", .string "1"), ("streamKey", .string "AAPL"), ("field", .string "lastPrice"),
        ("pipeline", .array (listenTo field))]])]))),
    .serve, .serve, .serve]

theorem plain_keys_have_listeners :
    (System.buildsSubscribable System.fullSessionEnv {} (sessionListens "bid") = true ∧
      (System.run System.fullSessionEnv {} (sessionListens "bid")).rt.listeners "AAPL" "bid" = [1] ∧
      (System.run System.fullSessionEnv {} (sessionListens "bid")).rt.listeners "AAPL" "ob.mid" =
        []) ∧
    (Bridge.buildsSubscribable TreeBuilder.fullEnv {} (bridgeListens "bid") = true ∧
      (Bridge.run TreeBuilder.fullEnv {} (bridgeListens "bid")).rt.listeners "AAPL" "bid" = [1] ∧
      (Bridge.run TreeBuilder.fullEnv {} (bridgeListens "bid")).rt.listeners "AAPL" "ob.mid" =
        []) := by
  have hkey : TreeBuilder.isPipelineOnlyKey "ob.mid" = true := by decide +kernel
  have hsession : System.buildsSubscribable System.fullSessionEnv {} (sessionListens "bid") =
      true := by decide +kernel
  have hbridge : Bridge.buildsSubscribable TreeBuilder.fullEnv {} (bridgeListens "bid") = true := by
    decide +kernel
  refine ⟨⟨hsession, by decide +kernel, ?_⟩, hbridge, by decide +kernel, ?_⟩
  · exact pipeline_only_key_has_no_listener.1 _ _ hsession "AAPL" "ob.mid" hkey
  · exact pipeline_only_key_has_no_listener.2 _ _ hbridge "AAPL" "ob.mid" hkey

theorem pipeline_only_key_is_heard :
    (¬ ∀ (env : SessionEnv ExactDouble) (actions : List (Action ExactDouble))
      (symbol field : String), TreeBuilder.isPipelineOnlyKey field = true →
        (System.run env {} actions).rt.listeners symbol field = []) ∧
    (¬ ∀ (env : BuildEnv ExactDouble) (actions : List (BridgeAction ExactDouble))
      (symbol field : String), TreeBuilder.isPipelineOnlyKey field = true →
        (Bridge.run env {} actions).rt.listeners symbol field = []) := by
  have hkey : TreeBuilder.isPipelineOnlyKey "ob.mid" = true := by decide +kernel
  constructor
  · intro h
    have hsession : (System.run System.fullSessionEnv {} (sessionListens "ob.mid")).rt.listeners
        "AAPL" "ob.mid" = [1] := by decide +kernel
    rw [h System.fullSessionEnv (sessionListens "ob.mid") "AAPL" "ob.mid" hkey] at hsession
    cases hsession
  · intro h
    have hbridge : (Bridge.run TreeBuilder.fullEnv {} (bridgeListens "ob.mid")).rt.listeners
        "AAPL" "ob.mid" = [1] := by decide +kernel
    rw [h TreeBuilder.fullEnv (bridgeListens "ob.mid") "AAPL" "ob.mid" hkey] at hbridge
    cases hbridge

end GmaEngine
