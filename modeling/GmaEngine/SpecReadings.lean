import GmaEngine.Blueprints

/-!
# Readings of specifications

The rules by which a specification is read: which part of it each part of the blueprint comes
from. A property of specifications and a property of blueprints are compared by induction on the
reading.
-/

namespace GmaEngine

/-- The types of nodes with a timer thread and a child. -/
def NodeType.clock? : NodeType → Option Clock
  | .interval => some .interval
  | .bucketTime => some .bucketTime
  | _ => none

/-- The types of nodes that are built alone, have no specification inside and start no clock. -/
def NodeType.plain : NodeType → Bool
  | .tumblingWindow | .vectorReducer | .atomicAccessor | .worker => true
  | _ => false

/-- The nodes of the plain types. -/
def Single.plain {D : Type} : Single D → Bool
  | .clock .. | .groupSplit .. => false
  | _ => true

namespace TreeBuilder
variable {D : Type} [Double D]

mutual

/-- The specification is read as the blueprint. -/
inductive Specifies (env : BuildEnv D) (key : String) : Json D → Blueprint D → Prop
  | listener {spec symbol field} (htype : nodeType spec = .ok .listener)
      (hkeys : listenerKeys env spec key = .ok (symbol, field)) :
      Specifies env key spec (.listener symbol field)
  | clock {spec t kind ms} (htype : nodeType spec = .ok t) (hkind : t.clock? = some kind)
      (hchild : spec.member "child" = none) : Specifies env key spec (.single (.clock kind ms))
  | clockOf {spec t kind ms child bp} (htype : nodeType spec = .ok t) (hkind : t.clock? = some kind)
      (hchild : spec.member "child" = some child) (hbp : Specifies env key child bp) :
      Specifies env key spec (.clockOf kind ms bp)
  | plain {spec t node} (htype : nodeType spec = .ok t) (hplain : t.plain = true)
      (hnode : node.plain = true) : Specifies env key spec (.single node)
  | groupSplit {spec child} (htype : nodeType spec = .ok .groupSplit)
      (hchild : spec.member "child" = some child) :
      Specifies env key spec (.single (.groupSplit child key))
  | aggregate {spec arity inputs bps} (htype : nodeType spec = .ok .aggregate)
      (hinputs : spec.member "inputs" = some (.array inputs))
      (hbps : SpecifiesAll env key inputs bps) : Specifies env key spec (.aggregate arity bps)
  | chain {spec stage stages bp bps} (htype : nodeType spec = .ok .chain)
      (hstages : spec.member "stages" = some (.array (stage :: stages)))
      (hbp : Specifies env key stage bp) (hbps : SpecifiesAll env key stages bps) :
      Specifies env key spec (Blueprint.chain bp bps)

inductive SpecifiesAll (env : BuildEnv D) (key : String) :
    List (Json D) → List (Blueprint D) → Prop
  | nil : SpecifiesAll env key [] []
  | cons {spec specs bp bps} (hbp : Specifies env key spec bp)
      (hbps : SpecifiesAll env key specs bps) : SpecifiesAll env key (spec :: specs) (bp :: bps)

end

theorem bind_eq_ok {ε α β : Type} {x : Except ε α} {f : α → Except ε β} {b : β}
    (h : (x >>= f) = .ok b) : ∃ a, x = .ok a ∧ f a = .ok b := by
  cases x with
  | error e => cases h
  | ok a => exact ⟨a, rfl, h⟩

omit [Double D] in
theorem member_of_groupSplitChild {spec child : Json D} (h : groupSplitChild spec = .ok child) :
    spec.member "child" = some child := by
  rw [groupSplitChild] at h
  cases hmember : spec.member "child" with
  | none =>
    rw [hmember] at h
    cases h
  | some below =>
    rw [hmember] at h
    cases h
    rfl

theorem childBlueprint_cases {env : BuildEnv D} {spec : Json D} {key : String}
    {child : Option (Blueprint D)} (h : childBlueprint env spec key = .ok child) :
    (spec.member "child" = none ∧ child = none) ∨
      ∃ below bp, spec.member "child" = some below ∧ child = some bp ∧
        blueprint env below key = .ok bp := by
  rw [childBlueprint] at h
  generalize hmember : spec.member "child" = member at h
  cases member with
  | none =>
    cases h
    exact .inl ⟨rfl, rfl⟩
  | some below =>
    obtain ⟨bp, hbp, h⟩ := bind_eq_ok h
    cases h
    exact .inr ⟨below, bp, rfl, rfl, hbp⟩

mutual

theorem specifies_of_blueprint (env : BuildEnv D) (spec : Json D) (key : String) :
    ∀ bp, blueprint env spec key = .ok bp → Specifies env key spec bp := by
  intro bp h
  rw [blueprint] at h
  obtain ⟨t, ht, h⟩ := bind_eq_ok h
  cases t with
  | listener =>
    obtain ⟨keys, hkeys, h⟩ := bind_eq_ok h
    cases h
    exact .listener ht hkeys
  | interval =>
    obtain ⟨ms, -, h⟩ := bind_eq_ok h
    obtain ⟨child, hchild, h⟩ := bind_eq_ok h
    cases h
    rcases childBlueprint_cases hchild with ⟨hnone, rfl⟩ | ⟨below, bp, hsome, rfl, hbp⟩
    · exact .clock ht rfl hnone
    · have hlt := Json.sizeOf_member hsome
      exact .clockOf ht rfl hsome (specifies_of_blueprint env below key bp hbp)
  | bucketTime =>
    obtain ⟨ms, -, h⟩ := bind_eq_ok h
    obtain ⟨child, hchild, h⟩ := bind_eq_ok h
    cases h
    rcases childBlueprint_cases hchild with ⟨hnone, rfl⟩ | ⟨below, bp, hsome, rfl, hbp⟩
    · exact .clock ht rfl hnone
    · have hlt := Json.sizeOf_member hsome
      exact .clockOf ht rfl hsome (specifies_of_blueprint env below key bp hbp)
  | tumblingWindow =>
    obtain ⟨ms, -, h⟩ := bind_eq_ok h
    cases h
    exact .plain ht rfl rfl
  | vectorReducer =>
    obtain ⟨fn, -, h⟩ := bind_eq_ok h
    cases h
    exact .plain ht rfl rfl
  | atomicAccessor =>
    obtain ⟨keys, -, h⟩ := bind_eq_ok h
    cases h
    exact .plain ht rfl rfl
  | worker =>
    obtain ⟨fn, -, h⟩ := bind_eq_ok h
    cases h
    exact .plain ht rfl rfl
  | aggregate =>
    obtain ⟨arity, -, h⟩ := bind_eq_ok h
    generalize hinputs : spec.member "inputs" = member at h
    cases member with
    | none => cases h
    | some value =>
      cases value with
      | array inputs =>
        have hlt := Json.sizeOf_member_array hinputs
        obtain ⟨bps, hbps, h⟩ := bind_eq_ok h
        obtain ⟨-, -, h⟩ := bind_eq_ok h
        cases h
        exact .aggregate ht hinputs (specifiesAll_of_blueprints env inputs key bps hbps)
      | _ => cases h
  | groupSplit =>
    obtain ⟨child, hchild, h⟩ := bind_eq_ok h
    cases h
    exact .groupSplit ht (member_of_groupSplitChild hchild)
  | chain =>
    generalize hstages : spec.member "stages" = member at h
    cases member with
    | none => cases h
    | some value =>
      cases value with
      | array stages =>
        cases stages with
        | nil => cases h
        | cons stage stages =>
          have hlt := Json.sizeOf_member_cons hstages
          obtain ⟨bps, hbps, h⟩ := bind_eq_ok h
          obtain ⟨first, hfirst, h⟩ := bind_eq_ok h
          cases h
          exact .chain ht hstages (specifies_of_blueprint env stage key first hfirst)
            (specifiesAll_of_stages env stages key bps hbps)
      | _ => cases h
termination_by 2 * sizeOf spec + 1
decreasing_by all_goals omega

theorem specifiesAll_of_blueprints (env : BuildEnv D) (inputs : List (Json D)) (key : String) :
    ∀ bps, blueprints env inputs key = .ok bps → SpecifiesAll env key inputs bps := by
  cases inputs with
  | nil =>
    intro bps h
    rw [blueprints] at h
    cases h
    exact .nil
  | cons input inputs =>
    intro bps h
    rw [blueprints] at h
    obtain ⟨first, hfirst, h⟩ := bind_eq_ok h
    obtain ⟨others, hothers, h⟩ := bind_eq_ok h
    cases h
    exact .cons (specifies_of_blueprint env input key first hfirst)
      (specifiesAll_of_blueprints env inputs key others hothers)
termination_by 2 * sizeOf inputs
decreasing_by
  all_goals
    simp only [List.cons.sizeOf_spec]
    omega

theorem specifiesAll_of_stages (env : BuildEnv D) (stages : List (Json D)) (key : String) :
    ∀ bps, stageBlueprints env stages key = .ok bps → SpecifiesAll env key stages bps := by
  cases stages with
  | nil =>
    intro bps h
    rw [stageBlueprints] at h
    cases h
    exact .nil
  | cons stage stages =>
    intro bps h
    rw [stageBlueprints] at h
    obtain ⟨below, hbelow, h⟩ := bind_eq_ok h
    obtain ⟨first, hfirst, h⟩ := bind_eq_ok h
    cases h
    exact .cons (specifies_of_blueprint env stage key first hfirst)
      (specifiesAll_of_stages env stages key below hbelow)
termination_by 2 * sizeOf stages
decreasing_by
  all_goals
    simp only [List.cons.sizeOf_spec]
    omega

end

/-- How the parts of a request are read. -/
theorem specifies_of_requestBlueprint {env : BuildEnv D} {requestJson : Json D}
    {rb : RequestBlueprint D} (h : requestBlueprint env requestJson = .ok rb) :
    SpecifiesAll env rb.streamKey (nodeOf requestJson).toList rb.node.toList ∧
      SpecifiesAll env rb.streamKey ((pipelineOf requestJson).getD []) (rb.stages.getD []) := by
  unfold requestBlueprint at h
  obtain ⟨keys, -, h⟩ := bind_eq_ok h
  obtain ⟨node, hnode, h⟩ := bind_eq_ok h
  obtain ⟨stages, hstages, h⟩ := bind_eq_ok h
  obtain ⟨-, -, h⟩ := bind_eq_ok h
  obtain ⟨-, -, h⟩ := bind_eq_ok h
  cases h
  constructor
  · cases hspec : nodeOf requestJson with
    | none =>
      rw [hspec] at hnode
      cases hnode
      exact .nil
    | some spec =>
      rw [hspec, Option.mapM_some] at hnode
      obtain ⟨bp, hbp, hnode⟩ := bind_eq_ok hnode
      cases hnode
      exact .cons (specifies_of_blueprint env spec _ bp hbp) .nil
  · cases hspecs : pipelineOf requestJson with
    | none =>
      rw [hspecs] at hstages
      cases hstages
      exact .nil
    | some specs =>
      rw [hspecs, Option.mapM_some] at hstages
      obtain ⟨bps, hbps, hstages⟩ := bind_eq_ok hstages
      cases hstages
      exact specifiesAll_of_stages env specs _ bps hbps

end TreeBuilder
end GmaEngine
