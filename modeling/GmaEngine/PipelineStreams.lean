import GmaEngine.FailedBuilds
import GmaEngine.SpecReadings
import GmaEngine.SynchronousPipes

/-!
# Pipelines as stream functions

Workers, VectorReducers and AtomicAccessors, and Chains of them, hand their outputs on at once.
A pipeline of such stages, built from the last to the first, is the composition of the streams of
its stages; a Chain is the composition of its own.
-/

namespace GmaEngine

open StreamMachines
variable {D : Type}

def Single.stage : Single D → Option (Stage D)
  | .vectorReducer fn => some (.vectorReducer fn)
  | .atomicAccessor symbol field => some (.atomicAccessor symbol field)
  | .worker fn => some (.worker fn)
  | _ => none

/-- All its nodes hand on synchronously. -/
def Blueprint.synchronous : Blueprint D → Bool
  | .single node => node.stage.isSome
  | .behind stage rest => stage.synchronous && rest.synchronous
  | _ => false

/-- The nodes of a blueprint from the first to the last. -/
def Blueprint.stages : Blueprint D → List (Stage D)
  | .single node => node.stage.toList
  | .behind stage rest => stage.stages ++ rest.stages
  | _ => []

theorem Single.node_eq {node : Single D} {stage : Stage D} (h : node.stage = some stage)
    (downstream : Option NodeId) : node.node downstream = stage.node downstream [] := by
  cases node with
  | vectorReducer fn =>
    cases h
    rfl
  | atomicAccessor symbol field =>
    cases h
    rfl
  | worker fn =>
    cases h
    rfl
  | _ => cases h

/-- The stages before they have seen a value. -/
def fresh (stages : List (Stage D)) : List (Stage D × SymbolMap D) := stages.map (·, [])

@[simp] theorem fresh_append (stages stages' : List (Stage D)) :
    fresh (stages ++ stages') = fresh stages ++ fresh stages' := List.map_append

namespace Runtime
variable {terminal : NodeId} {rt : Runtime D}

theorem Pipe.append {ids ids' : List NodeId} {stages stages' : List (Stage D × SymbolMap D)}
    (h : Pipe (ids'.headD terminal) rt ids stages) (h' : Pipe terminal rt ids' stages') :
    Pipe terminal rt (ids ++ ids') (stages ++ stages') := by
  induction ids generalizing stages with
  | nil =>
    cases stages with
    | nil => exact h'
    | cons stage stages => exact h.elim
  | cons id ids ih =>
    cases stages with
    | nil => exact h.elim
    | cons stage stages =>
      obtain ⟨hnode, hrest⟩ := h
      refine ⟨?_, ih hrest⟩
      rw [hnode]
      cases ids <;> rfl

/-- The nodes of a layout, where it was placed, form a row in front of its downstream. -/
theorem pipe_layout : ∀ (bp : Blueprint D) (next base : ℕ), bp.synchronous = true →
    (∀ i < (bp.layout (some next) base).nodes.length,
      rt.nodes[base + i]? = (bp.layout (some next) base).nodes[i]?) →
    ∃ ids, ids ≠ [] ∧ ids.headD next = (bp.layout (some next) base).root ∧ ids.Nodup ∧
      (∀ id ∈ ids, base ≤ id ∧ id < base + (bp.layout (some next) base).nodes.length) ∧
      Pipe next rt ids (fresh bp.stages)
  | .single node, next, base, hsync, hplaced => by
    obtain ⟨stage, hstage⟩ := Option.isSome_iff_exists.mp hsync
    have hnode := hplaced 0 Nat.one_pos
    refine ⟨[base], List.cons_ne_nil _ _, rfl, List.nodup_singleton _, ?_, ?_⟩
    · intro id hid
      rw [List.mem_singleton.mp hid]
      exact ⟨le_rfl, Nat.lt_succ_self _⟩
    · rw [Blueprint.stages, hstage]
      refine ⟨?_, trivial⟩
      rw [← Single.node_eq hstage]
      exact hnode
  | .behind stage rest, next, base, hsync, hplaced => by
    obtain ⟨hstage, hrest⟩ := Bool.and_eq_true_iff.mp hsync
    have hnodes : ((Blueprint.behind stage rest).layout (some next) base).nodes =
        (rest.layout (some next) base).nodes ++
          (stage.layout (some (rest.layout (some next) base).root)
            (base + (rest.layout (some next) base).nodes.length)).nodes := rfl
    rw [hnodes] at hplaced ⊢
    rw [List.length_append] at hplaced ⊢
    obtain ⟨below, hbelow, hroot, hnodup, hbounds, hpipe⟩ := pipe_layout rest next base hrest
      (fun i hi => by rw [hplaced i (by omega), List.getElem?_append_left hi])
    obtain ⟨above, habove, hroot', hnodup', hbounds', hpipe'⟩ := pipe_layout stage
      (rest.layout (some next) base).root (base + (rest.layout (some next) base).nodes.length)
      hstage (fun i hi => by
        rw [Nat.add_assoc, hplaced _ (by omega), List.getElem?_append_right (by omega),
          Nat.add_sub_cancel_left])
    refine ⟨above ++ below, by simp [habove], ?_, ?_, ?_, ?_⟩
    · cases above with
      | nil => exact absurd rfl habove
      | cons id above => exact hroot'
    · rw [List.nodup_append]
      refine ⟨hnodup', hnodup, ?_⟩
      intro i hi j hj
      have hlow := (hbounds' i hi).1
      have hhigh := (hbounds j hj).2
      omega
    · intro id hid
      rcases List.mem_append.mp hid with hin | hin
      · have hbound := hbounds' id hin
        omega
      · have hbound := hbounds id hin
        omega
    · rw [Blueprint.stages, fresh_append]
      rw [← hroot] at hpipe'
      exact hpipe'.append hpipe
  | .listener _ _, _, _, hsync, _ => by cases hsync
  | .clockOf _ _ _, _, _, hsync, _ => by cases hsync
  | .aggregate _ _, _, _, hsync, _ => by cases hsync

end Runtime

/-- What a stage that starts fresh puts out for a stream. -/
def Stage.stream (store : String → String → Option (ArgType D)) (stage : Stage D)
    (svs : List (StreamValue D)) : List (StreamValue D) := outputs (stage.step store) [] svs

/-- The streams of the stages one after the other, from left to right. -/
def composed (store : String → String → Option (ArgType D)) (stages : List (Stage D))
    (svs : List (StreamValue D)) : List (StreamValue D) :=
  stages.foldl (fun xs stage => stage.stream store xs) svs

theorem cascade_fresh (store : String → String → Option (ArgType D)) (stages : List (Stage D))
    (svs : List (StreamValue D)) :
    (cascade (Stage.step store) (fresh stages) svs).2 = composed store stages svs := by
  induction stages generalizing svs with
  | nil => rfl
  | cons stage stages ih => exact ih (stage.stream store svs)

namespace TreeBuilder
open EffectPlans
variable [Double D] (env : BuildEnv D) (store : String → String → Option (ArgType D))
  (live : NodeId → Bool) (key : String)

/-- The stream of a stage of a pipeline. -/
def stageStream (spec : Json D) (svs : List (StreamValue D)) : List (StreamValue D) :=
  match blueprint env spec key with
  | .ok bp => composed store bp.stages svs
  | .error _ => svs

/-- The left-to-right composition of the streams of the stages. -/
def pipelineStream (stages : List (Json D)) (svs : List (StreamValue D)) : List (StreamValue D) :=
  stages.foldl (fun xs stage => stageStream env store key stage xs) svs

omit [Double D] in
/-- A Worker, a VectorReducer, an AtomicAccessor, or a Chain of such stages. -/
inductive StreamStage : Json D → Prop
  | plain {spec t} (htype : nodeType spec = .ok t)
      (hplain : t = .worker ∨ t = .vectorReducer ∨ t = .atomicAccessor) : StreamStage spec
  | chain {spec stages} (htype : nodeType spec = .ok .chain)
      (hstages : spec.member "stages" = some (.array stages))
      (hall : ∀ stage ∈ stages, StreamStage stage) : StreamStage spec

/-- The stages are read, and have these nodes from the first to the last. -/
def Reads (stages : List (Json D)) (row : List (Stage D)) : Prop :=
  ∃ bps, List.Forall₂ (fun stage bp => blueprint env stage key = .ok bp) stages bps ∧
    bps.flatMap Blueprint.stages = row

section Readings
variable {env store key} {stages stages' : List (Json D)} {row row' : List (Stage D)}

theorem stageBlueprints_ok_iff {bps : List (Blueprint D)} :
    stageBlueprints env stages key = .ok bps ↔
      List.Forall₂ (fun stage bp => blueprint env stage key = .ok bp) stages bps := by
  induction stages generalizing bps with
  | nil =>
    rw [stageBlueprints, List.forall₂_nil_left_iff]
    constructor
    · intro h
      cases h
      rfl
    · rintro rfl
      rfl
  | cons stage stages ih =>
    rw [stageBlueprints]
    constructor
    · intro h
      obtain ⟨below, hbelow, h⟩ := bind_eq_ok h
      obtain ⟨first, hfirst, h⟩ := bind_eq_ok h
      cases h
      exact .cons hfirst (ih.mp hbelow)
    · intro h
      cases h with
      | cons hfirst hbelow =>
        rw [ih.mpr hbelow]
        change blueprint env stage key >>= _ = _
        rw [hfirst]
        rfl

omit [Double D] in
theorem stages_chain (bp : Blueprint D) (bps : List (Blueprint D)) :
    (Blueprint.chain bp bps).stages = (bp :: bps).flatMap Blueprint.stages := by
  induction bps generalizing bp with
  | nil => simp [Blueprint.chain]
  | cons next bps ih =>
    rw [Blueprint.chain, Blueprint.stages, ih]
    rfl

omit [Double D] in
theorem synchronous_chain (bp : Blueprint D) (bps : List (Blueprint D)) :
    (Blueprint.chain bp bps).synchronous = (bp :: bps).all Blueprint.synchronous := by
  induction bps generalizing bp with
  | nil => simp [Blueprint.chain]
  | cons next bps ih =>
    rw [Blueprint.chain, Blueprint.synchronous, ih]
    rfl

theorem blueprint_chain {spec : Json D} (htype : nodeType spec = .ok .chain) :
    blueprint env spec key =
      match spec.member "stages" with
      | some (.array []) => throw "Chain: 'stages' must not be empty"
      | some (.array (stage :: rest)) => do
        let below ← stageBlueprints env rest key
        return Blueprint.chain (← blueprint env stage key) below
      | _ => throw "Chain: 'stages' must be an array" := by
  rw [blueprint, htype]
  dsimp only
  generalize spec.member "stages" = member
  cases member with
  | none => rfl
  | some v =>
    cases v with
    | array elems => cases elems <;> rfl
    | _ => rfl

/-- A Chain is read as the row of its stages, of which there is at least one. -/
theorem blueprint_chain_ok_iff {spec : Json D} {bp : Blueprint D}
    (htype : nodeType spec = .ok .chain) (hstages : spec.member "stages" = some (.array stages)) :
    blueprint env spec key = .ok bp ↔ ∃ first bps,
      List.Forall₂ (fun stage bp => blueprint env stage key = .ok bp) stages (first :: bps) ∧
        bp = .chain first bps := by
  rw [blueprint_chain htype, hstages]
  cases stages with
  | nil =>
    constructor
    · intro h
      cases h
    · rintro ⟨first, bps, hall, -⟩
      cases hall
  | cons stage rest =>
    constructor
    · intro h
      obtain ⟨below, hbelow, h⟩ := bind_eq_ok h
      obtain ⟨first, hfirst, h⟩ := bind_eq_ok h
      cases h
      exact ⟨first, below, .cons hfirst (stageBlueprints_ok_iff.mp hbelow), rfl⟩
    · rintro ⟨first, bps, hall, rfl⟩
      cases hall with
      | cons hfirst hbelow =>
        dsimp only
        rw [stageBlueprints_ok_iff.mpr hbelow]
        change blueprint env stage key >>= _ = _
        rw [hfirst]
        rfl

theorem reads_nil_iff : Reads env key [] row ↔ row = [] := by
  constructor
  · rintro ⟨bps, hall, rfl⟩
    cases hall
    rfl
  · rintro rfl
    exact ⟨[], .nil, rfl⟩

theorem reads_cons_iff {spec : Json D} : Reads env key (spec :: stages) row ↔
    ∃ bp row', blueprint env spec key = .ok bp ∧ Reads env key stages row' ∧
      bp.stages ++ row' = row := by
  constructor
  · rintro ⟨bps, hall, rfl⟩
    cases hall with
    | cons hfirst hrest => exact ⟨_, _, hfirst, ⟨_, hrest, rfl⟩, rfl⟩
  · rintro ⟨bp, row', hfirst, ⟨bps, hrest, rfl⟩, rfl⟩
    exact ⟨bp :: bps, .cons hfirst hrest, rfl⟩

theorem reads_append_iff : Reads env key (stages ++ stages') row ↔
    ∃ front back, Reads env key stages front ∧ Reads env key stages' back ∧
      front ++ back = row := by
  induction stages generalizing row with
  | nil =>
    rw [List.nil_append]
    constructor
    · intro h
      exact ⟨[], row, reads_nil_iff.mpr rfl, h, rfl⟩
    · rintro ⟨front, back, hfront, hback, rfl⟩
      rw [reads_nil_iff.mp hfront, List.nil_append]
      exact hback
  | cons spec stages ih =>
    rw [List.cons_append, reads_cons_iff]
    constructor
    · rintro ⟨bp, rest, hbp, hrest, rfl⟩
      obtain ⟨front, back, hfront, hback, rfl⟩ := ih.mp hrest
      exact ⟨_, back, reads_cons_iff.mpr ⟨bp, front, hbp, hfront, rfl⟩, hback,
        List.append_assoc _ _ _⟩
    · rintro ⟨front, back, hfront, hback, rfl⟩
      obtain ⟨bp, rest, hbp, hrest, rfl⟩ := reads_cons_iff.mp hfront
      exact ⟨bp, rest ++ back, hbp, ih.mpr ⟨rest, back, hrest, hback, rfl⟩,
        (List.append_assoc _ _ _).symm⟩

/-- A Chain has the nodes of its stages. -/
theorem reads_chain_iff {spec : Json D} (htype : nodeType spec = .ok .chain)
    (hstages : spec.member "stages" = some (.array stages)) (hne : stages ≠ []) :
    Reads env key [spec] row ↔ Reads env key stages row := by
  rw [reads_cons_iff]
  constructor
  · rintro ⟨bp, rest, hbp, hrest, rfl⟩
    obtain ⟨first, bps, hall, rfl⟩ := (blueprint_chain_ok_iff htype hstages).mp hbp
    refine ⟨first :: bps, hall, ?_⟩
    rw [reads_nil_iff.mp hrest, stages_chain, List.append_nil]
  · rintro ⟨bps, hall, rfl⟩
    cases bps with
    | nil =>
      cases hall
      exact absurd rfl hne
    | cons first bps =>
      exact ⟨_, [], (blueprint_chain_ok_iff htype hstages).mpr ⟨first, bps, hall, rfl⟩,
        reads_nil_iff.mpr rfl, by rw [stages_chain, List.append_nil]⟩

theorem pipelineStream_of_reads (h : Reads env key stages row) (svs : List (StreamValue D)) :
    pipelineStream env store key stages svs = composed store row svs := by
  induction stages generalizing row svs with
  | nil =>
    rw [reads_nil_iff.mp h]
    rfl
  | cons spec stages ih =>
    obtain ⟨bp, rest, hbp, hrest, rfl⟩ := reads_cons_iff.mp h
    have hfirst : stageStream env store key spec svs = composed store bp.stages svs := by
      rw [stageStream, hbp]
    have hcons : pipelineStream env store key (spec :: stages) svs =
        pipelineStream env store key stages (stageStream env store key spec svs) := rfl
    rw [hcons, hfirst, ih hrest, composed, composed, composed, List.foldl_append]

theorem exists_of_forall₂ {α β : Type} {R : α → β → Prop} {xs : List α} {ys : List β}
    (h : List.Forall₂ R xs ys) {y : β} (hy : y ∈ ys) : ∃ x ∈ xs, R x y := by
  induction h with
  | nil => cases hy
  | cons hxy _ ih =>
    rcases List.mem_cons.mp hy with rfl | hmem
    · exact ⟨_, List.mem_cons_self, hxy⟩
    · obtain ⟨x, hx, hr⟩ := ih hmem
      exact ⟨x, List.mem_cons_of_mem _ hx, hr⟩

theorem synchronous_of_blueprint {spec : Json D} (h : StreamStage spec) :
    ∀ bp, blueprint env spec key = .ok bp → bp.synchronous = true := by
  induction h with
  | plain htype hplain =>
    intro bp hbp
    rw [blueprint] at hbp
    obtain ⟨t', ht, hbp⟩ := bind_eq_ok hbp
    obtain rfl := Except.ok.inj (htype.symm.trans ht)
    rcases hplain with rfl | rfl | rfl
    · obtain ⟨fn, -, hbp⟩ := bind_eq_ok hbp
      cases hbp
      rfl
    · obtain ⟨fn, -, hbp⟩ := bind_eq_ok hbp
      cases hbp
      rfl
    · obtain ⟨keys, -, hbp⟩ := bind_eq_ok hbp
      cases hbp
      rfl
  | chain htype hstages hall ih =>
    intro bp hbp
    obtain ⟨first, bps, hread, rfl⟩ := (blueprint_chain_ok_iff htype hstages).mp hbp
    rw [synchronous_chain, List.all_eq_true]
    intro below hbelow
    obtain ⟨stage, hmem, hstage⟩ := exists_of_forall₂ hread hbelow
    exact ih stage hmem below hstage

end Readings

omit [Double D] in
/-- Some Chain, at any depth, is replaced by its stages. -/
inductive Unwraps : List (Json D) → List (Json D) → Prop
  | chain {before later stages spec} (htype : nodeType spec = .ok .chain)
      (hstages : spec.member "stages" = some (.array stages)) (hne : stages ≠ []) :
      Unwraps (before ++ spec :: later) (before ++ (stages ++ later))
  | inside {before later stages stages' spec spec'} (htype : nodeType spec = .ok .chain)
      (hstages : spec.member "stages" = some (.array stages))
      (htype' : nodeType spec' = .ok .chain)
      (hstages' : spec'.member "stages" = some (.array stages')) (h : Unwraps stages stages') :
      Unwraps (before ++ spec :: later) (before ++ spec' :: later)

section Unwrapping
variable {env key} {stages stages' : List (Json D)} {row : List (Stage D)}

omit [Double D] in
theorem Unwraps.ne_nil (h : Unwraps stages stages') : stages ≠ [] ∧ stages' ≠ [] := by
  cases h with
  | chain htype hstages hne => simp [hne]
  | inside => simp

omit [Double D] in
theorem streamStage_chain_iff {spec : Json D} (htype : nodeType spec = .ok .chain)
    (hstages : spec.member "stages" = some (.array stages)) :
    StreamStage spec ↔ ∀ stage ∈ stages, StreamStage stage := by
  constructor
  · intro h
    cases h with
    | plain ht hplain =>
      obtain rfl := Except.ok.inj (htype.symm.trans ht)
      rcases hplain with h | h | h <;> cases h
    | chain _ hmember hall =>
      obtain rfl := Json.array.inj (Option.some.inj (hstages.symm.trans hmember))
      exact hall
  · intro hall
    exact .chain htype hstages hall

omit [Double D] in
theorem Unwraps.streamStage_iff (h : Unwraps stages stages') :
    (∀ spec ∈ stages, StreamStage spec) ↔ ∀ spec ∈ stages', StreamStage spec := by
  induction h with
  | chain htype hstages hne =>
    simp only [List.forall_mem_append, List.forall_mem_cons,
      streamStage_chain_iff htype hstages]
  | inside htype hstages htype' hstages' _ ih =>
    simp only [List.forall_mem_append, List.forall_mem_cons,
      streamStage_chain_iff htype hstages, streamStage_chain_iff htype' hstages', ih]

/-- The row of stages in the middle of a pipeline may be exchanged for one with the same nodes. -/
theorem reads_middle_congr {before later middle middle' : List (Json D)}
    (h : ∀ row, Reads env key middle row ↔ Reads env key middle' row) :
    Reads env key (before ++ (middle ++ later)) row ↔
      Reads env key (before ++ (middle' ++ later)) row := by
  simp only [reads_append_iff, h]

/-- A pipeline has the same nodes with a Chain in place of its stages and without it. -/
theorem Unwraps.reads_iff (h : Unwraps stages stages') (row : List (Stage D)) :
    Reads env key stages row ↔ Reads env key stages' row := by
  induction h generalizing row with
  | chain htype hstages hne =>
    exact reads_middle_congr (fun row => reads_chain_iff htype hstages hne)
  | inside htype hstages htype' hstages' h ih =>
    refine @reads_middle_congr D _ env key row _ _ [_] [_] ?_
    intro row
    rw [reads_chain_iff htype hstages h.ne_nil.1, ih,
      ← reads_chain_iff htype' hstages' h.ne_nil.2]

end Unwrapping

/-- The nodes that the pipeline loop adds form a row in front of the terminal. -/
theorem pipe_buildStages {rt rt' : Runtime D} {terminal : NodeId} {stages : List (Json D)}
    {ids : List NodeId} (hstages : ∀ spec ∈ stages, StreamStage spec)
    (hbuild : outcome (buildStages env stages key (some terminal)) rt = (.ok ids, rt'))
    (hterminal : terminal < rt.nodes.length) :
    ∃ row nodes, Reads env key stages row ∧ (terminal :: nodes).Nodup ∧
      nodes.headD terminal = ids.headD terminal ∧
      Runtime.Pipe terminal rt' nodes (fresh row) := by
  obtain ⟨bps, hread, rfl, rfl⟩ := buildStages_ok_iff.mp hbuild
  have hall := stageBlueprints_ok_iff.mp hread
  cases bps with
  | nil => exact ⟨[], [], ⟨[], hall, rfl⟩, List.nodup_singleton _, rfl, trivial⟩
  | cons first bps =>
    have hsync : (Blueprint.chain first bps).synchronous = true := by
      rw [synchronous_chain, List.all_eq_true]
      intro bp hbp
      obtain ⟨stage, hmem, hstage⟩ := exists_of_forall₂ hall hbp
      exact synchronous_of_blueprint (hstages stage hmem) bp hstage
    have hlayout := Blueprint.layout_chain (some terminal) rt.nodes.length first bps
    have hnodes := congrArg Layout.nodes hlayout
    have hplaced : ∀ i < ((Blueprint.chain first bps).layout (some terminal)
          rt.nodes.length).nodes.length,
        (rt.install (Blueprint.layoutStages (some terminal) rt.nodes.length
          (first :: bps)).1).nodes[rt.nodes.length + i]? =
          ((Blueprint.chain first bps).layout (some terminal) rt.nodes.length).nodes[i]? := by
      intro i _
      rw [Runtime.nodes_install, hnodes, List.getElem?_append_right (by omega),
        Nat.add_sub_cancel_left]
    obtain ⟨nodes, -, hroot, hnodup, hbounds, hpipe⟩ := Runtime.pipe_layout
      (Blueprint.chain first bps) terminal rt.nodes.length hsync hplaced
    rw [stages_chain] at hpipe
    refine ⟨_, nodes, ⟨first :: bps, hall, rfl⟩, ?_, ?_, hpipe⟩
    · refine List.nodup_cons.mpr ⟨?_, hnodup⟩
      intro hin
      exact absurd hterminal (Nat.not_lt.mpr (hbounds terminal hin).1)
    · rw [hroot, hlayout]
      rfl

theorem deliver_buildStages {rt rt' : Runtime D} {terminal : NodeId} {stages : List (Json D)}
    {ids : List NodeId} (hstages : ∀ spec ∈ stages, StreamStage spec)
    (hbuild : outcome (buildStages env stages key (some terminal)) rt = (.ok ids, rt'))
    (hterminal : terminal < rt.nodes.length) (svs : List (StreamValue D)) :
    ∃ fuel rt'', Runtime.deliver env store live terminal fuel rt'
      (svs.map (fun sv => ⟨ids.headD terminal, sv⟩)) =
        some (rt'', pipelineStream env store key stages svs) := by
  obtain ⟨row, nodes, hreads, hnodup, hhead, hpipe⟩ := pipe_buildStages env key hstages hbuild
    hterminal
  obtain ⟨fuel, rt'', hdeliver, -, -⟩ := Runtime.deliver_pipe env store live terminal hpipe hnodup
    svs
  rw [cascade_fresh, hhead, ← pipelineStream_of_reads hreads] at hdeliver
  exact ⟨fuel, rt'', hdeliver⟩

/-- A pipeline that can be read can be built. -/
theorem exists_buildStages {stages : List (Json D)} {row : List (Stage D)}
    (h : Reads env key stages row) (downstream : Option NodeId) (rt : Runtime D) :
    ∃ ids rt', outcome (buildStages env stages key downstream) rt = (.ok ids, rt') := by
  obtain ⟨bps, hall, -⟩ := h
  exact ⟨_, _, buildStages_ok_iff.mpr ⟨bps, stageBlueprints_ok_iff.mpr hall, rfl, rfl⟩⟩

/-- A pipeline delivers to its terminal what its stages, as functions of streams, give one after
the other, and so does every pipeline with a Chain unwrapped, or some stages wrapped in one. -/
theorem pipeline_delivers {rt rt' : Runtime D} {terminal : NodeId} {stages : List (Json D)}
    {ids : List NodeId} (hstages : ∀ spec ∈ stages, StreamStage spec)
    (hbuild : outcome (buildStages env stages key (some terminal)) rt = (.ok ids, rt'))
    (hterminal : terminal < rt.nodes.length) (svs : List (StreamValue D)) :
    (∃ fuel rt'', Runtime.deliver env store live terminal fuel rt'
      (svs.map (fun sv => ⟨ids.headD terminal, sv⟩)) =
        some (rt'', pipelineStream env store key stages svs)) ∧
    ∀ stages', Unwraps stages stages' ∨ Unwraps stages' stages →
      ∃ ids' rt₁ fuel rt₂,
        outcome (buildStages env stages' key (some terminal)) rt = (.ok ids', rt₁) ∧
        Runtime.deliver env store live terminal fuel rt₁
          (svs.map (fun sv => ⟨ids'.headD terminal, sv⟩)) =
            some (rt₂, pipelineStream env store key stages svs) := by
  refine ⟨deliver_buildStages env store live key hstages hbuild hterminal svs, ?_⟩
  intro stages' hunwraps
  obtain ⟨row, -, hreads, -⟩ := pipe_buildStages env key hstages hbuild hterminal
  have hboth : Reads env key stages' row ∧ ∀ spec ∈ stages', StreamStage spec := by
    rcases hunwraps with h | h
    · exact ⟨(h.reads_iff row).mp hreads, h.streamStage_iff.mp hstages⟩
    · exact ⟨(h.reads_iff row).mpr hreads, h.streamStage_iff.mpr hstages⟩
  obtain ⟨hreads', hstages'⟩ := hboth
  obtain ⟨ids', rt₁, hbuild'⟩ := exists_buildStages env key hreads' (some terminal) rt
  obtain ⟨fuel, rt₂, hdeliver⟩ := deliver_buildStages env store live key hstages' hbuild'
    hterminal svs
  rw [pipelineStream_of_reads hreads', ← pipelineStream_of_reads hreads] at hdeliver
  exact ⟨ids', rt₁, fuel, rt₂, hbuild', hdeliver⟩

/-- A Worker that counts, and an AtomicAccessor behind it. -/
def countThenBid : List (Json ExactDouble) :=
  [.object [("type", .string "Worker"), ("fn", .string "count")],
    .object [("type", .string "AtomicAccessor"), ("field", .string "bid")]]

def chained : Json ExactDouble :=
  .object [("type", .string "Chain"), ("stages", .array countThenBid)]

def countOnly : FunctionMap ExactDouble where
  getFunction name := if name = "count" then some (fun v => some (.fin v.length)) else none
  getParamFunction _ := none

def countEnv : BuildEnv ExactDouble := { fullEnv with functionMap := countOnly }

def chainedBuilt : Except String (List NodeId) × Runtime ExactDouble :=
  outcome (buildStages countEnv [chained] "AAPL" (some 0)) terminalOnly

theorem chainedBuilt_fst : chainedBuilt.1 = .ok [2] := by decide +kernel

theorem pipeline_delivers_chained : ∃ ids rt fuel rt',
    outcome (buildStages countEnv countThenBid "AAPL" (some 0)) terminalOnly = (.ok ids, rt) ∧
    Runtime.deliver countEnv (fun _ _ => some (.int 9)) (fun _ => true) 0 fuel rt
      [⟨ids.headD 0, ⟨"AAPL", .int 7⟩⟩] =
      some (rt', pipelineStream countEnv (fun _ _ => some (.int 9)) "AAPL" [chained]
        [⟨"AAPL", .int 7⟩]) := by
  have htype : nodeType chained = .ok .chain := rfl
  have hmember : chained.member "stages" = some (.array countThenBid) := rfl
  have hstages : ∀ spec ∈ [chained], StreamStage spec := by
    intro spec hspec
    rw [List.mem_singleton.mp hspec]
    refine .chain htype hmember ?_
    intro stage hstage
    fin_cases hstage
    · exact .plain rfl (.inl rfl)
    · exact .plain rfl (.inr (.inr rfl))
  have hbuild : outcome (buildStages countEnv [chained] "AAPL" (some 0)) terminalOnly =
      (.ok [2], chainedBuilt.2) := Prod.ext chainedBuilt_fst rfl
  have hunwraps : Unwraps ([] ++ [chained]) ([] ++ (countThenBid ++ [])) :=
    Unwraps.chain htype hmember (List.cons_ne_nil _ _)
  obtain ⟨-, hall⟩ := pipeline_delivers countEnv (fun _ _ => some (.int 9)) (fun _ => true) "AAPL"
    hstages hbuild Nat.one_pos [⟨"AAPL", .int 7⟩]
  obtain ⟨ids, rt, fuel, rt', hbuilt, hdeliver⟩ := hall countThenBid (.inl hunwraps)
  exact ⟨ids, rt, fuel, rt', hbuilt, hdeliver⟩

end TreeBuilder
end GmaEngine
