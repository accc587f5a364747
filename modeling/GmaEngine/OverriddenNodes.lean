import GmaEngine.ChainOwnership
import GmaEngine.ClientSession
import GmaEngine.WidenedHeaps

/-!
# A node under a pipeline

A request may carry both a specification under `node` and a pipeline; the pipeline wins. The node
is built all the same, in front of the same terminal, and stays in the heap beside the chain. It
is without effect as long as nothing in it listens and no clock of it runs.
-/

namespace GmaEngine

/-- The nodes, those that somebody keeps, and the tasks of the pool. -/
structure Engine (D : Type) where
  rt : Runtime D := {}
  kept : List NodeId := []
  pool : List (List (Call D)) := []
  /-- Every call that was made. -/
  arrived : List (Call D) := []

inductive EngineAction (D : Type) where
  | notify (symbol field : String) (value : D)
  | timer (id : NodeId)
  | work (task : ℕ) (store : String → String → Option (ArgType D))

namespace Engine
variable {D : Type}

def roots (e : Engine D) : List NodeId :=
  e.kept ++ (List.range e.rt.nodes.length).filter (System.held e.rt) ++
    e.pool.flatten.map Call.node

def notifyListeners (e : Engine D) (symbol field : String) (value : D) : Engine D :=
  { e with
    pool := e.pool ++ (e.rt.listeners symbol field).map
      (fun id => [⟨id, ⟨symbol, .double value⟩⟩]) }

/-- The values that a node was given. -/
def valuesAt (e : Engine D) (id : NodeId) : List (StreamValue D) :=
  (e.arrived.filter (fun call => call.node = id)).map Call.value

/-- A chain that was built is kept. -/
def keep (e : Engine D) (rt : Runtime D) (built : BuiltChain) : Engine D :=
  { e with rt := rt, kept := e.kept ++ built.head :: built.keepAlive }

variable [Double D]

def fireTimer (e : Engine D) (id : NodeId) : Engine D :=
  let (rt, posted) := e.rt.timerLoop id
  { e with rt := rt, pool := e.pool ++ posted.map ([·]) }

def work (env : BuildEnv D) (store : String → String → Option (ArgType D)) (e : Engine D)
    (task : ℕ) : Engine D :=
  match e.pool[task]? with
  | some (call :: rest) =>
    let (rt, effects) := e.rt.onValue env store (e.rt.alive e.roots) call.node call.value
    { e with
      rt := rt
      pool := e.pool.set task (if effects.thrown then [] else effects.calls ++ rest) ++
        effects.posted.map ([·])
      arrived := e.arrived ++ [call] }
  | _ => e

def step (env : BuildEnv D) (e : Engine D) : EngineAction D → Engine D
  | .notify symbol field value => e.notifyListeners symbol field value
  | .timer id => e.fireTimer id
  | .work task store => e.work env store task

def run (env : BuildEnv D) (e : Engine D) (actions : List (EngineAction D)) : Engine D :=
  actions.foldl (step env) e

end Engine

namespace INode
variable {D : Type}

/-- Nothing comes from the node as long as nothing comes to it. -/
def idle : INode D → Bool
  | listener .. | clock .. => false
  | tumblingWindow _ _ _ acc => acc.isEmpty
  | _ => true

end INode

namespace Blueprint
variable {D : Type}

mutual

/-- No Listener and no clock is in the blueprint. -/
def quiet : Blueprint D → Bool
  | listener .. => false
  | single (.clock ..) => false
  | single _ => true
  | clockOf .. => false
  | aggregate _ inputs => allQuiet inputs
  | behind stage rest => stage.quiet && rest.quiet

def allQuiet : List (Blueprint D) → Bool
  | [] => true
  | input :: inputs => input.quiet && allQuiet inputs

end

mutual

theorem idle_layout : ∀ (bp : Blueprint D) (downstream : Option NodeId) (base : ℕ),
    bp.quiet = true → ∀ node ∈ (bp.layout downstream base).nodes, node.idle = true
  | listener .., _, _, hquiet => by cases hquiet
  | single leaf, downstream, base, hquiet => by
    intro node hnode
    obtain rfl := List.mem_singleton.mp hnode
    cases leaf with
    | clock kind period => cases hquiet
    | _ => rfl
  | clockOf .., _, _, hquiet => by cases hquiet
  | aggregate arity inputs, downstream, base, hquiet => by
    intro node hnode
    rw [layout, List.cons_append] at hnode
    rcases List.mem_cons.mp hnode with rfl | hnode
    · rfl
    · rcases List.mem_append.mp hnode with hnode | hnode
      · exact idle_layouts inputs base (base + 1) hquiet node hnode
      · obtain rfl := List.mem_singleton.mp hnode
        rfl
  | behind stage rest, downstream, base, hquiet => by
    rw [quiet, Bool.and_eq_true] at hquiet
    intro node hnode
    rcases List.mem_append.mp hnode with hnode | hnode
    · exact idle_layout rest downstream base hquiet.2 node hnode
    · exact idle_layout stage _ _ hquiet.1 node hnode

theorem idle_layouts : ∀ (inputs : List (Blueprint D)) (agg base : ℕ),
    allQuiet inputs = true → ∀ node ∈ (layouts agg base inputs).1, node.idle = true
  | [], _, _, _ => by
    intro node hnode
    cases hnode
  | input :: inputs, agg, base, hquiet => by
    rw [allQuiet, Bool.and_eq_true] at hquiet
    intro node hnode
    rcases List.mem_append.mp hnode with hnode | hnode
    · exact idle_layout input (some agg) base hquiet.1 node hnode
    · exact idle_layouts inputs agg _ hquiet.2 node hnode

end

end Blueprint

namespace Runtime
variable {D : Type}

/-- No Listener is registered with idle nodes. -/
theorem install_of_idle (rt : Runtime D) (nodes : List (INode D))
    (h : ∀ node ∈ nodes, node.idle = true) :
    rt.install nodes = { rt with nodes := rt.nodes ++ nodes } := by
  induction nodes generalizing rt with
  | nil => simp [install]
  | cons node nodes ih =>
    have hstep : rt.install (node :: nodes) = (rt.add node).install nodes := rfl
    have hadd : rt.add node = { rt with nodes := rt.nodes ++ [node] } := by
      have hidle := h node List.mem_cons_self
      cases node with
      | listener symbol field downstream stopping => cases hidle
      | _ => rfl
    rw [hstep, hadd, ih _ (fun other hother => h other (List.mem_cons_of_mem _ hother))]
    simp

end Runtime

theorem Runtime.setNode_same {D : Type} {rt : Runtime D} {id : ℕ} {node : INode D}
    (h : rt.nodes[id]? = some node) : rt.setNode id node = rt := by
  have hsame : rt.nodes.set id node = rt.nodes := by
    apply List.ext_getElem?
    intro i
    rw [List.getElem?_set]
    split_ifs with hi hlt
    · rw [← hi, h]
    · rw [← hi, List.getElem?_eq_none (Nat.not_lt.mp hlt)]
    · rfl
  rw [setNode, hsame]

theorem INode.rename_fixed {D : Type} {f : ℕ → ℕ} (node : INode D)
    (h : ∀ x : ℕ, x ∈ node.targets → f x = x) : node.rename f = node := by
  have hmap : ∀ d : Option ℕ, (∀ x ∈ d.toList, f x = x) → d.map f = d := by
    intro d hd
    cases d with
    | none => rfl
    | some x => rw [Option.map_some, hd x (by simp)]
  cases node with
  | compositeRoot roots =>
    have hroots : roots.map f = roots := (List.map_congr_left h).trans (List.map_id' roots)
    rw [rename, hroots]
  | responder key stopped => rfl
  | groupSplit childDoc key downstream children =>
    have hchildren : children.map (Prod.map id f) = children := by
      have hsame : ∀ child ∈ children, Prod.map id f child = child := by
        intro child hchild
        have hfixed := h child.2 (List.mem_append_right _ (List.mem_map_of_mem hchild))
        exact Prod.ext rfl hfixed
      exact (List.map_congr_left hsame).trans (List.map_id' children)
    rw [rename, hchildren, hmap downstream (fun x hx => h x (List.mem_append_left _ hx))]
  | listener _ _ downstream _ => rw [rename, hmap downstream h]
  | clock _ _ child _ => rw [rename, hmap child h]
  | tumblingWindow _ downstream _ _ => rw [rename, hmap downstream h]
  | vectorReducer _ downstream _ => rw [rename, hmap downstream h]
  | atomicAccessor _ _ downstream _ => rw [rename, hmap downstream h]
  | worker _ downstream _ _ => rw [rename, hmap downstream h]
  | aggregate _ parent _ _ => rw [rename, hmap parent h]

/-- The additional nodes are idle and point to each other and to the terminal only. -/
def Aside {D : Type} (terminal base : ℕ) (extra : List (INode D)) : Prop :=
  ∀ (j : ℕ) node, extra[j]? = some node → node.idle = true ∧
    ∀ x : ℕ, x ∈ node.targets → x = terminal ∨ ∃ i < extra.length, x = base + i

namespace Engine
variable {D : Type}

/-- The wide engine has additional nodes at `base`, which only it may keep. -/
structure Widens (terminal base : ℕ) (extra : List (INode D)) (wide narrow : Engine D) : Prop where
  rt : GmaEngine.Widens base extra wide.rt narrow.rt
  pool : wide.pool = narrow.pool.map (List.map (Call.rename (shifted base extra.length)))
  arrived : wide.arrived = narrow.arrived.map (Call.rename (shifted base extra.length))
  kept : ∀ i ∈ narrow.kept, shifted base extra.length i ∈ wide.kept
  wider : ∀ x ∈ wide.kept,
    (∃ i ∈ narrow.kept, x = shifted base extra.length i) ∨ ∃ i < extra.length, x = base + i
  terminalKept : terminal ∈ narrow.kept
  below : terminal < base

section
variable {terminal base : ℕ} {extra : List (INode D)} {wide narrow : Engine D}

theorem held_eq (h : Widens terminal base extra wide narrow) (i : ℕ) :
    System.held wide.rt (shifted base extra.length i) = System.held narrow.rt i := by
  unfold System.held
  rw [h.rt.nodes i]
  cases narrow.rt.nodes[i]? with
  | none => rfl
  | some node =>
    cases node with
    | listener symbol field downstream stopping =>
      simp only [Option.map_some, INode.rename, h.rt.listeners symbol field,
        List.mem_map_of_injective shifted_injective]
    | _ => exact INode.ticking_rename _ _

theorem pool_nodes (h : Widens terminal base extra wide narrow) :
    wide.pool.flatten.map Call.node =
      (narrow.pool.flatten.map Call.node).map (shifted base extra.length) := by
  rw [h.pool, ← List.map_flatten, List.map_map, List.map_map]
  rfl

/-- The roots of the narrow engine are roots of the wide one. -/
theorem mem_roots (h : Widens terminal base extra wide narrow) {i : ℕ} (hi : i ∈ narrow.roots) :
    shifted base extra.length i ∈ wide.roots := by
  rcases List.mem_append.mp hi with hi | hi
  · rcases List.mem_append.mp hi with hi | hi
    · exact List.mem_append_left _ (List.mem_append_left _ (h.kept i hi))
    · obtain ⟨hlt, hheld⟩ := List.mem_filter.mp hi
      refine List.mem_append_left _ (List.mem_append_right _ (List.mem_filter.mpr ⟨?_, ?_⟩))
      · rw [List.mem_range, h.rt.length, shifted_lt_iff h.rt.bound]
        exact List.mem_range.mp hlt
      · rw [held_eq h]
        exact hheld
  · refine List.mem_append_right _ ?_
    rw [pool_nodes h]
    exact List.mem_map_of_mem hi

/-- A root of the wide engine is one of the narrow engine or an additional node. -/
theorem roots_cases (h : Widens terminal base extra wide narrow) {x : ℕ} (hx : x ∈ wide.roots) :
    (∃ i ∈ narrow.roots, x = shifted base extra.length i) ∨ ∃ i < extra.length, x = base + i := by
  rcases List.mem_append.mp hx with hx | hx
  · rcases List.mem_append.mp hx with hx | hx
    · refine (h.wider x hx).imp_left ?_
      rintro ⟨i, hi, rfl⟩
      exact ⟨i, List.mem_append_left _ (List.mem_append_left _ hi), rfl⟩
    · obtain ⟨hlt, hheld⟩ := List.mem_filter.mp hx
      refine (shifted_cases base extra.length x).imp_left ?_
      rintro ⟨i, rfl⟩
      rw [List.mem_range, h.rt.length, shifted_lt_iff h.rt.bound] at hlt
      rw [held_eq h] at hheld
      refine ⟨i, List.mem_append_left _ (List.mem_append_right _ ?_), rfl⟩
      exact List.mem_filter.mpr ⟨List.mem_range.mpr hlt, hheld⟩
  · rw [pool_nodes h] at hx
    obtain ⟨i, hi, rfl⟩ := List.mem_map.mp hx
    exact .inl ⟨i, List.mem_append_right _ hi, rfl⟩

/-- What the wide engine keeps alive is kept alive by the narrow one, or is an additional node. -/
theorem reached_cases (h : Widens terminal base extra wide narrow)
    (haside : Aside terminal base extra) {root y : ℕ} (hroot : root ∈ wide.roots)
    (hlt : root < wide.rt.nodes.length)
    (hpath : Relation.ReflTransGen (Runtime.Owned wide.rt.nodes) root y) :
    (∃ i, y = shifted base extra.length i ∧ ∃ a ∈ narrow.roots, a < narrow.rt.nodes.length ∧
      Relation.ReflTransGen (Runtime.Owned narrow.rt.nodes) a i) ∨
      ∃ i < extra.length, y = base + i := by
  have hbound := h.rt.bound
  have hbelow := h.below
  induction hpath with
  | refl =>
    refine (roots_cases h hroot).imp_left ?_
    rintro ⟨a, ha, rfl⟩
    rw [h.rt.length, shifted_lt_iff hbound] at hlt
    exact ⟨a, rfl, a, ha, hlt, .refl⟩
  | @tail y z hpath hedge ih =>
    obtain ⟨⟨node, hnode, howns⟩, hz⟩ := hedge
    rcases ih with ⟨i, rfl, a, ha, halt, hreach⟩ | ⟨j, hj, rfl⟩
    · rw [h.rt.nodes i] at hnode
      obtain ⟨node', hnode', rfl⟩ := Option.map_eq_some_iff.mp hnode
      rw [INode.owns_rename] at howns
      obtain ⟨z', hz', rfl⟩ := List.mem_map.mp howns
      rw [h.rt.length, shifted_lt_iff hbound] at hz
      exact .inl ⟨z', rfl, a, ha, halt, hreach.tail ⟨⟨node', hnode', hz'⟩, hz⟩⟩
    · rw [h.rt.extras j hj] at hnode
      rcases (haside j node hnode).2 z (Blueprint.targets_of_owns howns) with rfl | hextra
      · refine .inl ⟨z, (shifted_of_lt hbelow).symm, z, ?_, hbelow.trans_le hbound, .refl⟩
        exact List.mem_append_left _ (List.mem_append_left _ h.terminalKept)
      · exact .inr hextra

/-- The same nodes are alive: the additional ones keep nothing alive but the terminal, which is
kept anyway. -/
theorem alive_eq (h : Widens terminal base extra wide narrow) (haside : Aside terminal base extra)
    (i : ℕ) : wide.rt.alive wide.roots (shifted base extra.length i) =
      narrow.rt.alive narrow.roots i := by
  have hbound := h.rt.bound
  rw [Bool.eq_iff_iff, Runtime.alive_iff_owned, Runtime.alive_iff_owned]
  constructor
  · rintro ⟨root, hroot, hlt, hpath⟩
    rcases reached_cases h haside hroot hlt hpath with ⟨j, heq, hj⟩ | ⟨j, hj, heq⟩
    · rw [shifted_injective heq]
      exact hj
    · exact absurd heq (shifted_ne hj)
  · rintro ⟨a, ha, hlt, hpath⟩
    refine ⟨shifted base extra.length a, mem_roots h ha, ?_, ?_⟩
    · rw [h.rt.length, shifted_lt_iff hbound]
      exact hlt
    · refine hpath.lift (shifted base extra.length) ?_
      rintro x y ⟨⟨node, hnode, howns⟩, hy⟩
      refine ⟨⟨node.rename (shifted base extra.length), ?_, ?_⟩, ?_⟩
      · rw [h.rt.nodes x, hnode]
        rfl
      · rw [INode.owns_rename]
        exact List.mem_map_of_mem howns
      · rw [h.rt.length, shifted_lt_iff hbound]
        exact hy

end

/-- The action without the additional nodes: their timer threads are gone, and those behind them
have moved. -/
def withdraw (base count : ℕ) : EngineAction D → Option (EngineAction D)
  | .timer id =>
    if id < base then some (.timer id)
    else if id < base + count then none
    else some (.timer (id - count))
  | action => some action

theorem withdraw_shifted (base count i : ℕ) :
    withdraw base count (.timer (shifted base count i) : EngineAction D) = some (.timer i) := by
  rcases Nat.lt_or_ge i base with hlt | hge
  · rw [shifted_of_lt hlt, withdraw, if_pos hlt]
  · have hnot : ¬ i + count < base := by omega
    have hnot' : ¬ i + count < base + count := by omega
    rw [shifted_of_ge hge, withdraw, if_neg hnot, if_neg hnot', Nat.add_sub_cancel]

theorem withdraw_extra {base count i : ℕ} (hi : i < count) :
    withdraw base count (.timer (base + i) : EngineAction D) = none := by
  have hnot : ¬ base + i < base := by omega
  have hlt : base + i < base + count := by omega
  rw [withdraw, if_neg hnot, if_pos hlt]

section
variable [Double D] {terminal base : ℕ} {extra : List (INode D)} {wide narrow : Engine D}

omit [Double D] in
theorem widens_notify (h : Widens terminal base extra wide narrow) (symbol field : String)
    (value : D) : Widens terminal base extra (wide.notifyListeners symbol field value)
      (narrow.notifyListeners symbol field value) := by
  refine ⟨h.rt, ?_, h.arrived, h.kept, h.wider, h.terminalKept, h.below⟩
  simp only [notifyListeners]
  rw [h.pool, h.rt.listeners symbol field, List.map_append, List.map_map, List.map_map]
  rfl

theorem widens_timer (h : Widens terminal base extra wide narrow) (i : ℕ) :
    Widens terminal base extra (wide.fireTimer (shifted base extra.length i))
      (narrow.fireTimer i) := by
  obtain ⟨hrt, hposted⟩ := Runtime.widens_timerLoop h.rt i
  refine ⟨hrt, ?_, h.arrived, h.kept, h.wider, h.terminalKept, h.below⟩
  simp only [fireTimer]
  rw [h.pool, hposted, List.map_append, List.map_map, List.map_map]
  rfl

/-- The timer threads of the additional nodes do nothing. -/
theorem timer_extra (h : Widens terminal base extra wide narrow) (haside : Aside terminal base extra)
    {j : ℕ} (hj : j < extra.length) : wide.fireTimer (base + j) = wide := by
  have hnode : extra[j]? = some extra[j] := List.getElem?_eq_getElem hj
  have hidle := (haside j _ hnode).1
  have hat := h.rt.extras j hj
  rw [hnode] at hat
  unfold fireTimer Runtime.timerLoop
  rw [hat]
  cases hkind : extra[j] with
  | clock kind period child stopping =>
    rw [hkind] at hidle
    cases hidle
  | tumblingWindow period downstream stopping acc =>
    rw [hkind] at hidle
    obtain rfl : acc = [] := List.isEmpty_iff.mp hidle
    rw [hkind] at hat
    dsimp only
    cases stopping || downstream.isNone with
    | true => simp
    | false => simp [Runtime.setNode_same hat]
  | _ => simp

theorem work_eq {env : BuildEnv D} {store : String → String → Option (ArgType D)} {e : Engine D}
    {task : ℕ} {call : Call D} {rest : List (Call D)} (h : e.pool[task]? = some (call :: rest)) :
    e.work env store task =
      let out := e.rt.onValue env store (e.rt.alive e.roots) call.node call.value
      { e with
        rt := out.1
        pool := e.pool.set task (if out.2.thrown then [] else out.2.calls ++ rest) ++
          out.2.posted.map ([·])
        arrived := e.arrived ++ [call] } := by
  unfold work
  rw [h]

omit [Double D] in
theorem pool_rename {f : ℕ → ℕ} {pool pool' : List (List (Call D))} {effects effects' : Effects D}
    (hpool : pool = pool'.map (List.map (Call.rename f))) (heffects : effects = effects'.rename f)
    (task : ℕ) (rest : List (Call D)) :
    pool.set task (if effects.thrown then [] else effects.calls ++ rest.map (Call.rename f)) ++
        effects.posted.map ([·]) =
      (pool'.set task (if effects'.thrown then [] else effects'.calls ++ rest) ++
        effects'.posted.map ([·])).map (List.map (Call.rename f)) := by
  subst hpool heffects
  cases hthrown : effects'.thrown with
  | true => simp [Effects.rename, hthrown, List.map_set, Function.comp_def]
  | false => simp [Effects.rename, hthrown, List.map_set, Function.comp_def]

theorem widens_work (h : Widens terminal base extra wide narrow) (haside : Aside terminal base extra)
    (env : BuildEnv D) (store : String → String → Option (ArgType D)) (task : ℕ) :
    Widens terminal base extra (wide.work env store task) (narrow.work env store task) := by
  have hpool : wide.pool[task]? =
      (narrow.pool[task]?).map (List.map (Call.rename (shifted base extra.length))) := by
    rw [h.pool, List.getElem?_map]
  cases hat : narrow.pool[task]? with
  | none =>
    rw [hat] at hpool
    unfold work
    rw [hat, hpool]
    exact h
  | some calls =>
    cases calls with
    | nil =>
      rw [hat] at hpool
      unfold work
      rw [hat, hpool]
      exact h
    | cons call rest =>
      rw [hat] at hpool
      obtain ⟨hrt, heffects⟩ := Runtime.sameCall_onValue h.rt env store (alive_eq h haside)
        call.node call.value
      rw [work_eq hat, work_eq hpool]
      refine ⟨hrt, ?_, ?_, h.kept, h.wider, h.terminalKept, h.below⟩
      · exact pool_rename h.pool heffects task rest
      · rw [h.arrived, List.map_append]
        rfl

/-- An action does the same in both engines. -/
theorem widens_step (h : Widens terminal base extra wide narrow) (haside : Aside terminal base extra)
    (env : BuildEnv D) (action : EngineAction D) :
    Widens terminal base extra (wide.step env action)
      ((withdraw base extra.length action).elim narrow (narrow.step env)) := by
  cases action with
  | notify symbol field value => exact widens_notify h symbol field value
  | work task store => exact widens_work h haside env store task
  | timer id =>
    rcases shifted_cases base extra.length id with ⟨i, rfl⟩ | ⟨j, hj, rfl⟩
    · rw [withdraw_shifted]
      exact widens_timer h i
    · rw [withdraw_extra hj, step, timer_extra h haside hj]
      exact h

theorem widens_run (env : BuildEnv D) (haside : Aside terminal base extra)
    (actions : List (EngineAction D)) (h : Widens terminal base extra wide narrow) :
    Widens terminal base extra (wide.run env actions)
      (narrow.run env (actions.filterMap (withdraw base extra.length))) := by
  induction actions generalizing wide narrow with
  | nil => exact h
  | cons action actions ih =>
    have hstep := widens_step h haside env action
    cases haction : withdraw base extra.length action with
    | none =>
      rw [haction] at hstep
      rw [List.filterMap_cons_none haction]
      exact ih hstep
    | some action' =>
      rw [haction] at hstep
      rw [List.filterMap_cons_some haction]
      exact ih hstep

omit [Double D] in
/-- The terminal was given the same values. -/
theorem valuesAt_eq (h : Widens terminal base extra wide narrow) :
    wide.valuesAt terminal = narrow.valuesAt terminal := by
  have hiff : ∀ call : Call D, (shifted base extra.length call.node = terminal) ↔
      call.node = terminal := by
    intro call
    have hfixed : shifted base extra.length terminal = terminal := shifted_of_lt h.below
    have hiff : shifted base extra.length call.node = shifted base extra.length terminal ↔
        call.node = terminal := shifted_injective.eq_iff
    rwa [hfixed] at hiff
  unfold valuesAt
  rw [h.arrived, List.filter_map, List.map_map]
  congr 1
  apply List.filter_congr
  intro call _
  simp only [Function.comp_apply, Call.rename, hiff]

end

end Engine

namespace TreeBuilder
variable {D : Type}

mutual

/-- Nothing that is built for the specification listens, and no clock runs. -/
def quietSpec (spec : Json D) : Bool :=
  match nodeType spec with
  | .ok .listener | .ok .interval | .ok .bucketTime => false
  | .ok .aggregate =>
    match _h : spec.member "inputs" with
    | some (.array inputs) => allQuietSpecs inputs
    | _ => true
  | .ok .chain =>
    match _h : spec.member "stages" with
    | some (.array stages) => allQuietSpecs stages
    | _ => true
  | _ => true
termination_by 2 * sizeOf spec + 1
decreasing_by
  all_goals
    have hlt := Json.sizeOf_member_array _h
    omega

def allQuietSpecs (specs : List (Json D)) : Bool :=
  match specs with
  | [] => true
  | spec :: specs => quietSpec spec && allQuietSpecs specs
termination_by 2 * sizeOf specs
decreasing_by
  all_goals
    simp only [List.cons.sizeOf_spec]
    omega

end

theorem quiet_chain (stage : Blueprint D) (stages : List (Blueprint D)) :
    (Blueprint.chain stage stages).quiet = Blueprint.allQuiet (stage :: stages) := by
  induction stages generalizing stage with
  | nil => simp [Blueprint.chain, Blueprint.allQuiet]
  | cons next stages ih => rw [Blueprint.chain, Blueprint.quiet, ih, ← Blueprint.allQuiet]

section
variable {env : BuildEnv D} {key : String}

mutual

theorem quiet_eq : ∀ {spec : Json D} {bp : Blueprint D}, Specifies env key spec bp →
    bp.quiet = quietSpec spec
  | spec, _, .listener htype _ => by
    rw [quietSpec, htype]
    rfl
  | spec, _, @Specifies.clock _ _ _ _ t _ _ htype hkind _ => by
    rw [quietSpec, htype]
    cases t <;> cases hkind <;> rfl
  | spec, _, @Specifies.clockOf _ _ _ _ t _ _ _ _ htype hkind _ _ => by
    rw [quietSpec, htype]
    cases t <;> cases hkind <;> rfl
  | spec, _, @Specifies.plain _ _ _ _ t node htype hplain hnode => by
    have hquiet : (Blueprint.single node).quiet = true := by
      cases node with
      | clock kind period => cases hnode
      | _ => rfl
    rw [hquiet, quietSpec, htype]
    cases t <;> cases hplain <;> rfl
  | spec, _, .groupSplit htype _ => by
    rw [quietSpec, htype]
    rfl
  | spec, _, .aggregate htype hinputs hbps => by
    rw [quietSpec, htype]
    dsimp only
    generalize hmember : spec.member "inputs" = member
    obtain rfl := hmember.symm.trans hinputs
    exact allQuiet_eq hbps
  | spec, _, .chain htype hstages hbp hbps => by
    rw [quietSpec, htype]
    dsimp only
    generalize hmember : spec.member "stages" = member
    obtain rfl := hmember.symm.trans hstages
    rw [quiet_chain, Blueprint.allQuiet, quiet_eq hbp, allQuiet_eq hbps]
    dsimp only
    rw [allQuietSpecs]

theorem allQuiet_eq : ∀ {specs : List (Json D)} {bps : List (Blueprint D)},
    SpecifiesAll env key specs bps → Blueprint.allQuiet bps = allQuietSpecs specs
  | _, _, .nil => by
    rw [allQuietSpecs]
    rfl
  | _, _, .cons hbp hbps => by
    rw [allQuietSpecs, Blueprint.allQuiet, quiet_eq hbp, allQuiet_eq hbps]

end

end

/-- The request with `node` removed. -/
def withoutNode : Json D → Json D
  | .object members => .object (members.filter (fun m => m.1 ≠ "node"))
  | requestJson => requestJson

theorem member_withoutNode (requestJson : Json D) {name : String} (hname : name ≠ "node") :
    (withoutNode requestJson).member name = requestJson.member name := by
  cases requestJson with
  | object members =>
    simp only [withoutNode, Json.member, List.find?_filter]
    congr 2
    funext m
    by_cases hm : m.1 = name
    · simp [hm, hname]
    · simp [hm]
  | _ => rfl

theorem nodeOf_withoutNode (requestJson : Json D) : nodeOf (withoutNode requestJson) = none := by
  cases requestJson with
  | object members =>
    have hnone : (members.filter (fun m => m.1 ≠ "node")).find? (fun m => m.1 = "node") = none := by
      rw [List.find?_eq_none]
      intro m hm
      simpa using (List.mem_filter.mp hm).2
    rw [nodeOf, withoutNode, Json.member, hnone]
    rfl
  | _ => rfl

theorem pipelineOf_withoutNode (requestJson : Json D) :
    pipelineOf (withoutNode requestJson) = pipelineOf requestJson := by
  unfold pipelineOf
  rw [member_withoutNode requestJson (by decide), member_withoutNode requestJson (by decide)]

theorem requestKeys_withoutNode (requestJson : Json D) :
    requestKeys (withoutNode requestJson) = requestKeys requestJson := by
  have hobject : (withoutNode requestJson).isObject = requestJson.isObject := by
    cases requestJson <;> rfl
  unfold requestKeys expectObj
  rw [hobject, member_withoutNode requestJson (by decide),
    member_withoutNode requestJson (by decide)]

section
open EffectPlans RelatedRuns
variable [Double D] (env : BuildEnv D)

/-- The part of `buildForRequest` after the node is built. -/
def finish (pipeline : Option (List (Json D))) (keys : String × String) (terminal : NodeId)
    (node : Option NodeId) : Build D BuiltChain := do
  let stages ← pipeline.mapM (buildStages env · keys.1 (some terminal))
  let midHead := match stages with
    | some stages => stages.head?.getD terminal
    | none => node.getD terminal
  «require» (env.deps.dispatcher && env.deps.pool) "buildForRequest: missing dispatcher/pool"
  let head ← createListener keys.1 keys.2 (some midHead)
  return ⟨head, terminal :: node.toList ++ (stages.getD []).reverse⟩

theorem buildForRequest_eq (requestJson : Json D) (terminal : NodeId) :
    buildForRequest env requestJson (some terminal) = (do
      let keys ← (requestKeys requestJson : Build D (String × String))
      let node ← (nodeOf requestJson).mapM (buildOne env · keys.1 (some terminal))
      finish env (pipelineOf requestJson) keys terminal node) := rfl

omit [Double D] in
theorem related_createListener {base : ℕ} {extra : List (INode D)} (symbol field : String)
    (downstream : Option NodeId) :
    Related (Widens base extra) (fun id id' => id = shifted base extra.length id')
      (createListener symbol field (downstream.map (shifted base extra.length)))
      (createListener symbol field downstream) := by
  unfold createListener
  apply Related.checked
  intro _
  exact related_makeListener symbol field downstream

/-- With a pipeline, the node is only one more that is kept. -/
theorem related_finish {base : ℕ} {extra : List (INode D)} (stages : List (Json D))
    (keys : String × String) {terminal : ℕ} (hterminal : terminal < base) (root : ℕ) :
    Related (Widens base extra)
      (fun chain chain' => chain.head = shifted base extra.length chain'.head ∧
        ∃ rest : List ℕ, chain'.keepAlive = terminal :: rest ∧
          chain.keepAlive = terminal :: root :: rest.map (shifted base extra.length))
      (finish env (some stages) keys terminal (some root))
      (finish env (some stages) keys terminal none) := by
  have hfixed : shifted base extra.length terminal = terminal := shifted_of_lt hterminal
  have hstages := @related_buildStages D base extra _ env stages keys.1 (some terminal)
  rw [Option.map_some, hfixed] at hstages
  unfold finish
  rw [Option.mapM_some]
  have hmapped : Related (Widens base extra) (fun roots roots' => ∃ r : List ℕ, roots' = some r ∧
      roots = some (r.map (shifted base extra.length)))
      (some <$> buildStages env stages keys.1 (some terminal))
      (some <$> buildStages env stages keys.1 (some terminal)) :=
    hstages.map (fun _ r h => ⟨r, rfl, congrArg some h⟩)
  apply hmapped.bind
  rintro _ _ ⟨roots, rfl, rfl⟩
  have hmid : some ((roots.map (shifted base extra.length)).head?.getD terminal) =
      (some (roots.head?.getD terminal)).map (shifted base extra.length) := by
    cases roots with
    | nil => simp [hfixed]
    | cons root roots => simp
  dsimp only
  rw [hmid]
  apply Related.checked
  intro _
  apply (related_createListener keys.1 keys.2 (some (roots.head?.getD terminal))).bind
  rintro _ head rfl
  refine .pure ⟨rfl, roots.reverse, ?_, ?_⟩
  · simp
  · simp

end
end TreeBuilder

/-- Everything that the engine refers to is in the heap. -/
structure Engine.Sound {D : Type} (e : Engine D) : Prop where
  closed : e.rt.Closed
  listed : ∀ symbol field, ∀ id : ℕ, id ∈ e.rt.listeners symbol field → id < e.rt.nodes.length
  kept : ∀ id : ℕ, id ∈ e.kept → id < e.rt.nodes.length
  pool : ∀ calls ∈ e.pool, ∀ call ∈ calls, call.node < e.rt.nodes.length
  arrived : ∀ call ∈ e.arrived, call.node < e.rt.nodes.length

section
variable {D : Type} {e : Engine D}

theorem Call.rename_fixed {f : ℕ → ℕ} {call : Call D} (h : f call.node = call.node) :
    call.rename f = call := by
  rw [rename, h]

/-- Nodes at the end of the heap are additional. -/
theorem Engine.Sound.widens (h : e.Sound) (extra : List (INode D)) :
    GmaEngine.Widens e.rt.nodes.length extra { e.rt with nodes := e.rt.nodes ++ extra } e.rt := by
  refine ⟨Nat.le_refl _, List.length_append, ?_, ?_, ?_⟩
  · intro i
    rcases Nat.lt_or_ge i e.rt.nodes.length with hlt | hge
    · rw [shifted_of_lt hlt, List.getElem?_append_left hlt, List.getElem?_eq_getElem hlt,
        Option.map_some]
      congr 1
      refine (INode.rename_fixed _ ?_).symm
      intro x hx
      exact shifted_of_lt (h.closed i _ (List.getElem?_eq_getElem hlt) x hx)
    · rw [shifted_of_ge hge, List.getElem?_eq_none, List.getElem?_eq_none hge]
      · rfl
      · rw [List.length_append]
        omega
  · intro j hj
    rw [List.getElem?_append_right (by omega), Nat.add_sub_cancel_left]
  · intro symbol field
    have hsame : (e.rt.listeners symbol field).map (shifted e.rt.nodes.length extra.length) =
        (e.rt.listeners symbol field).map (fun id => id) :=
      List.map_congr_left (fun id hid => shifted_of_lt (h.listed symbol field id hid))
    rw [hsame, List.map_id']

/-- The engines that keep the chains of related builds. -/
theorem Engine.Sound.widens_keep (h : e.Sound) {extra : List (INode D)} {terminal root : ℕ}
    (hterminal : terminal < e.rt.nodes.length)
    (hroot : ∃ i < extra.length, root = e.rt.nodes.length + i) {rt rt' : Runtime D}
    (hrt : GmaEngine.Widens e.rt.nodes.length extra rt rt') {chain chain' : BuiltChain}
    (hhead : chain.head = shifted e.rt.nodes.length extra.length chain'.head) {rest : List ℕ}
    (hrest : chain'.keepAlive = terminal :: rest)
    (hwide : chain.keepAlive =
      terminal :: root :: rest.map (shifted e.rt.nodes.length extra.length)) :
    Engine.Widens terminal e.rt.nodes.length extra (e.keep rt chain) (e.keep rt' chain') := by
  have hcall : ∀ call : Call D, call.node < e.rt.nodes.length →
      call.rename (shifted e.rt.nodes.length extra.length) = call :=
    fun call hlt => Call.rename_fixed (shifted_of_lt hlt)
  refine ⟨hrt, ?_, ?_, ?_, ?_, ?_, hterminal⟩
  · have hsame : ∀ calls ∈ e.pool,
        calls.map (Call.rename (shifted e.rt.nodes.length extra.length)) = calls := by
      intro calls hcalls
      exact (List.map_congr_left (fun call hmem => hcall call (h.pool calls hcalls call hmem))).trans
        (List.map_id' calls)
    exact ((List.map_congr_left hsame).trans (List.map_id' e.pool)).symm
  · exact ((List.map_congr_left (fun call hmem => hcall call (h.arrived call hmem))).trans
      (List.map_id' e.arrived)).symm
  · intro i hi
    change i ∈ e.kept ++ chain'.head :: chain'.keepAlive at hi
    change _ ∈ e.kept ++ chain.head :: chain.keepAlive
    rw [hrest] at hi
    rw [hwide, hhead]
    rcases List.mem_append.mp hi with hi | hi
    · rw [shifted_of_lt (h.kept i hi)]
      exact List.mem_append_left _ hi
    · apply List.mem_append_right
      rcases List.mem_cons.mp hi with rfl | hi
      · exact List.mem_cons_self
      · rcases List.mem_cons.mp hi with rfl | hi
        · rw [shifted_of_lt hterminal]
          exact List.mem_cons_of_mem _ List.mem_cons_self
        · exact List.mem_cons_of_mem _ (List.mem_cons_of_mem _ (List.mem_cons_of_mem _
            (List.mem_map_of_mem hi)))
  · intro x hx
    change x ∈ e.kept ++ chain.head :: chain.keepAlive at hx
    change (∃ i ∈ e.kept ++ chain'.head :: chain'.keepAlive, _) ∨ _
    rw [hwide, hhead] at hx
    rw [hrest]
    rcases List.mem_append.mp hx with hx | hx
    · exact .inl ⟨x, List.mem_append_left _ hx, (shifted_of_lt (h.kept x hx)).symm⟩
    · rcases List.mem_cons.mp hx with rfl | hx
      · exact .inl ⟨_, List.mem_append_right _ List.mem_cons_self, rfl⟩
      · rcases List.mem_cons.mp hx with rfl | hx
        · refine .inl ⟨x, ?_, (shifted_of_lt hterminal).symm⟩
          exact List.mem_append_right _ (List.mem_cons_of_mem _ List.mem_cons_self)
        · rcases List.mem_cons.mp hx with rfl | hx
          · exact .inr hroot
          · obtain ⟨i, hi, rfl⟩ := List.mem_map.mp hx
            refine .inl ⟨i, ?_, rfl⟩
            exact List.mem_append_right _ (List.mem_cons_of_mem _ (List.mem_cons_of_mem _ hi))
  · change terminal ∈ e.kept ++ chain'.head :: chain'.keepAlive
    rw [hrest]
    exact List.mem_append_right _ (List.mem_cons_of_mem _ List.mem_cons_self)

end

theorem Blueprint.aside_layout {D : Type} (bp : Blueprint D) (terminal base : ℕ)
    (hquiet : bp.quiet = true) : Aside terminal base (bp.layout (some terminal) base).nodes := by
  intro j node hnode
  have hlt := (List.getElem?_eq_some_iff.mp hnode).1
  refine ⟨idle_layout bp _ _ hquiet node (List.mem_of_getElem? hnode), ?_⟩
  intro x hx
  rcases targets_layout bp (some terminal) base j node hnode x hx with hin | heq
  · exact .inr ⟨x - base, by omega, by omega⟩
  · exact .inl (Option.some.inj heq).symm

namespace TreeBuilder
open EffectPlans RelatedRuns
variable {D : Type} [Double D]

/-- The build of a request with both, up to the node. -/
theorem buildForRequest_node {env : BuildEnv D} {requestJson spec : Json D} {terminal : ℕ}
    {rt rt' : Runtime D} {built : BuiltChain} (hnode : nodeOf requestJson = some spec)
    (hbuild : outcome (buildForRequest env requestJson (some terminal)) rt = (.ok built, rt')) :
    ∃ keys bp, requestKeys requestJson = .ok keys ∧ Specifies env keys.1 spec bp ∧
      outcome (finish env (pipelineOf requestJson) keys terminal
        (some (bp.layout (some terminal) rt.nodes.length).root))
        (rt.install (bp.layout (some terminal) rt.nodes.length).nodes) = (.ok built, rt') := by
  rw [buildForRequest_eq, outcome_bind, outcome_liftM] at hbuild
  cases hkeys : requestKeys requestJson with
  | error e =>
    rw [hkeys] at hbuild
    cases (Prod.mk.inj hbuild).1
  | ok keys =>
    rw [hkeys] at hbuild
    dsimp only at hbuild
    have hone := realizes_buildOne env spec keys.1 (some terminal) rt []
    rw [hnode, Option.mapM_some, bind_map_left, outcome_bind] at hbuild
    cases hread : blueprint env spec keys.1 with
    | error e =>
      rw [hread] at hone
      change (outcome (buildOne env spec keys.1 (some terminal)) rt).1 = .error e at hone
      generalize outcome (buildOne env spec keys.1 (some terminal)) rt = out at hone hbuild
      obtain ⟨result, rt₁⟩ := out
      cases hone
      cases (Prod.mk.inj hbuild).1
    | ok bp =>
      rw [hread] at hone
      change outcome (buildOne env spec keys.1 (some terminal)) rt = _ at hone
      refine ⟨keys, bp, rfl, specifies_of_blueprint env spec keys.1 bp hread, ?_⟩
      rw [hone] at hbuild
      exact hbuild

/-- The request without its node is built by the remaining part alone. -/
theorem buildForRequest_withoutNode (env : BuildEnv D) {requestJson : Json D}
    {keys : String × String} (hkeys : requestKeys requestJson = .ok keys) (terminal : ℕ)
    (rt : Runtime D) :
    outcome (buildForRequest env (withoutNode requestJson) (some terminal)) rt =
      outcome (finish env (pipelineOf requestJson) keys terminal none) rt := by
  rw [buildForRequest_eq, requestKeys_withoutNode, nodeOf_withoutNode, pipelineOf_withoutNode, hkeys]
  rfl

/-- Beside a pipeline, a node in which nothing listens and no clock runs is without effect: the
terminal is given the same values, and the same Listeners are registered, as without it. -/
theorem pipeline_overrides_quiet_node (env : BuildEnv D) (requestJson spec : Json D)
    (stages : List (Json D)) (terminal : ℕ) (e : Engine D) (rt : Runtime D) (built : BuiltChain)
    (hsound : e.Sound) (hterminal : terminal < e.rt.nodes.length)
    (hnode : nodeOf requestJson = some spec) (hpipeline : pipelineOf requestJson = some stages)
    (hbuild : (buildForRequest env requestJson (some terminal)).run.run e.rt = (.ok built, rt))
    (hquiet : quietSpec spec = true) :
    ∃ built₀ rt₀, (buildForRequest env (withoutNode requestJson) (some terminal)).run.run e.rt =
        (.ok built₀, rt₀) ∧
      ∀ actions : List (EngineAction D),
        let withNode := (e.keep rt built).run env actions
        let without := (e.keep rt₀ built₀).run env (actions.filterMap
          (Engine.withdraw e.rt.nodes.length (rt.nodes.length - rt₀.nodes.length)))
        withNode.valuesAt terminal = without.valuesAt terminal ∧
          ∀ symbol field, withNode.rt.listeners symbol field =
            (without.rt.listeners symbol field).map
              (shifted e.rt.nodes.length (rt.nodes.length - rt₀.nodes.length)) := by
  obtain ⟨keys, bp, hkeys, hspec, hfinish⟩ := buildForRequest_node hnode hbuild
  have hbp : bp.quiet = true := by rw [quiet_eq hspec, hquiet]
  have haside := bp.aside_layout terminal e.rt.nodes.length hbp
  rw [Runtime.install_of_idle _ _ (bp.idle_layout _ _ hbp), hpipeline] at hfinish
  have hwithout := buildForRequest_withoutNode env hkeys terminal e.rt
  rw [hpipeline] at hwithout
  have hstart := hsound.widens (bp.layout (some terminal) e.rt.nodes.length).nodes
  obtain ⟨hrt, hresult⟩ := related_finish env stages keys hterminal
    (bp.layout (some terminal) e.rt.nodes.length).root _ _ hstart
  rw [← hwithout, hfinish] at hrt hresult
  change ∃ built₀ rt₀, outcome (buildForRequest env (withoutNode requestJson) (some terminal)) e.rt =
    (.ok built₀, rt₀) ∧ _
  generalize outcome (buildForRequest env (withoutNode requestJson) (some terminal)) e.rt = out
    at hrt hresult ⊢
  obtain ⟨result, rt₀⟩ := out
  cases result with
  | error e => exact hresult.elim
  | ok built₀ =>
    obtain ⟨hhead, rest, hrest, hwide⟩ := hresult
    refine ⟨built₀, rt₀, rfl, ?_⟩
    intro actions
    have hroot := bp.root_mem_places (some terminal) e.rt.nodes.length
    have hkeep := hsound.widens_keep hterminal ⟨_, Nat.sub_lt_left_of_lt_add hroot.1 hroot.2,
      (Nat.add_sub_cancel' hroot.1).symm⟩ hrt hhead hrest hwide
    have hcount : rt.nodes.length - rt₀.nodes.length =
        (bp.layout (some terminal) e.rt.nodes.length).nodes.length := by
      have hlength : rt.nodes.length = rt₀.nodes.length +
        (bp.layout (some terminal) e.rt.nodes.length).nodes.length := hrt.length
      omega
    have hrun := Engine.widens_run env haside actions hkeep
    rw [hcount]
    exact ⟨Engine.valuesAt_eq hrun, hrun.rt.listeners⟩

/-- An engine that holds a terminal only. -/
def terminalEngine : Engine ExactDouble := { rt := terminalOnly }

theorem terminalEngine_sound : terminalEngine.Sound := by
  refine ⟨terminalOnly_closed, ?_, ?_, ?_, ?_⟩
  · intro symbol field id hid
    cases hid
  · intro id hid
    cases hid
  · intro calls hcalls
    cases hcalls
  · intro call hcall
    cases hcall

/-- A request with both, whose node has the given type. -/
def nodeAndPipeline (type : String) : Json ExactDouble :=
  .object [("streamKey", .string "AAPL"), ("field", .string "ask"),
    ("node", .object [("type", .string type), ("field", .string "bid")]), ("pipeline", .array [])]

theorem pipeline_overrides_accessor :
    ∃ built₀ rt₀, (buildForRequest fullEnv (withoutNode (nodeAndPipeline "AtomicAccessor"))
        (some 0)).run.run terminalOnly = (.ok built₀, rt₀) ∧
      ∀ actions : List (EngineAction ExactDouble),
        let rt := ((buildForRequest fullEnv (nodeAndPipeline "AtomicAccessor") (some 0)).run.run
          terminalOnly).2
        let withNode := (terminalEngine.keep rt ⟨2, [0, 1]⟩).run fullEnv actions
        let without := (terminalEngine.keep rt₀ built₀).run fullEnv (actions.filterMap
          (Engine.withdraw 1 (rt.nodes.length - rt₀.nodes.length)))
        withNode.valuesAt 0 = without.valuesAt 0 ∧
          ∀ symbol field, withNode.rt.listeners symbol field =
            (without.rt.listeners symbol field).map
              (shifted 1 (rt.nodes.length - rt₀.nodes.length)) := by
  have hbuild : ((buildForRequest fullEnv (nodeAndPipeline "AtomicAccessor") (some 0)).run.run
      terminalOnly).1 = .ok ⟨2, [0, 1]⟩ := by decide +kernel
  exact pipeline_overrides_quiet_node fullEnv (nodeAndPipeline "AtomicAccessor")
    (.object [("type", .string "AtomicAccessor"), ("field", .string "bid")]) [] 0 terminalEngine _
    ⟨2, [0, 1]⟩ terminalEngine_sound (by decide) rfl rfl (Prod.ext hbuild rfl) (by decide +kernel)

theorem node_listens_beside_pipeline :
    ¬ ∀ (env : BuildEnv ExactDouble) (requestJson spec : Json ExactDouble)
      (stages : List (Json ExactDouble)) (terminal : ℕ) (e : Engine ExactDouble)
      (rt : Runtime ExactDouble) (built : BuiltChain), e.Sound → terminal < e.rt.nodes.length →
      nodeOf requestJson = some spec → pipelineOf requestJson = some stages →
      (buildForRequest env requestJson (some terminal)).run.run e.rt = (.ok built, rt) →
      ∃ built₀ rt₀, (buildForRequest env (withoutNode requestJson) (some terminal)).run.run e.rt =
          (.ok built₀, rt₀) ∧
        ∀ actions : List (EngineAction ExactDouble),
          let withNode := (e.keep rt built).run env actions
          let without := (e.keep rt₀ built₀).run env (actions.filterMap
            (Engine.withdraw e.rt.nodes.length (rt.nodes.length - rt₀.nodes.length)))
          withNode.valuesAt terminal = without.valuesAt terminal ∧
            ∀ symbol field, withNode.rt.listeners symbol field =
              (without.rt.listeners symbol field).map
                (shifted e.rt.nodes.length (rt.nodes.length - rt₀.nodes.length)) := by
  intro h
  have hbuild : ((buildForRequest fullEnv (nodeAndPipeline "Listener") (some 0)).run.run
      terminalOnly).1 = .ok ⟨2, [0, 1]⟩ := by decide +kernel
  have hwith : ((buildForRequest fullEnv (nodeAndPipeline "Listener") (some 0)).run.run
      terminalOnly).2.listeners "AAPL" "bid" = [1] := by decide +kernel
  have hwithout : ((buildForRequest fullEnv (withoutNode (nodeAndPipeline "Listener"))
      (some 0)).run.run terminalOnly).2.listeners "AAPL" "bid" = [] := by decide +kernel
  obtain ⟨built₀, rt₀, hbuilt, hsame⟩ := h fullEnv (nodeAndPipeline "Listener")
    (.object [("type", .string "Listener"), ("field", .string "bid")]) [] 0 terminalEngine _
    ⟨2, [0, 1]⟩ terminalEngine_sound (by decide) rfl rfl (Prod.ext hbuild rfl)
  have hlisteners := (hsame []).2 "AAPL" "bid"
  change (buildForRequest fullEnv (withoutNode (nodeAndPipeline "Listener"))
    (some 0)).run.run terminalOnly = (.ok built₀, rt₀) at hbuilt
  rw [hbuilt] at hwithout
  change ((buildForRequest fullEnv (nodeAndPipeline "Listener") (some 0)).run.run
    terminalOnly).2.listeners "AAPL" "bid" = (rt₀.listeners "AAPL" "bid").map _ at hlisteners
  rw [hwith, hwithout] at hlisteners
  cases hlisteners

end TreeBuilder

end GmaEngine
