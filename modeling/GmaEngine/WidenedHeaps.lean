import GmaEngine.NodeValues
import GmaEngine.RelatedRuns

/-!
# A heap with additional nodes

Two runtimes that differ by some nodes which stand between the others in one of them: the nodes
behind them have moved, and all pointers with them. What the nodes do is the same.
-/

namespace GmaEngine

/-- Where a node stands after `count` nodes have been put in at `base`. -/
def shifted (base count i : ℕ) : ℕ := if i < base then i else i + count

section
variable {base count : ℕ}

theorem shifted_of_lt {i : ℕ} (h : i < base) : shifted base count i = i := if_pos h

theorem shifted_of_ge {i : ℕ} (h : base ≤ i) : shifted base count i = i + count :=
  if_neg (Nat.not_lt.mpr h)

theorem shifted_lt_iff {i n : ℕ} (h : base ≤ n) : shifted base count i < n + count ↔ i < n := by
  rcases Nat.lt_or_ge i base with hlt | hge
  · rw [shifted_of_lt hlt]
    omega
  · rw [shifted_of_ge hge]
    omega

theorem shifted_injective : Function.Injective (shifted base count) := by
  intro i j h
  unfold shifted at h
  split_ifs at h
  all_goals omega

/-- Every place is that of a node that has moved, or of an additional one. -/
theorem shifted_cases (base count j : ℕ) :
    (∃ i, j = shifted base count i) ∨ ∃ i < count, j = base + i := by
  rcases Nat.lt_or_ge j base with hlt | hge
  · exact .inl ⟨j, (shifted_of_lt hlt).symm⟩
  · rcases Nat.lt_or_ge j (base + count) with hlt' | hge'
    · exact .inr ⟨j - base, by omega, by omega⟩
    · refine .inl ⟨j - count, ?_⟩
      rw [shifted_of_ge (by omega)]
      omega

theorem shifted_ne {i j : ℕ} (hj : j < count) : shifted base count i ≠ base + j := by
  unfold shifted
  split_ifs <;> omega

end

variable {D : Type}

namespace INode

/-- The node with its pointers moved. -/
def rename (f : ℕ → ℕ) : INode D → INode D
  | listener symbol field downstream stopping => .listener symbol field (downstream.map f) stopping
  | clock kind period child stopping => .clock kind period (child.map f) stopping
  | tumblingWindow period downstream stopping acc =>
    .tumblingWindow period (downstream.map f) stopping acc
  | vectorReducer fn downstream stopping => .vectorReducer fn (downstream.map f) stopping
  | atomicAccessor symbol field downstream stopping =>
    .atomicAccessor symbol field (downstream.map f) stopping
  | worker fn downstream stopping acc => .worker fn (downstream.map f) stopping acc
  | aggregate arity parent stopping buf => .aggregate arity (parent.map f) stopping buf
  | compositeRoot roots => .compositeRoot (roots.map f)
  | groupSplit childDoc key downstream children =>
    .groupSplit childDoc key (downstream.map f) (children.map (Prod.map id f))
  | responder key stopped => .responder key stopped

variable (f : ℕ → ℕ) (node : INode D)

theorem targets_rename : (node.rename f).targets = node.targets.map f := by
  cases node with
  | compositeRoot roots => rfl
  | responder key stopped => rfl
  | groupSplit childDoc key downstream children =>
    cases downstream <;> simp [rename, targets]
  | listener _ _ downstream _ => cases downstream <;> rfl
  | clock _ _ child _ => cases child <;> rfl
  | tumblingWindow _ downstream _ _ => cases downstream <;> rfl
  | vectorReducer _ downstream _ => cases downstream <;> rfl
  | atomicAccessor _ _ downstream _ => cases downstream <;> rfl
  | worker _ downstream _ _ => cases downstream <;> rfl
  | aggregate _ parent _ _ => cases parent <;> rfl

theorem owns_rename : (node.rename f).owns = node.owns.map f := by
  have htargets := targets_rename f node
  cases node with
  | listener _ _ _ _ => rfl
  | _ => exact htargets

theorem ticking_rename : (node.rename f).ticking = node.ticking := by
  cases node <;> simp [rename, ticking]

end INode

def Call.rename (f : ℕ → ℕ) (call : Call D) : Call D := ⟨f call.node, call.value⟩

def Effects.rename (f : ℕ → ℕ) (effects : Effects D) : Effects D :=
  { effects with
    calls := effects.calls.map (Call.rename f)
    posted := effects.posted.map (Call.rename f) }

theorem callTo_map (f : ℕ → ℕ) (target : Option NodeId) (value : StreamValue D) :
    Runtime.callTo (target.map f) value = (Runtime.callTo target value).map (Call.rename f) := by
  cases target <;> rfl

/-- The wide runtime has the additional nodes at `base`, and else what the narrow one has. -/
structure Widens (base : ℕ) (extra : List (INode D)) (wide narrow : Runtime D) : Prop where
  bound : base ≤ narrow.nodes.length
  length : wide.nodes.length = narrow.nodes.length + extra.length
  nodes : ∀ i : ℕ, wide.nodes[shifted base extra.length i]? =
    (narrow.nodes[i]?).map (INode.rename (shifted base extra.length))
  extras : ∀ j < extra.length, wide.nodes[base + j]? = extra[j]?
  listeners : ∀ symbol field, wide.listeners symbol field =
    (narrow.listeners symbol field).map (shifted base extra.length)

namespace Widens
variable {base : ℕ} {extra : List (INode D)} {wide narrow : Runtime D}

theorem shifted_length (h : Widens base extra wide narrow) :
    shifted base extra.length narrow.nodes.length = wide.nodes.length := by
  rw [shifted_of_ge h.bound, h.length]

theorem push (h : Widens base extra wide narrow) (node : INode D) :
    Widens base extra
      { wide with nodes := wide.nodes ++ [node.rename (shifted base extra.length)] }
      { narrow with nodes := narrow.nodes ++ [node] } := by
  have hbound := h.bound
  have hlength := h.length
  refine ⟨?_, ?_, ?_, ?_, h.listeners⟩
  · rw [List.length_append]
    omega
  · rw [List.length_append, List.length_append]
    simp only [List.length_singleton]
    omega
  · intro i
    rcases Nat.lt_trichotomy i narrow.nodes.length with hlt | rfl | hgt
    · have hlt' : shifted base extra.length i < narrow.nodes.length + extra.length :=
        (shifted_lt_iff hbound).mpr hlt
      rw [List.getElem?_append_left (by omega), List.getElem?_append_left hlt, h.nodes i]
    · rw [h.shifted_length]
      simp
    · have hge : ¬ shifted base extra.length i < narrow.nodes.length + 1 + extra.length := by
        rw [shifted_lt_iff (by omega)]
        omega
      rw [List.getElem?_eq_none (by rw [List.length_append, List.length_singleton]; omega),
        List.getElem?_eq_none (by rw [List.length_append, List.length_singleton]; omega)]
      rfl
  · intro j hj
    rw [List.getElem?_append_left (by omega)]
    exact h.extras j hj

theorem setNode (h : Widens base extra wide narrow) (id : ℕ) (node : INode D) :
    Widens base extra (wide.setNode (shifted base extra.length id)
      (node.rename (shifted base extra.length))) (narrow.setNode id node) := by
  refine ⟨?_, ?_, ?_, ?_, h.listeners⟩
  · simpa [Runtime.setNode] using h.bound
  · simpa [Runtime.setNode] using h.length
  · intro i
    simp only [Runtime.setNode, List.getElem?_set, shifted_injective.eq_iff]
    by_cases hid : id = i
    · subst hid
      rw [if_pos rfl, if_pos rfl, h.length]
      simp only [shifted_lt_iff h.bound]
      split_ifs <;> rfl
    · rw [if_neg hid, if_neg hid, h.nodes i]
  · intro j hj
    rw [Runtime.setNode, List.getElem?_set_ne (shifted_ne hj)]
    exact h.extras j hj

theorem register (h : Widens base extra wide narrow) (symbol field : String) (id : ℕ) :
    Widens base extra (wide.registerListener symbol field (shifted base extra.length id))
      (narrow.registerListener symbol field id) := by
  refine ⟨h.bound, h.length, h.nodes, h.extras, ?_⟩
  intro s f
  have hlisteners := h.listeners s f
  rw [Runtime.listeners_registerListener, Runtime.listeners_registerListener, hlisteners,
    List.map_append]
  split_ifs <;> rfl

end Widens

namespace TreeBuilder
open EffectPlans RelatedRuns

section
variable {base : ℕ} {extra : List (INode D)}

theorem related_make (node : INode D) :
    Related (Widens base extra) (fun id id' => id = shifted base extra.length id')
      (make (node.rename (shifted base extra.length))) (make node) := by
  intro wide narrow h
  exact ⟨h.push node, h.shifted_length.symm⟩

theorem related_makeListener (symbol field : String) (downstream : Option NodeId) :
    Related (Widens base extra) (fun id id' => id = shifted base extra.length id')
      (makeListener symbol field (downstream.map (shifted base extra.length)))
      (makeListener symbol field downstream) := by
  intro wide narrow h
  have hpush := h.push (.listener symbol field downstream false)
  have hregister := hpush.register symbol field narrow.nodes.length
  rw [h.shifted_length] at hregister
  exact ⟨hregister, h.shifted_length.symm⟩

variable [Double D] (env : BuildEnv D)

mutual

theorem related_buildOne (spec : Json D) (key : String) (downstream : Option NodeId) :
    Related (Widens base extra) (fun id id' => id = shifted base extra.length id')
      (buildOne env spec key (downstream.map (shifted base extra.length)))
      (buildOne env spec key downstream) := by
  rw [buildOne, buildOne]
  apply Related.checked
  intro t
  cases t with
  | listener =>
    apply Related.checked
    intro keys
    exact related_makeListener keys.1 keys.2 downstream
  | interval =>
    apply Related.checked
    intro ms
    apply (related_buildChild spec key downstream).bind
    rintro _ child rfl
    exact related_make (.clock .interval ms child false)
  | bucketTime =>
    apply Related.checked
    intro ms
    apply (related_buildChild spec key downstream).bind
    rintro _ child rfl
    exact related_make (.clock .bucketTime ms child false)
  | tumblingWindow =>
    apply Related.checked
    intro ms
    exact related_make (.tumblingWindow ms downstream false [])
  | vectorReducer =>
    apply Related.checked
    intro reducer
    exact related_make (.vectorReducer reducer downstream false)
  | atomicAccessor =>
    apply Related.checked
    intro keys
    exact related_make (.atomicAccessor keys.1 keys.2 downstream false)
  | worker =>
    apply Related.checked
    intro fn
    exact related_make (.worker fn downstream false [])
  | aggregate =>
    apply Related.checked
    intro arity
    apply (related_make (.aggregate arity downstream false [])).bind
    rintro _ agg rfl
    generalize hinputs : spec.member "inputs" = member
    cases member with
    | none => exact .throw _
    | some value =>
      cases value with
      | array inputs =>
        have hlt := Json.sizeOf_member_array hinputs
        apply (related_buildInputs inputs key agg).bind
        rintro _ roots rfl
        rw [List.isEmpty_map]
        apply Related.checked
        intro _
        have hmake := @related_make D base extra (.compositeRoot (roots ++ [agg]))
        rw [INode.rename, List.map_append] at hmake
        exact hmake
      | _ => exact .throw _
  | groupSplit =>
    apply Related.checked
    intro child
    exact related_make (.groupSplit child key downstream [])
  | chain =>
    generalize hstages : spec.member "stages" = member
    cases member with
    | none => exact .throw _
    | some value =>
      cases value with
      | array stages =>
        cases stages with
        | nil => exact .throw _
        | cons stage stages =>
          have hlt := Json.sizeOf_member_cons hstages
          apply (related_buildStages stages key downstream).bind
          rintro _ below rfl
          rw [List.head?_map, ← Option.map_or]
          exact related_buildOne stage key _
      | _ => exact .throw _
termination_by 2 * sizeOf spec + 1
decreasing_by all_goals omega

theorem related_buildChild (spec : Json D) (key : String) (downstream : Option NodeId) :
    Related (Widens base extra) (fun child child' => child = child'.map (shifted base extra.length))
      (buildChild env spec key (downstream.map (shifted base extra.length)))
      (buildChild env spec key downstream) := by
  rw [buildChild, buildChild]
  generalize hchild : spec.member "child" = member
  cases member with
  | none => exact .pure rfl
  | some child =>
    have hlt := Json.sizeOf_member hchild
    apply (related_buildOne child key downstream).map
    rintro _ id rfl
    rfl
termination_by 2 * sizeOf spec
decreasing_by omega

theorem related_buildInputs (inputs : List (Json D)) (key : String) (agg : NodeId) :
    Related (Widens base extra) (fun roots roots' => roots = roots'.map (shifted base extra.length))
      (buildInputs env inputs key (shifted base extra.length agg))
      (buildInputs env inputs key agg) := by
  cases inputs with
  | nil =>
    rw [buildInputs, buildInputs]
    exact .pure rfl
  | cons input inputs =>
    rw [buildInputs, buildInputs]
    apply (related_buildOne input key (some agg)).bind
    rintro _ root rfl
    apply (related_buildInputs inputs key agg).bind
    rintro _ roots rfl
    exact .pure rfl
termination_by 2 * sizeOf inputs
decreasing_by
  all_goals
    simp only [List.cons.sizeOf_spec]
    omega

theorem related_buildStages (stages : List (Json D)) (key : String) (downstream : Option NodeId) :
    Related (Widens base extra) (fun roots roots' => roots = roots'.map (shifted base extra.length))
      (buildStages env stages key (downstream.map (shifted base extra.length)))
      (buildStages env stages key downstream) := by
  cases stages with
  | nil =>
    rw [buildStages, buildStages]
    exact .pure rfl
  | cons stage stages =>
    rw [buildStages, buildStages]
    apply (related_buildStages stages key downstream).bind
    rintro _ below rfl
    rw [List.head?_map, ← Option.map_or]
    apply (related_buildOne stage key _).bind
    rintro _ root rfl
    exact .pure rfl
termination_by 2 * sizeOf stages
decreasing_by
  all_goals
    simp only [List.cons.sizeOf_spec]
    omega

end
end
end TreeBuilder

theorem lookupKey_map {κ : Type} [DecidableEq κ] (f : ℕ → ℕ) (entries : List (κ × ℕ)) (k : κ) :
    lookupKey (entries.map (Prod.map id f)) k = (lookupKey entries k).map f := by
  induction entries with
  | nil => rfl
  | cons entry entries ih =>
    unfold lookupKey at ih ⊢
    by_cases hk : entry.1 = k
    · simp [hk]
    · simpa [hk] using ih

/-- Two calls leave related runtimes and lead to the same calls. -/
def SameCall (base : ℕ) (extra : List (INode D)) (out out' : Runtime D × Effects D) : Prop :=
  Widens base extra out.1 out'.1 ∧ out.2 = out'.2.rename (shifted base extra.length)

namespace Runtime
variable {base : ℕ} {extra : List (INode D)} {wide narrow : Runtime D}

theorem sameCall_idle (h : Widens base extra wide narrow) :
    SameCall base extra (wide, {}) (narrow, {}) := ⟨h, rfl⟩

theorem sameCall_calls (h : Widens base extra wide narrow) (downstream : Option NodeId)
    (value : StreamValue D) :
    SameCall base extra (wide, { calls := callTo (downstream.map (shifted base extra.length)) value })
      (narrow, { calls := callTo downstream value }) := by
  refine ⟨h, ?_⟩
  rw [callTo_map]
  rfl

theorem sameCall_listener (h : Widens base extra wide narrow) {live live' : NodeId → Bool}
    (hlive : ∀ id, live (shifted base extra.length id) = live' id) (downstream : Option NodeId)
    (stopping : Bool) (sv : StreamValue D) :
    SameCall base extra
      (listenerOnValue live wide (downstream.map (shifted base extra.length)) stopping sv)
      (listenerOnValue live' narrow downstream stopping sv) := by
  have hfilter : (downstream.map (shifted base extra.length)).filter live =
      (downstream.filter live').map (shifted base extra.length) := by
    cases downstream with
    | none => rfl
    | some id =>
      rw [Option.map_some, Option.filter_some, Option.filter_some, hlive id]
      split_ifs <;> rfl
  unfold listenerOnValue
  rw [hfilter, callTo_map]
  cases stopping <;> exact ⟨h, rfl⟩

variable [Double D]

omit [Double D] in
theorem sameCall_reducer (h : Widens base extra wide narrow) (fn : Func D)
    (downstream : Option NodeId) (stopping : Bool) (sv : StreamValue D) :
    SameCall base extra
      (vectorReducerOnValue wide fn (downstream.map (shifted base extra.length)) stopping sv)
      (vectorReducerOnValue narrow fn downstream stopping sv) := by
  unfold vectorReducerOnValue
  cases stopping with
  | true => exact sameCall_idle h
  | false =>
    cases hvalue : sv.value with
    | doubles vec =>
      dsimp only
      cases fn vec with
      | none => exact sameCall_idle h
      | some out => exact sameCall_calls h downstream _
    | _ => exact sameCall_idle h

omit [Double D] in
theorem sameCall_accessor (h : Widens base extra wide narrow)
    (store : String → String → Option (ArgType D)) (symbol field : String)
    (downstream : Option NodeId) (stopping : Bool) :
    SameCall base extra (atomicAccessorOnValue store wide symbol field
        (downstream.map (shifted base extra.length)) stopping)
      (atomicAccessorOnValue store narrow symbol field downstream stopping) := by
  unfold atomicAccessorOnValue
  cases stopping with
  | true => exact sameCall_idle h
  | false =>
    cases store symbol field with
    | none => exact sameCall_idle h
    | some value => exact sameCall_calls h downstream _

theorem sameCall_window (h : Widens base extra wide narrow) (id : ℕ) (period : ℤ)
    (downstream : Option NodeId) (stopping : Bool) (acc : List (String × List D))
    (sv : StreamValue D) :
    SameCall base extra (tumblingWindowOnValue wide (shifted base extra.length id) period
        (downstream.map (shifted base extra.length)) stopping acc sv)
      (tumblingWindowOnValue narrow id period downstream stopping acc sv) := by
  unfold tumblingWindowOnValue
  cases stopping || refuses acc sv.symbol with
  | true => exact sameCall_idle h
  | false => exact ⟨h.setNode id (.tumblingWindow period downstream stopping _), rfl⟩

omit [Double D] in
theorem sameCall_worker (h : Widens base extra wide narrow) (id : ℕ)
    (fn : List (ArgType D) → Option (ArgType D)) (downstream : Option NodeId) (stopping : Bool)
    (acc : List (String × List (ArgType D))) (sv : StreamValue D) :
    SameCall base extra (workerOnValue wide (shifted base extra.length id) fn
        (downstream.map (shifted base extra.length)) stopping acc sv)
      (workerOnValue narrow id fn downstream stopping acc sv) := by
  unfold workerOnValue
  cases stopping || refuses acc sv.symbol with
  | true => exact sameCall_idle h
  | false =>
    dsimp only
    generalize (lookupKey acc sv.symbol).getD [] ++ [sv.value] = all
    cases fn (all.drop (all.length - 1000)) with
    | none => exact ⟨h.setNode id (.worker fn downstream stopping _), rfl⟩
    | some out => exact sameCall_calls (h.setNode id (.worker fn downstream stopping _)) downstream _

omit [Double D] in
theorem sameCall_aggregate (h : Widens base extra wide narrow) (id arity : ℕ)
    (parent : Option NodeId) (stopping : Bool) (buf : List (String × List (ArgType D)))
    (sv : StreamValue D) :
    SameCall base extra (aggregateOnValue wide (shifted base extra.length id) arity
        (parent.map (shifted base extra.length)) stopping buf sv)
      (aggregateOnValue narrow id arity parent stopping buf sv) := by
  unfold aggregateOnValue
  cases stopping || refuses buf sv.symbol with
  | true => exact sameCall_idle h
  | false =>
    dsimp only
    generalize (lookupKey buf sv.symbol).getD [] ++ [sv.value] = vals
    simp only [Bool.false_eq_true, if_false]
    split_ifs with hfull
    · exact ⟨h.setNode id (.aggregate arity parent stopping _), rfl⟩
    · refine ⟨h.setNode id (.aggregate arity parent stopping _), ?_⟩
      simp only [Effects.rename, List.map_flatMap, callTo_map, List.map_nil]

theorem sameCall_groupSplit (h : Widens base extra wide narrow) (env : BuildEnv D) (place : ℕ)
    (childDoc : Json D) (key : String) (downstream : Option NodeId)
    (children : List (String × NodeId)) (sv : StreamValue D) :
    SameCall base extra (groupSplitOnValue env wide (shifted base extra.length place) childDoc key
        (downstream.map (shifted base extra.length))
        (children.map (Prod.map id (shifted base extra.length))) sv)
      (groupSplitOnValue env narrow place childDoc key downstream children sv) := by
  unfold groupSplitOnValue
  rw [lookupKey_map, List.length_map]
  cases lookupKey children sv.symbol with
  | some child => exact ⟨h, rfl⟩
  | none =>
    dsimp only [Option.map_none]
    generalize (if sv.symbol = "" then key else sv.symbol) = childKey
    split_ifs with hfull
    · exact sameCall_idle h
    · obtain ⟨hrt, hresult⟩ := TreeBuilder.related_buildOne env childDoc childKey downstream wide
        narrow h
      unfold EffectPlans.outcome at hrt hresult
      generalize (TreeBuilder.buildOne env childDoc childKey
        (downstream.map (shifted base extra.length))).run.run wide = out at hrt hresult ⊢
      generalize (TreeBuilder.buildOne env childDoc childKey downstream).run.run narrow = out'
        at hrt hresult ⊢
      obtain ⟨result, rt⟩ := out
      obtain ⟨result', rt'⟩ := out'
      cases result with
      | error e =>
        cases result' with
        | error e' => exact ⟨hrt, rfl⟩
        | ok child' => exact hresult.elim
      | ok child =>
        cases result' with
        | error e' => exact hresult.elim
        | ok child' =>
          obtain rfl : child = shifted base extra.length child' := hresult
          have hset := hrt.setNode place
            (.groupSplit childDoc key downstream (children ++ [(sv.symbol, child')]))
          rw [INode.rename, List.map_append] at hset
          exact ⟨hset, rfl⟩

/-- A call does the same in both runtimes. -/
theorem sameCall_onValue (h : Widens base extra wide narrow) (env : BuildEnv D)
    (store : String → String → Option (ArgType D)) {live live' : NodeId → Bool}
    (hlive : ∀ id, live (shifted base extra.length id) = live' id) (place : ℕ)
    (sv : StreamValue D) :
    SameCall base extra (wide.onValue env store live (shifted base extra.length place) sv)
      (narrow.onValue env store live' place sv) := by
  unfold onValue
  rw [h.nodes place]
  cases narrow.nodes[place]? with
  | none => exact sameCall_idle h
  | some node =>
    cases node with
    | listener symbol field downstream stopping =>
      exact sameCall_listener h hlive downstream stopping sv
    | clock kind period child stopping => exact sameCall_idle h
    | tumblingWindow period downstream stopping acc =>
      exact sameCall_window h place period downstream stopping acc sv
    | vectorReducer fn downstream stopping => exact sameCall_reducer h fn downstream stopping sv
    | atomicAccessor symbol field downstream stopping =>
      exact sameCall_accessor h store symbol field downstream stopping
    | worker fn downstream stopping acc => exact sameCall_worker h place fn downstream stopping acc sv
    | aggregate arity parent stopping buf =>
      exact sameCall_aggregate h place arity parent stopping buf sv
    | compositeRoot roots => exact sameCall_idle h
    | groupSplit childDoc key downstream children =>
      exact sameCall_groupSplit h env place childDoc key downstream children sv
    | responder key stopped =>
      cases stopped with
      | true => exact sameCall_idle h
      | false => exact ⟨h, rfl⟩

/-- A round of a timer thread does the same in both runtimes. -/
theorem widens_timerLoop (h : Widens base extra wide narrow) (place : ℕ) :
    Widens base extra (wide.timerLoop (shifted base extra.length place)).1
        (narrow.timerLoop place).1 ∧
      (wide.timerLoop (shifted base extra.length place)).2 =
        (narrow.timerLoop place).2.map (Call.rename (shifted base extra.length)) := by
  unfold timerLoop
  rw [h.nodes place]
  cases narrow.nodes[place]? with
  | none => exact ⟨h, rfl⟩
  | some node =>
    cases node with
    | clock kind period child stopping =>
      cases stopping with
      | true => exact ⟨h, rfl⟩
      | false => exact ⟨h, callTo_map _ child _⟩
    | tumblingWindow period downstream stopping acc =>
      simp only [Option.map_some, INode.rename, Option.isNone_map]
      split_ifs with hquiet
      · exact ⟨h, rfl⟩
      · refine ⟨h.setNode place (.tumblingWindow period downstream stopping _), ?_⟩
        rw [List.map_flatMap]
        simp only [callTo_map]
    | _ => exact ⟨h, rfl⟩

end Runtime

end GmaEngine
