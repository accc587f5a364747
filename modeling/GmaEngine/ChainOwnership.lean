import GmaEngine.FailedBuilds
import GmaEngine.SpecReadings
import GmaEngine.GraphRegions
import GmaEngine.NodeValues

/-!
# Who keeps a built chain alive

Every node owns the node behind it, but for a Listener, which only observes it. The caller keeps
the head Listener and the roots of the stages; what stands behind a Listener inside a chain has to
be owned by something else.
-/

namespace GmaEngine
open Relation GraphRegions

namespace Blueprint
variable {D : Type}

/-- The root owns, perhaps through others, the downstream of the blueprint. -/
def keeps : Blueprint D → Bool
  | listener .. => false
  | clockOf _ _ child => child.keeps
  | behind stage rest => stage.keeps && rest.keeps
  | _ => true

mutual

/-- No stage of a chain lets go of the stages behind it. -/
def linked : Blueprint D → Bool
  | clockOf _ _ child => child.linked
  | aggregate _ inputs => allLinked inputs
  | behind stage rest => stage.linked && rest.linked && stage.keeps
  | _ => true

def allLinked : List (Blueprint D) → Bool
  | [] => true
  | input :: inputs => input.linked && allLinked inputs

end
end Blueprint

namespace Runtime
variable {D : Type}

/-- A shared pointer leads from one node to another. -/
def Owned (heap : List (INode D)) (i j : ℕ) : Prop :=
  (∃ node, heap[i]? = some node ∧ j ∈ node.owns) ∧ j < heap.length

theorem alive_iff_owned (rt : Runtime D) (roots : List NodeId) (id : NodeId) :
    rt.alive roots id = true ↔ ∃ root ∈ roots, root < rt.nodes.length ∧
      ReflTransGen (Owned rt.nodes) root id := rt.alive_iff roots id

/-- No node points outside the heap. -/
def Closed (rt : Runtime D) : Prop :=
  ∀ (id : ℕ) node, rt.nodes[id]? = some node → ∀ x : ℕ, x ∈ node.targets → x < rt.nodes.length

end Runtime

/-- The nodes stand in the heap from `base` on. -/
def Placed {D : Type} (heap : List (INode D)) (base : ℕ) (nodes : List (INode D)) : Prop :=
  ∀ i < nodes.length, heap[base + i]? = nodes[i]?

/-- The places of some nodes in the heap. -/
def places {D : Type} (base : ℕ) (nodes : List (INode D)) : Set ℕ :=
  {x | base ≤ x ∧ x < base + nodes.length}

section
variable {D : Type} {heap : List (INode D)} {base : ℕ} {nodes nodes' : List (INode D)}

theorem getElem?_append_cases {α : Type*} {xs ys : List α} {i : ℕ} {a : α}
    (h : (xs ++ ys)[i]? = some a) :
    xs[i]? = some a ∨ ∃ j, i = xs.length + j ∧ ys[j]? = some a := by
  rcases Nat.lt_or_ge i xs.length with hlt | hge
  · rw [List.getElem?_append_left hlt] at h
    exact .inl h
  · rw [List.getElem?_append_right hge] at h
    exact .inr ⟨i - xs.length, by omega, h⟩

theorem getElem?_singleton {α : Type*} {a b : α} {i : ℕ} (h : [a][i]? = some b) :
    i = 0 ∧ a = b := by
  cases i with
  | zero => exact ⟨rfl, Option.some.inj h⟩
  | succ i => cases h

theorem placed_append : Placed heap base (nodes ++ nodes') ↔
    Placed heap base nodes ∧ Placed heap (base + nodes.length) nodes' := by
  constructor
  · intro h
    constructor
    · intro i hi
      rw [h i (by rw [List.length_append]; omega), List.getElem?_append_left hi]
    · intro i hi
      have hat := h (nodes.length + i) (by rw [List.length_append]; omega)
      rw [List.getElem?_append_right (by omega), Nat.add_sub_cancel_left, ← Nat.add_assoc] at hat
      exact hat
  · rintro ⟨hfirst, hsecond⟩ i hi
    rw [List.length_append] at hi
    rcases Nat.lt_or_ge i nodes.length with hlt | hge
    · rw [hfirst i hlt, List.getElem?_append_left hlt]
    · have hat := hsecond (i - nodes.length) (by omega)
      rw [List.getElem?_append_right hge, ← hat]
      congr 1
      omega

theorem placed_singleton {node : INode D} : Placed heap base [node] ↔ heap[base]? = some node := by
  constructor
  · intro h
    simpa using h 0 (by simp)
  · intro h i hi
    obtain rfl : i = 0 := by simpa using hi
    simpa using h

theorem Placed.get (h : Placed heap base nodes) {x : ℕ} (hx : x ∈ places base nodes) :
    heap[x]? = nodes[x - base]? := by
  have hle : base ≤ x := hx.1
  have hlt : x < base + nodes.length := hx.2
  rw [← h (x - base) (by omega)]
  congr 1
  omega

end

namespace Blueprint
variable {D : Type}

/-- The root of a layout comes last. -/
theorem root_layout : ∀ (bp : Blueprint D) (downstream : Option NodeId) (base : ℕ),
    (bp.layout downstream base).root + 1 = base + (bp.layout downstream base).nodes.length
  | listener .., _, _ => rfl
  | single .., _, _ => rfl
  | clockOf .., _, _ => by
    simp only [layout, List.length_append, List.length_singleton]
    omega
  | aggregate .., _, _ => by
    simp only [layout, List.length_append, List.length_cons, List.length_nil]
    omega
  | behind stage rest, downstream, base => by
    have hfront := root_layout stage (some (rest.layout downstream base).root)
      (base + (rest.layout downstream base).nodes.length)
    simp only [layout, List.length_append]
    omega

theorem length_layout_pos : ∀ (bp : Blueprint D) (downstream : Option NodeId) (base : ℕ),
    0 < (bp.layout downstream base).nodes.length
  | listener .., _, _ => Nat.one_pos
  | single .., _, _ => Nat.one_pos
  | clockOf .., _, _ => by simp [layout]
  | aggregate .., _, _ => by simp [layout]
  | behind stage rest, downstream, base => by
    have hbelow := length_layout_pos rest downstream base
    simp only [layout, List.length_append]
    omega

theorem root_mem_places (bp : Blueprint D) (downstream : Option NodeId) (base : ℕ) :
    (bp.layout downstream base).root ∈ places base (bp.layout downstream base).nodes := by
  have hroot := root_layout bp downstream base
  have hpos := length_layout_pos bp downstream base
  have hboth : base ≤ (bp.layout downstream base).root ∧
      (bp.layout downstream base).root < base + (bp.layout downstream base).nodes.length := by omega
  exact hboth

theorem targets_node (node : Single D) (downstream : Option NodeId) :
    (node.node downstream).targets = downstream.toList := by
  cases node with
  | groupSplit childDoc key => exact List.append_nil _
  | _ => rfl

theorem owns_node (node : Single D) (downstream : Option NodeId) :
    (node.node downstream).owns = downstream.toList := by
  rw [← targets_node node downstream]
  cases node <;> rfl

/-- The roots of inputs are places of their nodes. -/
theorem roots_layouts (inputs : List (Blueprint D)) (agg base : ℕ) :
    ∀ y : ℕ, y ∈ (layouts agg base inputs).2 →
      base ≤ y ∧ y < base + (layouts agg base inputs).1.length := by
  induction inputs generalizing base with
  | nil =>
    intro y hy
    cases hy
  | cons input inputs ih =>
    intro y hy
    rw [layouts, List.length_append]
    rcases List.mem_cons.mp hy with rfl | hy
    · have hroot := root_layout input (some agg) base
      have hpos := length_layout_pos input (some agg) base
      omega
    · have hothers := ih _ y hy
      omega

mutual

/-- A node points to an earlier node of the same layout, or to the downstream. -/
theorem targets_layout : ∀ (bp : Blueprint D) (downstream : Option NodeId) (base i : ℕ) node,
    (bp.layout downstream base).nodes[i]? = some node → ∀ y : ℕ, y ∈ node.targets →
      (base ≤ y ∧ y < base + i) ∨ downstream = some y
  | listener symbol field, downstream, base, i, node, hnode, y, hy => by
    obtain ⟨-, rfl⟩ := getElem?_singleton hnode
    exact .inr (Option.mem_toList.mp hy)
  | single leaf, downstream, base, i, node, hnode, y, hy => by
    obtain ⟨-, rfl⟩ := getElem?_singleton hnode
    rw [targets_node] at hy
    exact .inr (Option.mem_toList.mp hy)
  | clockOf kind period child, downstream, base, i, node, hnode, y, hy => by
    have hroot := root_layout child downstream base
    have hpos := length_layout_pos child downstream base
    rcases getElem?_append_cases hnode with hat | ⟨j, rfl, hat⟩
    · exact targets_layout child downstream base i node hat y hy
    · obtain ⟨rfl, rfl⟩ := getElem?_singleton hat
      obtain rfl : y = (child.layout downstream base).root := by simpa [INode.targets] using hy
      left
      omega
  | aggregate arity inputs, downstream, base, i, node, hnode, y, hy => by
    rw [layout] at hnode
    rcases getElem?_append_cases hnode with hat | ⟨j, rfl, hat⟩
    · cases i with
      | zero =>
        cases hat
        exact .inr (Option.mem_toList.mp hy)
      | succ i =>
        have hinput := targets_layouts inputs base (base + 1) i node hat y hy
        left
        omega
    · obtain ⟨rfl, rfl⟩ := getElem?_singleton hat
      have hroots := roots_layouts inputs base (base + 1)
      left
      rcases List.mem_append.mp hy with hy | hy
      · have hin := hroots y hy
        rw [List.length_cons]
        omega
      · obtain rfl : y = base := List.mem_singleton.mp hy
        rw [List.length_cons]
        omega
  | behind stage rest, downstream, base, i, node, hnode, y, hy => by
    have hroot := root_layout rest downstream base
    have hpos := length_layout_pos rest downstream base
    rcases getElem?_append_cases hnode with hat | ⟨j, rfl, hat⟩
    · exact targets_layout rest downstream base i node hat y hy
    · left
      rcases targets_layout stage _ _ j node hat y hy with hin | hdown
      · omega
      · cases hdown
        omega

theorem targets_layouts : ∀ (inputs : List (Blueprint D)) (agg base i : ℕ) node,
    (layouts agg base inputs).1[i]? = some node → ∀ y : ℕ, y ∈ node.targets →
      (base ≤ y ∧ y < base + i) ∨ agg = y
  | [], _, _, _, _, hnode, _, _ => by
    cases hnode
  | input :: inputs, agg, base, i, node, hnode, y, hy => by
    rcases getElem?_append_cases hnode with hat | ⟨j, rfl, hat⟩
    · have hfirst := targets_layout input (some agg) base i node hat y hy
      exact hfirst.imp_right Option.some.inj
    · have hothers := targets_layouts inputs agg _ j node hat y hy
      refine hothers.imp_left (fun hin => ?_)
      omega

end

variable {heap : List (INode D)}

theorem owned_of_get {i j : ℕ} {node : INode D} (hnode : heap[i]? = some node) (hj : j ∈ node.owns)
    (hlt : j < heap.length) : Runtime.Owned heap i j := ⟨⟨node, hnode, hj⟩, hlt⟩

theorem targets_of_owns {node : INode D} {x : NodeId} (h : x ∈ node.owns) : x ∈ node.targets := by
  cases node with
  | listener symbol field downstream stopping => cases h
  | _ => exact h

/-- The edges of a layout stay inside it or go to the downstream. -/
theorem leavesBy_layout (bp : Blueprint D) {d base : ℕ}
    (h : Placed heap base (bp.layout (some d) base).nodes) :
    LeavesBy (Runtime.Owned heap) (places base (bp.layout (some d) base).nodes) d := by
  rintro x hx y ⟨⟨node, hnode, hy⟩, -⟩
  rw [h.get hx] at hnode
  have hle := hx.1
  have hlt := hx.2
  rcases targets_layout bp (some d) base _ node hnode y (targets_of_owns hy) with hin | hd
  · left
    have hboth : base ≤ y ∧ y < base + (bp.layout (some d) base).nodes.length := by omega
    exact hboth
  · right
    exact (Option.some.inj hd).symm

theorem lt_length_of_placed {base : ℕ} {nodes : List (INode D)} (h : Placed heap base nodes) {x : ℕ}
    (hx : x ∈ places base nodes) : x < heap.length := by
  have hle := hx.1
  have hlt := hx.2
  have hget := h.get hx
  have hsome : nodes[x - base]? = some nodes[x - base] := List.getElem?_eq_getElem (by omega)
  rw [hsome] at hget
  exact (List.getElem?_eq_some_iff.mp hget).1

/-- A path that leaves a node starts with what the node owns. -/
theorem path_from {i y : ℕ} {node : INode D} (hnode : heap[i]? = some node)
    (hpath : ReflTransGen (Runtime.Owned heap) i y) (hne : i ≠ y) :
    ∃ z ∈ node.owns, ReflTransGen (Runtime.Owned heap) z y := by
  rcases hpath.cases_head with rfl | ⟨z, ⟨⟨node', hnode', hz⟩, -⟩, hrest⟩
  · exact absurd rfl hne
  · rw [hnode] at hnode'
    cases hnode'
    exact ⟨z, hz, hrest⟩

/-- The Aggregate of an aggregate's layout. -/
theorem placed_aggregate {arity : ℕ} {inputs : List (Blueprint D)} {downstream : Option NodeId}
    {base : ℕ} (h : Placed heap base ((aggregate arity inputs).layout downstream base).nodes) :
    heap[base]? = some (.aggregate arity downstream false []) ∧
      Placed heap (base + 1) (layouts base (base + 1) inputs).1 ∧
      heap[base + 1 + (layouts base (base + 1) inputs).1.length]? =
        some (.compositeRoot ((layouts base (base + 1) inputs).2 ++ [base])) := by
  rw [layout, List.cons_append, ← List.singleton_append] at h
  obtain ⟨hagg, hrest⟩ := placed_append.mp h
  obtain ⟨hinputs, hroot⟩ := placed_append.mp hrest
  exact ⟨placed_singleton.mp hagg, hinputs, placed_singleton.mp hroot⟩

/-- The root leads to the downstream exactly when the blueprint keeps it. -/
theorem keeps_iff : ∀ (bp : Blueprint D) (d base : ℕ), d < base →
    Placed heap base (bp.layout (some d) base).nodes →
    (ReflTransGen (Runtime.Owned heap) (bp.layout (some d) base).root d ↔ bp.keeps = true)
  | listener symbol field, d, base, hd, h => by
    have hnode := placed_singleton.mp h
    refine iff_of_false (fun hpath => ?_) (by simp [keeps])
    obtain ⟨z, hz, -⟩ := path_from hnode hpath (by omega)
    cases hz
  | single node, d, base, hd, h => by
    have hnode := placed_singleton.mp h
    have hlt := (List.getElem?_eq_some_iff.mp hnode).1
    refine iff_of_true (.single (owned_of_get hnode ?_ (by omega))) rfl
    rw [owns_node]
    exact List.mem_singleton_self d
  | clockOf kind period child, d, base, hd, h => by
    obtain ⟨hchild, hclock⟩ := placed_append.mp h
    rw [placed_singleton] at hclock
    have hroot := root_mem_places child (some d) base
    have ih := keeps_iff child d base hd hchild
    rw [keeps, ← ih]
    constructor
    · intro hpath
      obtain ⟨z, hz, hrest⟩ := path_from hclock hpath (by omega)
      obtain rfl : z = (child.layout (some d) base).root := by
        simpa [INode.owns, INode.targets] using hz
      exact hrest
    · intro hpath
      exact hpath.head (owned_of_get hclock (by simp [INode.owns, INode.targets])
        (lt_length_of_placed hchild hroot))
  | aggregate arity inputs, d, base, hd, h => by
    obtain ⟨hagg, -, hroot⟩ := placed_aggregate h
    have hlt := (List.getElem?_eq_some_iff.mp hagg).1
    refine iff_of_true (ReflTransGen.head (owned_of_get hroot ?_ hlt) (.single
      (owned_of_get hagg ?_ (by omega)))) rfl
    · simp [INode.owns, INode.targets]
    · simp [INode.owns, INode.targets]
  | behind stage rest, d, base, hd, h => by
    obtain ⟨hrest, hstage⟩ := placed_append.mp h
    have hbelow := root_mem_places rest (some d) base
    have hfront := root_mem_places stage (some (rest.layout (some d) base).root)
      (base + (rest.layout (some d) base).nodes.length)
    have ihrest := keeps_iff rest d base hd hrest
    have ihstage := keeps_iff stage _ _ hbelow.2 hstage
    rw [keeps, Bool.and_eq_true, ← ihrest, ← ihstage]
    constructor
    · intro hpath
      refine through_exit (leavesBy_layout stage hstage) hfront ?_ hpath
      intro hin
      have hle := hin.1
      omega
    · rintro ⟨hto, hfrom⟩
      exact hto.trans hfrom

/-- A Listener in the heap, in front of a node. -/
def Observes (heap : List (INode D)) (x y : ℕ) : Prop :=
  ∃ symbol field stopping, heap[x]? = some (.listener symbol field (some y) stopping)

theorem mem_places_append {base : ℕ} {nodes nodes' : List (INode D)} {x : ℕ}
    (hx : x ∈ places base (nodes ++ nodes')) :
    x ∈ places base nodes ∨ x ∈ places (base + nodes.length) nodes' := by
  have hle := hx.1
  have hlt := hx.2
  rw [List.length_append] at hlt
  rcases Nat.lt_or_ge x (base + nodes.length) with hcase | hcase
  · exact .inl ⟨hle, hcase⟩
  · exact .inr ⟨hcase, by omega⟩

theorem mem_places_singleton {base : ℕ} {node : INode D} {x : ℕ}
    (hx : x ∈ places base [node]) : x = base := by
  have hle := hx.1
  have hlt := hx.2
  rw [List.length_singleton] at hlt
  omega

theorem not_observes {x y : ℕ} {node : INode D} (hnode : heap[x]? = some node)
    (hkind : ∀ symbol field downstream stopping, node ≠ .listener symbol field downstream stopping) :
    ¬ Observes heap x y := by
  rintro ⟨symbol, field, stopping, hget⟩
  rw [hnode] at hget
  exact hkind symbol field (some y) stopping (Option.some.inj hget)

mutual

/-- In a linked blueprint, what a Listener observes is owned by the root, or is the downstream. -/
theorem owned_of_linked : ∀ (bp : Blueprint D) (d base : ℕ), d < base →
    Placed heap base (bp.layout (some d) base).nodes → bp.linked = true →
    ∀ x ∈ places base (bp.layout (some d) base).nodes, ∀ y, Observes heap x y →
      ReflTransGen (Runtime.Owned heap) (bp.layout (some d) base).root y ∨ y = d
  | listener symbol field, d, base, hd, h, _, x, hx, y, hobs => by
    obtain rfl := mem_places_singleton hx
    obtain ⟨s, f, stopping, hget⟩ := hobs
    rw [placed_singleton.mp h] at hget
    cases hget
    exact .inr rfl
  | single node, d, base, hd, h, _, x, hx, y, hobs => by
    obtain rfl := mem_places_singleton hx
    refine absurd hobs (not_observes (placed_singleton.mp h) ?_)
    cases node <;> exact fun _ _ _ _ heq => by cases heq
  | clockOf kind period child, d, base, hd, h, hlinked, x, hx, y, hobs => by
    obtain ⟨hchild, hclock⟩ := placed_append.mp h
    rw [placed_singleton] at hclock
    rcases mem_places_append hx with hin | hin
    · refine (owned_of_linked child d base hd hchild hlinked x hin y hobs).imp_left ?_
      intro hpath
      exact hpath.head (owned_of_get hclock (by simp [INode.owns, INode.targets])
        (lt_length_of_placed hchild (root_mem_places child (some d) base)))
    · obtain rfl := mem_places_singleton hin
      exact absurd hobs (not_observes hclock (fun _ _ _ _ heq => by cases heq))
  | aggregate arity inputs, d, base, hd, h, hlinked, x, hx, y, hobs => by
    obtain ⟨hagg, hinputs, hroot⟩ := placed_aggregate h
    have hlt := (List.getElem?_eq_some_iff.mp hagg).1
    rw [layout, List.cons_append, ← List.singleton_append] at hx
    left
    rcases mem_places_append hx with hin | hin
    · obtain rfl := mem_places_singleton hin
      exact absurd hobs (not_observes hagg (fun _ _ _ _ heq => by cases heq))
    · rcases mem_places_append hin with hin | hin
      · rcases owned_of_allLinked inputs base (base + 1) (by omega) hinputs hlinked x hin y hobs with
          ⟨r, hr, hpath⟩ | rfl
        · have hplace := roots_layouts inputs base (base + 1) r hr
          refine hpath.head (owned_of_get hroot ?_ (lt_length_of_placed hinputs hplace))
          exact List.mem_append_left _ hr
        · refine .single (owned_of_get hroot ?_ hlt)
          exact List.mem_append_right _ (List.mem_singleton_self y)
      · obtain rfl := mem_places_singleton hin
        exact absurd hobs (not_observes hroot (fun _ _ _ _ heq => by cases heq))
  | behind stage rest, d, base, hd, h, hlinked, x, hx, y, hobs => by
    obtain ⟨hrest, hstage⟩ := placed_append.mp h
    have hbelow := root_mem_places rest (some d) base
    rw [linked, Bool.and_eq_true, Bool.and_eq_true] at hlinked
    obtain ⟨⟨hlstage, hlrest⟩, hkeeps⟩ := hlinked
    have hdown := (keeps_iff stage _ _ hbelow.2 hstage).mpr hkeeps
    rcases mem_places_append hx with hin | hin
    · refine (owned_of_linked rest d base hd hrest hlrest x hin y hobs).imp_left ?_
      exact fun hpath => hdown.trans hpath
    · left
      rcases owned_of_linked stage _ _ hbelow.2 hstage hlstage x hin y hobs with hpath | rfl
      · exact hpath
      · exact hdown

theorem owned_of_allLinked : ∀ (inputs : List (Blueprint D)) (agg base : ℕ), agg < base →
    Placed heap base (layouts agg base inputs).1 → allLinked inputs = true →
    ∀ x ∈ places base (layouts agg base inputs).1, ∀ y, Observes heap x y →
      (∃ root ∈ (layouts agg base inputs).2, ReflTransGen (Runtime.Owned heap) root y) ∨ y = agg
  | [], _, _, _, _, _, x, hx, _, _ => by
    have hle := hx.1
    have hlt := hx.2
    simp only [layouts, List.length_nil] at hlt
    omega
  | input :: inputs, agg, base, hagg, h, hlinked, x, hx, y, hobs => by
    obtain ⟨hfirst, hothers⟩ := placed_append.mp h
    rw [allLinked, Bool.and_eq_true] at hlinked
    rcases mem_places_append hx with hin | hin
    · refine (owned_of_linked input agg base hagg hfirst hlinked.1 x hin y hobs).imp_left ?_
      exact fun hpath => ⟨_, List.mem_cons_self, hpath⟩
    · refine (owned_of_allLinked inputs agg _ (by omega) hothers hlinked.2 x hin y hobs).imp_left ?_
      rintro ⟨r, hr, hpath⟩
      exact ⟨r, List.mem_cons_of_mem _ hr, hpath⟩

end

/-- A linked blueprint that does not keep its downstream has a Listener in front of it. -/
theorem observes_of_not_keeps : ∀ (bp : Blueprint D) (d base : ℕ),
    Placed heap base (bp.layout (some d) base).nodes → bp.linked = true → bp.keeps = false →
    ∃ x ∈ places base (bp.layout (some d) base).nodes, Observes heap x d
  | listener symbol field, d, base, h, _, _ =>
    ⟨base, root_mem_places (listener symbol field) (some d) base, symbol, field, false,
      placed_singleton.mp h⟩
  | single node, d, base, h, _, hkeeps => by cases hkeeps
  | clockOf kind period child, d, base, h, hlinked, hkeeps => by
    obtain ⟨hchild, -⟩ := placed_append.mp h
    obtain ⟨x, hx, hobs⟩ := observes_of_not_keeps child d base hchild hlinked hkeeps
    refine ⟨x, ⟨hx.1, ?_⟩, hobs⟩
    have hlt := hx.2
    rw [layout, List.length_append]
    omega
  | aggregate arity inputs, d, base, h, _, hkeeps => by cases hkeeps
  | behind stage rest, d, base, h, hlinked, hkeeps => by
    obtain ⟨hrest, -⟩ := placed_append.mp h
    rw [linked, Bool.and_eq_true, Bool.and_eq_true] at hlinked
    rw [keeps, hlinked.2, Bool.true_and] at hkeeps
    obtain ⟨x, hx, hobs⟩ := observes_of_not_keeps rest d base hrest hlinked.1.2 hkeeps
    refine ⟨x, ⟨hx.1, ?_⟩, hobs⟩
    have hlt := hx.2
    rw [layout, List.length_append]
    omega

theorem places_left {base : ℕ} {nodes nodes' : List (INode D)} {x : ℕ} (hx : x ∈ places base nodes) :
    x ∈ places base (nodes ++ nodes') := by
  have hlt := hx.2
  refine ⟨hx.1, ?_⟩
  rw [List.length_append]
  omega

theorem places_right {base : ℕ} {nodes nodes' : List (INode D)} {x : ℕ}
    (hx : x ∈ places (base + nodes.length) nodes') : x ∈ places base (nodes ++ nodes') := by
  have hle := hx.1
  have hlt := hx.2
  refine ⟨by omega, ?_⟩
  rw [List.length_append]
  omega

theorem places_disjoint {base : ℕ} {nodes nodes' : List (INode D)} {x : ℕ}
    (hx : x ∈ places base nodes) : x ∉ places (base + nodes.length) nodes' := by
  intro hx'
  have hlt := hx.2
  have hle := hx'.1
  omega

/-- The edges of the layouts of inputs stay inside them or go to the Aggregate. -/
theorem leavesBy_layouts (inputs : List (Blueprint D)) {agg base : ℕ}
    (h : Placed heap base (layouts agg base inputs).1) :
    LeavesBy (Runtime.Owned heap) (places base (layouts agg base inputs).1) agg := by
  rintro x hx y ⟨⟨node, hnode, hy⟩, -⟩
  rw [h.get hx] at hnode
  have hle := hx.1
  have hlt := hx.2
  rcases targets_layouts inputs agg base _ node hnode y (targets_of_owns hy) with hin | hagg
  · left
    have hboth : base ≤ y ∧ y < base + (layouts agg base inputs).1.length := by omega
    exact hboth
  · exact .inr hagg.symm

mutual

/-- If what the Listeners of a layout observe is kept from outside, the blueprint is linked. -/
theorem linked_of_owned (starts : Set ℕ) : ∀ (bp : Blueprint D) (d base : ℕ), d < base →
    Placed heap base (bp.layout (some d) base).nodes →
    EnteredBy (Runtime.Owned heap) (places base (bp.layout (some d) base).nodes)
      {(bp.layout (some d) base).root} →
    (∀ a ∈ starts, a ∈ places base (bp.layout (some d) base).nodes →
      a = (bp.layout (some d) base).root) →
    (∀ x ∈ places base (bp.layout (some d) base).nodes, ∀ y, Observes heap x y →
      ∃ a ∈ starts, ReflTransGen (Runtime.Owned heap) a y) → bp.linked = true
  | listener _ _, _, _, _, _, _, _, _ => rfl
  | single _, _, _, _, _, _, _, _ => rfl
  | clockOf kind period child, d, base, hd, h, hentered, hstarts, hobs => by
    obtain ⟨hchild, hclock⟩ := placed_append.mp h
    rw [placed_singleton] at hclock
    rw [linked]
    have hroot : ∀ y ∈ places base (child.layout (some d) base).nodes,
        y ≠ ((clockOf kind period child).layout (some d) base).root := by
      intro y hy
      have hlt := hy.2
      change y ≠ base + (child.layout (some d) base).nodes.length
      omega
    refine linked_of_owned starts child d base hd hchild ?_ ?_ ?_
    · intro x hx y hy hedge
      by_cases hin : x ∈ places base ((clockOf kind period child).layout (some d) base).nodes
      · rcases mem_places_append hin with hin | hin
        · exact absurd hin hx
        · obtain rfl := mem_places_singleton hin
          obtain ⟨⟨node, hnode, howns⟩, -⟩ := hedge
          rw [hclock] at hnode
          cases hnode
          simpa [INode.owns, INode.targets] using howns
      · exact absurd (hentered x hin y (places_left hy) hedge) (hroot y hy)
    · intro a ha hin
      exact absurd (hstarts a ha (places_left hin)) (hroot a hin)
    · exact fun x hx => hobs x (places_left hx)
  | aggregate arity inputs, d, base, hd, h, hentered, hstarts, hobs => by
    obtain ⟨hagg, hinputs, hroot⟩ := placed_aggregate h
    have hwhole : ∀ y ∈ places (base + 1) (layouts base (base + 1) inputs).1,
        y ∈ places base ((aggregate arity inputs).layout (some d) base).nodes ∧
          y ≠ ((aggregate arity inputs).layout (some d) base).root := by
      intro y hy
      have hlt := hy.2
      constructor
      · rw [layout, List.cons_append, ← List.singleton_append]
        exact places_right (places_left hy)
      · change y ≠ base + 1 + (layouts base (base + 1) inputs).1.length
        omega
    rw [linked]
    refine allLinked_of_owned starts inputs base (base + 1) (by omega) hinputs ?_ ?_ ?_
    · intro x hx y hy hedge
      by_cases hin : x ∈ places base ((aggregate arity inputs).layout (some d) base).nodes
      · obtain ⟨⟨node, hnode, howns⟩, -⟩ := hedge
        have hle := hy.1
        rw [layout, List.cons_append, ← List.singleton_append] at hin
        rcases mem_places_append hin with hin | hin
        · -- the Aggregate owns the downstream only, which stands before the inputs
          obtain rfl := mem_places_singleton hin
          rw [hagg] at hnode
          cases hnode
          obtain rfl : y = d := by simpa [INode.owns, INode.targets] using howns
          omega
        · rcases mem_places_append hin with hin | hin
          · exact absurd hin hx
          · obtain rfl := mem_places_singleton hin
            rw [List.length_singleton, hroot] at hnode
            cases hnode
            rcases List.mem_append.mp howns with hmem | hmem
            · exact hmem
            · obtain rfl : y = base := List.mem_singleton.mp hmem
              omega
      · exact absurd (hentered x hin y (hwhole y hy).1 hedge) (hwhole y hy).2
    · exact fun a ha hin => (hwhole a hin).2 (hstarts a ha (hwhole a hin).1)
    · exact fun x hx => hobs x (hwhole x hx).1
  | behind stage rest, d, base, hd, h, hentered, hstarts, hobs => by
    obtain ⟨hrest, hstage⟩ := placed_append.mp h
    have hbelow := root_mem_places rest (some d) base
    have hfront := root_mem_places stage (some (rest.layout (some d) base).root)
      (base + (rest.layout (some d) base).nodes.length)
    have hlstage : stage.linked = true := by
      refine linked_of_owned starts stage _ _ hbelow.2 hstage ?_ ?_ ?_
      · intro x hx y hy hedge
        by_cases hin : x ∈ places base ((behind stage rest).layout (some d) base).nodes
        · rcases mem_places_append hin with hin | hin
          · rcases leavesBy_layout rest hrest x hin y hedge with hy' | rfl
            · exact absurd hy (places_disjoint hy')
            · have hle := hy.1
              omega
          · exact absurd hin hx
        · exact hentered x hin y (places_right hy) hedge
      · exact fun a ha hin => hstarts a ha (places_right hin)
      · exact fun x hx => hobs x (places_right hx)
    have hlrest : rest.linked = true := by
      refine linked_of_owned starts rest d base hd hrest ?_ ?_ ?_
      · intro x hx y hy hedge
        by_cases hin : x ∈ places base ((behind stage rest).layout (some d) base).nodes
        · rcases mem_places_append hin with hin | hin
          · exact absurd hin hx
          · rcases leavesBy_layout stage hstage x hin y hedge with hy' | rfl
            · exact absurd hy' (places_disjoint hy)
            · rfl
        · have heq : y = _ := hentered x hin y (places_left hy) hedge
          subst heq
          exact absurd hfront (places_disjoint hy)
      · intro a ha hin
        have heq := hstarts a ha (places_left hin)
        subst heq
        exact absurd hfront (places_disjoint hin)
      · exact fun x hx => hobs x (places_left hx)
    have hkeeps : stage.keeps = true := by
      by_contra hnot
      obtain ⟨x, hx, hseen⟩ := observes_of_not_keeps stage _ _ hstage hlstage
        (Bool.eq_false_iff.mpr hnot)
      obtain ⟨a, ha, hpath⟩ := hobs x (places_right hx) _ hseen
      have hdown := through_root hentered hstarts ha hpath (places_left hbelow)
      exact hnot ((keeps_iff stage _ _ hbelow.2 hstage).mp hdown)
    rw [linked, hlstage, hlrest, hkeeps]
    rfl

theorem allLinked_of_owned (starts : Set ℕ) : ∀ (inputs : List (Blueprint D)) (agg base : ℕ),
    agg < base → Placed heap base (layouts agg base inputs).1 →
    EnteredBy (Runtime.Owned heap) (places base (layouts agg base inputs).1)
      {r | r ∈ (layouts agg base inputs).2} →
    (∀ a ∈ starts, a ∉ places base (layouts agg base inputs).1) →
    (∀ x ∈ places base (layouts agg base inputs).1, ∀ y, Observes heap x y →
      ∃ a ∈ starts, ReflTransGen (Runtime.Owned heap) a y) → allLinked inputs = true
  | [], _, _, _, _, _, _, _ => rfl
  | input :: inputs, agg, base, hagg, h, hentered, hstarts, hobs => by
    obtain ⟨hfirst, hothers⟩ := placed_append.mp h
    have hroot := root_mem_places input (some agg) base
    have hroots := roots_layouts inputs agg (base + (input.layout (some agg) base).nodes.length)
    have hlfirst : input.linked = true := by
      refine linked_of_owned starts input agg base hagg hfirst ?_ ?_ ?_
      · intro x hx y hy hedge
        by_cases hin : x ∈ places base (layouts agg base (input :: inputs)).1
        · rcases mem_places_append hin with hin | hin
          · exact absurd hin hx
          · rcases leavesBy_layouts inputs hothers x hin y hedge with hy' | rfl
            · exact absurd hy' (places_disjoint hy)
            · have hle := hy.1
              omega
        · rcases List.mem_cons.mp (hentered x hin y (places_left hy) hedge) with rfl | hmem
          · rfl
          · exact absurd (hroots y hmem) (places_disjoint hy)
      · exact fun a ha hin => absurd (places_left hin) (hstarts a ha)
      · exact fun x hx => hobs x (places_left hx)
    have hlothers : allLinked inputs = true := by
      refine allLinked_of_owned starts inputs agg _ (by omega) hothers ?_ ?_ ?_
      · intro x hx y hy hedge
        by_cases hin : x ∈ places base (layouts agg base (input :: inputs)).1
        · rcases mem_places_append hin with hin | hin
          · rcases leavesBy_layout input hfirst x hin y hedge with hy' | rfl
            · exact absurd hy (places_disjoint hy')
            · have hle := hy.1
              omega
          · exact absurd hin hx
        · rcases List.mem_cons.mp (hentered x hin y (places_right hy) hedge) with rfl | hmem
          · exact absurd hy (places_disjoint hroot)
          · exact hmem
      · exact fun a ha hin => hstarts a ha (places_right hin)
      · exact fun x hx => hobs x (places_right hx)
    rw [allLinked, hlfirst, hlothers]
    rfl

end

/-- The roots of stages are places of their nodes. -/
theorem roots_layoutStages (stages : List (Blueprint D)) (downstream : Option NodeId) (base : ℕ) :
    ∀ y : ℕ, y ∈ (layoutStages downstream base stages).2 →
      y ∈ places base (layoutStages downstream base stages).1 := by
  induction stages with
  | nil =>
    intro y hy
    cases hy
  | cons stage stages ih =>
    intro y hy
    rw [layoutStages]
    rcases List.mem_cons.mp hy with rfl | hmem
    · exact places_right (root_mem_places stage _ _)
    · exact places_left (ih y hmem)

/-- A stage stands in front of the root of the next stage, or of the downstream. -/
theorem next_stage (stages : List (Blueprint D)) {d base : ℕ} (hd : d < base) :
    ∃ e : ℕ, (layoutStages (some d) base stages).2.head?.or (some d) = some e ∧
      e < base + (layoutStages (some d) base stages).1.length ∧
      (e ∈ (layoutStages (some d) base stages).2 ∨ e = d) := by
  have hroots := roots_layoutStages stages (some d) base
  cases hlist : (layoutStages (some d) base stages).2 with
  | nil => exact ⟨d, rfl, by omega, .inr rfl⟩
  | cons first others =>
    rw [hlist] at hroots
    exact ⟨first, rfl, (hroots first List.mem_cons_self).2, .inl List.mem_cons_self⟩

/-- The edges of stages stay inside them or go to the downstream. -/
theorem leavesBy_layoutStages (stages : List (Blueprint D)) {d base : ℕ} (hd : d < base)
    (h : Placed heap base (layoutStages (some d) base stages).1) :
    LeavesBy (Runtime.Owned heap) (places base (layoutStages (some d) base stages).1) d := by
  induction stages with
  | nil =>
    intro x hx
    have hle := hx.1
    have hlt := hx.2
    simp only [layoutStages, List.length_nil] at hlt
    omega
  | cons stage stages ih =>
    obtain ⟨e, he, -, hnext⟩ := next_stage stages hd
    obtain ⟨hbelow, hfront⟩ := placed_append.mp h
    rw [he] at hfront
    intro x hx y hedge
    rw [layoutStages, he] at hx ⊢
    rcases mem_places_append hx with hin | hin
    · exact (ih hbelow x hin y hedge).imp_left places_left
    · rcases leavesBy_layout stage hfront x hin y hedge with hy | rfl
      · exact .inl (places_right hy)
      · rcases hnext with hmem | rfl
        · exact .inl (places_left (roots_layoutStages stages (some d) base y hmem))
        · exact .inr rfl

/-- In linked stages, what a Listener observes is owned by a root, or is the downstream. -/
theorem owned_of_linkedStages (stages : List (Blueprint D)) {d base : ℕ} (hd : d < base)
    (h : Placed heap base (layoutStages (some d) base stages).1) (hlinked : allLinked stages = true) :
    ∀ x ∈ places base (layoutStages (some d) base stages).1, ∀ y, Observes heap x y →
      (∃ r ∈ (layoutStages (some d) base stages).2, ReflTransGen (Runtime.Owned heap) r y) ∨
        y = d := by
  induction stages with
  | nil =>
    intro x hx
    have hle := hx.1
    have hlt := hx.2
    simp only [layoutStages, List.length_nil] at hlt
    omega
  | cons stage stages ih =>
    obtain ⟨e, he, hlt, hnext⟩ := next_stage stages hd
    obtain ⟨hbelow, hfront⟩ := placed_append.mp h
    rw [he] at hfront
    rw [allLinked, Bool.and_eq_true] at hlinked
    intro x hx y hobs
    rw [layoutStages, he] at hx ⊢
    rcases mem_places_append hx with hin | hin
    · refine (ih hbelow hlinked.2 x hin y hobs).imp_left ?_
      rintro ⟨r, hr, hpath⟩
      exact ⟨r, List.mem_cons_of_mem _ hr, hpath⟩
    · rcases owned_of_linked stage e _ hlt hfront hlinked.1 x hin y hobs with hpath | rfl
      · exact .inl ⟨_, List.mem_cons_self, hpath⟩
      · refine hnext.imp_left ?_
        intro hmem
        exact ⟨y, List.mem_cons_of_mem _ hmem, .refl⟩

/-- If what the Listeners of stages observe is kept from outside, the stages are linked. -/
theorem linkedStages_of_owned (starts : Set ℕ) (stages : List (Blueprint D)) {d base : ℕ}
    (hd : d < base) (h : Placed heap base (layoutStages (some d) base stages).1)
    (hentered : EnteredBy (Runtime.Owned heap) (places base (layoutStages (some d) base stages).1)
      {r | r ∈ (layoutStages (some d) base stages).2})
    (hstarts : ∀ a ∈ starts, a ∈ places base (layoutStages (some d) base stages).1 →
      a ∈ (layoutStages (some d) base stages).2)
    (hobs : ∀ x ∈ places base (layoutStages (some d) base stages).1, ∀ y, Observes heap x y →
      ∃ a ∈ starts, ReflTransGen (Runtime.Owned heap) a y) : allLinked stages = true := by
  induction stages with
  | nil => rfl
  | cons stage stages ih =>
    obtain ⟨e, he, hlt, hnext⟩ := next_stage stages hd
    obtain ⟨hbelow, hfront⟩ := placed_append.mp h
    rw [layoutStages, he] at hentered hstarts hobs
    rw [he] at hfront
    have hroot := root_mem_places stage (some e)
      (base + (layoutStages (some d) base stages).1.length)
    have hroots := roots_layoutStages stages (some d) base
    have hlstage : stage.linked = true := by
      refine linked_of_owned starts stage e _ hlt hfront ?_ ?_ ?_
      · intro x hx y hy hedge
        by_cases hin : x ∈ places base (layoutStages (some d) base stages).1
        · rcases leavesBy_layoutStages stages hd hbelow x hin y hedge with hy' | rfl
          · exact absurd hy (places_disjoint hy')
          · have hle := hy.1
            omega
        · have houtside : x ∉ places base ((layoutStages (some d) base stages).1 ++
              (stage.layout (some e)
                (base + (layoutStages (some d) base stages).1.length)).nodes) :=
            fun hmem => (mem_places_append hmem).elim hin hx
          rcases List.mem_cons.mp (hentered x houtside y (places_right hy) hedge) with rfl | hmem
          · rfl
          · exact absurd hy (places_disjoint (hroots y hmem))
      · intro a ha hin
        rcases List.mem_cons.mp (hstarts a ha (places_right hin)) with rfl | hmem
        · rfl
        · exact absurd hin (places_disjoint (hroots a hmem))
      · exact fun x hx => hobs x (places_right hx)
    have hlstages : allLinked stages = true := by
      refine ih hbelow ?_ ?_ ?_
      · intro x hx y hy hedge
        by_cases hin : x ∈ places (base + (layoutStages (some d) base stages).1.length)
            (stage.layout (some e) (base + (layoutStages (some d) base stages).1.length)).nodes
        · rcases leavesBy_layout stage hfront x hin y hedge with hy' | rfl
          · exact absurd hy' (places_disjoint hy)
          · rcases hnext with hmem | rfl
            · exact hmem
            · have hle := hy.1
              omega
        · have houtside : x ∉ places base ((layoutStages (some d) base stages).1 ++
              (stage.layout (some e)
                (base + (layoutStages (some d) base stages).1.length)).nodes) :=
            fun hmem => (mem_places_append hmem).elim hx hin
          rcases List.mem_cons.mp (hentered x houtside y (places_left hy) hedge) with rfl | hmem
          · exact absurd hroot (places_disjoint hy)
          · exact hmem
      · intro a ha hin
        rcases List.mem_cons.mp (hstarts a ha (places_left hin)) with rfl | hmem
        · exact absurd hroot (places_disjoint hin)
        · exact hmem
      · exact fun x hx => hobs x (places_left hx)
    rw [allLinked, hlstage, hlstages]
    rfl

mutual

/-- Every Listener of a layout has a downstream. -/
theorem listener_layout : ∀ (bp : Blueprint D) (d base i : ℕ) {symbol field downstream stopping},
    (bp.layout (some d) base).nodes[i]? = some (.listener symbol field downstream stopping) →
    ∃ y, downstream = some y
  | listener _ _, d, base, i, _, _, _, _, h => by
    obtain ⟨-, heq⟩ := getElem?_singleton h
    cases heq
    exact ⟨d, rfl⟩
  | single node, d, base, i, _, _, _, _, h => by
    obtain ⟨-, heq⟩ := getElem?_singleton h
    cases node <;> cases heq
  | clockOf kind period child, d, base, i, _, _, _, _, h => by
    rcases getElem?_append_cases h with hat | ⟨j, rfl, hat⟩
    · exact listener_layout child d base i hat
    · obtain ⟨-, heq⟩ := getElem?_singleton hat
      cases heq
  | aggregate arity inputs, d, base, i, _, _, _, _, h => by
    rw [layout] at h
    rcases getElem?_append_cases h with hat | ⟨j, rfl, hat⟩
    · cases i with
      | zero => cases hat
      | succ i => exact listener_layouts inputs base (base + 1) i hat
    · obtain ⟨-, heq⟩ := getElem?_singleton hat
      cases heq
  | behind stage rest, d, base, i, _, _, _, _, h => by
    rcases getElem?_append_cases h with hat | ⟨j, rfl, hat⟩
    · exact listener_layout rest d base i hat
    · exact listener_layout stage _ _ j hat

theorem listener_layouts : ∀ (inputs : List (Blueprint D)) (agg base i : ℕ)
    {symbol field downstream stopping},
    (layouts agg base inputs).1[i]? = some (.listener symbol field downstream stopping) →
    ∃ y, downstream = some y
  | [], _, _, _, _, _, _, _, h => by
    cases h
  | input :: inputs, agg, base, i, _, _, _, _, h => by
    rcases getElem?_append_cases h with hat | ⟨j, rfl, hat⟩
    · exact listener_layout input agg base i hat
    · exact listener_layouts inputs agg _ j hat

end

theorem listener_layoutStages (stages : List (Blueprint D)) {d base i : ℕ} (hd : d < base)
    {symbol field : String} {downstream : Option NodeId} {stopping : Bool}
    (h : (layoutStages (some d) base stages).1[i]? =
      some (.listener symbol field downstream stopping)) : ∃ y, downstream = some y := by
  induction stages generalizing i with
  | nil => cases h
  | cons stage stages ih =>
    obtain ⟨e, he, -, -⟩ := next_stage stages hd
    rcases getElem?_append_cases h with hat | ⟨j, rfl, hat⟩
    · exact ih hat
    · rw [he] at hat
      exact listener_layout stage e _ j hat

end Blueprint

namespace RequestBlueprint
open Blueprint
variable {D : Type} {heap : List (INode D)}

def linked (rb : RequestBlueprint D) : Bool :=
  allLinked rb.node.toList && allLinked (rb.stages.getD [])

/-- The nodes of the specification under `node`, as those of a single stage. -/
theorem nodeLayout_eq (rb : RequestBlueprint D) (t base : ℕ) :
    (rb.nodeLayout t base).1 = (layoutStages (some t) base rb.node.toList).1 ∧
      (rb.nodeLayout t base).2.toList = (layoutStages (some t) base rb.node.toList).2 := by
  unfold nodeLayout
  cases rb.node with
  | none => exact ⟨rfl, rfl⟩
  | some bp => simp [layoutStages]

theorem stagesLayout_eq (rb : RequestBlueprint D) (t base : ℕ) :
    (rb.stagesLayout t base).1 = (layoutStages (some t) base (rb.stages.getD [])).1 ∧
      (rb.stagesLayout t base).2.getD [] =
        (layoutStages (some t) base (rb.stages.getD [])).2 := by
  unfold stagesLayout
  cases rb.stages with
  | none => exact ⟨rfl, rfl⟩
  | some bps => exact ⟨rfl, rfl⟩

/-- The head Listener stands in front of a node that the caller keeps. -/
theorem layout_cases (rb : RequestBlueprint D) (t base : ℕ) :
    ∃ first second : List (INode D) × List NodeId, ∃ midHead : ℕ,
      first = layoutStages (some t) base rb.node.toList ∧
      second = layoutStages (some t) (base + first.1.length) (rb.stages.getD []) ∧
      midHead ∈ t :: first.2 ++ second.2 ∧
      (rb.layout t base).1 =
        first.1 ++ second.1 ++ [.listener rb.streamKey rb.field (some midHead) false] ∧
      (rb.layout t base).2 =
        ⟨base + (first.1 ++ second.1).length, t :: first.2 ++ second.2.reverse⟩ := by
  obtain ⟨hnodes, hroots⟩ := nodeLayout_eq rb t base
  obtain ⟨hnodes', hroots'⟩ := stagesLayout_eq rb t (base + (rb.nodeLayout t base).1.length)
  -- the head Listener is the one of the definition
  refine ⟨_, _, ?midHead, rfl, rfl, ?hmem, ?hlayout, ?hchain⟩
  case hlayout =>
    rw [← hnodes, ← hnodes']
    rfl
  case hmem =>
    rw [← hnodes, ← hroots, ← hroots']
    cases (rb.stagesLayout t (base + (rb.nodeLayout t base).1.length)).2 with
    | some stages => cases stages <;> simp
    | none => cases (rb.nodeLayout t base).2 <;> simp
  case hchain =>
    rw [← hnodes, ← hroots, ← hnodes', ← hroots']
    rfl

/-- The caller keeps nodes of the heap. -/
theorem roots_lt (rb : RequestBlueprint D) {t base : ℕ} (ht : t < base) :
    ∀ a : ℕ, a ∈ (rb.layout t base).2.head :: (rb.layout t base).2.keepAlive →
      a < base + (rb.layout t base).1.length := by
  obtain ⟨first, second, midHead, hfirst, hsecond, -, hnodes, hchain⟩ := layout_cases rb t base
  rw [hnodes, hchain]
  have hroots := roots_layoutStages rb.node.toList (some t) base
  have hroots' := roots_layoutStages (rb.stages.getD []) (some t) (base + first.1.length)
  rw [← hfirst] at hroots
  rw [← hsecond] at hroots'
  intro a ha
  rw [List.length_append, List.length_singleton]
  rcases List.mem_cons.mp ha with rfl | ha
  · exact Nat.lt_succ_self _
  · rw [List.length_append]
    rcases List.mem_append.mp ha with ha | ha
    · rcases List.mem_cons.mp ha with rfl | ha
      · omega
      · have hlt := (hroots a ha).2
        omega
    · have hlt := (hroots' a (List.mem_reverse.mp ha)).2
      omega

/-- Nothing before the new nodes owns one of them. -/
theorem lt_of_owned {rt : Runtime D} {nodes : List (INode D)} (hclosed : rt.Closed) {x y : ℕ}
    (h : Runtime.Owned (rt.nodes ++ nodes) x y) (hx : x < rt.nodes.length) :
    y < rt.nodes.length := by
  obtain ⟨⟨node, hnode, hy⟩, -⟩ := h
  rw [List.getElem?_append_left hx] at hnode
  exact hclosed x node hnode y (targets_of_owns hy)

theorem placed_end (old new : List (INode D)) : Placed (old ++ new) old.length new := by
  intro i hi
  rw [List.getElem?_append_right (by omega), Nat.add_sub_cancel_left]

/-- What a Listener of linked stages observes is kept by their roots and the downstream. -/
theorem kept_of_linkedStages (stages : List (Blueprint D)) {t base : ℕ} (ht : t < base)
    (h : Placed heap base (layoutStages (some t) base stages).1) (hlinked : allLinked stages = true)
    {x : ℕ} (hx : x ∈ places base (layoutStages (some t) base stages).1) {symbol field : String}
    {downstream : Option NodeId} {stopping : Bool}
    (hnode : heap[x]? = some (.listener symbol field downstream stopping)) :
    ∃ y, downstream = some y ∧ ∃ a ∈ t :: (layoutStages (some t) base stages).2,
      ReflTransGen (Runtime.Owned heap) a y := by
  have hget := hnode
  rw [h.get hx] at hget
  obtain ⟨y, rfl⟩ := listener_layoutStages stages ht hget
  refine ⟨y, rfl, ?_⟩
  rcases owned_of_linkedStages stages ht h hlinked x hx y ⟨symbol, field, stopping, hnode⟩ with
    ⟨r, hr, hpath⟩ | rfl
  · exact ⟨r, List.mem_cons_of_mem _ hr, hpath⟩
  · exact ⟨y, List.mem_cons_self, .refl⟩

section
variable {rt : Runtime D} {first second : List (INode D)} {head : INode D}

/-- Where a new node stands. -/
theorem place_cases {x : ℕ} {node : INode D} (hx : rt.nodes.length ≤ x)
    (hnode : (rt.nodes ++ (first ++ second ++ [head]))[x]? = some node) :
    x ∈ places rt.nodes.length first ∨ x ∈ places (rt.nodes.length + first.length) second ∨
      (x = rt.nodes.length + (first ++ second).length ∧ node = head) := by
  have hlt := (List.getElem?_eq_some_iff.mp hnode).1
  rw [List.length_append] at hlt
  have hplaced := placed_end rt.nodes (first ++ second ++ [head])
  have hin : x ∈ places rt.nodes.length (first ++ second ++ [head]) := ⟨hx, hlt⟩
  rcases mem_places_append hin with hin | hin
  · exact (mem_places_append hin).imp_right .inl
  · obtain rfl := mem_places_singleton hin
    rw [placed_singleton.mp (placed_append.mp hplaced).2] at hnode
    exact .inr (.inr ⟨rfl, (Option.some.inj hnode).symm⟩)

/-- New nodes are owned by nodes of the same part only. -/
theorem owned_cases (hclosed : rt.Closed) {d : ℕ} (hd : d < rt.nodes.length) (hhead : head.owns = [])
    (hleaves : LeavesBy (Runtime.Owned (rt.nodes ++ (first ++ second ++ [head])))
      (places rt.nodes.length first) d)
    (hleaves' : LeavesBy (Runtime.Owned (rt.nodes ++ (first ++ second ++ [head])))
      (places (rt.nodes.length + first.length) second) d) {x y : ℕ}
    (hedge : Runtime.Owned (rt.nodes ++ (first ++ second ++ [head])) x y)
    (hy : rt.nodes.length ≤ y) :
    (x ∈ places rt.nodes.length first ∧ y ∈ places rt.nodes.length first) ∨
      (x ∈ places (rt.nodes.length + first.length) second ∧
        y ∈ places (rt.nodes.length + first.length) second) := by
  rcases Nat.lt_or_ge x rt.nodes.length with hlt | hge
  · have hold := lt_of_owned hclosed hedge hlt
    omega
  · have hnode := hedge
    obtain ⟨⟨node, hnode, howns⟩, -⟩ := hnode
    rcases place_cases hge hnode with hin | hin | ⟨-, rfl⟩
    · rcases hleaves x hin y hedge with hy' | rfl
      · exact .inl ⟨hin, hy'⟩
      · omega
    · rcases hleaves' x hin y hedge with hy' | rfl
      · exact .inr ⟨hin, hy'⟩
      · omega
    · rw [hhead] at howns
      cases howns

end

/-- The chains of a request stay connected exactly if no chain in it lets go of its rest. -/
theorem kept_iff_linked (rb : RequestBlueprint D) {rt : Runtime D} {t : ℕ} (hclosed : rt.Closed)
    (ht : t < rt.nodes.length) :
    (∀ x ≥ rt.nodes.length, ∀ symbol field downstream stopping,
      (rt.nodes ++ (rb.layout t rt.nodes.length).1)[x]? =
        some (.listener symbol field downstream stopping) →
      ∃ y, downstream = some y ∧ ∃ a ∈ (rb.layout t rt.nodes.length).2.head ::
        (rb.layout t rt.nodes.length).2.keepAlive,
        ReflTransGen (Runtime.Owned (rt.nodes ++ (rb.layout t rt.nodes.length).1)) a y) ↔
      rb.linked = true := by
  obtain ⟨first, second, midHead, hfirst, hsecond, hmid, hnodes, hchain⟩ :=
    layout_cases rb t rt.nodes.length
  rw [hnodes, hchain]
  obtain ⟨hboth, -⟩ := placed_append.mp (placed_end rt.nodes
    (first.1 ++ second.1 ++ [.listener rb.streamKey rb.field (some midHead) false]))
  obtain ⟨hplace, hplace'⟩ := placed_append.mp hboth
  have ht' : t < rt.nodes.length + first.1.length := by omega
  have hroots := roots_layoutStages rb.node.toList (some t) rt.nodes.length
  have hroots' := roots_layoutStages (rb.stages.getD []) (some t)
    (rt.nodes.length + first.1.length)
  have hleaves := leavesBy_layoutStages rb.node.toList ht (hfirst ▸ hplace)
  have hleaves' := leavesBy_layoutStages (rb.stages.getD []) ht' (hsecond ▸ hplace')
  rw [← hfirst] at hroots hleaves
  rw [← hsecond] at hroots' hleaves'
  have hinto := fun x y hedge => @owned_cases D rt _ _ _ hclosed t ht rfl hleaves hleaves' x y hedge
  have hcases := @place_cases D rt first.1 second.1
    (.listener rb.streamKey rb.field (some midHead) false)
  generalize rt.nodes ++ (first.1 ++ second.1 ++
    [.listener rb.streamKey rb.field (some midHead) false]) = heap at *
  rw [linked, Bool.and_eq_true]
  constructor
  · intro hkept
    obtain ⟨starts, hstarts, hobs⟩ : ∃ starts : Set ℕ,
        (∀ a ∈ starts, a = rt.nodes.length + (first.1 ++ second.1).length ∨ a = t ∨
          a ∈ first.2 ∨ a ∈ second.2) ∧
        ∀ x y, rt.nodes.length ≤ x → Observes heap x y →
          ∃ a ∈ starts, ReflTransGen (Runtime.Owned heap) a y := by
      refine ⟨{a | a ∈ (rt.nodes.length + (first.1 ++ second.1).length) ::
        (t :: first.2 ++ second.2.reverse)}, ?_, ?_⟩
      · intro a ha
        simpa [or_assoc] using ha
      · rintro x y hx ⟨symbol, field, stopping, hnode⟩
        obtain ⟨z, hz, hpath⟩ := hkept x hx symbol field (some y) stopping hnode
        cases hz
        exact hpath
    constructor
    · refine linkedStages_of_owned starts rb.node.toList ht (hfirst ▸ hplace) ?_ ?_ ?_
      · intro x hx y hy hedge
        rw [← hfirst] at hx hy
        rcases hinto x y hedge hy.1 with ⟨hin, -⟩ | ⟨-, hin⟩
        · exact absurd hin hx
        · exact absurd hin (places_disjoint hy)
      · intro a ha hin
        rw [← hfirst] at hin ⊢
        have hle := hin.1
        have hlt := hin.2
        rcases hstarts a ha with rfl | rfl | hmem | hmem
        · rw [List.length_append] at hlt
          omega
        · omega
        · exact hmem
        · exact absurd (hroots' a hmem) (places_disjoint hin)
      · intro x hx y hseen
        exact hobs x y hx.1 hseen
    · refine linkedStages_of_owned starts (rb.stages.getD []) ht' (hsecond ▸ hplace') ?_ ?_ ?_
      · intro x hx y hy hedge
        rw [← hsecond] at hx hy
        have hle := hy.1
        rcases hinto x y hedge (by omega) with ⟨-, hin⟩ | ⟨hin, -⟩
        · exact absurd hy (places_disjoint hin)
        · exact absurd hin hx
      · intro a ha hin
        rw [← hsecond] at hin ⊢
        have hle := hin.1
        have hlt := hin.2
        rcases hstarts a ha with rfl | rfl | hmem | hmem
        · rw [List.length_append] at hlt
          omega
        · omega
        · exact absurd hin (places_disjoint (hroots a hmem))
        · exact hmem
      · intro x hx y hseen
        have hle := hx.1
        exact hobs x y (by omega) hseen
  · rintro ⟨hlinked, hlinked'⟩ x hx symbol field downstream stopping hnode
    rcases hcases hx hnode with hin | hin | ⟨rfl, heq⟩
    · rw [hfirst] at hplace hin
      obtain ⟨y, hy, a, ha, hpath⟩ := kept_of_linkedStages _ ht hplace hlinked hin hnode
      rw [← hfirst] at ha
      exact ⟨y, hy, a, List.mem_cons_of_mem _ (List.mem_append_left _ ha), hpath⟩
    · rw [hsecond] at hplace' hin
      obtain ⟨y, hy, a, ha, hpath⟩ := kept_of_linkedStages _ ht' hplace' hlinked' hin hnode
      rw [← hsecond] at ha
      refine ⟨y, hy, a, ?_, hpath⟩
      rcases List.mem_cons.mp ha with rfl | ha
      · simp
      · simp [ha]
    · cases heq
      refine ⟨midHead, rfl, midHead, ?_, .refl⟩
      simp only [List.mem_append] at hmid
      simp only [List.mem_cons, List.mem_append, List.mem_reverse]
      exact .inr (hmid.imp_left List.mem_cons.mp)

end RequestBlueprint

namespace Blueprint
variable {D : Type}

theorem keeps_chain (stage : Blueprint D) (stages : List (Blueprint D)) :
    (chain stage stages).keeps = (stage :: stages).all keeps := by
  induction stages generalizing stage with
  | nil => simp [chain]
  | cons next stages ih => simp only [chain, keeps, ih, List.all_cons]

theorem linked_chain (stage : Blueprint D) (stages : List (Blueprint D)) :
    (chain stage stages).linked =
      (allLinked (stage :: stages) && (stage :: stages).dropLast.all keeps) := by
  induction stages generalizing stage with
  | nil => simp [chain, allLinked]
  | cons next stages ih =>
    rw [chain, linked, ih]
    simp only [allLinked, List.dropLast_cons_cons, List.all_cons, Bool.and_assoc,
      Bool.and_left_comm, Bool.and_comm]

end Blueprint

namespace TreeBuilder
variable {D : Type}

mutual

/-- The node that is built for a specification owns its downstream, perhaps through others. -/
def keepsNext (spec : Json D) : Bool :=
  match nodeType spec with
  | .ok .listener => false
  | .ok .interval | .ok .bucketTime =>
    match _h : spec.member "child" with
    | some child => keepsNext child
    | none => true
  | .ok .chain =>
    match _h : spec.member "stages" with
    | some (.array stages) => allKeepNext stages
    | _ => true
  | _ => true
termination_by 2 * sizeOf spec + 1
decreasing_by
  · have hlt := Json.sizeOf_member _h
    omega
  · have hlt := Json.sizeOf_member_array _h
    omega

def allKeepNext (specs : List (Json D)) : Bool :=
  match specs with
  | [] => true
  | spec :: specs => keepsNext spec && allKeepNext specs
termination_by 2 * sizeOf specs
decreasing_by
  all_goals
    simp only [List.cons.sizeOf_spec]
    omega

end

mutual

/-- No stage of a Chain, the last one apart, lets go of the stages behind it. -/
def chainsLinked (spec : Json D) : Bool :=
  match nodeType spec with
  | .ok .interval | .ok .bucketTime =>
    match _h : spec.member "child" with
    | some child => chainsLinked child
    | none => true
  | .ok .aggregate =>
    match _h : spec.member "inputs" with
    | some (.array inputs) => allChainsLinked inputs
    | _ => true
  | .ok .chain =>
    match _h : spec.member "stages" with
    | some (.array stages) => allChainsLinked stages && allKeepNext stages.dropLast
    | _ => true
  | _ => true
termination_by 2 * sizeOf spec + 1
decreasing_by
  · have hlt := Json.sizeOf_member _h
    omega
  · have hlt := Json.sizeOf_member_array _h
    omega
  · have hlt := Json.sizeOf_member_array _h
    omega

def allChainsLinked (specs : List (Json D)) : Bool :=
  match specs with
  | [] => true
  | spec :: specs => chainsLinked spec && allChainsLinked specs
termination_by 2 * sizeOf specs
decreasing_by
  all_goals
    simp only [List.cons.sizeOf_spec]
    omega

end

/-- The Chains under `node` and in the pipeline of a request are linked. -/
def requestChainsLinked (requestJson : Json D) : Bool :=
  allChainsLinked (nodeOf requestJson).toList &&
    allChainsLinked ((pipelineOf requestJson).getD [])

section
variable {spec : Json D} {t : NodeType} {kind : Clock}

theorem keepsNext_clock (htype : nodeType spec = .ok t) (hkind : t.clock? = some kind) :
    keepsNext spec = (spec.member "child").elim true keepsNext := by
  rw [keepsNext, htype]
  cases t <;> cases hkind
  all_goals
    generalize spec.member "child" = member
    cases member <;> rfl

theorem keepsNext_plain (htype : nodeType spec = .ok t) (hplain : t.plain = true) :
    keepsNext spec = true := by
  rw [keepsNext, htype]
  cases t <;> cases hplain <;> rfl

theorem chainsLinked_clock (htype : nodeType spec = .ok t) (hkind : t.clock? = some kind) :
    chainsLinked spec = (spec.member "child").elim true chainsLinked := by
  rw [chainsLinked, htype]
  cases t <;> cases hkind
  all_goals
    generalize spec.member "child" = member
    cases member <;> rfl

theorem chainsLinked_plain (htype : nodeType spec = .ok t) (hplain : t.plain = true) :
    chainsLinked spec = true := by
  rw [chainsLinked, htype]
  cases t <;> cases hplain <;> rfl

end

section
variable {env : BuildEnv D} {key : String}

mutual

theorem keeps_eq : ∀ {spec : Json D} {bp : Blueprint D}, Specifies env key spec bp →
    bp.keeps = keepsNext spec
  | spec, _, .listener htype _ => by
    rw [keepsNext, htype]
    rfl
  | spec, _, .clock htype hkind hchild => by
    rw [keepsNext_clock htype hkind, hchild]
    rfl
  | spec, _, .clockOf htype hkind hchild hbp => by
    rw [keepsNext_clock htype hkind, hchild, Option.elim_some, ← keeps_eq hbp]
    rfl
  | spec, _, .plain htype hplain _ => by
    rw [keepsNext_plain htype hplain]
    rfl
  | spec, _, .groupSplit htype _ => by
    rw [keepsNext, htype]
    rfl
  | spec, _, .aggregate htype _ _ => by
    rw [keepsNext, htype]
    rfl
  | spec, _, .chain htype hstages hbp hbps => by
    rw [keepsNext, htype]
    dsimp only
    generalize hmember : spec.member "stages" = member
    obtain rfl := hmember.symm.trans hstages
    rw [Blueprint.keeps_chain, List.all_cons, keeps_eq hbp, all_keeps_eq hbps]
    dsimp only
    rw [allKeepNext]

theorem all_keeps_eq : ∀ {specs : List (Json D)} {bps : List (Blueprint D)},
    SpecifiesAll env key specs bps → bps.all Blueprint.keeps = allKeepNext specs
  | _, _, .nil => by
    rw [allKeepNext]
    rfl
  | _, _, .cons hbp hbps => by
    rw [allKeepNext, List.all_cons, keeps_eq hbp, all_keeps_eq hbps]

end

theorem SpecifiesAll.dropLast {specs : List (Json D)} {bps : List (Blueprint D)}
    (h : SpecifiesAll env key specs bps) : SpecifiesAll env key specs.dropLast bps.dropLast := by
  induction specs generalizing bps with
  | nil =>
    cases h
    exact .nil
  | cons spec specs ih =>
    cases h with
    | cons hbp hbps =>
      cases hbps with
      | nil => exact .nil
      | cons hnext hrest =>
        rw [List.dropLast_cons_cons, List.dropLast_cons_cons]
        exact .cons hbp (ih (.cons hnext hrest))

mutual

theorem linked_eq : ∀ {spec : Json D} {bp : Blueprint D}, Specifies env key spec bp →
    bp.linked = chainsLinked spec
  | spec, _, .listener htype _ => by
    rw [chainsLinked, htype]
    rfl
  | spec, _, .clock htype hkind hchild => by
    rw [chainsLinked_clock htype hkind, hchild]
    rfl
  | spec, _, .clockOf htype hkind hchild hbp => by
    rw [chainsLinked_clock htype hkind, hchild, Option.elim_some, ← linked_eq hbp]
    rfl
  | spec, _, .plain htype hplain _ => by
    rw [chainsLinked_plain htype hplain]
    rfl
  | spec, _, .groupSplit htype _ => by
    rw [chainsLinked, htype]
    rfl
  | spec, _, .aggregate htype hinputs hbps => by
    rw [chainsLinked, htype]
    dsimp only
    generalize hmember : spec.member "inputs" = member
    obtain rfl := hmember.symm.trans hinputs
    exact allLinked_eq hbps
  | spec, _, .chain htype hstages hbp hbps => by
    rw [chainsLinked, htype]
    dsimp only
    generalize hmember : spec.member "stages" = member
    obtain rfl := hmember.symm.trans hstages
    have hkeeps := all_keeps_eq (SpecifiesAll.cons hbp hbps).dropLast
    rw [Blueprint.linked_chain, hkeeps, Blueprint.allLinked, linked_eq hbp, allLinked_eq hbps]
    dsimp only
    rw [allChainsLinked]

theorem allLinked_eq : ∀ {specs : List (Json D)} {bps : List (Blueprint D)},
    SpecifiesAll env key specs bps → Blueprint.allLinked bps = allChainsLinked specs
  | _, _, .nil => by
    rw [allChainsLinked]
    rfl
  | _, _, .cons hbp hbps => by
    rw [allChainsLinked, Blueprint.allLinked, linked_eq hbp, allLinked_eq hbps]

end

end

section
open EffectPlans
variable [Double D]

/-- What every Listener of a built chain hands its values to lives as long as the caller keeps the
head and the rest of the chain, exactly if no stage of a Chain in the request lets go of the
stages behind it. -/
theorem built_chains_connected_iff (env : BuildEnv D) (requestJson : Json D) (terminal : ℕ)
    (rt rt' : Runtime D) (built : BuiltChain) (hclosed : rt.Closed)
    (hterminal : terminal < rt.nodes.length)
    (hbuild : (buildForRequest env requestJson (some terminal)).run.run rt = (.ok built, rt')) :
    (∀ id ≥ rt.nodes.length, ∀ symbol field downstream stopping,
      rt'.nodes[id]? = some (.listener symbol field downstream stopping) →
      ∃ target, downstream = some target ∧
        rt'.alive (built.head :: built.keepAlive) target = true) ↔
      requestChainsLinked requestJson = true := by
  obtain ⟨rb, hrb, rfl, rfl⟩ := buildForRequest_ok_iff.mp hbuild
  have hspecs := specifies_of_requestBlueprint hrb
  have hlinked : requestChainsLinked requestJson = rb.linked := by
    rw [requestChainsLinked, RequestBlueprint.linked, allLinked_eq hspecs.1, allLinked_eq hspecs.2]
  have halive : ∀ target, (rt.install (rb.layout terminal rt.nodes.length).1).alive
      ((rb.layout terminal rt.nodes.length).2.head ::
        (rb.layout terminal rt.nodes.length).2.keepAlive) target = true ↔
      ∃ a ∈ (rb.layout terminal rt.nodes.length).2.head ::
        (rb.layout terminal rt.nodes.length).2.keepAlive,
        Relation.ReflTransGen (Runtime.Owned
          (rt.nodes ++ (rb.layout terminal rt.nodes.length).1)) a target := by
    intro target
    have hlt := rb.roots_lt hterminal
    rw [Runtime.alive_iff_owned, Runtime.nodes_install, List.length_append]
    constructor
    · rintro ⟨a, ha, -, hpath⟩
      exact ⟨a, ha, hpath⟩
    · rintro ⟨a, ha, hpath⟩
      exact ⟨a, ha, hlt a ha, hpath⟩
  rw [hlinked, ← rb.kept_iff_linked hclosed hterminal, Runtime.nodes_install]
  simp only [halive]

end

theorem terminalOnly_closed : terminalOnly.Closed := by
  intro id node hnode x hx
  cases id with
  | zero =>
    cases hnode
    cases hx
  | succ id => cases hnode

/-- A Listener as the last stage of a Chain. -/
def listenerLast : Json ExactDouble :=
  .object [("streamKey", .string "AAPL"), ("field", .string "ask"), ("pipeline", .array [
    .object [("type", .string "Chain"), ("stages", .array [
      .object [("type", .string "AtomicAccessor"), ("field", .string "vwap")],
      .object [("type", .string "Listener"), ("field", .string "bid")]])]])]

theorem built_chains_connected_listenerLast :
    requestChainsLinked listenerLast = true ∧
    ∀ id ≥ terminalOnly.nodes.length, ∀ symbol field downstream stopping,
      ((buildForRequest fullEnv listenerLast (some 0)).run.run terminalOnly).2.nodes[id]? =
        some (.listener symbol field downstream stopping) →
      ∃ target, downstream = some target ∧
        ((buildForRequest fullEnv listenerLast (some 0)).run.run terminalOnly).2.alive
          [3, 0, 2] target = true := by
  have hbuild : ((buildForRequest fullEnv listenerLast (some 0)).run.run terminalOnly).1 =
      .ok ⟨3, [0, 2]⟩ := by decide +kernel
  have hlinked : requestChainsLinked listenerLast = true := by decide +kernel
  exact ⟨hlinked, (built_chains_connected_iff fullEnv listenerLast 0 terminalOnly _ ⟨3, [0, 2]⟩
    terminalOnly_closed (by decide) (Prod.ext hbuild rfl)).mpr hlinked⟩

/-- A Listener in front of another stage of its Chain. -/
def listenerFirst : Json ExactDouble :=
  .object [("streamKey", .string "AAPL"), ("field", .string "ask"), ("pipeline", .array [
    .object [("type", .string "Chain"), ("stages", .array [
      .object [("type", .string "Listener"), ("field", .string "bid")],
      .object [("type", .string "AtomicAccessor"), ("field", .string "vwap")]])]])]

/-- What the Listener at a place of the heap hands its values to. -/
def observed (rt : Runtime D) (id : ℕ) : Option NodeId :=
  match rt.nodes[id]? with
  | some (.listener _ _ downstream _) => downstream
  | _ => none

theorem get_of_observed {rt : Runtime D} {id : ℕ} {target : NodeId}
    (h : observed rt id = some target) : ∃ symbol field stopping,
      rt.nodes[id]? = some (.listener symbol field (some target) stopping) := by
  unfold observed at h
  cases hnode : rt.nodes[id]? with
  | none =>
    rw [hnode] at h
    cases h
  | some node =>
    rw [hnode] at h
    cases node with
    | listener symbol field downstream stopping =>
      obtain rfl : downstream = some target := h
      exact ⟨symbol, field, stopping, rfl⟩
    | _ => cases h

theorem dead_behind_listenerFirst :
    ¬ ∀ (env : BuildEnv ExactDouble) (requestJson : Json ExactDouble) (terminal : ℕ)
      (rt rt' : Runtime ExactDouble) (built : BuiltChain), rt.Closed → terminal < rt.nodes.length →
      (buildForRequest env requestJson (some terminal)).run.run rt = (.ok built, rt') →
      ∀ id ≥ rt.nodes.length, ∀ symbol field downstream stopping,
        rt'.nodes[id]? = some (.listener symbol field downstream stopping) →
        ∃ target, downstream = some target ∧
          rt'.alive (built.head :: built.keepAlive) target = true := by
  intro h
  have hbuild : ((buildForRequest fullEnv listenerFirst (some 0)).run.run terminalOnly).1 =
      .ok ⟨3, [0, 2]⟩ := by decide +kernel
  have hseen : observed ((buildForRequest fullEnv listenerFirst (some 0)).run.run terminalOnly).2 2 =
      some 1 := by decide +kernel
  have hdead : ((buildForRequest fullEnv listenerFirst (some 0)).run.run terminalOnly).2.alive
      [3, 0, 2] 1 = false := by decide +kernel
  obtain ⟨symbol, field, stopping, hnode⟩ := get_of_observed hseen
  obtain ⟨target, htarget, halive⟩ := h fullEnv listenerFirst 0 terminalOnly _ _
    terminalOnly_closed (by decide) (Prod.ext hbuild rfl) 2 (by decide) symbol field (some 1)
    stopping hnode
  cases htarget
  rw [hdead] at halive
  cases halive

end TreeBuilder

end GmaEngine
