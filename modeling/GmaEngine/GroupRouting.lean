import GmaEngine.EntryMaps
import GmaEngine.HeapSteps
import GmaEngine.StreamMachines

/-!
# Routing of a GroupSplit

A GroupSplit makes a child when the first value of a symbol arrives. A placeholder is entered
before the factory is called, and taken out again when no child comes of it.
-/

namespace GmaEngine.GroupSplit

open StreamMachines
variable {D C : Type}

def maxChildren : ℕ := 10000

/-- What the factory does when it is called. -/
inductive Made (C : Type) where
  | child (c : C)
  | null
  | thrown

/-- The entries of `children_`; an entry without a child is a placeholder. -/
abbrev Children (C : Type) := List (String × Option C)

/-- A call of `onValue`, with the factory as it behaves during the call. -/
structure Arrival (D C : Type) where
  value : StreamValue D
  makeChild : String → Made C

/-- What a call did: the answer of the factory, if it was asked, and the child that got the
value. -/
structure Routing (D C : Type) where
  value : StreamValue D
  made : Option (Made C)
  target : Option C

/-- The part of `onValue` under the exclusive lock, for a symbol that was found without a child. -/
def slowPath (makeChild : String → Made C) (children : Children C) (sv : StreamValue D) :
    Children C × Routing D C :=
  match lookupKey children sv.symbol with
  | some entry => (children, ⟨sv, none, entry⟩)
  | none =>
    let placed := children ++ [(sv.symbol, none)]
    if maxChildren < placed.length then
      (KeyedQueues.removeKey Prod.fst sv.symbol placed, ⟨sv, none, none⟩)
    else
      match makeChild sv.symbol with
      | .child child =>
        (assignKey placed sv.symbol (some child), ⟨sv, some (.child child), some child⟩)
      | .null => (KeyedQueues.removeKey Prod.fst sv.symbol placed, ⟨sv, some .null, none⟩)
      | .thrown => (KeyedQueues.removeKey Prod.fst sv.symbol placed, ⟨sv, some .thrown, none⟩)

/-- `onValue`; without a factory it returns at once. -/
def onValue (makeChild : Option (String → Made C)) (children : Children C) (sv : StreamValue D) :
    Children C × Routing D C :=
  match makeChild with
  | none => (children, ⟨sv, none, none⟩)
  | some makeChild =>
    match lookupKey children sv.symbol with
    | some (some child) => (children, ⟨sv, none, some child⟩)
    | _ => slowPath makeChild children sv

/-- The calls of a GroupSplit with a factory, as a machine that puts out what each call did. -/
def route (children : Children C) (call : Arrival D C) : Children C × List (Routing D C) :=
  ((onValue (some call.makeChild) children call.value).1,
    [(onValue (some call.makeChild) children call.value).2])

/-- A symbol without a child that does not get one: the map is full, or the factory returns null
or throws. -/
def Fails (children : Children C) (call : Arrival D C) : Prop :=
  lookupKey children call.value.symbol = none ∧
    (maxChildren ≤ children.length ∨ call.makeChild call.value.symbol = .null ∨
      call.makeChild call.value.symbol = .thrown)

/-- The call made no child and its value reached none. -/
def Routing.Missed (r : Routing D C) : Prop :=
  r.target = none ∧ ∀ child, r.made ≠ some (.child child)

def routingsOf (symbol : String) (routings : List (Routing D C)) : List (Routing D C) :=
  routings.filter (fun r => r.value.symbol = symbol)

/-- The calls for a symbol miss until one of them makes a child. From this one on the values go to
that child, and the factory is not asked again. -/
def Served (symbol : String) (children : Children C) (routings : List (Routing D C)) : Prop :=
  (lookupKey children symbol = none ∧ ∀ r ∈ routingsOf symbol routings, r.Missed) ∨
  ∃ child before first later, lookupKey children symbol = some (some child) ∧
    routingsOf symbol routings = before ++ first :: later ∧ (∀ r ∈ before, r.Missed) ∧
    first.made = some (.child child) ∧ first.target = some child ∧
    ∀ r ∈ later, r.made = none ∧ r.target = some child

section Calls
variable {children : Children C} {call : Arrival D C} {sv : StreamValue D}

theorem removeKey_placed {symbol : String} (h : lookupKey children symbol = none) :
    KeyedQueues.removeKey Prod.fst symbol (children ++ [(symbol, none)]) = children := by
  have hkeys := lookupKey_eq_none_iff.mp h
  rw [KeyedQueues.removeKey, List.filter_append, List.filter_eq_self.mpr (by simpa using hkeys)]
  simp

theorem assignKey_placed {symbol : String} (h : lookupKey children symbol = none)
    (child : Option C) :
    assignKey (children ++ [(symbol, none)]) symbol child = children ++ [(symbol, child)] := by
  have hplaced : children ++ [(symbol, none)] = assignKey children symbol none := by
    rw [assignKey, h]
    rfl
  rw [hplaced, assignKey_assignKey, assignKey, h]
  rfl

theorem onValue_of_child {makeChild : String → Made C} {child : C}
    (h : lookupKey children sv.symbol = some (some child)) :
    onValue (some makeChild) children sv = (children, ⟨sv, none, some child⟩) := by
  simp only [onValue, h]

/-- A symbol without an entry gets a child in a new entry, or the map stays as it was. -/
theorem onValue_of_new (makeChild : String → Made C) (h : lookupKey children sv.symbol = none) :
    (∃ child, makeChild sv.symbol = .child child ∧ children.length < maxChildren ∧
      onValue (some makeChild) children sv =
        (children ++ [(sv.symbol, some child)], ⟨sv, some (.child child), some child⟩)) ∨
    ((maxChildren ≤ children.length ∨ makeChild sv.symbol = .null ∨
      makeChild sv.symbol = .thrown) ∧ ∃ r : Routing D C, r.value = sv ∧ r.Missed ∧
        onValue (some makeChild) children sv = (children, r)) := by
  simp only [onValue, slowPath, h, List.length_append, List.length_singleton]
  split_ifs with hfull
  · refine .inr ⟨.inl (by omega), ⟨sv, none, none⟩, rfl, ⟨rfl, ?_⟩, ?_⟩
    · intro child hmade
      cases hmade
    · rw [removeKey_placed h]
  · cases hmade : makeChild sv.symbol with
    | child child =>
      refine .inl ⟨child, rfl, by omega, ?_⟩
      dsimp only
      rw [assignKey_placed h]
    | null =>
      refine .inr ⟨.inr (.inl rfl), ⟨sv, some .null, none⟩, rfl, ⟨rfl, ?_⟩, ?_⟩
      · intro child hmade
        cases hmade
      · dsimp only
        rw [removeKey_placed h]
    | thrown =>
      refine .inr ⟨.inr (.inr rfl), ⟨sv, some .thrown, none⟩, rfl, ⟨rfl, ?_⟩, ?_⟩
      · intro child hmade
        cases hmade
      · dsimp only
        rw [removeKey_placed h]

theorem route_of_fails {call : Arrival D C} (h : Fails children call) :
    (route children call).1 = children := by
  obtain ⟨hnone, hfails⟩ := h
  rcases onValue_of_new call.makeChild hnone with ⟨child, hmade, hroom, -⟩ | ⟨-, r, -, -, heq⟩
  · rcases hfails with hfull | hnull | hthrown
    · omega
    · rw [hmade] at hnull
      cases hnull
    · rw [hmade] at hthrown
      cases hthrown
  · rw [route, heq]

end Calls

/-- Every entry holds the child that its symbol was given, and there are at most
`MAX_CHILDREN` of them. -/
structure Routed (children : Children C) (routings : List (Routing D C)) : Prop where
  nodup : (children.map Prod.fst).Nodup
  size : children.length ≤ maxChildren
  served : ∀ symbol, Served symbol children routings

section Runs
variable {children : Children C} {routings : List (Routing D C)} {symbol : String}

theorem routingsOf_append (routings' : List (Routing D C)) :
    routingsOf symbol (routings ++ routings') =
      routingsOf symbol routings ++ routingsOf symbol routings' := List.filter_append _ _

theorem routingsOf_same (r : Routing D C) : routingsOf r.value.symbol [r] = [r] := by
  simp [routingsOf]

theorem routingsOf_other {r : Routing D C} (h : r.value.symbol ≠ symbol) :
    routingsOf symbol [r] = [] := by
  simp [routingsOf, h]

/-- A call for another symbol that leaves the entry of this one alone. -/
theorem Served.other {children' : Children C} {r : Routing D C}
    (h : Served symbol children routings) (hr : r.value.symbol ≠ symbol)
    (hsame : lookupKey children' symbol = lookupKey children symbol) :
    Served symbol children' (routings ++ [r]) := by
  unfold Served
  rw [routingsOf_append, routingsOf_other hr, List.append_nil, hsame]
  exact h

/-- A symbol has a child or no entry at all. -/
theorem Served.child_or_none (h : Served symbol children routings) :
    lookupKey children symbol = none ∨ ∃ child, lookupKey children symbol = some (some child) := by
  rcases h with ⟨hnone, -⟩ | ⟨child, -, -, -, hchild, -⟩
  · exact .inl hnone
  · exact .inr ⟨child, hchild⟩

theorem Served.hit {child : C} {sv : StreamValue D} (h : Served sv.symbol children routings)
    (hchild : lookupKey children sv.symbol = some (some child)) :
    Served sv.symbol children (routings ++ [⟨sv, none, some child⟩]) := by
  rcases h with ⟨hnone, -⟩ | ⟨child', before, first, later, hchild', hsplit, hbefore, hmade,
    htarget, hlater⟩
  · rw [hnone] at hchild
    cases hchild
  · obtain rfl : child' = child := by
      rw [hchild'] at hchild
      cases hchild
      rfl
    have hself := routingsOf_same (⟨sv, none, some child'⟩ : Routing D C)
    refine .inr ⟨child', before, first, later ++ [⟨sv, none, some child'⟩], hchild, ?_, hbefore,
      hmade, htarget, ?_⟩
    · rw [routingsOf_append, hsplit, hself]
      simp
    · intro r hr
      rcases List.mem_append.mp hr with hold | hnew
      · exact hlater r hold
      · rw [List.mem_singleton.mp hnew]
        exact ⟨rfl, rfl⟩

theorem Served.missed {r : Routing D C} (h : Served r.value.symbol children routings)
    (hnone : lookupKey children r.value.symbol = none) (hr : r.Missed) :
    Served r.value.symbol children (routings ++ [r]) := by
  rcases h with ⟨-, hmissed⟩ | ⟨child, -, -, -, hchild, -⟩
  · refine .inl ⟨hnone, ?_⟩
    intro r' hr'
    rw [routingsOf_append, routingsOf_same, List.mem_append, List.mem_singleton] at hr'
    rcases hr' with hold | rfl
    · exact hmissed r' hold
    · exact hr
  · rw [hnone] at hchild
    cases hchild

theorem Served.made {child : C} {sv : StreamValue D} (h : Served sv.symbol children routings)
    (hnone : lookupKey children sv.symbol = none) :
    Served sv.symbol (children ++ [(sv.symbol, some child)])
      (routings ++ [⟨sv, some (.child child), some child⟩]) := by
  rcases h with ⟨-, hmissed⟩ | ⟨child', -, -, -, hchild, -⟩
  · have hself := routingsOf_same (⟨sv, some (.child child), some child⟩ : Routing D C)
    refine .inr ⟨child, _, ⟨sv, some (.child child), some child⟩, [], ?_, ?_, hmissed, rfl, rfl,
      nofun⟩
    · rw [lookupKey_append, hnone, lookupKey_cons, if_pos rfl]
      rfl
    · rw [routingsOf_append, hself]
  · rw [hnone] at hchild
    cases hchild

theorem Routed.step (h : Routed children routings) (call : Arrival D C) :
    Routed (route children call).1 (routings ++ (route children call).2) := by
  rcases (h.served call.value.symbol).child_or_none with hnone | ⟨child, hchild⟩
  · rcases onValue_of_new call.makeChild hnone with ⟨child, -, hroom, heq⟩ | ⟨-, r, hvalue, hr, heq⟩
    · rw [route, heq]
      refine ⟨?_, ?_, ?_⟩
      · rw [List.map_append, List.nodup_append]
        refine ⟨h.nodup, List.nodup_singleton _, ?_⟩
        intro key hkey key' hkey'
        obtain ⟨entry, hentry, rfl⟩ := List.mem_map.mp hkey
        rw [List.mem_singleton.mp hkey']
        exact lookupKey_eq_none_iff.mp hnone entry hentry
      · rw [List.length_append, List.length_singleton]
        omega
      · intro symbol
        rcases eq_or_ne call.value.symbol symbol with rfl | hne
        · exact (h.served _).made hnone
        · refine (h.served symbol).other hne ?_
          rw [lookupKey_append, lookupKey_cons, if_neg hne, lookupKey_nil, Option.or_none]
    · rw [route, heq]
      refine ⟨h.nodup, h.size, ?_⟩
      intro symbol
      rcases eq_or_ne r.value.symbol symbol with rfl | hne
      · exact (h.served _).missed (by rw [hvalue]; exact hnone) hr
      · exact (h.served symbol).other hne rfl
  · rw [route, onValue_of_child hchild]
    refine ⟨h.nodup, h.size, ?_⟩
    intro symbol
    rcases eq_or_ne call.value.symbol symbol with rfl | hne
    · exact (h.served _).hit hchild
    · exact (h.served symbol).other hne rfl

/-- In every run of calls. -/
theorem routed (calls : List (Arrival D C)) :
    Routed (after route [] calls) (outputs route [] calls) := by
  induction calls using List.reverseRecOn with
  | nil => exact ⟨List.nodup_nil, Nat.zero_le _, fun _ => .inl ⟨rfl, nofun⟩⟩
  | append_singleton calls call ih =>
    rw [after_append, outputs_append]
    have hstep := ih.step call
    simpa using hstep

theorem value_onValue (makeChild : Option (String → Made C)) (children : Children C)
    (sv : StreamValue D) : (onValue makeChild children sv).2.value = sv := by
  unfold onValue slowPath
  grind

theorem values_route (calls : List (Arrival D C)) (children : Children C) :
    (outputs route children calls).map Routing.value = calls.map Arrival.value := by
  induction calls generalizing children with
  | nil => rfl
  | cons call calls ih =>
    rw [outputs_cons, List.map_append, ih, route, List.map_singleton, value_onValue,
      List.map_cons, List.singleton_append]

theorem route_of_made {call : Arrival D C} {child : C}
    (hnone : lookupKey children call.value.symbol = none) (hroom : children.length < maxChildren)
    (hmade : call.makeChild call.value.symbol = .child child) :
    route children call = (children ++ [(call.value.symbol, some child)],
      [⟨call.value, some (.child child), some child⟩]) := by
  rcases onValue_of_new call.makeChild hnone with ⟨child', hmade', -, heq⟩ | ⟨hfails, -⟩
  · rw [hmade] at hmade'
    cases hmade'
    rw [route, heq]
  · rw [hmade] at hfails
    rcases hfails with hfull | hnull | hthrown
    · omega
    · cases hnull
    · cases hthrown

/-- A symbol has at most one child, the first that the factory made for it, which gets all values
of the symbol from then on; there are at most `MAX_CHILDREN` children. A call for a new symbol
below the cap makes the child of its factory and gives it the value, and a call that fails leaves
the map as it was. -/
theorem children_routed (calls : List (Arrival D C)) :
    (outputs route [] calls).map Routing.value = calls.map Arrival.value ∧
    (after route [] calls).length ≤ maxChildren ∧
    ((after route [] calls).map Prod.fst).Nodup ∧
    (∀ symbol, Served symbol (after route [] calls) (outputs route [] calls)) ∧
    (∀ (next : Arrival D C) child, lookupKey (after route [] calls) next.value.symbol = none →
      (after route [] calls).length < maxChildren →
      next.makeChild next.value.symbol = .child child →
      route (after route [] calls) next =
        (after route [] calls ++ [(next.value.symbol, some child)],
          [⟨next.value, some (.child child), some child⟩])) ∧
    ∀ next : Arrival D C, Fails (after route [] calls) next →
      (route (after route [] calls) next).1 = after route [] calls := by
  obtain ⟨hnodup, hsize, hserved⟩ := routed calls
  exact ⟨values_route calls [], hsize, hnodup, hserved, fun _ _ => route_of_made,
    fun _ hfails => route_of_fails hfails⟩

/-- The factory throws for AAPL first and makes child 1 for it later; MSFT has child 2. -/
def twoGroups : List (Arrival ℕ ℕ) :=
  [⟨⟨"AAPL", .int 41⟩, fun _ => .thrown⟩, ⟨⟨"AAPL", .int 42⟩, fun _ => .child 1⟩,
    ⟨⟨"MSFT", .int 7⟩, fun _ => .child 2⟩, ⟨⟨"AAPL", .int 43⟩, fun _ => .child 3⟩]

def thirdGroup (made : Made ℕ) : Arrival ℕ ℕ := ⟨⟨"IBM", .int 9⟩, fun _ => made⟩

theorem children_routed_twoGroups :
    (outputs route [] twoGroups).map Routing.value = twoGroups.map Arrival.value ∧
    after route [] twoGroups = [("AAPL", some 1), ("MSFT", some 2)] ∧
    (outputs route [] twoGroups).map Routing.target = [none, some 1, some 2, some 1] ∧
    route (after route [] twoGroups) (thirdGroup (.child 4)) =
      ([("AAPL", some 1), ("MSFT", some 2), ("IBM", some 4)],
        [⟨(thirdGroup (.child 4)).value, some (.child 4), some 4⟩]) ∧
    (route (after route [] twoGroups) (thirdGroup .null)).1 =
      [("AAPL", some 1), ("MSFT", some 2)] := by
  obtain ⟨hvalues, -, -, -, hmade, hfails⟩ := children_routed twoGroups
  refine ⟨hvalues, rfl, rfl, ?_, ?_⟩
  · exact hmade (thirdGroup (.child 4)) 4 rfl (by decide) rfl
  · exact hfails (thirdGroup .null) ⟨rfl, .inr (.inl rfl)⟩

end Runs

section Built
variable [Double D] (env : BuildEnv D) (rt : Runtime D) (childDoc : Json D)
  (defaultStreamKey : String) (downstream : Option NodeId)

/-- What the factory of a GroupSplit builds for a symbol, and the heap after it. -/
def built (symbol : String) : Except String NodeId × Runtime D :=
  EffectPlans.outcome (TreeBuilder.buildOne env childDoc
    (if symbol = "" then defaultStreamKey else symbol) downstream) rt

/-- The factory of a GroupSplit, with the heap as it is. A build never returns null. -/
def factory (symbol : String) : Made NodeId :=
  match (built env rt childDoc defaultStreamKey downstream symbol).1 with
  | .ok child => .child child
  | .error _ => .thrown

/-- The children of a node of the heap. -/
def entries (children : List (String × NodeId)) : Children NodeId :=
  children.map (fun entry => (entry.1, some entry.2))

omit [Double D] in
theorem lookupKey_entries (children : List (String × NodeId)) (symbol : String) :
    lookupKey (entries children) symbol = (lookupKey children symbol).map some := by
  induction children with
  | nil => rfl
  | cons entry children ih =>
    have hcons : entries (entry :: children) = (entry.1, some entry.2) :: entries children := rfl
    rw [hcons, lookupKey_cons, lookupKey_cons, ih]
    split_ifs <;> rfl

variable {env rt childDoc defaultStreamKey downstream}

theorem factory_eq_child {symbol : String} {child : NodeId}
    (h : factory env rt childDoc defaultStreamKey downstream symbol = .child child) :
    ∃ rt', built env rt childDoc defaultStreamKey downstream symbol = (.ok child, rt') := by
  unfold factory at h
  generalize built env rt childDoc defaultStreamKey downstream symbol = out at h ⊢
  obtain ⟨_ | child', rt'⟩ := out
  · cases h
  · cases h
    exact ⟨rt', rfl⟩

theorem factory_not_child {symbol : String}
    (h : ∀ child, factory env rt childDoc defaultStreamKey downstream symbol ≠ .child child) :
    ∃ message rt', built env rt childDoc defaultStreamKey downstream symbol =
      (.error message, rt') := by
  unfold factory at h
  generalize built env rt childDoc defaultStreamKey downstream symbol = out at h ⊢
  obtain ⟨message | child, rt'⟩ := out
  · exact ⟨message, rt', rfl⟩
  · exact absurd rfl (h child)

/-- With room for one more, it is the build that fails. -/
theorem built_of_fails {children : List (String × NodeId)} {symbol : String}
    (hroom : children.length + 1 ≤ maxChildren)
    (hfails : maxChildren ≤ (entries children).length ∨
      factory env rt childDoc defaultStreamKey downstream symbol = .null ∨
      factory env rt childDoc defaultStreamKey downstream symbol = .thrown) :
    ∃ message rt', built env rt childDoc defaultStreamKey downstream symbol =
      (.error message, rt') := by
  apply factory_not_child
  intro child hmade
  rw [entries, List.length_map, hmade] at hfails
  rcases hfails with hfull | hnull | hthrown
  · omega
  · cases hnull
  · cases hthrown

/-- A GroupSplit of the heap is called as the class says: its children change as those of the
class do, and the value goes where the class sends it. -/
theorem onValue_groupSplit (store : String → String → Option (ArgType D)) (live : NodeId → Bool)
    {id : NodeId} {children : List (String × NodeId)}
    (hnode : rt.nodes[id]? = some (.groupSplit childDoc defaultStreamKey downstream children))
    (sv : StreamValue D) :
    ∃ children',
      (Runtime.onValue env store live rt id sv).1.nodes[id]? =
        some (.groupSplit childDoc defaultStreamKey downstream children') ∧
      (onValue (some (factory env rt childDoc defaultStreamKey downstream))
        (entries children) sv).1 = entries children' ∧
      (Runtime.onValue env store live rt id sv).2.calls =
        (onValue (some (factory env rt childDoc defaultStreamKey downstream))
          (entries children) sv).2.target.toList.map (fun child => ⟨child, sv⟩) := by
  have hcall : Runtime.onValue env store live rt id sv =
      Runtime.groupSplitOnValue env rt id childDoc defaultStreamKey downstream children sv := by
    rw [Runtime.onValue, hnode]
  have hlt := (List.getElem?_eq_some_iff.mp hnode).1
  have hgrown : TreeBuilder.Grown rt
      (built env rt childDoc defaultStreamKey downstream sv.symbol).2 :=
    TreeBuilder.grown_buildOne env childDoc _ downstream rt
  rw [hcall, Runtime.groupSplitOnValue]
  cases hlookup : lookupKey children sv.symbol with
  | some child =>
    have hchild : lookupKey (entries children) sv.symbol = some (some child) := by
      rw [lookupKey_entries, hlookup, Option.map_some]
    rw [onValue_of_child hchild]
    exact ⟨children, hnode, rfl, rfl⟩
  | none =>
    have hnone : lookupKey (entries children) sv.symbol = none := by
      rw [lookupKey_entries, hlookup, Option.map_none]
    rcases onValue_of_new (factory env rt childDoc defaultStreamKey downstream) hnone with
      ⟨child, hmade, hroom, heq⟩ | ⟨hfails, r, -, hmissed, heq⟩
    · obtain ⟨rt', hbuilt⟩ := factory_eq_child hmade
      have hfits : ¬ 10000 < children.length + 1 := by
        rw [maxChildren, entries, List.length_map] at hroom
        omega
      rw [hbuilt] at hgrown
      have hlt' : id < rt'.nodes.length := hlt.trans_le hgrown.nodes.length_le
      have hbuild : (TreeBuilder.buildOne env childDoc
          (if sv.symbol = "" then defaultStreamKey else sv.symbol) downstream).run.run rt =
          (.ok child, rt') := hbuilt
      simp only [if_neg hfits, hbuild, heq]
      refine ⟨children ++ [(sv.symbol, child)], ?_, ?_, rfl⟩
      · rw [Runtime.setNode, List.getElem?_set_self hlt']
      · simp [entries]
    · rw [heq, hmissed.1]
      rcases Nat.lt_or_ge 10000 (children.length + 1) with hfull | hroom
      · rw [if_pos hfull]
        exact ⟨children, hnode, rfl, rfl⟩
      · obtain ⟨message, rt', hbuilt⟩ := built_of_fails hroom hfails
        have hbuild : (TreeBuilder.buildOne env childDoc
            (if sv.symbol = "" then defaultStreamKey else sv.symbol) downstream).run.run rt =
            (.error message, rt') := hbuilt
        rw [hbuilt] at hgrown
        simp only [if_neg (Nat.not_lt.mpr hroom), hbuild]
        exact ⟨children, (hgrown.getElem? hlt).trans hnode, rfl, rfl⟩

end Built

end GmaEngine.GroupSplit
