import GmaEngine.NodeMachines

/-!
# Synchronous pipes

A call that a node makes on its downstream returns before the node goes on. What a row of nodes
hands to the node behind it is therefore what the machines of the nodes put out as a cascade.
-/

namespace GmaEngine.Runtime

open StreamMachines
variable {D : Type} [Double D] (env : BuildEnv D)
  (store : String → String → Option (ArgType D)) (live : NodeId → Bool) (terminal : NodeId)

/-- The calls one after the other, each with the calls it makes before the next one. What reaches
the terminal is recorded; `none` if the fuel does not last. -/
def deliver : ℕ → Runtime D → List (Call D) → Option (Runtime D × List (StreamValue D))
  | _, rt, [] => some (rt, [])
  | 0, _, _ :: _ => none
  | fuel + 1, rt, call :: rest =>
    if call.node = terminal then
      (deliver fuel rt rest).map (fun out => (out.1, call.value :: out.2))
    else
      let out := onValue env store live rt call.node call.value
      deliver fuel out.1 (out.2.calls ++ rest)

variable {rt rt' rt'' : Runtime D} {calls rest : List (Call D)}
  {outs outs' : List (StreamValue D)} {n m : ℕ}

theorem deliver_mono (h : deliver env store live terminal n rt calls = some (rt', outs)) (k : ℕ) :
    deliver env store live terminal (n + k) rt calls = some (rt', outs) := by
  induction n generalizing rt calls outs with
  | zero =>
    cases calls with
    | nil =>
      rw [deliver] at h ⊢
      exact h
    | cons call rest => cases h
  | succ n ih =>
    cases calls with
    | nil =>
      rw [deliver] at h ⊢
      exact h
    | cons call rest =>
      rw [Nat.succ_add]
      rw [deliver] at h ⊢
      split_ifs at h ⊢ with hterminal
      · obtain ⟨out, hout, heq⟩ := Option.map_eq_some_iff.mp h
        cases heq
        rw [ih hout, Option.map_some]
      · exact ih h

theorem deliver_append (h : deliver env store live terminal n rt calls = some (rt', outs))
    (h' : deliver env store live terminal m rt' rest = some (rt'', outs')) :
    deliver env store live terminal (n + m) rt (calls ++ rest) = some (rt'', outs ++ outs') := by
  induction n generalizing rt calls outs with
  | zero =>
    cases calls with
    | nil =>
      rw [deliver] at h
      cases h
      rw [Nat.zero_add]
      exact h'
    | cons call calls => cases h
  | succ n ih =>
    cases calls with
    | nil =>
      rw [deliver] at h
      cases h
      rw [Nat.add_comm]
      exact deliver_mono env store live terminal h' _
    | cons call calls =>
      rw [Nat.succ_add, List.cons_append]
      rw [deliver] at h ⊢
      split_ifs at h ⊢ with hterminal
      · obtain ⟨out, hout, heq⟩ := Option.map_eq_some_iff.mp h
        cases heq
        rw [ih hout, Option.map_some, List.cons_append]
      · have hnext := ih h
        rw [List.append_assoc] at hnext
        exact hnext

/-- The nodes stand in a row in front of the terminal, each with its state. -/
def Pipe (terminal : NodeId) (rt : Runtime D) :
    List NodeId → List (Stage D × SymbolMap D) → Prop
  | [], [] => True
  | id :: ids, stage :: stages =>
    rt.nodes[id]? = some (stage.1.node (some (ids.headD terminal)) stage.2) ∧
      Pipe terminal rt ids stages
  | _, _ => False

omit [Double D] in
theorem Pipe.of_same {ids : List NodeId} {stages : List (Stage D × SymbolMap D)}
    (h : Pipe terminal rt ids stages) (hsame : ∀ id ∈ ids, rt'.nodes[id]? = rt.nodes[id]?) :
    Pipe terminal rt' ids stages := by
  induction ids generalizing stages with
  | nil =>
    cases stages with
    | nil => trivial
    | cons stage stages => exact h.elim
  | cons id ids ih =>
    cases stages with
    | nil => exact h.elim
    | cons stage stages =>
      obtain ⟨hnode, hrest⟩ := h
      refine ⟨(hsame id List.mem_cons_self).trans hnode, ih hrest ?_⟩
      intro other hother
      exact hsame other (List.mem_cons_of_mem _ hother)

theorem deliver_terminal (svs : List (StreamValue D)) :
    deliver env store live terminal svs.length rt (svs.map (fun sv => ⟨terminal, sv⟩)) =
      some (rt, svs) := by
  induction svs with
  | nil => rfl
  | cons sv svs ih =>
    rw [List.map_cons, List.length_cons, deliver, if_pos rfl, ih, Option.map_some]

/-- What is fed into a row of nodes runs through the cascade of their machines. -/
theorem deliver_pipe {ids : List NodeId} {stages : List (Stage D × SymbolMap D)}
    (h : Pipe terminal rt ids stages) (hnodup : (terminal :: ids).Nodup)
    (svs : List (StreamValue D)) :
    ∃ n rt', deliver env store live terminal n rt
        (svs.map (fun sv => ⟨ids.headD terminal, sv⟩)) =
        some (rt', (cascade (Stage.step store) stages svs).2) ∧
      Pipe terminal rt' ids (cascade (Stage.step store) stages svs).1 ∧
      ∀ id ∉ ids, rt'.nodes[id]? = rt.nodes[id]? := by
  induction ids generalizing rt stages svs with
  | nil =>
    cases stages with
    | cons stage stages => exact h.elim
    | nil => exact ⟨svs.length, rt, deliver_terminal env store live terminal svs, trivial, by simp⟩
  | cons id ids ih =>
    cases stages with
    | nil => exact h.elim
    | cons stage stages =>
      obtain ⟨hterminal, hnodup'⟩ := List.nodup_cons.mp hnodup
      obtain ⟨hid, hids⟩ := List.nodup_cons.mp hnodup'
      have hbelow : (terminal :: ids).Nodup :=
        List.nodup_cons.mpr ⟨fun hin => hterminal (List.mem_cons_of_mem _ hin), hids⟩
      induction svs generalizing rt stage stages with
      | nil =>
        refine ⟨0, rt, ?_, ?_, fun _ _ => rfl⟩
        · rw [cascade_nil]
          rfl
        · rw [cascade_nil]
          exact h
      | cons sv svs ihsvs =>
        obtain ⟨hnode, hrest⟩ := h
        have hlt := (List.getElem?_eq_some_iff.mp hnode).1
        have hcall := onValue_stage env store live stage.1 hnode sv
        rw [handOn_some] at hcall
        obtain ⟨kind, acc⟩ := stage
        have hsame : ∀ other ∈ ids, (rt.setNode id (kind.node (some (ids.headD terminal))
            (kind.step store acc sv).1)).nodes[other]? = rt.nodes[other]? := by
          intro other hother
          rw [setNode, List.getElem?_set_ne]
          rintro rfl
          exact hid hother
        obtain ⟨n, rt₁, hfirst, hpipe, hframe⟩ := ih (hrest.of_same terminal hsame) hbelow
          (kind.step store acc sv).2
        have hnode' : rt₁.nodes[id]? = some (kind.node (some (ids.headD terminal))
            (kind.step store acc sv).1) := by
          rw [hframe id hid, setNode, List.getElem?_set_self hlt]
        have hrow : Pipe terminal rt₁ (id :: ids) ((kind, (kind.step store acc sv).1) ::
            (cascade (Stage.step store) stages (kind.step store acc sv).2).1) := ⟨hnode', hpipe⟩
        obtain ⟨m, rt₂, hlater, hpipe', hframe'⟩ := ihsvs _ _ hrow
        rw [cascade_cons_item]
        refine ⟨n + m + 1, rt₂, ?_, hpipe', ?_⟩
        · have hne : id ≠ terminal := fun heq => hterminal (heq ▸ List.mem_cons_self)
          rw [List.map_cons, deliver]
          simp only [List.headD_cons, if_neg hne, hcall]
          exact deliver_append env store live terminal hfirst hlater
        · intro other hother
          obtain ⟨hne, hout⟩ := not_or.mp (fun hin => hother (List.mem_cons.mpr hin))
          rw [hframe' other hother, hframe other hout, setNode, List.getElem?_set_ne (Ne.symm hne)]

end GmaEngine.Runtime
