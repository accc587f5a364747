import GmaEngine.JsonValidator
import GmaEngine.SpecReadings

/-!
# What the validator reads

The walk of the validator goes into the members of objects, and into those elements of arrays that
are texts or objects. An array in an array, and what comes after a null character of a text, it
does not see.
-/

namespace GmaEngine.JsonValidator

open TreeBuilder
variable {D : Type}

/-- `w` is inside `v`, below `d` objects. -/
inductive Occurs : Json D → ℕ → Json D → Prop
  | self (v) : Occurs v 0 v
  | member {members m d w} (hm : m ∈ members) (h : Occurs m.2 d w) :
    Occurs (.object members) (d + 1) w
  | elem {elems e d w} (he : e ∈ elems) (h : Occurs e d w) : Occurs (.array elems) d w

/-- The type of an object, if it has one, is registered. -/
def Registered (members : List (String × Json D)) : Prop :=
  ((Json.object members).member "type").isSome → ∃ type,
    ((Json.object members).member "type").bind Json.getString = some type ∧
      (NodeTypeRegistry.find type).isSome

section Occurrences
variable {v w x : Json D} {d e : ℕ}

theorem Occurs.trans (h : Occurs v d w) (h' : Occurs w e x) : Occurs v (d + e) x := by
  induction h with
  | self v =>
    rw [Nat.zero_add]
    exact h'
  | member hm _ ih =>
    rw [Nat.add_right_comm]
    exact .member hm (ih h')
  | elem he _ ih => exact .elem he (ih h')

end Occurrences

/-- A value that the walk has passed below `depth` objects, as a member or an element. -/
def PassedAlone (depth : ℕ) : Json D → Prop
  | .string s => strlen s ≤ maxStringLen
  | .object members => validateTree (.object members) depth = .ok ()
  | _ => True

/-- A member that the walk has passed. -/
def Passed (depth : ℕ) : Json D → Prop
  | .array elems => Int.bmod elems.length (2 ^ 32) ≤ maxArraySize ∧
      ∀ elem ∈ elems, PassedAlone depth elem
  | v => PassedAlone depth v

section Walks
variable {members : List (String × Json D)} {elems : List (Json D)} {depth : ℕ}

theorem ok_of_require {condition : Bool} {message : String}
    (h : «require» condition message = .ok ()) : condition = true := by
  unfold «require» at h
  split_ifs at h with hcondition
  exact hcondition

theorem of_require {p : Prop} [Decidable p] {message : String}
    (h : «require» (decide p) message = .ok ()) : p := of_decide_eq_true (ok_of_require h)

theorem passedAlone_of_validateElems {key : String}
    (h : validateElems key elems depth = .ok ()) :
    ∀ elem ∈ elems, PassedAlone (depth + 1) elem := by
  induction elems with
  | nil => exact nofun
  | cons first elems ih =>
    have hboth : PassedAlone (depth + 1) first ∧ validateElems key elems depth = .ok () := by
      rw [validateElems.eq_def] at h
      dsimp only at h
      cases first with
      | string s =>
        obtain ⟨_, hfirst, hrest⟩ := bind_eq_ok h
        have hlen := of_require hfirst
        exact ⟨hlen, hrest⟩
      | object inner =>
        obtain ⟨_, hfirst, hrest⟩ := bind_eq_ok h
        exact ⟨hfirst, hrest⟩
      | _ => exact ⟨trivial, h⟩
    intro elem helem
    rcases List.mem_cons.mp helem with rfl | hmem
    · exact hboth.1
    · exact ih hboth.2 elem hmem

theorem passed_of_validateMembers (h : validateMembers members depth = .ok ()) :
    ∀ m ∈ members, Passed (depth + 1) m.2 := by
  induction members with
  | nil => exact nofun
  | cons first members ih =>
    obtain ⟨name, val⟩ := first
    have hboth : Passed (depth + 1) val ∧ validateMembers members depth = .ok () := by
      rw [validateMembers.eq_def] at h
      dsimp only at h
      cases val with
      | string s =>
        obtain ⟨_, hfirst, hrest⟩ := bind_eq_ok h
        have hlen := of_require hfirst
        exact ⟨hlen, hrest⟩
      | object inner =>
        obtain ⟨_, hfirst, hrest⟩ := bind_eq_ok h
        exact ⟨hfirst, hrest⟩
      | array elems =>
        obtain ⟨_, hsize, h⟩ := bind_eq_ok h
        obtain ⟨_, helems, hrest⟩ := bind_eq_ok h
        exact ⟨⟨of_require hsize, passedAlone_of_validateElems helems⟩, hrest⟩
      | _ => exact ⟨trivial, h⟩
    intro m hm
    rcases List.mem_cons.mp hm with rfl | hmem
    · exact hboth.1
    · exact ih hboth.2 m hmem

/-- An object that passes is not too deep, and so do its members and its type. -/
theorem passed_of_validateTree (h : validateTree (.object members) depth = .ok ()) :
    depth ≤ maxTreeDepth ∧ (∀ m ∈ members, Passed (depth + 1) m.2) ∧ Registered members := by
  rw [validateTree] at h
  obtain ⟨u, hdepth, h⟩ := bind_eq_ok h
  obtain ⟨u', hmembers, h⟩ := bind_eq_ok h
  refine ⟨of_require hdepth, passed_of_validateMembers hmembers, ?_⟩
  intro htype
  rw [if_pos htype, validateNode] at h
  obtain ⟨_, -, h⟩ := bind_eq_ok h
  cases hname : ((Json.object members).member "type").bind Json.getString with
  | none =>
    rw [hname] at h
    cases h
  | some type =>
    rw [hname] at h
    obtain ⟨_, -, h⟩ := bind_eq_ok h
    obtain ⟨_, -, h⟩ := bind_eq_ok h
    exact ⟨type, rfl, ok_of_require h⟩

end Walks

section Accepted
variable {v : Json D}

end Accepted

end GmaEngine.JsonValidator
