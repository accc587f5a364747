import GmaEngine.CNumerals

/-!
# Parsed JSON documents

The values that the program receives from its JSON parser, with the typed getters it calls
on them. A getter asserts that the value has its type; `none` stands for a failed assertion.
Texts are handed out as C strings, so they end at the first null character.
-/

namespace GmaEngine

/-- An integer literal that the parser keeps as an integer: it fits `int64_t` or `uint64_t`. -/
structure IntLiteral where
  val : ℤ
  lower : -2 ^ 63 ≤ val
  upper : val < 2 ^ 64

def IntLiteral.ofRange (val : ℤ) (h : -2 ^ 63 ≤ val ∧ val < 2 ^ 64) : IntLiteral :=
  ⟨val, h.1, h.2⟩

inductive Json (D : Type) where
  | null
  | bool (b : Bool)
  | int (n : IntLiteral)
  | double (d : D)
  | string (s : String)
  | array (elems : List (Json D))
  | object (members : List (String × Json D))

/-- The characters of a C string: those before the first null. -/
def cString (s : String) : String := String.ofList (s.toList.takeWhile (· ≠ '\x00'))

namespace Json
variable {D : Type}

def uint (n : UInt64) : Json D :=
  .int ⟨n.toNat, by omega, by have := n.toNat_lt; omega⟩

def isObject : Json D → Bool
  | object _ => true
  | _ => false

def isArray : Json D → Bool
  | array _ => true
  | _ => false

def isString : Json D → Bool
  | string _ => true
  | _ => false

def isNumber : Json D → Bool
  | int _ => true
  | double _ => true
  | _ => false

def isInt : Json D → Bool
  | int n => -2 ^ 31 ≤ n.val ∧ n.val < 2 ^ 31
  | _ => false

/-- The first member of that name. -/
def member : Json D → String → Option (Json D)
  | object members, name => (members.find? (fun m => m.1 = name)).map Prod.snd
  | _, _ => none

/-- `v.HasMember(name) && p(v[name])`. -/
def has (v : Json D) (name : String) (p : Json D → Bool) : Bool := (v.member name).any p

def getString : Json D → Option String
  | string s => some (cString s)
  | _ => none

def getInt : Json D → Option ℤ
  | int n => if -2 ^ 31 ≤ n.val ∧ n.val < 2 ^ 31 then some n.val else none
  | _ => none

def getUint : Json D → Option ℕ
  | int n => if 0 ≤ n.val ∧ n.val < 2 ^ 32 then some n.val.toNat else none
  | _ => none

def getUint64 : Json D → Option UInt64
  | int n => if 0 ≤ n.val then some (UInt64.ofNat n.val.toNat) else none
  | _ => none

def getDouble [Double D] : Json D → Option D
  | int n => some (Double.ofRat n.val)
  | double d => some d
  | _ => none

@[simp] theorem getUint64_uint (n : UInt64) : (uint n : Json D).getUint64 = some n := by
  simp [uint, getUint64]

@[simp] theorem isNumber_uint (n : UInt64) : (uint n : Json D).isNumber = true := rfl

theorem sizeOf_member {v c : Json D} {name : String} (h : v.member name = some c) :
    sizeOf c < sizeOf v := by
  cases v with
  | object members =>
    obtain ⟨m, hm, rfl⟩ := Option.map_eq_some_iff.mp h
    have hlt := List.sizeOf_lt_of_mem (List.mem_of_find?_eq_some hm)
    have hsnd : sizeOf m.2 < sizeOf m := by
      cases m
      simp
    simp only [object.sizeOf_spec]
    omega
  | _ => cases h

/-- The elements of a member that is an array. -/
theorem sizeOf_member_array {v : Json D} {xs : List (Json D)} {name : String}
    (h : v.member name = some (.array xs)) : sizeOf xs < sizeOf v := by
  have hlt := sizeOf_member h
  simp only [array.sizeOf_spec] at hlt
  omega

theorem sizeOf_member_cons {v x : Json D} {xs : List (Json D)} {name : String}
    (h : v.member name = some (.array (x :: xs))) : sizeOf x + sizeOf xs < sizeOf v := by
  have hlt := sizeOf_member_array h
  simp only [List.cons.sizeOf_spec] at hlt
  omega

end Json
end GmaEngine
