import GmaEngine.TreeBuilder

/-!
# Validation of client specifications

Every member of a specification is checked by the type of its value, whatever its name:
lengths of texts and arrays, depth of objects, and the node type of objects that have one.
-/

namespace GmaEngine.JsonValidator
variable {D : Type}

def maxTreeDepth : ℕ := 32

def maxArraySize : ℕ := 64

def maxStringLen : ℕ := 4096

/-- `strlen` of the text. -/
def strlen (s : String) : ℕ := (cString s).utf8ByteSize

def validateNode (v : Json D) : Except String Unit := do
  TreeBuilder.require v.isObject "Node must be an object"
  match (v.member "type").bind Json.getString with
  | none => throw "Node missing string 'type'"
  | some type =>
    TreeBuilder.require (type ≠ "") "Node 'type' must not be empty"
    TreeBuilder.require (type.utf8ByteSize ≤ maxStringLen) "field 'type' exceeds maximum length"
    TreeBuilder.require (NodeTypeRegistry.find type).isSome
      ("Unknown node type: '" ++ type ++ "'")

mutual

def validateTree (v : Json D) (depth : ℕ) : Except String Unit := do
  TreeBuilder.require (depth ≤ maxTreeDepth) "Tree exceeds maximum depth of 32"
  match v with
  | .object members =>
    validateMembers members depth
    if ((Json.object members).member "type").isSome then validateNode (.object members)
  | _ => throw "Tree node must be an object"
termination_by 2 * sizeOf v

def validateMembers (members : List (String × Json D)) (depth : ℕ) : Except String Unit :=
  match members with
  | [] => .ok ()
  | (name, val) :: members => do
    let key := cString name
    match val with
    | .string s =>
      TreeBuilder.require (strlen s ≤ maxStringLen) ("field '" ++ key ++ "' exceeds maximum length")
    | .object inner => validateTree (.object inner) (depth + 1)
    | .array elems =>
      -- the size is an unsigned 32-bit integer, cast to `int`
      TreeBuilder.require (Int.bmod elems.length (2 ^ 32) ≤ maxArraySize)
        ("'" ++ key ++ "' array exceeds maximum size of 64")
      validateElems key elems depth
    | _ => pure ()
    validateMembers members depth
termination_by 2 * sizeOf members

def validateElems (key : String) (elems : List (Json D)) (depth : ℕ) : Except String Unit :=
  match elems with
  | [] => .ok ()
  | elem :: elems => do
    match elem with
    | .string s =>
      TreeBuilder.require (strlen s ≤ maxStringLen)
        ("element in array '" ++ key ++ "' exceeds maximum length")
    | .object inner => validateTree (.object inner) (depth + 1)
    | _ => pure ()
    validateElems key elems depth
termination_by 2 * sizeOf elems

end

end GmaEngine.JsonValidator
