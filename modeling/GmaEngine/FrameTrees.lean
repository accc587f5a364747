import GmaEngine.UpdateFrames

/-!
# What an update frame says

A client that reads a frame back finds its request, the stream key and the value, each exactly as
they went in up to C strings and the text of a double. Nothing else can be read from the frame.
-/

namespace GmaEngine
namespace JsonWriter
open JsonText

variable {D : Type} [Double D] (dtoa : D → List Char)

/-- The value leaves a text behind. -/
def leavesText : ArgType D → Bool
  | .double d => isFinite d
  | _ => true

mutual
/-- What a value is to a reader of JSON. -/
def valueTree : ArgType D → Tree
  | .bool b => .bool b
  | .int n => .number (intText n)
  | .double d => .number (dtoa d)
  | .string s => .string (cString s)
  | .ints ns => .array (ns.map (fun n => .number (intText n)))
  | .doubles ds => .array ((ds.filter isFinite).map (fun d => .number (dtoa d)))
  | .values vs => .array (valueTrees vs)

def valueTrees : List (ArgType D) → List Tree
  | [] => []
  | v :: vs => if leavesText v then valueTree v :: valueTrees vs else valueTrees vs
end

/-- The member that names the request. -/
def requestTree : RequestKey → String × Tree
  | .int n => ("key", .number (intText n))
  | .str s => ("requestId", .string (cString s))

/-- What an update is to a reader of its frame. -/
def frameTree (request : String × Tree) (sv : StreamValue D) : Tree :=
  .object [("type", .string "update"), request, ("streamKey", .string (cString sv.symbol)),
    ("value", valueTree dtoa sv.value)]

section Dtoa
variable {dtoa} (hdtoa : ∀ d, isFinite d = true → IsNumber (dtoa d))
include hdtoa

theorem renders_double {d : D} (hd : isFinite d = true) :
    Renders (doubleText dtoa d) (.number (dtoa d)) := by
  rw [doubleText, if_pos hd]
  exact renders_number (hdtoa d hd)

omit hdtoa in
/-- A single double that is not finite leaves an empty array. -/
theorem renders_lone {d : D} (hd : isFinite d = false) :
    Renders (arrayText [doubleText dtoa d]) (.array []) := by
  have htext : arrayText [doubleText dtoa d] = arrayText [] := by
    rw [doubleText, if_neg (by simp [hd])]
    rfl
  rw [htext]
  exact renders_emptyArray

theorem renders_doubles {ds : List D} (h : ds.all isFinite = true) :
    List.Forall₂ Renders (ds.map (doubleText dtoa))
      ((ds.filter isFinite).map (fun d => .number (dtoa d))) := by
  induction ds with
  | nil => exact .nil
  | cons d ds ih =>
    rw [List.all_cons, Bool.and_eq_true] at h
    rw [List.filter_cons_of_pos h.1]
    exact .cons (renders_double hdtoa h.1) (ih h.2)

omit [Double D] hdtoa in
theorem renders_int (n : ℤ) : Renders (intText n) (.number (intText n)) :=
  renders_number (isNumber_intText n)

omit [Double D] hdtoa in
theorem renders_ints (ns : List ℤ) :
    List.Forall₂ Renders (ns.map intText) (ns.map (fun n => .number (intText n))) := by
  induction ns with
  | nil => exact .nil
  | cons n ns ih => exact .cons (renders_int n) ih

omit [Double D] hdtoa in
theorem renders_cString (s : String) :
    Renders ('"' :: stringText (cString s)) (.string (cString s)) :=
  renders_string (isStringText_stringText (cString s))

omit hdtoa in
theorem leavesText_of_writable {v : ArgType D} (h : Writable v = true) : leavesText v = true := by
  cases v with
  | double d => exact h
  | _ => rfl

end Dtoa

variable {dtoa}

mutual
/-- The text of a writable value is read as its tree. -/
theorem renders_value (hdtoa : ∀ d, isFinite d = true → IsNumber (dtoa d)) :
    (v : ArgType D) → Writable v = true → Renders (valueText dtoa v) (valueTree dtoa v)
  | .bool b, _ => by
    rw [valueText, valueTree]
    exact renders_bool b
  | .int n, _ => by
    rw [valueText, valueTree]
    exact renders_int n
  | .double d, h => by
    rw [Writable] at h
    rw [valueText, valueTree]
    exact renders_double hdtoa h
  | .string s, _ => by
    rw [valueText, valueTree]
    exact renders_cString s
  | .ints ns, _ => by
    rw [valueText, valueTree]
    exact renders_array (renders_ints ns)
  | .doubles ds, h => by
    rw [valueText, valueTree]
    cases hall : ds.all isFinite with
    | true => exact renders_array (renders_doubles hdtoa hall)
    | false =>
      rw [Writable, hall, Bool.or_false, decide_eq_true_eq] at h
      obtain ⟨d, rfl⟩ := List.length_eq_one_iff.mp h
      have hd : isFinite d = false := by simpa using hall
      rw [List.filter_cons_of_neg (by simp [hd])]
      exact renders_lone hd
  | .values vs, h => by
    rw [valueText, valueTree]
    cases hall : AllWritable vs with
    | true => exact renders_array (renders_values hdtoa vs hall)
    | false =>
      rw [Writable, hall, Bool.or_false] at h
      obtain ⟨d, rfl⟩ : ∃ d, vs = [.double d] := by
        unfold isLoneDouble at h
        split at h
        · exact ⟨_, rfl⟩
        · cases h
      have hd : isFinite d = false := by simpa [AllWritable, Writable] using hall
      have hlone : Renders (arrayText [doubleText dtoa d]) (.array []) := renders_lone hd
      simpa [valueTexts, valueText, valueTrees, leavesText, hd] using hlone

theorem renders_values (hdtoa : ∀ d, isFinite d = true → IsNumber (dtoa d)) :
    (vs : List (ArgType D)) → AllWritable vs = true →
      List.Forall₂ Renders (valueTexts dtoa vs) (valueTrees dtoa vs)
  | [], _ => by
    rw [valueTexts, valueTrees]
    exact .nil
  | v :: vs, h => by
    rw [AllWritable, Bool.and_eq_true] at h
    rw [valueTexts, valueTrees, if_pos (leavesText_of_writable h.1)]
    exact .cons (renders_value hdtoa v h.1) (renders_values hdtoa vs h.2)
end

theorem renders_request (key : RequestKey) :
    Renders (requestMember key).2 (requestTree key).2 := by
  cases key with
  | int n => exact renders_int n
  | str s => exact renders_cString s

/-- The frame of a writable value says what was sent, and nothing else, at both terminals. -/
theorem frame_says (hdtoa : ∀ d, isFinite d = true → IsNumber (dtoa d)) (key : RequestKey)
    (reqId : String) {sv : StreamValue D} (hwritable : Writable sv.value = true) (tree : Tree) :
    (Parses (sendFn dtoa key sv) tree ↔ tree = frameTree dtoa (requestTree key) sv) ∧
      (Parses (wsResponderOnValue dtoa reqId sv) tree ↔
        tree = frameTree dtoa ("id", .string (cString reqId)) sv) := by
  have hvalue := renders_value hdtoa sv.value hwritable
  have hsend : Parses (sendFn dtoa key sv) (frameTree dtoa (requestTree key) sv) := by
    have hname : (requestMember key).1 = (requestTree key).1 := by cases key <;> rfl
    have hparses := parses_frame (renders_request key) sv hvalue
    rw [← sendFn_eq, hname] at hparses
    exact hparses
  have hrespond : Parses (wsResponderOnValue dtoa reqId sv)
      (frameTree dtoa ("id", .string (cString reqId)) sv) := by
    rw [wsResponderOnValue_eq]
    exact parses_frame (renders_cString reqId) sv hvalue
  constructor
  · constructor
    · intro h
      exact h.unique hsend
    · rintro rfl
      exact hsend
  · constructor
    · intro h
      exact h.unique hrespond
    · rintro rfl
      exact hrespond

/-- Quotes are escaped and read back, and the NaN alone in its vector leaves nothing. -/
theorem frame_says_mixed :
    Parses (sendFn wholeText (.int 7) mixed) (.object [("type", .string "update"),
      ("key", .number ['7']), ("streamKey", .string "AAPL"),
      ("value", .array [.number "42.0".toList, .array [], .string "say \"hi\""])]) ∧
    Parses (wsResponderOnValue wholeText "r1" mixed) (.object [("type", .string "update"),
      ("id", .string "r1"), ("streamKey", .string "AAPL"),
      ("value", .array [.number "42.0".toList, .array [], .string "say \"hi\""])]) := by
  have hwritable : Writable mixed.value = true := by decide
  have hframe := frame_says isNumber_wholeText (.int 7) "r1" hwritable
  exact ⟨(hframe _).1.mpr rfl, (hframe _).2.mpr rfl⟩

end JsonWriter
end GmaEngine
