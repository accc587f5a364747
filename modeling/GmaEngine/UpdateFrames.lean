import Mathlib.Data.Nat.Digits.Lemmas
import GmaEngine.JsonWriter

/-!
# Update frames

The text that the writer makes of a value, and when the frame around it is JSON. A double that is
not finite leaves no text behind its separator, which only the single element of an array
survives.
-/

namespace GmaEngine

open JsonText

theorem hex4_control : ∀ n < 32, hex4 '0' '0' (hexDigit (n / 16)) (hexDigit (n % 16)) = some n := by
  decide +kernel

/-- The characters with an escape of their own. -/
def shortEscapes : List Char := ['"', '\\', '\x08', '\t', '\n', '\x0c', '\r']

/-- What a character of a string is read as. -/
def piece (c : Char) : Piece :=
  if c.toNat < 32 ∧ c ∉ shortEscapes then .unit c.toNat else .char c

theorem piece_of_mem {c : Char} (h : c ∈ shortEscapes) : piece c = .char c := by
  simp [piece, h]

theorem readPieces_escapeChar (c : Char) (cs : List Char) :
    readPieces (escapeChar c ++ cs) =
      (readPieces cs).map (fun p => (piece c :: p.1, p.2)) := by
  by_cases hshort : c ∈ shortEscapes
  · rw [piece_of_mem hshort]
    simp only [shortEscapes, List.mem_cons, List.not_mem_nil, or_false] at hshort
    rcases hshort with rfl | rfl | rfl | rfl | rfl | rfl | rfl <;>
      exact readPieces_escape (by decide) rfl cs
  · have hplain := hshort
    simp only [shortEscapes, List.mem_cons, List.not_mem_nil, or_false, not_or] at hplain
    obtain ⟨hquote, hslash, hb, ht, hn, hf, hr⟩ := hplain
    simp only [escapeChar, hquote, hslash, hb, ht, hn, hf, hr, or_self, if_false]
    by_cases hcontrol : c.toNat < 32
    · have hpiece : piece c = .unit c.toNat := if_pos ⟨hcontrol, hshort⟩
      rw [if_pos hcontrol, hpiece]
      exact readPieces_unit (hex4_control c.toNat hcontrol) cs
    · have hpiece : piece c = .char c := if_neg (fun h => hcontrol h.1)
      rw [if_neg hcontrol, hpiece]
      exact readPieces_plain hquote hslash hcontrol cs

theorem readPieces_stringText (cs r : List Char) :
    readPieces (cs.flatMap escapeChar ++ '"' :: r) = some (cs.map piece, r) := by
  induction cs with
  | nil => exact readPieces_quote r
  | cons c cs ih =>
    rw [List.flatMap_cons, List.append_assoc, readPieces_escapeChar, ih]
    rfl

theorem join_piece (cs : List Char) : join (cs.map piece) = cs := by
  induction cs with
  | nil => rfl
  | cons c cs ih =>
    by_cases hunit : c.toNat < 32 ∧ c ∉ shortEscapes
    · have hpiece : piece c = .unit c.toNat := if_pos hunit
      rw [List.map_cons, hpiece, join_unit (by omega), ih, Char.ofNat_toNat]
    · have hpiece : piece c = .char c := if_neg hunit
      rw [List.map_cons, hpiece, join, ih]

theorem isStringText_stringText (s : String) : IsStringText (stringText s) s := by
  intro r
  rw [stringText, List.append_assoc, List.singleton_append, readString, readPieces_stringText]
  simp [join_piece]

theorem isDigit_digitChar : ∀ n < 10, (Nat.digitChar n).isDigit = true := by decide

theorem isDigit_of_mem_decimal {n : ℕ} {c : Char} (hc : c ∈ decimal n) : c.isDigit = true := by
  unfold decimal at hc
  split at hc
  · obtain rfl : c = '0' := by simpa using hc
    rfl
  · obtain ⟨d, hd, rfl⟩ := List.mem_map.mp hc
    exact isDigit_digitChar d (Nat.digits_lt_base (by decide) (List.mem_reverse.mp hd))

/-- A positive number is written without a leading zero. -/
theorem decimal_cons {n : ℕ} (hn : n ≠ 0) : ∃ c cs, decimal n = c :: cs ∧ c ≠ '0' := by
  have hne : Nat.digits 10 n ≠ [] := Nat.digits_ne_nil_iff_ne_zero.mpr hn
  have hlast := Nat.getLast_digit_ne_zero 10 hn
  have hlt : (Nat.digits 10 n).getLast hne < 10 :=
    Nat.digits_lt_base (by decide) (List.getLast_mem hne)
  have hdigit : ∀ d < 10, d ≠ 0 → Nat.digitChar d ≠ '0' := by decide
  refine ⟨_, ((Nat.digits 10 n).dropLast.reverse).map Nat.digitChar, ?_, hdigit _ hlt hlast⟩
  rw [decimal, if_neg hn, ← List.map_cons, ← List.reverse_concat,
    List.dropLast_concat_getLast hne]

theorem decimal_ne_nil (n : ℕ) : decimal n ≠ [] := by
  by_cases hn : n = 0
  · subst hn
    exact List.cons_ne_nil _ _
  · obtain ⟨c, cs, htext, -⟩ := decimal_cons hn
    rw [htext]
    exact List.cons_ne_nil c cs

section Decimal
variable (n : ℕ) {r : List Char} (hr : ∀ c ∈ r.head?, c.isDigit = false)
include hr

theorem readInt_decimal : readInt (decimal n ++ r) = some (decimal n, r) := by
  by_cases hn : n = 0
  · subst hn
    rfl
  · obtain ⟨c, cs, htext, hzero⟩ := decimal_cons hn
    have hdigits : ∀ x ∈ c :: cs, x.isDigit = true := by
      intro x hx
      rw [← htext] at hx
      exact isDigit_of_mem_decimal hx
    rw [htext, List.cons_append, readInt, if_neg hzero, ← List.cons_append]
    exact readDigits_append_other (by simp) hdigits hr

omit hr in
theorem readMinus_decimal : readMinus (decimal n ++ r) = ([], decimal n ++ r) := by
  obtain ⟨c, cs, htext⟩ := List.exists_cons_of_ne_nil (decimal_ne_nil n)
  have hdigit : c.isDigit = true := isDigit_of_mem_decimal (htext ▸ List.mem_cons_self)
  have hminus : c ≠ '-' := by
    rintro rfl
    cases hdigit
  rw [htext, List.cons_append, readMinus, if_neg hminus]

/-- An integer is read up to the fraction and the exponent that may follow it. -/
theorem readNumber_intText (n : ℤ) : readNumber (intText n ++ r) =
    (readFrac r).bind (fun frac => (readExp frac.2).map (fun exp =>
      (intText n ++ frac.1 ++ exp.1, exp.2))) := by
  have hread : ∀ sign, readMinus (sign ++ (decimal n.natAbs ++ r)) = (sign, decimal n.natAbs ++ r) →
      readNumber (sign ++ (decimal n.natAbs ++ r)) =
        (readFrac r).bind (fun frac => (readExp frac.2).map (fun exp =>
          (sign ++ decimal n.natAbs ++ frac.1 ++ exp.1, exp.2))) := by
    intro sign hsign
    simp only [readNumber, hsign, readInt_decimal n.natAbs hr, Option.bind_eq_bind,
      Option.bind_some]
    cases readFrac r with
    | none => rfl
    | some frac =>
      simp only [Option.bind_some]
      cases readExp frac.2 <;> rfl
  by_cases hneg : n < 0
  · have htext : intText n = '-' :: decimal n.natAbs := if_pos hneg
    rw [htext]
    exact hread ['-'] rfl
  · have htext : intText n = decimal n.natAbs := if_neg hneg
    rw [htext]
    exact hread [] (readMinus_decimal n.natAbs)

end Decimal

theorem isNumber_intText (n : ℤ) : IsNumber (intText n) := by
  have hread := readNumber_intText (r := []) (by simp) n
  simpa [readFrac, readExp, IsNumber] using hread

namespace JsonWriter

/-- Further elements behind the first ones of an array. -/
theorem foldl_scalar (texts : List (List Char)) (out : List Char) (k : ℕ)
    (levels : List WriterLevel) :
    texts.foldl scalar ⟨out, ⟨true, k + 1⟩ :: levels⟩ =
      ⟨out ++ texts.flatMap (',' :: ·), ⟨true, k + texts.length + 1⟩ :: levels⟩ := by
  induction texts generalizing out k with
  | nil => simp
  | cons t ts ih =>
    have hstep : scalar ⟨out, ⟨true, k + 1⟩ :: levels⟩ t =
        ⟨out ++ ',' :: t, ⟨true, k + 1 + 1⟩ :: levels⟩ := by
      simp [scalar, startValue, put, separator]
    rw [List.foldl_cons, hstep, ih]
    simp [Nat.add_assoc, Nat.add_comm 1]

theorem array_eq_scalar (w : JsonWriter) (texts : List (List Char)) :
    (texts.foldl scalar w.startArray).endArray = w.scalar (arrayText texts) := by
  cases texts with
  | nil => simp [startArray, endArray, open_, close, scalar, put, arrayText, joined]
  | cons t ts =>
    have hfirst : scalar w.startArray t =
        ⟨w.startValue.out ++ '[' :: t, ⟨true, 0 + 1⟩ :: w.startValue.levels⟩ := by
      simp [startArray, open_, scalar, put, startValue, separator]
    rw [List.foldl_cons, hfirst, foldl_scalar]
    simp [endArray, close, scalar, put, arrayText, joined]

section Double
variable {D : Type} [Double D] (dtoa : D → List Char)

/-- Nothing, if the number is not finite. -/
def doubleText (d : D) : List Char := if isFinite d then dtoa d else []

mutual
def valueText : ArgType D → List Char
  | .bool b => if b then "true".toList else "false".toList
  | .int n => intText n
  | .double d => doubleText dtoa d
  | .string s => '"' :: stringText (cString s)
  | .ints ns => arrayText (ns.map intText)
  | .doubles ds => arrayText (ds.map (doubleText dtoa))
  | .values vs => arrayText (valueTexts vs)

def valueTexts : List (ArgType D) → List (List Char)
  | [] => []
  | v :: vs => valueText v :: valueTexts vs
end

theorem double_eq_scalar (w : JsonWriter) (d : D) :
    w.double dtoa d = w.scalar (doubleText dtoa d) := by
  unfold double doubleText
  split_ifs
  · rfl
  · simp [scalar, put]

mutual
theorem writeArgTypeJson_eq (w : JsonWriter) : (v : ArgType D) →
    writeArgTypeJson dtoa w v = w.scalar (valueText dtoa v)
  | .bool b => by rw [writeArgTypeJson, valueText, bool]
  | .int n => by rw [writeArgTypeJson, valueText, int]
  | .double d => by rw [writeArgTypeJson, valueText, double_eq_scalar]
  | .string s => by rw [writeArgTypeJson, valueText, string]
  | .ints ns => by
    rw [writeArgTypeJson, valueText, ← array_eq_scalar, List.foldl_map]
    rfl
  | .doubles ds => by
    have hdouble : double dtoa = fun w d => scalar w (doubleText dtoa d) := by
      funext w d
      exact double_eq_scalar dtoa w d
    rw [writeArgTypeJson, valueText, ← array_eq_scalar, List.foldl_map, hdouble]
  | .values vs => by
    rw [writeArgTypeJson, valueText, ← array_eq_scalar, writeArgValuesJson_eq _ vs]

theorem writeArgValuesJson_eq (w : JsonWriter) : (vs : List (ArgType D)) →
    writeArgValuesJson dtoa w vs = (valueTexts dtoa vs).foldl scalar w
  | [] => by rw [writeArgValuesJson, valueTexts, List.foldl_nil]
  | v :: vs => by
    rw [writeArgValuesJson, valueTexts, List.foldl_cons, writeArgTypeJson_eq w v,
      writeArgValuesJson_eq _ vs]
end

theorem valueTexts_eq_map (vs : List (ArgType D)) : valueTexts dtoa vs = vs.map (valueText dtoa) := by
  induction vs with
  | nil => rw [valueTexts, List.map_nil]
  | cons v vs ih => rw [valueTexts, List.map_cons, ih]

end Double

/-- The text of a member whose name needs no reading back. -/
def member (m : String × List Char) : Member := ⟨m.1, stringText m.1, m.2⟩

def writeMember (w : JsonWriter) (m : String × List Char) : JsonWriter := (w.key m.1).scalar m.2

theorem writeMember_first (m : String × List Char) (out : List Char) (levels : List WriterLevel) :
    writeMember ⟨out, ⟨false, 0⟩ :: levels⟩ m =
      ⟨out ++ (member m).render, ⟨false, 2 * 1⟩ :: levels⟩ := by
  simp [writeMember, key, string, scalar, startValue, put, separator, member, Member.render]

theorem writeMember_next (m : String × List Char) (out : List Char) (k : ℕ)
    (levels : List WriterLevel) :
    writeMember ⟨out, ⟨false, 2 * (k + 1)⟩ :: levels⟩ m =
      ⟨out ++ ',' :: (member m).render, ⟨false, 2 * (k + 1 + 1)⟩ :: levels⟩ := by
  have hodd : (2 * (k + 1) + 1) % 2 = 1 := by omega
  simp [writeMember, key, string, scalar, startValue, put, separator, member, Member.render, hodd]
  omega

theorem foldl_writeMember (ms : List (String × List Char)) (out : List Char) (k : ℕ)
    (levels : List WriterLevel) :
    ms.foldl writeMember ⟨out, ⟨false, 2 * (k + 1)⟩ :: levels⟩ =
      ⟨out ++ (ms.map (Member.render ∘ member)).flatMap (',' :: ·),
        ⟨false, 2 * (k + ms.length + 1)⟩ :: levels⟩ := by
  induction ms generalizing out k with
  | nil => simp
  | cons m ms ih =>
    rw [List.foldl_cons, writeMember_next, ih]
    simp [Nat.add_assoc, Nat.add_comm 1]

/-- An object of members is written as one, from its name to its end. -/
theorem object_eq (m : String × List Char) (ms : List (String × List Char)) :
    ((m :: ms).foldl writeMember ({} : JsonWriter).startObject).endObject.out =
      objectText ((m :: ms).map member) := by
  have hstart : ({} : JsonWriter).startObject = ⟨['{'], [⟨false, 0⟩]⟩ := rfl
  rw [hstart, List.foldl_cons, writeMember_first, foldl_writeMember (k := 0)]
  simp [endObject, close, objectText, joined]

section Double
variable {D : Type} [Double D] (dtoa : D → List Char)

def requestMember : RequestKey → String × List Char
  | .int n => ("key", intText n)
  | .str s => ("requestId", '"' :: stringText (cString s))

/-- The members of a frame, with the one that names the request. -/
def frameMembers (request : String × List Char) (sv : StreamValue D) :
    List (String × List Char) :=
  [("type", '"' :: stringText "update"), request,
    ("streamKey", '"' :: stringText (cString sv.symbol)), ("value", valueText dtoa sv.value)]

theorem sendFn_eq (key : RequestKey) (sv : StreamValue D) :
    sendFn dtoa key sv = objectText ((frameMembers dtoa (requestMember key) sv).map member) := by
  rw [frameMembers, ← object_eq, sendFn]
  cases key <;> simp only [writeArgTypeJson_eq] <;> rfl

example : sendFn (D := ExactDouble) (fun _ => []) (.int 7) ⟨"AAPL", .double .nan⟩ =
    "\x7b\"type\":\"update\",\"key\":7,\"streamKey\":\"AAPL\",\"value\":\x7d".toList := by
  decide +kernel

theorem wsResponderOnValue_eq (reqId : String) (sv : StreamValue D) :
    wsResponderOnValue dtoa reqId sv = objectText
      ((frameMembers dtoa ("id", '"' :: stringText (cString reqId)) sv).map member) := by
  rw [frameMembers, ← object_eq, wsResponderOnValue]
  simp only [writeArgTypeJson_eq]
  rfl

def isLoneDouble : List (ArgType D) → Bool
  | [.double _] => true
  | _ => false

mutual
/-- Every double that is not finite is the only element of the vector that holds it. -/
def Writable : ArgType D → Bool
  | .double d => isFinite d
  | .doubles ds => ds.length = 1 || ds.all isFinite
  | .values vs => isLoneDouble vs || AllWritable vs
  | .bool _ | .int _ | .string _ | .ints _ => true

def AllWritable : List (ArgType D) → Bool
  | [] => true
  | v :: vs => Writable v && AllWritable vs
end

theorem allWritable_eq_all (vs : List (ArgType D)) : AllWritable vs = vs.all Writable := by
  induction vs with
  | nil => rw [AllWritable, List.all_nil]
  | cons v vs ih => rw [AllWritable, List.all_cons, ih]

section Dtoa
variable {dtoa} (hdtoa : ∀ d, isFinite d = true → IsNumber (dtoa d))
include hdtoa

theorem settles_double (d : D) : Settles (isFinite d) (doubleText dtoa d) := by
  unfold doubleText
  cases hfinite : isFinite d with
  | true => exact .of_renders (renders_number (hdtoa d hfinite))
  | false => exact .inr ⟨rfl, broken_nil⟩

/-- A single double makes an array that can be read, though an empty one if it is not finite. -/
theorem settles_lone (d : D) : Settles true (arrayText [doubleText dtoa d]) := by
  unfold doubleText
  cases hfinite : isFinite d with
  | true =>
    exact .of_renders (renders_array (.cons (renders_number (hdtoa d hfinite)) .nil))
  | false => exact .of_renders renders_emptyArray

theorem settles_doubles (ds : List D) :
    Settles (Writable (.doubles ds)) (valueText dtoa (.doubles ds)) := by
  rw [Writable, valueText]
  by_cases hone : ds.length = 1
  · obtain ⟨d, rfl⟩ := List.length_eq_one_iff.mp hone
    exact settles_lone hdtoa d
  · have hne : ds.map (doubleText dtoa) ≠ [[]] := by
      intro h
      apply hone
      simpa using congrArg List.length h
    rw [decide_eq_false hone, Bool.false_or]
    exact settles_array (fun d _ => settles_double hdtoa d) hne

omit hdtoa in
theorem settles_ints (ns : List ℤ) : Settles true (arrayText (ns.map intText)) := by
  have hne : ns.map intText ≠ [[]] := by
    intro h
    obtain ⟨n, rfl⟩ : ∃ n, ns = [n] := by
      apply List.length_eq_one_iff.mp
      simpa using congrArg List.length h
    have hnil : IsNumber [] := by
      rw [← List.singleton_inj.mp h]
      exact isNumber_intText n
    cases hnil
  have hall : ns.all (fun _ => true) = true := List.all_eq_true.mpr (fun _ _ => rfl)
  rw [← hall]
  exact settles_array (fun n _ => .of_renders (renders_number (isNumber_intText n))) hne

omit hdtoa in
/-- Only a double can leave no text. -/
theorem eq_double_of_valueText_nil {v : ArgType D} (h : valueText dtoa v = []) :
    ∃ d, v = .double d := by
  cases v with
  | double d => exact ⟨d, rfl⟩
  | bool b => cases b <;> simp [valueText] at h
  | int n =>
    have hnil : IsNumber [] := by
      rw [← h, valueText]
      exact isNumber_intText n
    cases hnil
  | string s => simp [valueText] at h
  | ints ns => simp [valueText, arrayText] at h
  | doubles ds => simp [valueText, arrayText] at h
  | values vs => simp [valueText, arrayText] at h

theorem settles_values {vs : List (ArgType D)}
    (h : ∀ v ∈ vs, Settles (Writable v) (valueText dtoa v)) :
    Settles (Writable (.values vs)) (valueText dtoa (.values vs)) := by
  rw [Writable, valueText, valueTexts_eq_map, allWritable_eq_all]
  cases hlone : isLoneDouble vs with
  | true =>
    obtain ⟨d, rfl⟩ : ∃ d, vs = [.double d] := by
      unfold isLoneDouble at hlone
      split at hlone
      · exact ⟨_, rfl⟩
      · cases hlone
    simpa [valueText] using settles_lone hdtoa d
  | false =>
    rw [Bool.false_or]
    apply settles_array h
    intro hnil
    obtain ⟨v, rfl⟩ : ∃ v, vs = [v] := by
      apply List.length_eq_one_iff.mp
      simpa using congrArg List.length hnil
    obtain ⟨d, rfl⟩ := eq_double_of_valueText_nil (List.singleton_inj.mp hnil)
    cases hlone

end Dtoa

variable {dtoa}

mutual
/-- The writer makes JSON of a value exactly if it is writable. -/
theorem settles_value (hdtoa : ∀ d, isFinite d = true → IsNumber (dtoa d)) :
    (v : ArgType D) → Settles (Writable v) (valueText dtoa v)
  | .bool b => by
    rw [Writable, valueText]
    exact .of_renders (renders_bool b)
  | .int n => by
    rw [Writable, valueText]
    exact .of_renders (renders_number (isNumber_intText n))
  | .double d => by
    rw [Writable, valueText]
    exact settles_double hdtoa d
  | .string s => by
    rw [Writable, valueText]
    exact .of_renders (renders_string (isStringText_stringText (cString s)))
  | .ints ns => by
    rw [Writable, valueText]
    exact settles_ints ns
  | .doubles ds => settles_doubles hdtoa ds
  | .values vs => settles_values hdtoa (settles_all hdtoa vs)

theorem settles_all (hdtoa : ∀ d, isFinite d = true → IsNumber (dtoa d)) :
    (vs : List (ArgType D)) → ∀ v ∈ vs, Settles (Writable v) (valueText dtoa v)
  | [] => List.forall_mem_nil _
  | v :: vs => List.forall_mem_cons.mpr ⟨settles_value hdtoa v, settles_all hdtoa vs⟩
end

/-- The text is an object with members of these names and no others. -/
def HasMembers (frame : List Char) (names : List String) : Prop :=
  ∃ ms, Parses frame (.object ms) ∧ ms.map Prod.fst = names

theorem named_member (ms : List (String × List Char)) : ∀ m ∈ ms.map member, m.Named := by
  intro m hm
  obtain ⟨p, -, rfl⟩ := List.mem_map.mp hm
  exact isStringText_stringText p.1

section Frame
variable {request : String × List Char} {ident : Tree} (hrequest : Renders request.2 ident)
  (sv : StreamValue D)
include hrequest

theorem parses_frame {tree : Tree} (hvalue : Renders (valueText dtoa sv.value) tree) :
    Parses (objectText ((frameMembers dtoa request sv).map member))
      (.object [("type", .string "update"), (request.1, ident),
        ("streamKey", .string (cString sv.symbol)), ("value", tree)]) := by
  have htype := renders_string (isStringText_stringText "update")
  have hsymbol := renders_string (isStringText_stringText (cString sv.symbol))
  have hvalues : List.Forall₂ (fun m t => Renders m.text t)
      ((frameMembers dtoa request sv).map member)
      [.string "update", ident, .string (cString sv.symbol), tree] :=
    .cons htype (.cons hrequest (.cons hsymbol (.cons hvalue .nil)))
  exact parses_object (by simp [frameMembers]) (named_member _) hvalues

theorem not_parses_frame (hvalue : Broken (valueText dtoa sv.value)) (tree : Tree) :
    ¬Parses (objectText ((frameMembers dtoa request sv).map member)) tree := by
  have htype := renders_string (isStringText_stringText "update")
  have hsymbol := renders_string (isStringText_stringText (cString sv.symbol))
  refine not_parses_object (named_member _) ?_
    ⟨member ("value", valueText dtoa sv.value), ?_, hvalue⟩ tree
  · intro m hm
    simp only [frameMembers, List.map_cons, List.map_nil, List.mem_cons, List.not_mem_nil,
      or_false] at hm
    rcases hm with rfl | rfl | rfl | rfl
    · exact .inr ⟨_, htype⟩
    · exact .inr ⟨_, hrequest⟩
    · exact .inr ⟨_, hsymbol⟩
    · exact .inl hvalue
  · simp [frameMembers]

theorem hasMembers_frame_iff (hdtoa : ∀ d, isFinite d = true → IsNumber (dtoa d)) :
    HasMembers (objectText ((frameMembers dtoa request sv).map member))
      ["type", request.1, "streamKey", "value"] ↔ Writable sv.value = true := by
  rcases settles_value hdtoa sv.value with ⟨hwritable, tree, hr⟩ | ⟨hwritable, hb⟩
  · exact iff_of_true ⟨_, parses_frame hrequest sv hr, rfl⟩ hwritable
  · refine iff_of_false ?_ (by simp [hwritable])
    rintro ⟨ms, hparses, -⟩
    exact not_parses_frame hrequest sv hb _ hparses

end Frame

def requestName : RequestKey → String
  | .int _ => "key"
  | .str _ => "requestId"

theorem renders_requestMember (key : RequestKey) : ∃ ident, Renders (requestMember key).2 ident := by
  cases key with
  | int n => exact ⟨_, renders_number (isNumber_intText n)⟩
  | str s => exact ⟨_, renders_string (isStringText_stringText (cString s))⟩

/-- If finite doubles are written as JSON numbers, the frames of both terminals are JSON objects
with exactly their four members if and only if the value is writable. -/
theorem frames_json_iff (hdtoa : ∀ d, isFinite d = true → IsNumber (dtoa d)) (key : RequestKey)
    (reqId : String) (sv : StreamValue D) :
    (HasMembers (sendFn dtoa key sv) ["type", requestName key, "streamKey", "value"] ↔
        Writable sv.value = true) ∧
      (HasMembers (wsResponderOnValue dtoa reqId sv) ["type", "id", "streamKey", "value"] ↔
        Writable sv.value = true) := by
  constructor
  · obtain ⟨ident, hrequest⟩ := renders_requestMember key
    have hname : (requestMember key).1 = requestName key := by cases key <;> rfl
    rw [sendFn_eq, ← hname]
    exact hasMembers_frame_iff hrequest sv hdtoa
  · rw [wsResponderOnValue_eq]
    exact hasMembers_frame_iff (renders_string (isStringText_stringText (cString reqId))) sv hdtoa

end Double

/-- Whole numbers with one decimal place, as the writer prints them. -/
def wholeText : ExactDouble → List Char
  | .fin q => intText ⌊q⌋ ++ ".0".toList
  | _ => []

theorem isNumber_wholeText (d : ExactDouble) (h : isFinite d = true) : IsNumber (wholeText d) := by
  cases d with
  | nan => cases h
  | inf negative => cases h
  | fin q =>
    have hread := readNumber_intText (r := ['.', '0']) (by simp) ⌊q⌋
    exact hread.trans (by simp [readFrac, readDigits, readExp, wholeText])

/-- The NaN is the only element of its vector. -/
def mixed : StreamValue ExactDouble :=
  ⟨"AAPL", .values [.double (.fin 42), .doubles [.nan], .string "say \"hi\""]⟩

theorem frames_json_mixed :
    HasMembers (sendFn wholeText (.int 7) mixed) ["type", "key", "streamKey", "value"] ∧
      HasMembers (wsResponderOnValue wholeText "r1" mixed) ["type", "id", "streamKey", "value"] := by
  have hwritable : Writable mixed.value = true := by decide
  have hframes := frames_json_iff isNumber_wholeText (.int 7) "r1" mixed
  exact ⟨hframes.1.mpr hwritable, hframes.2.mpr hwritable⟩

/-- With a NaN the frame ends in a name without a value. -/
theorem nan_frame_not_json : ¬HasMembers (sendFn wholeText (.int 7) ⟨"AAPL", .double .nan⟩)
    ["type", "key", "streamKey", "value"] := by
  intro h
  obtain ⟨ident, hrequest⟩ := renders_requestMember (.int 7)
  rw [sendFn_eq] at h
  have hwritable := (hasMembers_frame_iff hrequest _ isNumber_wholeText).mp h
  cases hwritable

end JsonWriter
end GmaEngine
