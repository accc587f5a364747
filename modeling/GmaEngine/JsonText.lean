import Mathlib.Data.List.Basic
import Mathlib.Data.List.TakeWhile

/-!
# JSON texts

A reader for JSON texts after RFC 8259, by recursive descent over the characters. Numbers keep
their text. The depth of the nesting is bounded by fuel; a text is JSON when some fuel is
enough to read it.
-/

namespace GmaEngine.JsonText

inductive Tree where
  | null
  | bool (b : Bool)
  | number (text : List Char)
  | string (s : String)
  | array (elems : List Tree)
  | object (members : List (String × Tree))

def isSpace (c : Char) : Bool := c = ' ' || c = '\t' || c = '\n' || c = '\r'

def skip (cs : List Char) : List Char := cs.dropWhile isSpace

/-- What stands for a character in a string: itself or an escaped code unit. -/
inductive Piece where
  | char (c : Char)
  | unit (n : ℕ)

def hexValue (c : Char) : Option ℕ :=
  if c.isDigit then some (c.toNat - '0'.toNat)
  else if 'a' ≤ c ∧ c ≤ 'f' then some (c.toNat - 'a'.toNat + 10)
  else if 'A' ≤ c ∧ c ≤ 'F' then some (c.toNat - 'A'.toNat + 10)
  else none

def hex4 (a b c d : Char) : Option ℕ := do
  let a ← hexValue a
  let b ← hexValue b
  let c ← hexValue c
  let d ← hexValue d
  return ((a * 16 + b) * 16 + c) * 16 + d

def unescape (c : Char) : Option Char :=
  if c = '"' ∨ c = '\\' ∨ c = '/' then some c
  else if c = 'b' then some '\x08'
  else if c = 'f' then some '\x0c'
  else if c = 'n' then some '\n'
  else if c = 'r' then some '\r'
  else if c = 't' then some '\t'
  else none

/-- The pieces up to the closing quote, and the text behind it. -/
def readPieces : List Char → Option (List Piece × List Char)
  | [] => none
  | c :: cs =>
    if c = '"' then some ([], cs)
    else if c = '\\' then
      match cs with
      | 'u' :: h₁ :: h₂ :: h₃ :: h₄ :: cs => do
        let n ← hex4 h₁ h₂ h₃ h₄
        let (ps, rest) ← readPieces cs
        return (.unit n :: ps, rest)
      | e :: cs => do
        let c ← unescape e
        let (ps, rest) ← readPieces cs
        return (.char c :: ps, rest)
      | [] => none
    else if c.toNat < 32 then none
    else do
      let (ps, rest) ← readPieces cs
      return (.char c :: ps, rest)

/-- Code units in the surrogate ranges make a character in pairs; a single one is replaced. -/
def join : List Piece → List Char
  | [] => []
  | .char c :: ps => c :: join ps
  | .unit hi :: .unit lo :: ps =>
    if 0xD800 ≤ hi ∧ hi < 0xDC00 ∧ 0xDC00 ≤ lo ∧ lo < 0xE000 then
      Char.ofNat (0x10000 + (hi - 0xD800) * 0x400 + (lo - 0xDC00)) :: join ps
    else (if 0xD800 ≤ hi ∧ hi < 0xE000 then '\uFFFD' else Char.ofNat hi) :: join (.unit lo :: ps)
  | .unit n :: ps => (if 0xD800 ≤ n ∧ n < 0xE000 then '\uFFFD' else Char.ofNat n) :: join ps

def readString (cs : List Char) : Option (String × List Char) :=
  (readPieces cs).map (fun p => (String.ofList (join p.1), p.2))

def readMinus : List Char → List Char × List Char
  | [] => ([], [])
  | c :: cs => if c = '-' then ([c], cs) else ([], c :: cs)

/-- At least one digit. -/
def readDigits (cs : List Char) : Option (List Char × List Char) :=
  if cs.takeWhile Char.isDigit = [] then none
  else some (cs.takeWhile Char.isDigit, cs.dropWhile Char.isDigit)

/-- Without leading zeros. -/
def readInt : List Char → Option (List Char × List Char)
  | [] => none
  | c :: cs => if c = '0' then some ([c], cs) else readDigits (c :: cs)

def readFrac : List Char → Option (List Char × List Char)
  | [] => some ([], [])
  | c :: cs =>
    if c = '.' then (readDigits cs).map (fun p => (c :: p.1, p.2)) else some ([], c :: cs)

def readSign : List Char → List Char × List Char
  | [] => ([], [])
  | c :: cs => if c = '-' ∨ c = '+' then ([c], cs) else ([], c :: cs)

def readExp : List Char → Option (List Char × List Char)
  | [] => some ([], [])
  | c :: cs =>
    if c = 'e' ∨ c = 'E' then
      (readDigits (readSign cs).2).map (fun p => (c :: (readSign cs).1 ++ p.1, p.2))
    else some ([], c :: cs)

def readNumber (cs : List Char) : Option (List Char × List Char) := do
  let (minus, cs) := readMinus cs
  let (int, cs) ← readInt cs
  let (frac, cs) ← readFrac cs
  let (exp, cs) ← readExp cs
  return (minus ++ int ++ frac ++ exp, cs)

/-- The text is a number and nothing else. -/
def IsNumber (text : List Char) : Prop := readNumber text = some (text, [])

/-- The rest of a word. -/
def readWord (word : List Char) (tree : Tree) (cs : List Char) : Option (Tree × List Char) :=
  if cs.take word.length = word then some (tree, cs.drop word.length) else none

mutual
def readValue : ℕ → List Char → Option (Tree × List Char)
  | 0, _ => none
  | fuel + 1, cs =>
    match skip cs with
    | [] => none
    | c :: cs =>
      if c = '"' then (readString cs).map (fun p => (.string p.1, p.2))
      else if c = '[' then
        if (skip cs).head? = some ']' then some (.array [], (skip cs).tail)
        else (readElements fuel cs).map (fun p => (.array p.1, p.2))
      else if c = '{' then
        if (skip cs).head? = some '}' then some (.object [], (skip cs).tail)
        else (readMembers fuel cs).map (fun p => (.object p.1, p.2))
      else if c = 't' then readWord "rue".toList (.bool true) cs
      else if c = 'f' then readWord "alse".toList (.bool false) cs
      else if c = 'n' then readWord "ull".toList .null cs
      else (readNumber (c :: cs)).map (fun p => (.number p.1, p.2))

/-- The elements of an array up to its end. -/
def readElements : ℕ → List Char → Option (List Tree × List Char)
  | 0, _ => none
  | fuel + 1, cs => do
    let (v, cs) ← readValue fuel cs
    match skip cs with
    | [] => none
    | c :: cs =>
      if c = ',' then do
        let (vs, cs) ← readElements fuel cs
        return (v :: vs, cs)
      else if c = ']' then some ([v], cs)
      else none

/-- The members of an object up to its end. -/
def readMembers : ℕ → List Char → Option (List (String × Tree) × List Char)
  | 0, _ => none
  | fuel + 1, cs => do
    if (skip cs).head? ≠ some '"' then none
    let (k, cs) ← readString (skip cs).tail
    if (skip cs).head? ≠ some ':' then none
    let (v, cs) ← readValue fuel (skip cs).tail
    match skip cs with
    | [] => none
    | c :: cs =>
      if c = ',' then do
        let (ms, cs) ← readMembers fuel cs
        return ((k, v) :: ms, cs)
      else if c = '}' then some ([(k, v)], cs)
      else none
end

/-- The text is JSON and says this. -/
def Parses (cs : List Char) (tree : Tree) : Prop :=
  ∃ fuel rest, readValue fuel cs = some (tree, rest) ∧ skip rest = []

theorem readPieces_quote (r : List Char) : readPieces ('"' :: r) = some ([], r) := by
  rw [readPieces.eq_def]
  rfl

theorem readPieces_plain {c : Char} (hquote : c ≠ '"') (hslash : c ≠ '\\')
    (hcontrol : ¬c.toNat < 32) (cs : List Char) :
    readPieces (c :: cs) = (readPieces cs).map (fun p => (.char c :: p.1, p.2)) := by
  rw [readPieces.eq_def]
  simp only [if_neg hquote, if_neg hslash, if_neg hcontrol]
  cases readPieces cs <;> rfl

theorem readPieces_escape {e c : Char} (hu : e ≠ 'u') (h : unescape e = some c) (cs : List Char) :
    readPieces ('\\' :: e :: cs) = (readPieces cs).map (fun p => (.char c :: p.1, p.2)) := by
  rw [readPieces]
  · simp only [h, Option.bind_eq_bind, Option.bind_some]
    cases readPieces cs <;> rfl
  · intro h₁ h₂ h₃ h₄ cs' he
    exact absurd he hu

theorem readPieces_unit {h₁ h₂ h₃ h₄ : Char} {n : ℕ} (h : hex4 h₁ h₂ h₃ h₄ = some n)
    (cs : List Char) : readPieces ('\\' :: 'u' :: h₁ :: h₂ :: h₃ :: h₄ :: cs) =
      (readPieces cs).map (fun p => (.unit n :: p.1, p.2)) := by
  rw [readPieces]
  simp only [h, Option.bind_eq_bind, Option.bind_some]
  cases readPieces cs <;> rfl

/-- A code unit below the surrogates is a character whatever follows it. -/
theorem join_unit {n : ℕ} (hn : n < 0xD800) (ps : List Piece) :
    join (.unit n :: ps) = Char.ofNat n :: join ps := by
  have hlow : ¬0xD800 ≤ n := by omega
  cases ps with
  | nil => simp [join, hlow]
  | cons p ps => cases p <;> simp [join, hlow]

theorem readDigits_append_other {cs r : List Char} (hne : cs ≠ [])
    (h : ∀ c ∈ cs, c.isDigit = true) (hr : ∀ c ∈ r.head?, c.isDigit = false) :
    readDigits (cs ++ r) = some (cs, r) := by
  have htake : r.takeWhile Char.isDigit = [] := by
    cases r with
    | nil => rfl
    | cons c r => simp [hr c rfl]
  have hdrop : r.dropWhile Char.isDigit = r := by
    cases r with
    | nil => rfl
    | cons c r => simp [hr c rfl]
  rw [readDigits, List.takeWhile_append_of_pos h, List.dropWhile_append_of_pos h, htake, hdrop,
    List.append_nil, if_neg hne]

/-- What can follow a value inside a text. -/
def IsStop (c : Char) : Prop := c = ',' ∨ c = ']' ∨ c = '}'

section Stop
variable {c : Char} (hc : IsStop c) (cs r : List Char)
include hc

theorem IsStop.skip : skip (c :: r) = c :: r := by
  rcases hc with rfl | rfl | rfl <;> rfl

theorem IsStop.not_digit : c.isDigit = false := by
  rcases hc with rfl | rfl | rfl <;> rfl

theorem takeWhile_append_stop :
    (cs ++ c :: r).takeWhile Char.isDigit = cs.takeWhile Char.isDigit := by
  induction cs with
  | nil => simp [hc.not_digit]
  | cons x cs ih => cases hx : x.isDigit <;> simp [hx, ih]

theorem dropWhile_append_stop :
    (cs ++ c :: r).dropWhile Char.isDigit = cs.dropWhile Char.isDigit ++ c :: r := by
  induction cs with
  | nil => simp [hc.not_digit]
  | cons x cs ih => cases hx : x.isDigit <;> simp [hx, ih]

theorem readDigits_append : readDigits (cs ++ c :: r) =
    (readDigits cs).map (fun p => (p.1, p.2 ++ c :: r)) := by
  simp only [readDigits, takeWhile_append_stop hc, dropWhile_append_stop hc]
  split_ifs <;> rfl

theorem readMinus_append :
    readMinus (cs ++ c :: r) = ((readMinus cs).1, (readMinus cs).2 ++ c :: r) := by
  cases cs with
  | nil => rcases hc with rfl | rfl | rfl <;> rfl
  | cons x cs =>
    simp only [List.cons_append, readMinus]
    split_ifs <;> rfl

theorem readSign_append :
    readSign (cs ++ c :: r) = ((readSign cs).1, (readSign cs).2 ++ c :: r) := by
  cases cs with
  | nil => rcases hc with rfl | rfl | rfl <;> rfl
  | cons x cs =>
    simp only [List.cons_append, readSign]
    split_ifs <;> rfl

theorem readInt_append :
    readInt (cs ++ c :: r) = (readInt cs).map (fun p => (p.1, p.2 ++ c :: r)) := by
  cases cs with
  | nil => rcases hc with rfl | rfl | rfl <;> rfl
  | cons x cs =>
    simp only [List.cons_append, readInt]
    split_ifs
    · rfl
    · exact readDigits_append hc (x :: cs) r

theorem readFrac_append :
    readFrac (cs ++ c :: r) = (readFrac cs).map (fun p => (p.1, p.2 ++ c :: r)) := by
  cases cs with
  | nil => rcases hc with rfl | rfl | rfl <;> rfl
  | cons x cs =>
    simp only [List.cons_append, readFrac]
    split_ifs
    · rw [readDigits_append hc, Option.map_map, Option.map_map]
      rfl
    · rfl

theorem readExp_append :
    readExp (cs ++ c :: r) = (readExp cs).map (fun p => (p.1, p.2 ++ c :: r)) := by
  cases cs with
  | nil => rcases hc with rfl | rfl | rfl <;> rfl
  | cons x cs =>
    simp only [List.cons_append, readExp]
    split_ifs
    · rw [readSign_append hc, readDigits_append hc, Option.map_map, Option.map_map]
      rfl
    · rfl

/-- A number is read up to what follows it. -/
theorem readNumber_append : readNumber (cs ++ c :: r) =
    (readNumber cs).map (fun p => (p.1, p.2 ++ c :: r)) := by
  simp only [readNumber, readMinus_append hc, readInt_append hc]
  cases readInt (readMinus cs).2 with
  | none => rfl
  | some int =>
    simp only [Option.map_some, Option.bind_eq_bind, Option.bind_some, readFrac_append hc]
    cases readFrac int.2 with
    | none => rfl
    | some frac =>
      simp only [Option.map_some, Option.bind_some, readExp_append hc]
      cases readExp frac.2 with
      | none => rfl
      | some exp => rfl

end Stop

-- A text renders a tree if it is read as that tree wherever it stands before a comma or the end of
-- an array or object. It is broken if it is not read there at all.

/-- The text starts with a character at which no space is skipped and no array ends. -/
def Opens (text : List Char) : Prop :=
  ∃ c cs, text = c :: cs ∧ isSpace c = false ∧ c ≠ ']' ∧ c ≠ '}'

structure Renders (text : List Char) (tree : Tree) : Prop where
  opens : Opens text
  sound : ∀ fuel c r, IsStop c →
    readValue fuel (text ++ c :: r) = none ∨ readValue fuel (text ++ c :: r) = some (tree, c :: r)
  enough : ∃ n, ∀ fuel, n ≤ fuel → ∀ c r, IsStop c →
    readValue fuel (text ++ c :: r) = some (tree, c :: r)

structure Broken (text : List Char) : Prop where
  opens : text = [] ∨ Opens text
  fails : ∀ fuel c r, IsStop c → readValue fuel (text ++ c :: r) = none

/-- A text that is read with any fuel at all. -/
theorem Renders.of_succ {text : List Char} {tree : Tree} (hopens : Opens text)
    (h : ∀ fuel c r, IsStop c → readValue (fuel + 1) (text ++ c :: r) = some (tree, c :: r)) :
    Renders text tree := by
  refine ⟨hopens, ?_, 1, ?_⟩
  · intro fuel c r hc
    cases fuel with
    | zero => exact .inl (by rw [readValue])
    | succ fuel => exact .inr (h fuel c r hc)
  · intro fuel hfuel c r hc
    obtain ⟨k, rfl⟩ := Nat.exists_eq_add_of_le' hfuel
    exact h k c r hc

theorem skip_cons {c : Char} (hc : isSpace c = false) (cs : List Char) : skip (c :: cs) = c :: cs := by
  simp [skip, hc]

theorem renders_bool (b : Bool) :
    Renders (if b then "true".toList else "false".toList) (.bool b) := by
  cases b with
  | true =>
    refine .of_succ ⟨'t', "rue".toList, rfl, rfl, by decide, by decide⟩ ?_
    intro fuel c r hc
    rw [readValue]
    simp [skip, isSpace, readWord]
  | false =>
    refine .of_succ ⟨'f', "alse".toList, rfl, rfl, by decide, by decide⟩ ?_
    intro fuel c r hc
    rw [readValue]
    simp [skip, isSpace, readWord]

theorem readInt_head {c : Char} {cs : List Char} {p : List Char × List Char}
    (h : readInt (c :: cs) = some p) : c.isDigit = true := by
  cases hdigit : c.isDigit with
  | true => rfl
  | false =>
    have hzero : c ≠ '0' := by
      rintro rfl
      cases hdigit
    simp [readInt, readDigits, hzero, hdigit] at h

/-- A number starts with a digit or a minus sign. -/
theorem IsNumber.head {text : List Char} (h : IsNumber text) :
    ∃ c cs, text = c :: cs ∧ (c.isDigit = true ∨ c = '-') := by
  cases text with
  | nil => cases h
  | cons c cs =>
    refine ⟨c, cs, rfl, ?_⟩
    by_cases hminus : c = '-'
    · exact .inr hminus
    · simp only [IsNumber, readNumber, readMinus, if_neg hminus] at h
      cases hint : readInt (c :: cs) with
      | none => simp [hint] at h
      | some p => exact .inl (readInt_head hint)

theorem renders_number {text : List Char} (h : IsNumber text) : Renders text (.number text) := by
  obtain ⟨c, cs, rfl, hc⟩ := h.head
  have hne : ∀ x, x.isDigit = false → x ≠ '-' → c ≠ x := by
    rintro x hx hminus rfl
    rcases hc with hdigit | rfl
    · rw [hx] at hdigit
      cases hdigit
    · exact hminus rfl
  have hspace : isSpace c = false := by
    simp [isSpace, hne ' ' rfl (by decide), hne '\t' rfl (by decide), hne '\n' rfl (by decide),
      hne '\r' rfl (by decide)]
  refine .of_succ ⟨c, cs, rfl, hspace, hne ']' rfl (by decide), hne '}' rfl (by decide)⟩ ?_
  intro fuel stop r hstop
  have hread := readNumber_append hstop (c :: cs) r
  rw [h, Option.map_some, List.nil_append, List.cons_append] at hread
  rw [readValue, List.cons_append, skip_cons hspace]
  simp [hne '"' rfl (by decide), hne '[' rfl (by decide), hne '{' rfl (by decide),
    hne 't' rfl (by decide), hne 'f' rfl (by decide), hne 'n' rfl (by decide), hread]

/-- The text of a string behind its opening quote. -/
def IsStringText (text : List Char) (s : String) : Prop :=
  ∀ r, readString (text ++ r) = some (s, r)

theorem renders_string {text : List Char} {s : String} (h : IsStringText text s) :
    Renders ('"' :: text) (.string s) := by
  refine .of_succ ⟨'"', text, rfl, rfl, by decide, by decide⟩ ?_
  intro fuel c r hc
  rw [readValue, List.cons_append, skip_cons rfl]
  simp [h (c :: r)]

/-- Nothing is not a value. -/
theorem broken_nil : Broken [] := by
  refine ⟨.inl rfl, ?_⟩
  intro fuel c r hc
  cases fuel with
  | zero => rw [readValue]
  | succ fuel =>
    rw [readValue, List.nil_append, hc.skip]
    rcases hc with rfl | rfl | rfl <;> rfl

/-- Texts with commas between them. -/
def joined : List (List Char) → List Char
  | [] => []
  | t :: ts => t ++ ts.flatMap (',' :: ·)

theorem joined_cons_cons (t u : List Char) (ts : List (List Char)) :
    joined (t :: u :: ts) = t ++ ',' :: joined (u :: ts) := by
  simp [joined]

theorem isStop_comma : IsStop ',' := .inl rfl
theorem isStop_bracket : IsStop ']' := .inr (.inl rfl)
theorem isStop_brace : IsStop '}' := .inr (.inr rfl)

theorem readElements_last {fuel : ℕ} {text r : List Char} {tree : Tree}
    (h : readValue fuel (text ++ ']' :: r) = some (tree, ']' :: r)) :
    readElements (fuel + 1) (text ++ ']' :: r) = some ([tree], r) := by
  rw [readElements, h]
  simp [isStop_bracket.skip]

theorem readElements_more {fuel : ℕ} {text rest : List Char} {tree : Tree}
    (h : readValue fuel (text ++ ',' :: rest) = some (tree, ',' :: rest)) :
    readElements (fuel + 1) (text ++ ',' :: rest) =
      (readElements fuel rest).map (fun p => (tree :: p.1, p.2)) := by
  rw [readElements, h]
  simp only [Option.bind_eq_bind, Option.bind_some, isStop_comma.skip, if_true]
  cases readElements fuel rest <;> rfl

theorem readElements_none {fuel : ℕ} {cs : List Char} (h : readValue fuel cs = none) :
    readElements (fuel + 1) cs = none := by
  rw [readElements, h]
  rfl

theorem readElements_sound {texts : List (List Char)} {trees : List Tree}
    (h : List.Forall₂ Renders texts trees) (hne : texts ≠ []) (fuel : ℕ) (r : List Char) :
    readElements fuel (joined texts ++ ']' :: r) = none ∨
      readElements fuel (joined texts ++ ']' :: r) = some (trees, r) := by
  induction h generalizing fuel with
  | nil => exact absurd rfl hne
  | @cons t tree ts trees ht hts ih =>
    cases fuel with
    | zero => exact .inl (by rw [readElements])
    | succ fuel =>
      cases hts with
      | nil =>
        have htext : joined [t] ++ ']' :: r = t ++ ']' :: r := by simp [joined]
        rw [htext]
        rcases ht.sound fuel ']' r isStop_bracket with hread | hread
        · exact .inl (readElements_none hread)
        · exact .inr (readElements_last hread)
      | @cons u tree' us trees' hu hus =>
        rw [joined_cons_cons, List.append_assoc, List.cons_append]
        rcases ht.sound fuel ',' (joined (u :: us) ++ ']' :: r) isStop_comma with hread | hread
        · exact .inl (readElements_none hread)
        · rw [readElements_more hread]
          rcases ih (by simp) fuel with hrest | hrest
          · exact .inl (by rw [hrest]; rfl)
          · exact .inr (by rw [hrest]; rfl)

theorem readElements_enough {texts : List (List Char)} {trees : List Tree}
    (h : List.Forall₂ Renders texts trees) (hne : texts ≠ []) :
    ∃ n, ∀ fuel, n ≤ fuel → ∀ r,
      readElements fuel (joined texts ++ ']' :: r) = some (trees, r) := by
  induction h with
  | nil => exact absurd rfl hne
  | @cons t tree ts trees ht hts ih =>
    obtain ⟨n, hn⟩ := ht.enough
    cases hts with
    | nil =>
      refine ⟨n + 1, ?_⟩
      intro fuel hfuel r
      obtain ⟨k, rfl⟩ := Nat.exists_eq_add_of_le' hfuel
      have htext : joined [t] ++ ']' :: r = t ++ ']' :: r := by simp [joined]
      rw [htext, ← Nat.add_assoc]
      exact readElements_last (hn (k + n) (by omega) ']' r isStop_bracket)
    | @cons u tree' us trees' hu hus =>
      obtain ⟨m, hm⟩ := ih (by simp)
      refine ⟨max n m + 1, ?_⟩
      intro fuel hfuel r
      obtain ⟨k, rfl⟩ := Nat.exists_eq_add_of_le' hfuel
      rw [joined_cons_cons, List.append_assoc, List.cons_append, ← Nat.add_assoc,
        readElements_more (hn _ (by omega) ',' _ isStop_comma), hm _ (by omega)]
      rfl

/-- One broken element breaks the array. -/
theorem readElements_broken {texts : List (List Char)}
    (h : ∀ t ∈ texts, Broken t ∨ ∃ tree, Renders t tree) (hbroken : ∃ t ∈ texts, Broken t)
    (fuel : ℕ) (r : List Char) : readElements fuel (joined texts ++ ']' :: r) = none := by
  induction texts generalizing fuel with
  | nil =>
    obtain ⟨t, ht, -⟩ := hbroken
    cases ht
  | cons t ts ih =>
    cases fuel with
    | zero => rw [readElements]
    | succ fuel =>
      cases ts with
      | nil =>
        obtain ⟨t', ht', hb⟩ := hbroken
        obtain rfl : t' = t := by simpa using ht'
        have htext : joined [t'] ++ ']' :: r = t' ++ ']' :: r := by simp [joined]
        rw [htext]
        exact readElements_none (hb.fails fuel ']' r isStop_bracket)
      | cons u us =>
        rw [joined_cons_cons, List.append_assoc, List.cons_append]
        rcases h t List.mem_cons_self with hb | ⟨tree, hr⟩
        · exact readElements_none (hb.fails fuel ',' _ isStop_comma)
        · rcases hr.sound fuel ',' (joined (u :: us) ++ ']' :: r) isStop_comma with hread | hread
          · exact readElements_none hread
          · rw [readElements_more hread]
            by_cases hlater : ∃ t' ∈ u :: us, Broken t'
            · rw [ih (fun t' ht' => h t' (List.mem_cons_of_mem _ ht')) hlater]
              rfl
            · -- the broken one is `t`, which then is not read
              obtain ⟨t', ht', hb⟩ := hbroken
              rcases List.mem_cons.mp ht' with rfl | ht'
              · rw [hb.fails fuel ',' _ isStop_comma] at hread
                cases hread
              · exact absurd ⟨t', ht', hb⟩ hlater

def arrayText (texts : List (List Char)) : List Char := '[' :: (joined texts ++ [']'])

theorem opens_arrayText (texts : List (List Char)) : Opens (arrayText texts) :=
  ⟨'[', _, rfl, rfl, by decide, by decide⟩

theorem renders_emptyArray : Renders (arrayText []) (.array []) := by
  refine .of_succ (opens_arrayText []) ?_
  intro fuel c r hc
  rw [readValue]
  simp [arrayText, joined, skip, isSpace]

/-- Behind the bracket of an array with elements stands no closing bracket, unless there is a
single element without any text. -/
theorem head_skip_joined {t : List Char} {ts : List (List Char)} (ht : t = [] ∨ Opens t)
    (hne : ¬(t = [] ∧ ts = [])) (r : List Char) :
    (skip (joined (t :: ts) ++ ']' :: r)).head? ≠ some ']' := by
  rcases ht with rfl | ⟨c, cs, rfl, hspace, hbracket, -⟩
  · cases ts with
    | nil => exact absurd ⟨rfl, rfl⟩ hne
    | cons u us =>
      rw [joined_cons_cons, List.nil_append, List.cons_append, isStop_comma.skip]
      simp
  · simp [joined, skip_cons hspace, hbracket]

theorem readValue_array {fuel : ℕ} {texts : List (List Char)} {c : Char} {r : List Char}
    (hhead : (skip (joined texts ++ ']' :: c :: r)).head? ≠ some ']') :
    readValue (fuel + 1) (arrayText texts ++ c :: r) =
      (readElements fuel (joined texts ++ ']' :: c :: r)).map (fun p => (.array p.1, p.2)) := by
  have htext : arrayText texts ++ c :: r = '[' :: (joined texts ++ ']' :: c :: r) := by
    simp [arrayText]
  rw [htext, readValue, skip_cons rfl]
  simp [hhead]

theorem renders_array {texts : List (List Char)} {trees : List Tree}
    (h : List.Forall₂ Renders texts trees) : Renders (arrayText texts) (.array trees) := by
  cases h with
  | nil => exact renders_emptyArray
  | @cons t tree ts trees ht hts =>
    have hopen : ¬(t = [] ∧ ts = []) := by
      rintro ⟨rfl, -⟩
      obtain ⟨c, cs, hnil, -⟩ := ht.opens
      cases hnil
    have hhead := head_skip_joined (.inr ht.opens) hopen
    refine ⟨opens_arrayText _, ?_, ?_⟩
    · intro fuel c r hc
      cases fuel with
      | zero => exact .inl (by rw [readValue])
      | succ fuel =>
        rw [readValue_array (hhead _)]
        rcases readElements_sound (.cons ht hts) (by simp) fuel (c :: r) with hread | hread
        · exact .inl (by rw [hread]; rfl)
        · exact .inr (by rw [hread]; rfl)
    · obtain ⟨n, hn⟩ := readElements_enough (.cons ht hts) (by simp)
      refine ⟨n + 1, ?_⟩
      intro fuel hfuel c r hc
      obtain ⟨k, rfl⟩ := Nat.exists_eq_add_of_le' hfuel
      rw [← Nat.add_assoc, readValue_array (hhead _), hn (k + n) (by omega)]
      rfl

theorem broken_array {texts : List (List Char)}
    (h : ∀ t ∈ texts, Broken t ∨ ∃ tree, Renders t tree) (hbroken : ∃ t ∈ texts, Broken t)
    (hne : texts ≠ [[]]) : Broken (arrayText texts) := by
  refine ⟨.inr (opens_arrayText texts), ?_⟩
  intro fuel c r hc
  cases fuel with
  | zero => rw [readValue]
  | succ fuel =>
    cases texts with
    | nil =>
      obtain ⟨t, ht, -⟩ := hbroken
      cases ht
    | cons t ts =>
      have hopens : t = [] ∨ Opens t := by
        rcases h t List.mem_cons_self with hb | ⟨tree, hr⟩
        · exact hb.opens
        · exact .inr hr.opens
      have hmore : ¬(t = [] ∧ ts = []) := by
        rintro ⟨rfl, rfl⟩
        exact hne rfl
      rw [readValue_array (head_skip_joined hopens hmore _), readElements_broken h hbroken]
      rfl

/-- `ok` says whether the text is a value. -/
def Settles (ok : Bool) (text : List Char) : Prop :=
  (ok = true ∧ ∃ tree, Renders text tree) ∨ (ok = false ∧ Broken text)

theorem Settles.of_renders {text : List Char} {tree : Tree} (h : Renders text tree) :
    Settles true text := .inl ⟨rfl, tree, h⟩

theorem Settles.broken_or {ok : Bool} {text : List Char} (h : Settles ok text) :
    Broken text ∨ ∃ tree, Renders text tree := by
  rcases h with ⟨-, hr⟩ | ⟨-, hb⟩
  · exact .inr hr
  · exact .inl hb

/-- An array is a value if all its elements are. -/
theorem settles_array {α : Type} {ok : α → Bool} {text : α → List Char} {xs : List α}
    (h : ∀ x ∈ xs, Settles (ok x) (text x)) (hne : xs.map text ≠ [[]]) :
    Settles (xs.all ok) (arrayText (xs.map text)) := by
  cases hall : xs.all ok with
  | true =>
    have htrees : ∃ trees, List.Forall₂ Renders (xs.map text) trees := by
      clear hne
      induction xs with
      | nil => exact ⟨[], .nil⟩
      | cons x xs ih =>
        rw [List.all_cons, Bool.and_eq_true] at hall
        obtain ⟨trees, htrees⟩ := ih (fun y hy => h y (List.mem_cons_of_mem _ hy)) hall.2
        rcases h x List.mem_cons_self with ⟨-, tree, hr⟩ | ⟨hx, -⟩
        · exact ⟨tree :: trees, .cons hr htrees⟩
        · rw [hall.1] at hx
          cases hx
    obtain ⟨trees, htrees⟩ := htrees
    exact .of_renders (renders_array htrees)
  | false =>
    refine .inr ⟨rfl, broken_array ?_ ?_ hne⟩
    · intro t ht
      obtain ⟨x, hx, rfl⟩ := List.mem_map.mp ht
      exact (h x hx).broken_or
    · obtain ⟨x, hx, hok⟩ := List.all_eq_false.mp hall
      rcases h x hx with ⟨htrue, -⟩ | ⟨-, hb⟩
      · exact absurd htrue hok
      · exact ⟨text x, List.mem_map_of_mem hx, hb⟩

/-- A member: its name, the text of the name behind the opening quote, the text of the value. -/
structure Member where
  key : String
  keyText : List Char
  text : List Char

namespace Member

def render (m : Member) : List Char := '"' :: (m.keyText ++ ':' :: m.text)

/-- The name is read as it should be. -/
def Named (m : Member) : Prop := IsStringText m.keyText m.key

end Member

def objectText (members : List Member) : List Char :=
  '{' :: (joined (members.map Member.render) ++ ['}'])

theorem readMembers_value {m : Member} (hm : m.Named) (fuel : ℕ) (rest : List Char) :
    readMembers (fuel + 1) (m.render ++ rest) = (readValue fuel (m.text ++ rest)).bind (fun p =>
      match skip p.2 with
      | [] => none
      | c :: cs =>
        if c = ',' then (readMembers fuel cs).map (fun q => ((m.key, p.1) :: q.1, q.2))
        else if c = '}' then some ([(m.key, p.1)], cs)
        else none) := by
  have htext : m.render ++ rest = '"' :: (m.keyText ++ ':' :: (m.text ++ rest)) := by
    simp [Member.render]
  rw [htext, readMembers]
  simp only [skip_cons (show isSpace '"' = false from rfl), List.head?_cons, List.tail_cons,
    hm (':' :: (m.text ++ rest)), Option.bind_eq_bind, Option.bind_some,
    skip_cons (show isSpace ':' = false from rfl), ne_eq, not_true_eq_false, if_false,
    Option.pure_def]
  cases readValue fuel (m.text ++ rest) with
  | none => rfl
  | some p =>
    simp only [Option.bind_some]
    cases skip p.2 with
    | nil => rfl
    | cons c cs =>
      simp only
      split_ifs
      · cases readMembers fuel cs <;> rfl
      · rfl
      · rfl

theorem readMembers_enough {members : List Member} {trees : List Tree}
    (hnamed : ∀ m ∈ members, m.Named)
    (h : List.Forall₂ (fun m tree => Renders m.text tree) members trees) (hne : members ≠ []) :
    ∃ n, ∀ fuel, n ≤ fuel → ∀ r,
      readMembers fuel (joined (members.map Member.render) ++ '}' :: r) =
        some (List.zipWith (fun m tree => (m.key, tree)) members trees, r) := by
  induction h with
  | nil => exact absurd rfl hne
  | @cons m tree ms trees hm hms ih =>
    have hname := hnamed m List.mem_cons_self
    obtain ⟨n, hn⟩ := hm.enough
    cases hms with
    | nil =>
      refine ⟨n + 1, ?_⟩
      intro fuel hfuel r
      obtain ⟨k, rfl⟩ := Nat.exists_eq_add_of_le' hfuel
      have htext : joined ([m].map Member.render) ++ '}' :: r = m.render ++ '}' :: r := by
        simp [joined]
      rw [htext, ← Nat.add_assoc, readMembers_value hname, hn (k + n) (by omega) '}' r isStop_brace]
      simp [isStop_brace.skip]
    | @cons m' tree' ms trees' hm' hms =>
      obtain ⟨l, hl⟩ := ih (fun x hx => hnamed x (List.mem_cons_of_mem _ hx)) (by simp)
      refine ⟨max n l + 1, ?_⟩
      intro fuel hfuel r
      obtain ⟨k, rfl⟩ := Nat.exists_eq_add_of_le' hfuel
      rw [List.map_cons, List.map_cons, joined_cons_cons, ← List.map_cons, List.append_assoc,
        List.cons_append, ← Nat.add_assoc, readMembers_value hname,
        hn _ (by omega) ',' _ isStop_comma]
      simp only [Option.bind_some, isStop_comma.skip, if_true]
      rw [hl _ (by omega)]
      rfl

/-- One broken value breaks the object. -/
theorem readMembers_broken {members : List Member} (hnamed : ∀ m ∈ members, m.Named)
    (h : ∀ m ∈ members, Broken m.text ∨ ∃ tree, Renders m.text tree)
    (hbroken : ∃ m ∈ members, Broken m.text) (fuel : ℕ) (r : List Char) :
    readMembers fuel (joined (members.map Member.render) ++ '}' :: r) = none := by
  induction members generalizing fuel with
  | nil =>
    obtain ⟨m, hm, -⟩ := hbroken
    cases hm
  | cons m ms ih =>
    have hname := hnamed m List.mem_cons_self
    cases fuel with
    | zero => rw [readMembers]
    | succ fuel =>
      cases ms with
      | nil =>
        obtain ⟨m', hm', hb⟩ := hbroken
        obtain rfl : m' = m := by simpa using hm'
        have htext : joined ([m'].map Member.render) ++ '}' :: r = m'.render ++ '}' :: r := by
          simp [joined]
        rw [htext, readMembers_value hname, hb.fails fuel '}' r isStop_brace]
        rfl
      | cons m' ms =>
        rw [List.map_cons, List.map_cons, joined_cons_cons, ← List.map_cons, List.append_assoc,
          List.cons_append, readMembers_value hname]
        rcases h m List.mem_cons_self with hb | ⟨tree, hr⟩
        · rw [hb.fails fuel ',' _ isStop_comma]
          rfl
        · rcases hr.sound fuel ',' (joined ((m' :: ms).map Member.render) ++ '}' :: r)
            isStop_comma with hread | hread
          · rw [hread]
            rfl
          · have hlater : ∃ x ∈ m' :: ms, Broken x.text := by
              obtain ⟨x, hx, hb⟩ := hbroken
              rcases List.mem_cons.mp hx with rfl | hx
              · rw [hb.fails fuel ',' _ isStop_comma] at hread
                cases hread
              · exact ⟨x, hx, hb⟩
            rw [hread]
            simp only [Option.bind_some, isStop_comma.skip, if_true]
            rw [ih (fun x hx => hnamed x (List.mem_cons_of_mem _ hx))
              (fun x hx => h x (List.mem_cons_of_mem _ hx)) hlater]
            rfl

theorem readValue_object {members : List Member} (hne : members ≠ []) (fuel : ℕ) :
    readValue (fuel + 1) (objectText members) =
      (readMembers fuel (joined (members.map Member.render) ++ '}' :: [])).map
        (fun p => (.object p.1, p.2)) := by
  obtain ⟨m, ms, rfl⟩ := List.exists_cons_of_ne_nil hne
  have hhead : (skip (joined ((m :: ms).map Member.render) ++ '}' :: [])).head? ≠ some '}' := by
    simp [joined, Member.render, skip_cons (show isSpace '"' = false from rfl)]
  rw [List.map_cons] at hhead
  rw [objectText, readValue, skip_cons rfl]
  simp [hhead]

/-- An object whose values are rendered is JSON, with exactly these members. -/
theorem parses_object {members : List Member} {trees : List Tree} (hne : members ≠ [])
    (hnamed : ∀ m ∈ members, m.Named)
    (h : List.Forall₂ (fun m tree => Renders m.text tree) members trees) :
    Parses (objectText members)
      (.object (List.zipWith (fun m tree => (m.key, tree)) members trees)) := by
  obtain ⟨n, hn⟩ := readMembers_enough hnamed h hne
  refine ⟨n + 1, [], ?_, rfl⟩
  rw [readValue_object hne, hn n le_rfl]
  rfl

/-- An object with a broken value is no JSON at all. -/
theorem not_parses_object {members : List Member} (hnamed : ∀ m ∈ members, m.Named)
    (h : ∀ m ∈ members, Broken m.text ∨ ∃ tree, Renders m.text tree)
    (hbroken : ∃ m ∈ members, Broken m.text) (tree : Tree) : ¬Parses (objectText members) tree := by
  rintro ⟨fuel, rest, hread, -⟩
  have hne : members ≠ [] := by
    obtain ⟨m, hm, -⟩ := hbroken
    exact List.ne_nil_of_mem hm
  cases fuel with
  | zero =>
    rw [readValue] at hread
    cases hread
  | succ fuel =>
    rw [readValue_object hne, readMembers_broken hnamed h hbroken] at hread
    cases hread

/-- More fuel reads the same. -/
theorem read_succ (fuel : ℕ) :
    (∀ cs p, readValue fuel cs = some p → readValue (fuel + 1) cs = some p) ∧
    (∀ cs p, readElements fuel cs = some p → readElements (fuel + 1) cs = some p) ∧
    ∀ cs p, readMembers fuel cs = some p → readMembers (fuel + 1) cs = some p := by
  induction fuel with
  | zero =>
    refine ⟨?_, ?_, ?_⟩
    · intro cs p h
      rw [readValue] at h
      cases h
    · intro cs p h
      rw [readElements] at h
      cases h
    · intro cs p h
      rw [readMembers] at h
      cases h
  | succ fuel ih =>
    obtain ⟨hvalue, helements, hmembers⟩ := ih
    refine ⟨?_, ?_, ?_⟩
    · intro cs p h
      rw [readValue] at h ⊢
      cases hskip : skip cs with
      | nil =>
        rw [hskip] at h
        cases h
      | cons c r =>
        rw [hskip] at h
        dsimp only at h ⊢
        split_ifs at h ⊢ with hquote harray hclose hobject hclose'
        · exact h
        · exact h
        · obtain ⟨q, hq, rfl⟩ := Option.map_eq_some_iff.mp h
          rw [helements r q hq]
          rfl
        · exact h
        · obtain ⟨q, hq, rfl⟩ := Option.map_eq_some_iff.mp h
          rw [hmembers r q hq]
          rfl
        all_goals exact h
    · intro cs p h
      rw [readElements] at h ⊢
      obtain ⟨⟨v, rest⟩, hv, h⟩ := Option.bind_eq_some_iff.mp h
      rw [hvalue cs _ hv]
      dsimp only [Option.bind_eq_bind, Option.bind_some] at h ⊢
      cases hskip : skip rest with
      | nil =>
        rw [hskip] at h
        cases h
      | cons c r =>
        rw [hskip] at h
        dsimp only at h ⊢
        split_ifs at h ⊢ with hcomma hclose
        · obtain ⟨vs, hvs, h⟩ := Option.bind_eq_some_iff.mp h
          rw [helements r vs hvs]
          exact h
        · exact h
    · intro cs p h
      rw [readMembers] at h ⊢
      split_ifs at h ⊢ with hname
      · cases h
      · obtain ⟨⟨k, rest⟩, hk, h⟩ := Option.bind_eq_some_iff.mp h
        rw [hk]
        dsimp only [Option.bind_eq_bind, Option.bind_some] at h ⊢
        split_ifs at h ⊢ with hcolon
        · cases h
        · obtain ⟨⟨v, rest'⟩, hv, h⟩ := Option.bind_eq_some_iff.mp h
          rw [hvalue _ _ hv]
          dsimp only [Option.bind_some] at h ⊢
          cases hskip : skip rest' with
          | nil =>
            rw [hskip] at h
            cases h
          | cons c r =>
            rw [hskip] at h
            dsimp only at h ⊢
            split_ifs at h ⊢ with hcomma hclose
            · obtain ⟨ms, hms, h⟩ := Option.bind_eq_some_iff.mp h
              rw [hmembers r ms hms]
              exact h
            · exact h

theorem readValue_mono {fuel fuel' : ℕ} (hle : fuel ≤ fuel') {cs : List Char}
    {p : Tree × List Char} (h : readValue fuel cs = some p) : readValue fuel' cs = some p := by
  induction hle with
  | refl => exact h
  | step _ ih => exact (read_succ _).1 cs p ih

/-- A text says at most one thing. -/
theorem Parses.unique {cs : List Char} {tree tree' : Tree} (h : Parses cs tree)
    (h' : Parses cs tree') : tree = tree' := by
  obtain ⟨fuel, rest, hread, -⟩ := h
  obtain ⟨fuel', rest', hread', -⟩ := h'
  have hboth := readValue_mono (Nat.le_max_left fuel fuel') hread
  rw [readValue_mono (Nat.le_max_right fuel fuel') hread'] at hboth
  cases hboth
  rfl

end GmaEngine.JsonText
