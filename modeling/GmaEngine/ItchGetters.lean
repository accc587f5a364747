import GmaEngine.ItchTranslation

/-!
# The getters of the ITCH adapter

A route checks that a field is a number and then reads it as an `int` or as a `uint64_t`. The
getters assert more than that: a negative number, a fraction or one that is too large fails.
-/

namespace GmaEngine

namespace Json
variable {D : Type}

def isUint64 : Json D → Bool
  | int n => 0 ≤ n.val
  | _ => false

theorem isSome_getUint64 (v : Json D) : v.getUint64.isSome = v.isUint64 := by
  cases v with
  | int n =>
    unfold getUint64 isUint64
    by_cases h : 0 ≤ n.val
    · simp [h]
    · simp [h]
  | _ => rfl

theorem isSome_getInt (v : Json D) : v.getInt.isSome = v.isInt := by
  cases v with
  | int n =>
    simp only [getInt, isInt]
    by_cases h : -2 ^ 31 ≤ n.val ∧ n.val < 2 ^ 31
    · rw [if_pos h, decide_eq_true h]
      rfl
    · rw [if_neg h, decide_eq_false h]
      rfl
  | _ => rfl

theorem isSome_getString (v : Json D) : v.getString.isSome = v.isString := by
  cases v <;> rfl

/-- A field is read, and what follows succeeds or fails whatever was read. -/
theorem isSome_read {β γ : Type} {g : Json D → Option β} {p : Json D → Bool}
    (hg : ∀ v, (g v).isSome = p v) (doc : Json D) (name : String) {f : β → Option γ} {c : Bool}
    (hf : ∀ x, (f x).isSome = c) :
    ((doc.member name).bind fun v => (g v).bind f).isSome = (doc.has name p && c) := by
  unfold has
  cases doc.member name with
  | none => rfl
  | some v =>
    have hv := hg v
    rw [Option.bind_some, Option.any_some, ← hv]
    cases g v with
    | none => rfl
    | some x =>
      rw [Option.bind_some, hf x]
      rfl

/-- The last field that a getter may refuse. -/
theorem isSome_read_last {β γ : Type} {g : Json D → Option β} {p : Json D → Bool}
    (hg : ∀ v, (g v).isSome = p v) (doc : Json D) (name : String) {f : β → Option γ}
    (hf : ∀ x, (f x).isSome = true) :
    ((doc.member name).bind fun v => (g v).bind f).isSome = doc.has name p :=
  (isSome_read hg doc name hf).trans (Bool.and_true _)

theorem exists_member_of_has {doc : Json D} {name : String}
    (h : doc.has name (fun _ => true) = true) : ∃ v, doc.member name = some v := by
  obtain ⟨v, hv, -⟩ := (Option.any_eq_true _ _).mp h
  exact ⟨v, hv⟩

end Json

namespace ItchAdapter
open Json
variable {D : Type}

def executedFits (doc : Json D) : Bool :=
  !(doc.has "orderRef" isNumber && doc.has "shares" isNumber) ||
    (doc.has "orderRef" isUint64 && doc.has "shares" isUint64)

def deleteFits (doc : Json D) : Bool :=
  !doc.has "orderRef" isNumber || doc.has "orderRef" isUint64

def replaceFits (doc : Json D) : Bool :=
  !(doc.has "origOrderRef" isNumber && doc.has "orderRef" isNumber && doc.has "shares" isNumber &&
      doc.has "price" (fun _ => true)) ||
    (doc.has "origOrderRef" isUint64 && (doc.has "orderRef" isUint64 && doc.has "shares" isUint64))

def directoryFits (doc : Json D) : Bool :=
  !(doc.has "stockLocate" isNumber && doc.has "stock" isString) || doc.has "stockLocate" isInt

/-- The stock locate of a message that names no stock is read first, and the other fields only if
it is known. -/
def symbolFits (a : ItchAdapter D) (doc : Json D) (others : Bool) : Bool :=
  if doc.has "stock" isString then others
  else if doc.has "stockLocate" isNumber then
    doc.has "stockLocate" isInt &&
      (((doc.member "stockLocate").bind getInt).all (fun l => (a.locateToSymbol l).isNone) || others)
  else true

def addFits (a : ItchAdapter D) (doc : Json D) : Bool :=
  !(doc.has "orderRef" isNumber && doc.has "side" isString && doc.has "shares" isNumber &&
      doc.has "price" (fun _ => true)) ||
    a.symbolFits doc (doc.has "orderRef" isUint64 && doc.has "shares" isUint64)

def tradeFits (a : ItchAdapter D) (doc : Json D) : Bool :=
  !(doc.has "price" (fun _ => true) && doc.has "shares" isNumber) ||
    a.symbolFits doc (doc.has "shares" isUint64)

/-- Every number that the message's route reads as an integer is one that the getter takes. -/
def integersFit (a : ItchAdapter D) (doc : Json D) : Bool :=
  match (doc.member "type").bind getString with
  | some "trade" => a.tradeFits doc
  | some "add_order" => a.addFits doc
  | some "add_order_mpid" => a.addFits doc
  | some "order_executed" => executedFits doc
  | some "order_cancel" => executedFits doc
  | some "order_delete" => deleteFits doc
  | some "order_replace" => replaceFits doc
  | some "stock_directory" => directoryFits doc
  | _ => true

theorem isSome_routeOrderDelete (a : ItchAdapter D) (doc : Json D) :
    (a.routeOrderDelete doc).isSome = deleteFits doc := by
  unfold routeOrderDelete deleteFits
  cases doc.has "orderRef" isNumber with
  | false => rfl
  | true =>
    refine isSome_read_last isSome_getUint64 doc "orderRef" fun orderRef => ?_
    cases a.orders orderRef <;> rfl

theorem isSome_routeOrderCancel (a : ItchAdapter D) (doc : Json D) :
    (a.routeOrderCancel doc).isSome = executedFits doc := by
  unfold routeOrderCancel executedFits
  cases doc.has "orderRef" isNumber with
  | false => rfl
  | true =>
    cases doc.has "shares" isNumber with
    | false => rfl
    | true =>
      refine isSome_read isSome_getUint64 doc "orderRef" fun orderRef => ?_
      refine isSome_read_last isSome_getUint64 doc "shares" fun shares => ?_
      cases a.orders orderRef with
      | none => rfl
      | some os =>
        dsimp only
        split_ifs <;> rfl

variable [Double D]

theorem isSome_routeOrderExecuted (a : ItchAdapter D) (doc : Json D) :
    (a.routeOrderExecuted doc).isSome = executedFits doc := by
  unfold routeOrderExecuted executedFits
  cases doc.has "orderRef" isNumber with
  | false => rfl
  | true =>
    cases doc.has "shares" isNumber with
    | false => rfl
    | true =>
      refine isSome_read isSome_getUint64 doc "orderRef" fun orderRef => ?_
      refine isSome_read_last isSome_getUint64 doc "shares" fun shares => ?_
      cases a.orders orderRef with
      | none => rfl
      | some os =>
        dsimp only
        split_ifs <;> rfl

theorem isSome_routeOrderReplace (a : ItchAdapter D) (doc : Json D) :
    (a.routeOrderReplace doc).isSome = replaceFits doc := by
  unfold routeOrderReplace replaceFits
  cases doc.has "origOrderRef" isNumber with
  | false => rfl
  | true =>
    cases doc.has "orderRef" isNumber with
    | false => rfl
    | true =>
      cases doc.has "shares" isNumber with
      | false => rfl
      | true =>
        cases hprice : doc.has "price" (fun _ => true) with
        | false => rfl
        | true =>
          obtain ⟨price, hmember⟩ := exists_member_of_has hprice
          refine isSome_read isSome_getUint64 doc "origOrderRef" fun origRef => ?_
          refine isSome_read isSome_getUint64 doc "orderRef" fun newRef => ?_
          refine isSome_read_last isSome_getUint64 doc "shares" fun shares => ?_
          rw [hmember]
          cases a.orders origRef <;> rfl

theorem isSome_routeStockDirectory (a : ItchAdapter D) (doc : Json D) :
    (a.routeStockDirectory doc).isSome = directoryFits doc := by
  unfold routeStockDirectory directoryFits
  cases doc.has "stockLocate" isNumber with
  | false => rfl
  | true =>
    cases hstock : doc.has "stock" isString with
    | false => rfl
    | true =>
      refine (isSome_read isSome_getInt doc "stockLocate" fun locate => ?_).trans (Bool.and_true _)
      exact (isSome_read_last isSome_getString doc "stock" fun stock => rfl).trans hstock

omit [Double D] in
/-- The symbol is resolved, and then the rest of a route runs if there is one. -/
theorem isSome_resolveStock {γ : Type} (a : ItchAdapter D) (doc : Json D)
    {f : Option String → Option γ} {c : Bool} (hnone : (f none).isSome = true)
    (hsome : ∀ stock, (f (some stock)).isSome = c) :
    ((a.resolveStock doc).bind f).isSome = a.symbolFits doc c := by
  unfold resolveStock symbolFits
  split_ifs with hstock hlocate
  · obtain ⟨v, hv, hstring⟩ := (Option.any_eq_true _ _).mp hstock
    obtain ⟨text, htext⟩ := Option.isSome_iff_exists.mp ((isSome_getString v).trans hstring)
    simp only [hv, htext, bind, pure, Option.bind_some]
    exact hsome _
  · obtain ⟨v, hv, -⟩ := (Option.any_eq_true _ _).mp hlocate
    have hint := isSome_getInt v
    simp only [Json.has, hv, bind, pure, Option.bind_some, Option.any_some]
    cases hl : v.getInt with
    | none =>
      rw [hl] at hint
      rw [← hint]
      rfl
    | some l =>
      rw [hl] at hint
      rw [← hint]
      simp only [Option.bind_some, Option.all_some, Option.isSome_some, Bool.true_and]
      cases a.locateToSymbol l with
      | none => exact hnone
      | some stock => exact hsome stock
  · exact hnone

theorem isSome_routeAddOrder (a : ItchAdapter D) (doc : Json D) :
    (a.routeAddOrder doc).isSome = a.addFits doc := by
  unfold routeAddOrder addFits
  cases doc.has "orderRef" isNumber with
  | false => rfl
  | true =>
    cases hside : doc.has "side" isString with
    | false => rfl
    | true =>
      cases doc.has "shares" isNumber with
      | false => rfl
      | true =>
        cases hprice : doc.has "price" (fun _ => true) with
        | false => rfl
        | true =>
          obtain ⟨price, hmember⟩ := exists_member_of_has hprice
          refine isSome_resolveStock a doc rfl fun stock => ?_
          refine isSome_read isSome_getUint64 doc "orderRef" fun orderRef => ?_
          refine isSome_read_last isSome_getUint64 doc "shares" fun shares => ?_
          rw [hmember]
          exact (isSome_read_last isSome_getString doc "side" fun side => rfl).trans hside

theorem isSome_routeTrade (a : ItchAdapter D) (doc : Json D) :
    (a.routeTrade doc).isSome = a.tradeFits doc := by
  unfold routeTrade tradeFits
  cases hprice : doc.has "price" (fun _ => true) with
  | false => rfl
  | true =>
    cases doc.has "shares" isNumber with
    | false => rfl
    | true =>
      obtain ⟨price, hmember⟩ := exists_member_of_has hprice
      refine isSome_resolveStock a doc rfl fun stock => ?_
      rw [hmember]
      refine isSome_read_last isSome_getUint64 doc "shares" fun shares => ?_
      cases hside : doc.has "side" isString with
      | false => rfl
      | true =>
        exact (isSome_read_last isSome_getString doc "side" fun side => rfl).trans hside

/-- The type of a message is read without an assertion, and then its route is taken. -/
theorem translate_of_type {doc : Json D} {type : String}
    (htype : (doc.member "type").bind getString = some type) (a : ItchAdapter D) :
    a.translate (some doc) =
      if type = "trade" then a.routeTrade doc
      else if type = "add_order" then a.routeAddOrder doc
      else if type = "add_order_mpid" then a.routeAddOrder doc
      else if type = "order_executed" then a.routeOrderExecuted doc
      else if type = "order_cancel" then a.routeOrderCancel doc
      else if type = "order_delete" then a.routeOrderDelete doc
      else if type = "order_replace" then a.routeOrderReplace doc
      else if type = "stock_directory" then a.routeStockDirectory doc
      else some (a, []) := by
  obtain ⟨v, hv, hgot⟩ := Option.bind_eq_some_iff.mp htype
  simp [translate, Json.has, isObject_of_member hv, hv, hgot, isString_of_getString hgot]

theorem translate_of_no_type {doc : Json D}
    (htype : (doc.member "type").bind getString = none) (a : ItchAdapter D) :
    a.translate (some doc) = some (a, []) := by
  have hnot : doc.has "type" isString = false := by
    unfold Json.has
    cases hv : doc.member "type" with
    | none => rfl
    | some v =>
      rw [hv, Option.bind_some] at htype
      rw [Option.any_some, ← isSome_getString, htype]
      rfl
  simp [translate, hnot]

/-- No getter fails on a message if and only if the integers that its route reads are ones that
the getters take. -/
theorem getters_hold_iff (a : ItchAdapter D) (doc : Json D) :
    (a.translate (some doc)).isSome = true ↔ a.integersFit doc = true := by
  unfold integersFit
  split
  · next htype => rw [translate_of_type htype, if_pos rfl, isSome_routeTrade]
  · next htype => simp [translate_of_type htype, isSome_routeAddOrder]
  · next htype => simp [translate_of_type htype, isSome_routeAddOrder]
  · next htype => simp [translate_of_type htype, isSome_routeOrderExecuted]
  · next htype => simp [translate_of_type htype, isSome_routeOrderCancel]
  · next htype => simp [translate_of_type htype, isSome_routeOrderDelete]
  · next htype => simp [translate_of_type htype, isSome_routeOrderReplace]
  · next htype => simp [translate_of_type htype, isSome_routeStockDirectory]
  · next htrade hadd hmpid hexecuted hcancel hdelete hreplace hdirectory =>
    cases htype : (doc.member "type").bind getString with
    | none => simp [translate_of_no_type htype]
    | some type =>
      rw [translate_of_type htype, if_neg, if_neg, if_neg, if_neg, if_neg, if_neg, if_neg, if_neg]
      · simp
      all_goals
        rintro rfl
        contradiction

/-- A delete message. -/
def deleteOf (orderRef : Json D) : Json D :=
  .object [("type", .string "order_delete"), ("orderRef", orderRef)]

/-- A negative order reference passes the check of its route and fails in the getter. -/
theorem getters_fail_on_negative :
    ¬ ∀ (a : ItchAdapter ExactDouble) (doc : Json ExactDouble),
      doc.isObject = true → (a.translate (some doc)).isSome = true := by
  intro hall
  have hfails : (translate {} (some
      (deleteOf (.int ⟨-1, by decide, by decide⟩ : Json ExactDouble)))).isSome = false := by
    decide +kernel
  rw [hall _ _ rfl] at hfails
  cases hfails

end ItchAdapter
end GmaEngine
