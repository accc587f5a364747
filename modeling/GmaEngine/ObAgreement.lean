import GmaEngine.ManagerRuns
import GmaEngine.ObLadders

/-!
# Where the provider agrees with the key language

The provider answers four spellings and nothing else. On these it computes what the
evaluation of the parsed key computes, up to the levels that an imbalance leaves out; on every
other key it answers NaN, so it is right there only where the metric has no value.
-/

namespace GmaEngine.Ob

inductive Request
  | spread
  | level (side : Side) (n : ℤ) (attr : Target)
  /-- The target is `none` for a metric text that the provider does not know. -/
  | cum (side : Side) (n : ℤ) (target : Target)
  | imbalance (lv : Range)
  deriving DecidableEq

/-- A target spelled in lower case. -/
def targetToken (metric : List Char) : Target :=
  if metric = "price".toList then .price
  else if metric = "size".toList then .size
  else if metric = "notional".toList then .notional
  else if metric = "orders".toList then .orders
  else .none

def requestLevel (side : Side) (nText metric : List Char) : Option Request := do
  let n ← toInt nText
  if n ≤ 0 ∨ targetToken metric = .none then none else some (.level side n (targetToken metric))

def requestCum (side : Side) (nText metric : List Char) : Option Request := do
  let n ← toInt nText
  if n ≤ 0 then none else some (.cum side n (targetToken metric))

def requestImbalance (range : List Char) : Option Request :=
  match range.dropWhile (· ≠ '-') with
  | [] => none
  | _ :: rest => do
    let m ← toInt (range.takeWhile (· ≠ '-'))
    let n ← toInt rest
    if m ≤ 0 ∨ n < m then none else some (.imbalance ⟨m, n⟩)

/-- The request in a key; without one the provider answers NaN whatever the book. -/
def request (fullKey : String) : Option Request :=
  match form fullKey with
  | .spread => some .spread
  | .level side n metric => requestLevel side n metric
  | .cum side k metric => requestCum side k metric
  | .imbalance range => requestImbalance range
  | .other => none

/-- The answer to a request, from the whole book. -/
def serve (R : Rows) : Request → ExactDouble
  | .spread =>
    match R .bid, R .ask with
    | b :: _, a :: _ => .fin (a.1 - b.1)
    | _, _ => .nan
  | .level side n attr =>
    ((R side)[n.toNat - 1]?.bind (fun r => (rowLevel r).attr attr)).getD .nan
  | .cum side n target =>
    if R side = [] then .fin 0
    else if target = .size ∨ target = .notional then
      .fin (((R side).take n.toNat).filterMap target.value).sum
    else .nan
  | .imbalance lv =>
    let hi := min lv.b (min (R .bid).length (R .ask).length)
    .fin (imbalanceRat (sizeBetween (R .bid) lv.a hi) (sizeBetween (R .ask) lv.a hi))

theorem toInt_range {s : List Char} {n : ℤ} (h : toInt s = some n) : -2 ^ 31 ≤ n ∧ n < 2 ^ 31 := by
  rw [toInt, CNumerals.stoi] at h
  obtain ⟨⟨v, rest⟩, -, hv⟩ := Option.bind_eq_some_iff.mp h
  dsimp only at hv
  split_ifs at hv with hr
  · obtain rfl : v = n := by simpa using hv
    exact hr

theorem targetToken_cases (metric : List Char) :
    (metric = "size".toList ∧ targetToken metric = .size) ∨
    (metric = "notional".toList ∧ targetToken metric = .notional) ∨
    (metric = "orders".toList ∧ targetToken metric = .orders) ∨
    ((metric ≠ "size".toList ∧ metric ≠ "notional".toList ∧ metric ≠ "orders".toList) ∧
      targetToken metric ≠ .size ∧ targetToken metric ≠ .notional) := by
  by_cases hs : metric = "size".toList
  · exact .inl ⟨hs, by rw [hs]; rfl⟩
  by_cases hn : metric = "notional".toList
  · exact .inr (.inl ⟨hn, by rw [hn]; rfl⟩)
  by_cases ho : metric = "orders".toList
  · exact .inr (.inr (.inl ⟨ho, by rw [ho]; rfl⟩))
  refine .inr (.inr (.inr ⟨⟨hs, hn, ho⟩, ?_⟩))
  rw [targetToken, if_neg hs, if_neg hn, if_neg ho]
  split_ifs <;> decide

theorem total_map_attr (rows : List (ℚ × ℚ)) {t : Target} {f : Level ExactDouble → ExactDouble}
    (hf : ∀ l, Level.attr l t = some (f l)) :
    total ((rows.map rowLevel).map f) =
      if t = .orders ∧ rows ≠ [] then .nan else .fin (rows.filterMap t.value).sum := by
  have hfun : (fun l => Level.attr l t) = some ∘ f := funext hf
  rw [← List.filterMap_eq_map, ← hfun, total_attr]

theorem cumAnswer_eq (rows : List (ℚ × ℚ)) (metric : List Char) :
    (if metric = "size".toList then some (total ((rows.map rowLevel).map Level.size))
      else if metric = "notional".toList then some (total ((rows.map rowLevel).map Level.notional))
      else if metric = "orders".toList then some (total ((rows.map rowLevel).map Level.orders))
      else if rows.map rowLevel = [] then some (Double.ofRat 0)
      else some Double.quietNaN).getD .nan =
    if rows = [] then .fin 0
    else if targetToken metric = .size ∨ targetToken metric = .notional then
      .fin (rows.filterMap (targetToken metric).value).sum
    else .nan := by
  obtain ⟨rfl, ht⟩ | ⟨rfl, ht⟩ | ⟨rfl, ht⟩ | ⟨⟨hs, hn, ho⟩, ht⟩ := targetToken_cases metric
  · rw [if_pos rfl, total_map_attr rows (t := .size) (fun _ => rfl), if_neg (by simp), ht]
    cases rows <;> simp
  · rw [if_neg (by decide), if_pos rfl, total_map_attr rows (t := .notional) (fun _ => rfl),
      if_neg (by simp), ht]
    cases rows <;> simp
  · rw [if_neg (by decide), if_neg (by decide), if_pos rfl,
      total_map_attr rows (t := .orders) (fun _ => rfl), ht]
    cases rows <;> simp
  · rw [if_neg hs, if_neg hn, if_neg ho]
    cases rows with
    | nil => rfl
    | cons r rows => simp [ht, Double.quietNaN]

theorem slice_take {α : Type} {lo hi : ℤ} {n : ℕ} (h : hi.toNat ≤ n) (xs : List α) :
    slice lo hi (xs.take n) = slice lo hi xs := by
  rw [slice, slice, List.take_take, min_eq_left h]

section
variable {R : Rows} {p : Provider ExactDouble}
  (hcap : ∀ n s, (p.capture n).bySide s = ((R s).take n).map rowLevel) (hdef : p.defPer = 10)
include hcap

theorem getSpread_eq : p.getSpread = serve R .spread := by
  have hb : (p.capture 1).bids = ((R .bid).take 1).map rowLevel := hcap 1 .bid
  have ha : (p.capture 1).asks = ((R .ask).take 1).map rowLevel := hcap 1 .ask
  rw [Provider.getSpread, hb, ha, serve]
  cases R .bid <;> cases R .ask <;>
    simp [rowLevel, Double.sub, ExactDouble.add, ExactDouble.neg, Double.quietNaN, sub_eq_add_neg]

include hdef

/-- A captured ladder is cut to so few levels that its length is an `int`. -/
theorem narrow_length_capture {n : ℤ} (hn : n < 2 ^ 31) (s : Side) :
    narrow ((p.capture (max p.defPer n.toNat)).bySide s).length =
      min (max 10 n.toNat) (R s).length := by
  have hlen : ((p.capture (max p.defPer n.toNat)).bySide s).length =
      min (max 10 n.toNat) (R s).length := by
    rw [hcap, List.length_map, List.length_take, hdef]
  rw [hlen, narrow_eq_self] <;> omega

omit hcap hdef in
theorem levelAnswer_eq (l : Level ExactDouble) (metric : List Char) :
    (if metric = "price".toList then some l.price
      else if metric = "size".toList then some l.size
      else if metric = "notional".toList then some l.notional
      else if metric = "orders".toList then some l.orders
      else some Double.quietNaN) = some ((l.attr (targetToken metric)).getD .nan) := by
  unfold targetToken
  split_ifs <;> rfl

theorem getLevel_eq (side : Side) (nText metric : List Char) :
    (p.getLevel side nText metric).getD .nan =
      ((requestLevel side nText metric).map (serve R)).getD .nan := by
  rw [Provider.getLevel, requestLevel]
  cases hn : toInt nText with
  | none => rfl
  | some n =>
    obtain ⟨-, hhi⟩ := toInt_range hn
    have hlen := narrow_length_capture hcap hdef hhi side
    simp only [Option.bind_eq_bind, Option.bind_some, Option.pure_def]
    by_cases hn0 : n ≤ 0
    · rw [if_pos hn0, if_pos (.inl hn0)]
      rfl
    rw [if_neg hn0, hlen]
    have hget : ((p.capture (max p.defPer n.toNat)).bySide side)[n.toNat - 1]? =
        (R side)[n.toNat - 1]?.map rowLevel := by
      rw [hcap, List.getElem?_map, List.getElem?_take_of_lt (by omega)]
    rw [hget]
    cases hr : (R side)[n.toNat - 1]? with
    | none =>
      rw [List.getElem?_eq_none_iff] at hr
      rw [if_pos (by omega)]
      split_ifs <;> simp [serve, hr, Double.quietNaN]
    | some r =>
      obtain ⟨hlt, -⟩ := List.getElem?_eq_some_iff.mp hr
      rw [if_neg (by omega)]
      simp only [Option.map_some, hn0, false_or]
      rw [levelAnswer_eq, Option.getD_some]
      by_cases ht : targetToken metric = .none
      · rw [if_pos ht, ht]
        rfl
      · rw [if_neg ht, Option.map_some, Option.getD_some, serve, hr, Option.bind_some]

theorem getCum_eq (side : Side) (nText metric : List Char) :
    (p.getCum side nText metric).getD .nan =
      ((requestCum side nText metric).map (serve R)).getD .nan := by
  rw [Provider.getCum, requestCum]
  cases hn : toInt nText with
  | none => rfl
  | some n =>
    obtain ⟨-, hhi⟩ := toInt_range hn
    have hlen := narrow_length_capture hcap hdef hhi side
    simp only [Option.bind_eq_bind, Option.bind_some, Option.pure_def]
    by_cases hn0 : n ≤ 0
    · rw [if_pos hn0, if_pos hn0]
      rfl
    have htake : ((p.capture (max p.defPer n.toNat)).bySide side).take
        (min n (narrow ((p.capture (max p.defPer n.toNat)).bySide side).length)).toNat =
        ((R side).take n.toNat).map rowLevel := by
      have hcut : ∀ i : ℤ, i = (min (max 10 n.toNat) (R side).length : ℕ) →
          (R side).take (min (min n i).toNat (max 10 n.toNat)) = (R side).take n.toNat := by
        intro i hi
        rw [List.take_eq_take_iff]
        omega
      rw [hlen, hcap, ← List.map_take, List.take_take, hdef, hcut _ rfl]
    rw [if_neg hn0, if_neg hn0, htake, Option.map_some, Option.getD_some, serve]
    have hnil : (R side).take n.toNat = [] ↔ R side = [] := by
      rw [List.take_eq_nil_iff]
      exact or_iff_right (by omega)
    exact (cumAnswer_eq _ metric).trans (if_congr hnil rfl rfl)

theorem getImbalance_eq (range : List Char) :
    (p.getImbalance range).getD .nan =
      ((requestImbalance range).map (serve R)).getD .nan := by
  rw [Provider.getImbalance, requestImbalance]
  cases range.dropWhile (· ≠ '-') with
  | nil => rfl
  | cons c rest =>
    cases toInt (range.takeWhile (· ≠ '-')) with
    | none => rfl
    | some m =>
      cases hn : toInt rest with
      | none => simp [hn]
      | some n =>
        obtain ⟨-, hhi⟩ := toInt_range hn
        simp only [Option.bind_eq_bind, Option.bind_some, Option.pure_def, hn]
        by_cases hmn : m ≤ 0 ∨ n < m
        · rw [if_pos hmn, if_pos hmn]
          rfl
        rw [if_neg hmn, if_neg hmn, Option.map_some, Option.getD_some, Option.getD_some, serve]
        have hb : (p.capture (max p.defPer n.toNat)).bids =
            ((R .bid).take (max 10 n.toNat)).map rowLevel := by
          rw [← hdef]
          exact hcap _ .bid
        have ha : (p.capture (max p.defPer n.toNat)).asks =
            ((R .ask).take (max 10 n.toNat)).map rowLevel := by
          rw [← hdef]
          exact hcap _ .ask
        rw [hb, ha]
        simp only [List.length_map, List.length_take, slice_map, total_sizes]
        have hcut : min n (narrow (min (min (max 10 n.toNat) (R .bid).length)
            (min (max 10 n.toNat) (R .ask).length) : ℕ)) =
            min n (min (R .bid).length (R .ask).length) := by
          rw [narrow_eq_self] <;> omega
        rw [hcut, slice_take (by omega), slice_take (by omega)]
        exact imbalance_fin _ _

/-- The provider answers its request from the whole book, and NaN without one. -/
theorem get_eq_serve (fullKey : String) :
    p.get fullKey = ((request fullKey).map (serve R)).getD .nan := by
  rw [Provider.get, Provider.getImpl, request]
  cases form fullKey with
  | spread => exact getSpread_eq hcap
  | level side n metric => exact getLevel_eq hcap hdef side n metric
  | cum side k metric => exact getCum_eq hcap hdef side k metric
  | imbalance range => exact getImbalance_eq hcap hdef range
  | other => rfl

end

/-- The tokens of a key, by the form the provider sees in it. -/
def FormTokens (fullKey : String) : Form → Prop
  | .spread => fullKey = "ob.spread"
  | .level s n metric => ∃ side, sideToken side = some s ∧
      fullKey.toList.splitOn '.' = ["ob".toList, "level".toList, side, n, metric]
  | .cum s k metric => ∃ side, sideToken side = some s ∧
      fullKey.toList.splitOn '.' =
        ["ob".toList, "cum".toList, side, "levels".toList, k, metric]
  | .imbalance range =>
      fullKey.toList.splitOn '.' = ["ob".toList, "imbalance".toList, "levels".toList, range]
  | .other => True

theorem formTokens_form (fullKey : String) : FormTokens fullKey (form fullKey) := by
  unfold form
  split_ifs with hspread
  · exact hspread
  split
  · rename_i ob name side n metric hparts
    cases hs : sideToken side with
    | none => trivial
    | some s =>
      dsimp only
      split_ifs with hc
      · exact ⟨side, hs, by rw [hparts, hc.1, hc.2]⟩
      · trivial
  · rename_i ob name side kind k metric hparts
    cases hs : sideToken side with
    | none => trivial
    | some s =>
      dsimp only
      split_ifs with hc
      · exact ⟨side, hs, by rw [hparts, hc.1, hc.2.1, hc.2.2]⟩
      · trivial
  · rename_i ob name kind range hparts
    split_ifs with hc
    · exact hparts.trans (by rw [hc.1, hc.2.1, hc.2.2])
    · trivial
  · trivial

theorem parseSide_of_sideToken {side : List Char} {s : Side} (h : sideToken side = some s) :
    parseSide side = some s ∧ side ≠ [] := by
  unfold sideToken at h
  split_ifs at h with hb ha
  · subst hb
    exact ⟨h ▸ by decide, by decide⟩
  · subst ha
    exact ⟨h ▸ by decide, by decide⟩

theorem parseTarget_of_targetToken {metric : List Char} (h : targetToken metric ≠ .none) :
    parseTarget metric = some (targetToken metric) ∧ metric ≠ [] ∧ metric ≠ "per".toList ∧
      metric ≠ "agg".toList := by
  unfold targetToken at h ⊢
  split_ifs at h ⊢ with h1 h2 h3 h4
  · subst h1
    decide
  · subst h2
    decide
  · subst h3
    decide
  · subst h4
    decide
  · exact absurd rfl h

theorem toInt_ne_nil {s : List Char} {n : ℤ} (h : toInt s = some n) : s ≠ [] := by
  rintro rfl
  cases h

/-- No number is a mode. -/
theorem toInt_ne_mode {s : List Char} {n : ℤ} (h : toInt s = some n) :
    s ≠ "per".toList ∧ s ≠ "agg".toList := by
  have hper : toInt "per".toList = none := by decide +kernel
  have hagg : toInt "agg".toList = none := by decide +kernel
  constructor
  · rintro rfl
    rw [hper] at h
    cases h
  · rintro rfl
    rw [hagg] at h
    cases h

/-- A numeral that fits an `int` is read alike by both parsers. -/
theorem parseInt_of_toInt {s : List Char} {n n' : ℤ} (h : toInt s = some n)
    (h' : parseInt s = some n') : n' = n := by
  obtain ⟨hlo, hhi⟩ := toInt_range h
  rw [toInt, CNumerals.stoi] at h
  obtain ⟨⟨v, rest⟩, hread, hv⟩ := Option.bind_eq_some_iff.mp h
  dsimp only at hv
  split_ifs at hv with hr
  obtain rfl : v = n := by simpa using hv
  rw [parseInt, CNumerals.strtol, hread] at h'
  dsimp only at h'
  split_ifs at h' with hend
  have hclamp : max (-2 ^ 63) (min (2 ^ 63 - 1) v) = v := by omega
  rw [hclamp, narrow_eq_self hlo hhi] at h'
  exact (Option.some.inj h').symm

theorem parseMetric_of_parts {fullKey : String} {parts : List (List Char)} {k : ObKey ExactDouble}
    (hparts : fullKey.toList.splitOn '.' = "ob".toList :: parts)
    (hk : parseObKey fullKey = some k) :
    parseMetric (takeMode (parts.filter (· ≠ []))).2 = some k.metric := by
  have hsplit : split '.' fullKey.toList = "ob".toList :: parts.filter (· ≠ []) := by
    rw [split, hparts, List.filter_cons_of_pos (by decide)]
  rw [parseObKey, hsplit] at hk
  dsimp only at hk
  rw [if_neg (by decide)] at hk
  obtain ⟨metric, hm, he⟩ := Option.bind_eq_some_iff.mp hk
  rw [hm, ← Option.some.inj he]

/-- A last token that is no mode is kept. -/
theorem takeMode_append {parts : List (List Char)} {last : List Char} (hper : last ≠ "per".toList)
    (hagg : last ≠ "agg".toList) : (takeMode (parts ++ [last])).2 = parts ++ [last] := by
  rw [takeMode, List.getLast?_concat, if_neg (by simpa using hagg), if_neg (by simpa using hper)]

theorem takeMode_drop {parts : List (List Char)} {last : List Char}
    (h : last = "per".toList ∨ last = "agg".toList) : (takeMode (parts ++ [last])).2 = parts := by
  rw [takeMode, List.getLast?_concat]
  rcases h with rfl | rfl
  · rw [if_neg (by decide), if_pos rfl, List.dropLast_concat]
  · rw [if_pos rfl, List.dropLast_concat]

theorem parseMetric_level (args : List (List Char)) :
    parseMetric (D := ExactDouble) ("level".toList :: args) = parseLevel args := by
  rw [parseMetric, if_neg (by decide), if_neg (by decide), if_neg (by decide), if_pos rfl]

theorem parseMetric_cum (args : List (List Char)) :
    parseMetric (D := ExactDouble) ("cum".toList :: args) = parseCum args := by
  rw [parseMetric, if_neg (by decide), if_neg (by decide), if_neg (by decide),
    if_neg (by decide), if_neg (by decide), if_neg (by decide), if_pos rfl]

theorem parseMetric_imbalance (args : List (List Char)) :
    parseMetric (D := ExactDouble) ("imbalance".toList :: args) = parseImbalance args := by
  rw [parseMetric, if_neg (by decide), if_neg (by decide), if_neg (by decide),
    if_neg (by decide), if_neg (by decide), if_neg (by decide), if_neg (by decide),
    if_neg (by decide), if_pos rfl]

/-- The metric of an accepted key in which the provider reads a request. -/
def RequestMetric (metric : Metric ExactDouble) : Request → Prop
  | .spread => metric = .spread
  | .level s n t => 1 ≤ n ∧ metric = .levelIdx s n t
  | .cum s n t => 1 ≤ n ∧ ∃ target, metric = .cum s n target ∧
      (t = .size ∨ t = .notional → target = t)
  | .imbalance lv => 1 ≤ lv.a ∧ ∃ lv', metric = .imbalanceLevels lv'

theorem requestMetric_level {fullKey : String} {k : ObKey ExactDouble}
    (hk : parseObKey fullKey = some k) {side n metric : List Char} {s : Side}
    (hs : sideToken side = some s)
    (hparts : fullKey.toList.splitOn '.' = ["ob".toList, "level".toList, side, n, metric])
    {r : Request} (hr : requestLevel s n metric = some r) : RequestMetric k.metric r := by
  obtain ⟨i, hi, hreq⟩ := Option.bind_eq_some_iff.mp hr
  split_ifs at hreq with hbad
  obtain ⟨hi0, ht⟩ := not_or.mp hbad
  obtain rfl : .level s i (targetToken metric) = r := by simpa using hreq
  obtain ⟨hside, hsne⟩ := parseSide_of_sideToken hs
  obtain ⟨htarget, hmne, hper, hagg⟩ := parseTarget_of_targetToken ht
  have hm := parseMetric_of_parts hparts hk
  have hfilter : [("level".toList : List Char), side, n, metric].filter (· ≠ []) =
      ["level".toList, side, n] ++ [metric] := by
    simp [hsne, toInt_ne_nil hi, hmne]
  rw [hfilter, takeMode_append hper hagg, List.cons_append, parseMetric_level] at hm
  have hlevel : parseLevel (D := ExactDouble) [side, n, metric] = some k.metric := hm
  simp only [parseLevel, hside, htarget, Option.bind_eq_bind, Option.bind_some] at hlevel
  obtain ⟨i', hi', hrest⟩ := Option.bind_eq_some_iff.mp hlevel
  obtain rfl := parseInt_of_toInt hi hi'
  split_ifs at hrest with hlt
  exact ⟨by omega, (Option.some.inj hrest).symm⟩

/-- No key of a cumulative metric ends with the number of levels. -/
theorem cum_metric_ne_nil {fullKey : String} {k : ObKey ExactDouble}
    (hk : parseObKey fullKey = some k) {side n metric : List Char} {i : ℤ} (hside : side ≠ [])
    (hi : toInt n = some i)
    (hparts : fullKey.toList.splitOn '.' =
      ["ob".toList, "cum".toList, side, "levels".toList, n, metric]) : metric ≠ [] := by
  rintro rfl
  obtain ⟨hper, hagg⟩ := toInt_ne_mode hi
  have hm := parseMetric_of_parts hparts hk
  have hfilter : [("cum".toList : List Char), side, "levels".toList, n, []].filter (· ≠ []) =
      ["cum".toList, side, "levels".toList] ++ [n] := by
    simp [hside, toInt_ne_nil hi]
  rw [hfilter, takeMode_append hper hagg, List.cons_append, parseMetric_cum] at hm
  cases hm

theorem requestMetric_cum {fullKey : String} {k : ObKey ExactDouble}
    (hk : parseObKey fullKey = some k) {side n metric : List Char} {s : Side}
    (hs : sideToken side = some s)
    (hparts : fullKey.toList.splitOn '.' =
      ["ob".toList, "cum".toList, side, "levels".toList, n, metric])
    {r : Request} (hr : requestCum s n metric = some r) : RequestMetric k.metric r := by
  obtain ⟨i, hi, hreq⟩ := Option.bind_eq_some_iff.mp hr
  split_ifs at hreq with hi0
  obtain rfl : .cum s i (targetToken metric) = r := by simpa using hreq
  obtain ⟨hside, hsne⟩ := parseSide_of_sideToken hs
  have hm := parseMetric_of_parts hparts hk
  have hne := cum_metric_ne_nil hk hsne hi hparts
  have hfilter : [("cum".toList : List Char), side, "levels".toList, n, metric].filter (· ≠ []) =
      ["cum".toList, side, "levels".toList, n] ++ [metric] := by
    simp [hsne, toInt_ne_nil hi, hne]
  rw [hfilter] at hm
  by_cases hmode : metric = "per".toList ∨ metric = "agg".toList
  · rw [takeMode_drop hmode, parseMetric_cum] at hm
    cases hm
  obtain ⟨hper, hagg⟩ := not_or.mp hmode
  rw [takeMode_append hper hagg, List.cons_append, parseMetric_cum] at hm
  have hcum : parseCum (D := ExactDouble) [side, "levels".toList, n, metric] = some k.metric := hm
  simp only [parseCum, hside, Option.bind_eq_bind, Option.bind_some, if_true] at hcum
  obtain ⟨i', hi', hrest⟩ := Option.bind_eq_some_iff.mp hcum
  obtain rfl := parseInt_of_toInt hi hi'
  split_ifs at hrest with hlt
  obtain ⟨target, htarget, he⟩ := Option.bind_eq_some_iff.mp hrest
  refine ⟨by omega, target, (Option.some.inj he).symm, ?_⟩
  intro ht
  have hknown : targetToken metric ≠ .none := by
    rcases ht with ht | ht <;> rw [ht] <;> decide
  rw [(parseTarget_of_targetToken hknown).1] at htarget
  exact (Option.some.inj htarget).symm

theorem requestMetric_imbalance {fullKey : String} {k : ObKey ExactDouble}
    (hk : parseObKey fullKey = some k) {range : List Char}
    (hparts : fullKey.toList.splitOn '.' =
      ["ob".toList, "imbalance".toList, "levels".toList, range])
    {r : Request} (hr : requestImbalance range = some r) : RequestMetric k.metric r := by
  have hdash : range.dropWhile (· ≠ '-') ≠ [] := by
    intro h
    rw [requestImbalance, h] at hr
    cases hr
  have hne : range ≠ [] := by
    rintro rfl
    exact hdash rfl
  have hper : range ≠ "per".toList := by
    rintro rfl
    exact hdash (by decide)
  have hagg : range ≠ "agg".toList := by
    rintro rfl
    exact hdash (by decide)
  have hm := parseMetric_of_parts hparts hk
  have hfilter : [("imbalance".toList : List Char), "levels".toList, range].filter (· ≠ []) =
      ["imbalance".toList, "levels".toList] ++ [range] := by
    simp [hne]
  rw [hfilter, takeMode_append hper hagg, List.cons_append, parseMetric_imbalance] at hm
  have himb : parseImbalance (D := ExactDouble) ["levels".toList, range] = some k.metric := hm
  rw [parseImbalance, if_pos rfl] at himb
  obtain ⟨lv', -, he⟩ := Option.bind_eq_some_iff.mp himb
  rw [requestImbalance] at hr
  split at hr
  · cases hr
  · obtain ⟨m, -, hr⟩ := Option.bind_eq_some_iff.mp hr
    obtain ⟨n, -, hr⟩ := Option.bind_eq_some_iff.mp hr
    split_ifs at hr with hmn
    obtain rfl : .imbalance ⟨m, n⟩ = r := by simpa using hr
    exact ⟨by dsimp only; omega, lv', (Option.some.inj he).symm⟩

theorem requestMetric_of_parse {fullKey : String} {k : ObKey ExactDouble}
    (hk : parseObKey fullKey = some k) {r : Request} (hr : request fullKey = some r) :
    RequestMetric k.metric r := by
  have htokens := formTokens_form fullKey
  rw [request] at hr
  cases hf : form fullKey with
  | spread =>
    rw [hf] at htokens hr
    obtain rfl : fullKey = "ob.spread" := htokens
    obtain rfl : .spread = r := by simpa using hr
    have hspread : parseObKey (D := ExactDouble) "ob.spread" = some ⟨.spread, .per⟩ := by
      decide +kernel
    rw [hspread] at hk
    exact congrArg ObKey.metric (Option.some.inj hk).symm
  | level s n metric =>
    rw [hf] at htokens hr
    obtain ⟨side, hs, hparts⟩ := htokens
    exact requestMetric_level hk hs hparts hr
  | cum s n metric =>
    rw [hf] at htokens hr
    obtain ⟨side, hs, hparts⟩ := htokens
    exact requestMetric_cum hk hs hparts hr
  | imbalance range =>
    rw [hf] at htokens hr
    exact requestMetric_imbalance hk htokens hr
  | other =>
    rw [hf] at hr
    cases hr

/-- The levels within `n` that the cast of the level count to `int` hides from a cumulative
metric; there are none below 2^31 levels. -/
def hiddenRows (rows : List (ℚ × ℚ)) (n : ℤ) : List (ℚ × ℚ) :=
  (rows.take n.toNat).drop (min n (narrow rows.length)).toNat

/-- When the answer to a request is the value of the metric. A key without a request is
answered by NaN, so the metric must have no value. -/
def Agrees (R : Rows) (metric : Metric ExactDouble) : Option Request → Prop
  | none => Undefined R metric
  | some .spread => True
  | some (.level _ _ _) => True
  | some (.cum side n target) =>
    R side = [] ∨
      if target = .size ∨ target = .notional then
        ((hiddenRows (R side) n).filterMap target.value).sum = 0
      else Undefined R metric
  | some (.imbalance lv) =>
    match metric with
    | .imbalanceLevels lv' =>
      let hi := min lv.b (min (R .bid).length (R .ask).length)
      Proportional (sizeBetween (R .bid) lv.a hi) (sizeBetween (R .ask) lv.a hi)
        (sizeBetween (R .bid) (max 1 lv'.a) (min lv'.b (narrow (R .bid).length)))
        (sizeBetween (R .ask) (max 1 lv'.a) (min lv'.b (narrow (R .ask).length)))
    | _ => False

section
variable {R : Rows} {S : Snapshot ExactDouble} (hS : ∀ s, S.bySide s = (R s).map rowLevel)
  {k : ObKey ExactDouble}
include hS

theorem serve_spread_eq (hm : k.metric = .spread) : serve R .spread = eval S k := by
  have hb : S.bids = (R .bid).map rowLevel := hS .bid
  have ha : S.asks = (R .ask).map rowLevel := hS .ask
  have heval : eval S k = spread S := by rw [eval, hm]
  rw [heval, spread, hb, ha, serve]
  cases R .bid <;> cases R .ask <;>
    simp [rowLevel, Double.sub, ExactDouble.add, ExactDouble.neg, Double.quietNaN, sub_eq_add_neg]

theorem serve_level_eq {s : Side} {n : ℤ} {t : Target} (hn : 1 ≤ n)
    (hm : k.metric = .levelIdx s n t) : serve R (.level s n t) = eval S k := by
  have heval : eval S k = levelIdx S s n t := by rw [eval, hm]
  rw [heval, levelIdx_eq hS s n hn, serve]

theorem serve_cum_iff {s : Side} {n : ℤ} {t target : Target} (hn : 1 ≤ n)
    (hm : k.metric = .cum s n target) (ht : t = .size ∨ t = .notional → target = t) :
    serve R (.cum s n t) = eval S k ↔ Agrees R k.metric (some (.cum s n t)) := by
  have heval : eval S k = cumLevels S s n target := by rw [eval, hm]
  rw [serve, Agrees]
  by_cases hR : R s = []
  · refine iff_of_true ?_ (.inl hR)
    rw [if_pos hR, heval, cumLevels_eq hS s n hn, hR, if_neg (by simp [narrow])]
    simp
  rw [if_neg hR, or_iff_right hR]
  by_cases hknown : t = .size ∨ t = .notional
  · rw [if_pos hknown, if_pos hknown, heval, cumLevels_eq hS s n hn, ht hknown,
      if_neg (by rcases hknown with h | h <;> simp [h])]
    -- the levels summed by the provider are those of the metric and the hidden ones
    have hsplit : (R s).take n.toNat =
        (R s).take (min n (narrow (R s).length)).toNat ++ hiddenRows (R s) n := by
      have htake : ((R s).take n.toNat).take (min n (narrow (R s).length)).toNat =
          (R s).take (min n (narrow (R s).length)).toNat := by
        rw [List.take_take, min_eq_left (by omega)]
      rw [hiddenRows, ← htake, List.take_append_drop]
    rw [hsplit, List.filterMap_append, List.sum_append]
    simp
  · rw [if_neg hknown, if_neg hknown, eq_comm]
    exact eval_eq_nan_iff hS k

theorem serve_imbalance_iff (hR : ∀ s, ∀ r ∈ R s, 0 ≤ r.2) {lv lv' : Range}
    (hm : k.metric = .imbalanceLevels lv') :
    serve R (.imbalance lv) = eval S k ↔ Agrees R k.metric (some (.imbalance lv)) := by
  have heval : eval S k = imbalanceLevels S lv' := by rw [eval, hm]
  rw [heval, imbalanceLevels_eq hS, serve, hm, Agrees]
  rw [ExactDouble.fin.injEq]
  exact imbalanceRat_eq_iff (sizeBetween_nonneg (hR .bid) _ _) (sizeBetween_nonneg (hR .ask) _ _)
    (sizeBetween_nonneg (hR .bid) _ _) (sizeBetween_nonneg (hR .ask) _ _)

end

/-- The snapshot of the whole book, with the stale mark of the manager. -/
def wholeBook (m : OrderBookManager ExactDouble) (symbol : String) (n : ℕ) : Snapshot ExactDouble :=
  let snap := capture m symbol n
  { snap with info := { snap.info with stale := m.isStale symbol } }

/-- For every state of the manager and every accepted key, the provider's value is the value
of the key on the whole per-order book if and only if the key holds a request whose answer
agrees, or holds none and its metric has no value. -/
theorem provider_agrees_iff (m : OrderBookManager ExactDouble) (symbol key : String)
    (k : ObKey ExactDouble) (hk : parseObKey key = some k) (tick : ℚ)
    (htick : m.getTickSize symbol = .fin tick) (n : ℕ)
    (hn : ∀ s, ((m.book symbol).ladder s).toList.length ≤ n) :
    (obProvider m symbol).get key = eval (wholeBook m symbol n) k ↔
      Agrees (bookRows m symbol tick) k.metric (request key) := by
  have hS : ∀ s, (wholeBook m symbol n).bySide s = (bookRows m symbol tick s).map rowLevel := by
    intro s
    have hside : (wholeBook m symbol n).bySide s = (capture m symbol n).bySide s := by
      cases s <;> rfl
    rw [hside, capture_bySide htick, List.take_of_length_le]
    rw [bookRows, List.length_map]
    exact hn s
  have hR := bookRows_nonneg m symbol tick
  rw [get_eq_serve (R := bookRows m symbol tick) (fun n s => capture_bySide htick n s) rfl]
  cases hr : request key with
  | none =>
    rw [Option.map_none, Option.getD_none, eq_comm]
    exact eval_eq_nan_iff hS k
  | some r =>
    have hmetric := requestMetric_of_parse hk hr
    rw [Option.map_some, Option.getD_some]
    cases r with
    | spread => exact iff_of_true (serve_spread_eq hS hmetric) trivial
    | level s i t => exact iff_of_true (serve_level_eq hS hmetric.1 hmetric.2) trivial
    | cum s i t =>
      obtain ⟨hi, target, hm, ht⟩ := hmetric
      exact serve_cum_iff hS hi hm ht
    | imbalance lv =>
      obtain ⟨-, lv', hm⟩ := hmetric
      exact serve_imbalance_iff hS hR hm

/-- A bid at 100 and an ask at 101. -/
def twoSided : List (ManagerOp ExactDouble) :=
  [.add "AAPL" 1 .bid (.fin 100) 10 0 {} false, .add "AAPL" 2 .ask (.fin 101) 5 0 {} false]

theorem provider_agrees_spread :
    (obProvider (OrderBookManager.run twoSided).1 "AAPL").get "ob.spread" =
      eval (wholeBook (OrderBookManager.run twoSided).1 "AAPL" 10) ⟨.spread, .per⟩ := by
  have hiff := provider_agrees_iff (OrderBookManager.run twoSided).1 "AAPL" "ob.spread"
    ⟨.spread, .per⟩ (by decide +kernel) (1 / 10000) (by decide +kernel) 10
    (by intro s; cases s <;> decide +kernel)
  have hrequest : request "ob.spread" = some .spread := by decide +kernel
  rw [hrequest] at hiff
  exact hiff.mpr trivial

/-- The catalogue lists `ob.mid`, which is 100.5 here, and the provider answers NaN. -/
theorem provider_misses_mid :
    parseObKey "ob.mid" = some (⟨.mid, .per⟩ : ObKey ExactDouble) ∧
    (OrderBookManager.run twoSided).1.getTickSize "AAPL" = .fin (1 / 10000) ∧
    (obProvider (OrderBookManager.run twoSided).1 "AAPL").get "ob.mid" ≠
      eval (wholeBook (OrderBookManager.run twoSided).1 "AAPL" 10) ⟨.mid, .per⟩ := by
  decide +kernel

end GmaEngine.Ob
