import GmaEngine.ObAgreement
import GmaEngine.ObKeyFormat

/-!
# Truncated ladders

A snapshot holds the best levels of each side up to a depth. The depth that the provider asks
for suffices for the levels that a key names, so its answer is that of the whole ladder.
-/

namespace GmaEngine
open Std

namespace OrderBook

/-- A higher bid and a lower ask are better. -/
def Better : Side → Price → Price → Prop
  | .bid, p, q => q.ticks < p.ticks
  | .ask, p, q => p.ticks < q.ticks

theorem better_iff (s : Side) (p q : Price) : Better s p q ↔ ladderCmp s p q = .lt := by
  cases s with
  | bid => exact compare_lt_iff_lt.symm
  | ask => exact compare_lt_iff_lt.symm

/-- The best `n` levels of a side, or all of them, from best to worst and with their totals. -/
structure BestLevels (b : OrderBook) (s : Side) (n : ℕ) (out : List (Price × UInt64)) : Prop where
  length : out.length = min n (b.ladder s).size
  sorted : out.Pairwise (fun x y => Better s x.1 y.1)
  total : ∀ x ∈ out, ∃ l, b.findLevel s x.1 = some l ∧ x.2 = l.totalSize
  /-- A level that is left out is worse than those taken. -/
  best : ∀ x ∈ out, ∀ q, (b.findLevel s q).isSome → q ∉ out.map Prod.fst → Better s x.1 q

theorem bestLevels_forEachLevel (b : OrderBook) (s : Side) (n : ℕ) :
    b.BestLevels s n (b.forEachLevel s n) := by
  have hord : ((b.ladder s).toList).Pairwise (fun x y => Better s x.1 y.1) := by
    have h := ExtTreeMap.ordered_keys_toList (t := b.ladder s)
    exact h.imp (fun hlt => (better_iff s _ _).mpr hlt)
  have hmem : ∀ x ∈ b.forEachLevel s n, ∃ l, (x.1, l) ∈ (b.ladder s).toList.take n ∧
      x.2 = l.totalSize := by
    intro x hx
    obtain ⟨⟨p, l⟩, hl, rfl⟩ := List.mem_map.mp hx
    exact ⟨l, hl, rfl⟩
  constructor
  · rw [forEachLevel, List.length_map, List.length_take, ExtTreeMap.length_toList]
  · rw [forEachLevel, List.pairwise_map]
    exact hord.sublist (List.take_sublist n _)
  · intro x hx
    obtain ⟨l, hl, hz⟩ := hmem x hx
    exact ⟨l, ExtTreeMap.mem_toList_iff_getElem?_eq_some.mp (List.mem_of_mem_take hl), hz⟩
  · intro x hx q hq hout
    obtain ⟨l, hl, -⟩ := hmem x hx
    obtain ⟨l', hl'⟩ := Option.isSome_iff_exists.mp hq
    have hin := ExtTreeMap.mem_toList_iff_getElem?_eq_some.mpr hl'
    -- the level stands behind the cut
    have hbehind : (q, l') ∈ (b.ladder s).toList.drop n := by
      rw [← List.take_append_drop n (b.ladder s).toList, List.mem_append] at hin
      refine hin.resolve_left (fun htake => hout ?_)
      exact List.mem_map.mpr ⟨_, List.mem_map.mpr ⟨_, htake, rfl⟩, rfl⟩
    rw [← List.take_append_drop n (b.ladder s).toList, List.pairwise_append] at hord
    exact hord.2.2 _ hl _ hbehind

end OrderBook

namespace Ob
open CNumerals

def levelKey (s : Side) (text : String) (t : Target) : String :=
  ".".intercalate ["ob", "level", sideText s, text, targetText t]

def cumKey (s : Side) (text : String) (t : Target) : String :=
  ".".intercalate ["ob", "cum", sideText s, "levels", text, targetText t]

theorem splitOn_intercalate {toks : List String} (hne : toks ≠ [])
    (h : ∀ tok ∈ toks, '.' ∉ tok.toList) :
    (".".intercalate toks).toList.splitOn '.' = toks.map String.toList := by
  rw [String.toList_intercalate]
  apply List.splitOn_intercalate
  · intro l hl
    obtain ⟨tok, htok, rfl⟩ := List.mem_map.mp hl
    exact h tok htok
  · simpa using hne

/-- The spread has two tokens. -/
theorem ne_spread {key : String} {parts : List (List Char)}
    (hparts : key.toList.splitOn '.' = parts) (hlen : parts.length ≠ 2) : key ≠ "ob.spread" := by
  rintro rfl
  apply hlen
  rw [← hparts]
  decide

theorem sideToken_sideText (s : Side) : sideToken (sideText s).toList = some s := by
  cases s <;> decide

theorem toInt_numeral {text : List Char} {n : ℕ} (h : Numeral text n) (hn : n < 2 ^ 31) :
    toInt text = some (n : ℤ) := by
  have hchars := cChars_numeral h (by simp : '\x00' ∉ ([] : List Char))
  rw [List.append_nil] at hchars
  rw [toInt, hchars]
  exact stoi_numeral h (by omega)

theorem dot_notMem_texts (s : Side) (t : Target) :
    '.' ∉ (sideText s).toList ∧ '.' ∉ (targetText t).toList := by
  constructor
  · cases s <;> decide
  · cases t <;> decide

section
variable {s : Side} {text : String} {N : ℕ} (hnum : Numeral text.toList N)
include hnum

theorem form_levelKey (t : Target) :
    form (levelKey s text t) = .level s text.toList (targetText t).toList := by
  obtain ⟨hs, ht⟩ := dot_notMem_texts s t
  have hparts : (levelKey s text t).toList.splitOn '.' =
      ["ob".toList, "level".toList, (sideText s).toList, text.toList, (targetText t).toList] := by
    apply splitOn_intercalate (List.cons_ne_nil _ _)
    simp only [List.forall_mem_cons]
    exact ⟨by decide, by decide, hs, hnum.notMem (by decide), ht, by simp⟩
  rw [form, if_neg (ne_spread hparts (by simp)), hparts]
  dsimp only
  rw [sideToken_sideText]
  exact if_pos ⟨rfl, rfl⟩

theorem form_cumKey (t : Target) :
    form (cumKey s text t) = .cum s text.toList (targetText t).toList := by
  obtain ⟨hs, ht⟩ := dot_notMem_texts s t
  have hparts : (cumKey s text t).toList.splitOn '.' =
      ["ob".toList, "cum".toList, (sideText s).toList, "levels".toList, text.toList,
        (targetText t).toList] := by
    apply splitOn_intercalate (List.cons_ne_nil _ _)
    simp only [List.forall_mem_cons]
    exact ⟨by decide, by decide, hs, by decide, hnum.notMem (by decide), ht, by simp⟩
  rw [form, if_neg (ne_spread hparts (by simp)), hparts]
  dsimp only
  rw [sideToken_sideText]
  exact if_pos ⟨rfl, rfl, rfl⟩

end

section
variable {D : Type} [Double D]

/-- All levels of a side, as a snapshot without a depth would hold them. -/
def fullLadder (m : OrderBookManager D) (symbol : String) (s : Side) : List (Level D) :=
  ((m.book symbol).ladder s).toList.map
    (fun l => capturedLevel (m.getTickSize symbol) (l.1, l.2.totalSize))

theorem bySide_capture (m : OrderBookManager D) (symbol : String) (n : ℕ) (s : Side) :
    (capture m symbol n).bySide s = (fullLadder m symbol s).take n := by
  have hside : ((m.book symbol).forEachLevel s n).map (capturedLevel (m.getTickSize symbol)) =
      (fullLadder m symbol s).take n := by
    rw [OrderBook.forEachLevel, fullLadder, ← List.map_take, List.map_map]
    rfl
  cases s with
  | bid => exact hside
  | ask => exact hside

/-- Attribute `t` of level `N` of a whole ladder. -/
def levelAnswer (ladder : List (Level D)) (N : ℕ) (t : Target) : D :=
  (ladder[N - 1]?.bind (fun l => l.attr t)).getD Double.quietNaN

/-- The sum of attribute `t` over the first `N` levels of a whole ladder. -/
def cumAnswer (ladder : List (Level D)) (N : ℕ) (t : Target) : D :=
  total ((ladder.take N).filterMap (fun l => l.attr t))

variable {m : OrderBookManager D} {symbol : String} {s : Side} {text : String} {N : ℕ}
  {t : Target} (hnum : Numeral text.toList N) (hpos : 1 ≤ N) (hmax : N < 2 ^ 31)

theorem narrow_length_take {α : Type} {n : ℕ} (hn : n < 2 ^ 31) (xs : List α) :
    narrow (xs.take n).length = min n xs.length := by
  rw [List.length_take, narrow_eq_self] <;> omega

include hnum hpos hmax

theorem getLevel_full (ht : t = .price ∨ t = .size ∨ t = .notional) :
    (obProvider m symbol).getLevel s text.toList (targetText t).toList =
      some (levelAnswer (fullLadder m symbol s) N t) := by
  have hdepth : max 10 N < 2 ^ 31 := by omega
  rw [Provider.getLevel, toInt_numeral hnum hmax]
  simp only [Option.bind_eq_bind, Option.bind_some, Option.pure_def, Int.toNat_natCast, obProvider,
    bySide_capture, narrow_length_take hdepth]
  rw [if_neg (by omega), levelAnswer, List.getElem?_take_of_lt (by omega)]
  cases hl : (fullLadder m symbol s)[N - 1]? with
  | none =>
    rw [List.getElem?_eq_none_iff] at hl
    rw [if_pos (by omega)]
    rfl
  | some l =>
    obtain ⟨hlt, -⟩ := List.getElem?_eq_some_iff.mp hl
    rw [if_neg (by omega)]
    rcases ht with rfl | rfl | rfl <;> rfl

theorem getCum_full (ht : t = .size ∨ t = .notional) :
    (obProvider m symbol).getCum s text.toList (targetText t).toList =
      some (cumAnswer (fullLadder m symbol s) N t) := by
  have hdepth : max 10 N < 2 ^ 31 := by omega
  rw [Provider.getCum, toInt_numeral hnum hmax]
  simp only [Option.bind_eq_bind, Option.bind_some, Option.pure_def, Int.toNat_natCast, obProvider,
    bySide_capture, narrow_length_take hdepth]
  have htake : ((fullLadder m symbol s).take (max 10 N)).take
      (min (N : ℤ) (min (max 10 N) (fullLadder m symbol s).length : ℕ)).toNat =
      (fullLadder m symbol s).take N := by
    rw [List.take_take, List.take_eq_take_iff]
    omega
  rw [if_neg (by omega), htake, cumAnswer]
  rcases ht with rfl | rfl
  · rw [if_pos (by decide), ← List.filterMap_eq_map]
    rfl
  · rw [if_neg (by decide), if_pos (by decide), ← List.filterMap_eq_map]
    rfl

end

/-- Snapshots hold the best levels of both sides, whatever the depth, and the depth that the
provider asks for is enough for the level and the cumulative keys: their values are those of the
whole ladder. -/
theorem truncation_harmless {D : Type} [Double D] (m : OrderBookManager D) (symbol : String) :
    (∀ (b : OrderBook) s n, b.BestLevels s n (b.forEachLevel s n)) ∧
    (∀ n, (m.book symbol).BestLevels .bid n (m.buildSnapshot symbol n).bids ∧
      (m.book symbol).BestLevels .ask n (m.buildSnapshot symbol n).asks) ∧
    ∀ (s : Side) (text : String) (N : ℕ), Numeral text.toList N → 1 ≤ N → N < 2 ^ 31 →
      (∀ t, t = .price ∨ t = .size ∨ t = .notional →
        (obProvider m symbol).get (levelKey s text t) =
          levelAnswer (fullLadder m symbol s) N t) ∧
      (∀ t, t = .size ∨ t = .notional →
        (obProvider m symbol).get (cumKey s text t) = cumAnswer (fullLadder m symbol s) N t) := by
  refine ⟨OrderBook.bestLevels_forEachLevel, ?_, ?_⟩
  · intro n
    exact ⟨OrderBook.bestLevels_forEachLevel _ .bid n, OrderBook.bestLevels_forEachLevel _ .ask n⟩
  · intro s text N hnum hpos hmax
    constructor
    · intro t ht
      rw [Provider.get, Provider.getImpl, form_levelKey hnum]
      dsimp only
      rw [getLevel_full hnum hpos hmax ht, Option.getD_some]
    · intro t ht
      rw [Provider.get, Provider.getImpl, form_cumKey hnum]
      dsimp only
      rw [getCum_full hnum hpos hmax ht, Option.getD_some]

/-- Level 2 of a ladder with one bid, whose number is written with a leading zero. -/
theorem truncation_harmless_level_02 :
    let m := (OrderBookManager.run twoSided).1
    (obProvider m "AAPL").get "ob.level.bid.02.price" =
        levelAnswer (fullLadder m "AAPL" .bid) 2 .price ∧
      (obProvider m "AAPL").get "ob.cum.bid.levels.02.size" =
        cumAnswer (fullLadder m "AAPL" .bid) 2 .size := by
  have hlevel : levelKey .bid "02" .price = "ob.level.bid.02.price" := by decide +kernel
  have hcum : cumKey .bid "02" .size = "ob.cum.bid.levels.02.size" := by decide +kernel
  have hdigits : "02".toList.all Char.isDigit = true := by decide
  have hnum : Numeral "02".toList 2 :=
    ⟨by decide, List.all_eq_true.mp hdigits, by decide +kernel⟩
  obtain ⟨hprice, hsize⟩ := (truncation_harmless (OrderBookManager.run twoSided).1 "AAPL").2.2 .bid
    "02" 2 hnum (by decide) (by norm_num)
  rw [← hlevel, ← hcum]
  exact ⟨hprice .price (.inl rfl), hsize .size (.inl rfl)⟩

end Ob
end GmaEngine
