import GmaEngine.ExactArithmetic
import GmaEngine.MarketTA
import GmaEngine.WeightedAverages

/-!
# Bounds of the indicators

On a history of rational prices and nonnegative volumes every average of prices lies between the
lowest and the highest price, the RSI lies between zero and a hundred, and the MACD line, which
has a recurrence of its own, is the difference of the two averages that the `ema` helper computes.
-/

namespace GmaEngine.MarketTA
open Double DoubleMath BuiltinFunctions

section
variable {D : Type} [DoubleMath D]

/-- The loop carries the averages that the helper computes. -/
theorem macdStep_averages (fast slow : ℕ) (rest : List D) (k : ℕ) (acc : D × D × List D) :
    ((rest.zipIdx k).foldl (macdStep fast slow) acc).1 =
      rest.foldl (smooth (emaFactor fast)) acc.1 ∧
    ((rest.zipIdx k).foldl (macdStep fast slow) acc).2.1 =
      rest.foldl (smooth (emaFactor slow)) acc.2.1 := by
  induction rest generalizing k acc with
  | nil => exact ⟨rfl, rfl⟩
  | cons p rest ih =>
    rw [List.zipIdx_cons, List.foldl_cons, List.foldl_cons, List.foldl_cons]
    exact ih (k + 1) (macdStep fast slow acc (p, k))

/-- The last entry of the series is the difference of the two averages. -/
theorem getLast_macdSeries (first : D) {rest : List D} (hne : rest ≠ []) {fast slow : ℕ}
    (hslow : slow ≤ rest.length + 1) :
    (macdSeries (first :: rest) fast slow).getLast? =
      some (sub (rest.foldl (smooth (emaFactor fast)) first)
        (rest.foldl (smooth (emaFactor slow)) first)) := by
  obtain ⟨init, p, rfl⟩ := (List.eq_nil_or_concat' rest).resolve_left hne
  obtain ⟨hfast, hslow'⟩ := macdStep_averages fast slow init 1 (first, first, [])
  rw [List.length_append, List.length_singleton] at hslow
  have hpush : slow - 1 ≤ 1 + init.length := by omega
  rw [macdSeries_cons, List.zipIdx_append, List.foldl_append]
  change (macdStep fast slow ((init.zipIdx 1).foldl (macdStep fast slow) (first, first, []))
    (p, 1 + init.length)).2.2.getLast? = _
  rw [macdStep]
  dsimp only
  rw [if_pos hpush, List.getLast?_concat, hfast, hslow', List.foldl_append, List.foldl_append]
  rfl

theorem macd_eq {prices : List D} {fast slow : ℕ} (signal : ℕ) (hn : 2 ≤ prices.length)
    (hfast : fast ≤ slow) (hslow : slow ≤ prices.length) :
    ∃ sig, macd prices fast slow signal =
      (sub (ema prices fast) (ema prices slow), sig,
        sub (sub (ema prices fast) (ema prices slow)) sig) := by
  cases prices with
  | nil => cases hn
  | cons first rest =>
    have hne : rest ≠ [] := by
      rintro rfl
      rw [List.length_singleton] at hn
      omega
    have hlast : (macdSeries (first :: rest) fast slow).getLast? = some _ :=
      getLast_macdSeries first hne hslow
    refine ⟨emaOverSeries (macdSeries (first :: rest) fast slow) signal, ?_⟩
    have hema : ∀ period, period ≤ slow → ema (first :: rest) period =
        rest.foldl (smooth (emaFactor period)) first :=
      fun period h => if_neg (by omega)
    rw [macd, if_pos hslow, hema fast hfast, hema slow le_rfl]
    dsimp only
    rw [hlast]

end

section
open ExactDouble (fin div_fin lt_fin sub_fin foldl_add_fin foldl_add_map)
open WeightedAverages

/-- A rational from `lo` to `hi`. -/
def Within (lo hi : ℚ) (x : ExactDouble) : Prop := ∃ q ∈ Set.Icc lo hi, x = fin q

variable {ps : List ℚ} {lo hi : ℚ}

/-- A fold with an operation that goes up or down bounds everything that it has seen. -/
theorem foldl_bound {f : ExactDouble → ExactDouble → ExactDouble} {g : ℚ → ℚ → ℚ}
    {r : ℚ → ℚ → Prop} (hrefl : ∀ x, r x x) (htrans : ∀ x y z, r x y → r y z → r x z)
    (hf : ∀ x y, f (fin x) (fin y) = fin (g x y)) (hleft : ∀ x y, r x (g x y))
    (hright : ∀ x y, r y (g x y)) (p : ℚ) (ps : List ℚ) :
    ∃ b, (ps.map fin).foldl f (fin p) = fin b ∧ ∀ x ∈ p :: ps, r x b := by
  induction ps generalizing p with
  | nil =>
    refine ⟨p, rfl, ?_⟩
    intro x hx
    rw [List.mem_singleton.mp hx]
    exact hrefl p
  | cons y ps ih =>
    obtain ⟨b, hb, hall⟩ := ih (g p y)
    refine ⟨b, ?_, ?_⟩
    · rw [List.map_cons, List.foldl_cons, hf, hb]
    · intro x hx
      have hgb := hall (g p y) List.mem_cons_self
      rcases List.mem_cons.mp hx with rfl | hx
      · exact htrans _ _ _ (hleft x y) hgb
      rcases List.mem_cons.mp hx with rfl | hx
      · exact htrans _ _ _ (hright p x) hgb
      · exact hall x (List.mem_cons_of_mem _ hx)

/-- The lowest and the highest price bound every price. -/
theorem extremes_fin (hne : ps ≠ []) :
    ∃ lo hi, ofFirst Double.min (ps.map fin) = fin lo ∧ ofFirst Double.max (ps.map fin) = fin hi ∧
      ∀ p ∈ ps, p ∈ Set.Icc lo hi := by
  cases ps with
  | nil => exact absurd rfl hne
  | cons p ps =>
    have hmin : ∀ x y, Double.min (fin x) (fin y) = fin (min x y) := by
      intro x y
      rw [Double.min, lt_fin]
      by_cases hle : x ≤ y
      · rw [if_neg (by simpa using hle), min_eq_left hle]
      · rw [if_pos (by simpa using hle), min_eq_right (le_of_not_ge hle)]
    have hmax : ∀ x y, Double.max (fin x) (fin y) = fin (max x y) := by
      intro x y
      rw [Double.max, lt_fin]
      by_cases hle : y ≤ x
      · rw [if_neg (by simpa using hle), max_eq_left hle]
      · rw [if_pos (by simpa using hle), max_eq_right (le_of_not_ge hle)]
    obtain ⟨lo, hlo, hlow⟩ := foldl_bound (r := (· ≥ ·)) (fun _ => le_rfl)
      (fun _ _ _ h h' => le_trans h' h) hmin min_le_left min_le_right p ps
    obtain ⟨hi, hhi, hhigh⟩ := foldl_bound (r := (· ≤ ·)) (fun _ => le_rfl)
      (fun _ _ _ h h' => le_trans h h') hmax le_max_left le_max_right p ps
    exact ⟨lo, hi, hlo, hhi, fun x hx => ⟨hlow x hx, hhigh x hx⟩⟩

theorem max_picks (x y : ExactDouble) : Double.max x y = x ∨ Double.max x y = y := by
  rw [Double.max]
  split_ifs
  · exact .inr rfl
  · exact .inl rfl

/-- A fold with an operation that picks one of its arguments ends with an element. -/
theorem ofFirst_mem {f : ExactDouble → ExactDouble → ExactDouble}
    (hf : ∀ x y, f x y = x ∨ f x y = y) {xs : List ExactDouble} (hne : xs ≠ []) :
    ofFirst f xs ∈ xs := by
  have hfold : ∀ (xs : List ExactDouble) x, xs.foldl f x ∈ x :: xs := by
    intro xs
    induction xs with
    | nil => exact fun x => List.mem_cons_self
    | cons y xs ih =>
      intro x
      rw [List.foldl_cons]
      rcases List.mem_cons.mp (ih (f x y)) with heq | hmem
      · rw [heq]
        rcases hf x y with hx | hy
        · rw [hx]
          exact List.mem_cons_self
        · rw [hy]
          exact List.mem_cons_of_mem x List.mem_cons_self
      · exact List.mem_cons_of_mem x (List.mem_cons_of_mem y hmem)
  cases xs with
  | nil => exact absurd rfl hne
  | cons x xs => exact hfold xs x

theorem sum_fin (qs : List ℚ) : sum (qs.map fin) = fin qs.sum := by
  have h := foldl_add_fin qs 0
  rwa [zero_add] at h

variable (h : ∀ p ∈ ps, p ∈ Set.Icc lo hi)
include h

theorem mean_within (hne : ps ≠ []) :
    Within lo hi (div (sum (ps.map fin)) (ofRat ps.length)) := by
  have hlen : (ps.length : ℚ) ≠ 0 := by simpa using hne
  refine ⟨ps.sum / ps.length, mean_mem_Icc hne h, ?_⟩
  rw [sum_fin]
  exact div_fin _ hlen

theorem sma_within {period : ℕ} (hp : 0 < period) (hdef : sma (ps.map fin) period ≠ .nan) :
    Within lo hi (sma (ps.map fin) period) := by
  rw [sma, List.length_map] at hdef ⊢
  split_ifs at hdef ⊢ with hlen
  · exact absurd rfl hdef
  · have hlast : lastN period (ps.map fin) = (ps.drop (ps.length - period)).map fin := by
      rw [lastN, List.length_map, List.map_drop]
    have hlength : (ps.drop (ps.length - period)).length = period := by
      rw [List.length_drop]
      omega
    have hne : ps.drop (ps.length - period) ≠ [] := by
      rw [← List.length_pos_iff, hlength]
      exact hp
    have hmean := mean_within (fun p hmem => h p (List.mem_of_mem_drop hmem)) hne
    rwa [hlength, ← hlast] at hmean

omit h in
theorem smooth_within {period : ℕ} (hp : 0 < period) {val x : ExactDouble}
    (hval : Within lo hi val) (hx : Within lo hi x) :
    Within lo hi (smooth (emaFactor period) val x) := by
  obtain ⟨v, hv, rfl⟩ := hval
  obtain ⟨q, hq, rfl⟩ := hx
  have hp' : (0 : ℚ) < period := Nat.cast_pos.mpr hp
  have hk : (emaFactor period : ExactDouble) = fin (2 / (period + 1)) := div_fin 2 (by linarith)
  have hone : ((1 : ℚ) ≤ period) := Nat.one_le_cast.mpr hp
  have hmem : 2 / ((period : ℚ) + 1) ∈ Set.Icc 0 1 := by
    constructor
    · positivity
    · rw [div_le_one (by linarith)]
      linarith
  refine ⟨_, smooth_mem_Icc hmem hq hv, ?_⟩
  rw [hk, smooth, sub_eq_add_neg]
  rfl

theorem ema_within {period : ℕ} (hp : 0 < period) (hdef : ema (ps.map fin) period ≠ .nan) :
    Within lo hi (ema (ps.map fin) period) := by
  have hfold : ∀ (qs : List ℚ) (val : ExactDouble), qs ⊆ ps → Within lo hi val →
      Within lo hi ((qs.map fin).foldl (smooth (emaFactor period)) val) := by
    intro qs
    induction qs with
    | nil => exact fun val _ hval => hval
    | cons q qs ih =>
      intro val hsub hval
      have hq : Within lo hi (fin q) := ⟨q, h q (hsub List.mem_cons_self), rfl⟩
      exact ih _ (fun x hx => hsub (List.mem_cons_of_mem q hx)) (smooth_within hp hval hq)
  cases ps with
  | nil =>
    exfalso
    apply hdef
    rw [List.map_nil, ema]
    split_ifs <;> rfl
  | cons p ps =>
    have hema : ema ((p :: ps).map fin) period = if ((p :: ps).map fin).length < period then .nan
        else (ps.map fin).foldl (smooth (emaFactor period)) (fin p) := rfl
    rw [hema] at hdef ⊢
    split_ifs at hdef ⊢ with hlen
    · exact absurd rfl hdef
    · exact hfold ps (fin p) (List.subset_cons_self p ps) ⟨p, h p List.mem_cons_self, rfl⟩

/-- The middle of the sorted prices is a price, and so is the largest one in front of it. -/
theorem median_within (hne : ps ≠ []) : Within lo hi (computeMedian (ps.map fin)) := by
  have hmem : ∀ x ∈ sorted (ps.map fin), Within lo hi x := by
    intro x hx
    obtain ⟨p, hp, rfl⟩ := List.mem_map.mp ((List.perm_insertionSort _ _).mem_iff.mp hx)
    exact ⟨p, h p hp, rfl⟩
  have hlen : (sorted (ps.map fin)).length = ps.length :=
    (List.length_insertionSort _ _).trans (List.length_map fin)
  have hpos := List.length_pos_iff.mpr hne
  have hmid : (sorted (ps.map fin)).length / 2 < (sorted (ps.map fin)).length := by omega
  have hupper := hmem _ (List.getElem_mem hmid)
  rw [computeMedian]
  rw [List.getElem?_eq_getElem hmid]
  dsimp only
  by_cases hodd : (sorted (ps.map fin)).length % 2 = 1
  · rwa [if_pos hodd]
  rw [if_neg hodd]
  have hfront : (sorted (ps.map fin)).take ((sorted (ps.map fin)).length / 2) ≠ [] := by
    rw [ne_eq, List.take_eq_nil_iff, not_or]
    exact ⟨by omega, List.length_pos_iff.mp (by omega)⟩
  have hlower := hmem _ (List.mem_of_mem_take (ofFirst_mem max_picks hfront))
  obtain ⟨l, hl, hl'⟩ := hlower
  obtain ⟨u, hu, hu'⟩ := hupper
  rw [hl', hu']
  refine ⟨(l + u) * (1 / 2), ⟨?_, ?_⟩, rfl⟩
  · linarith [hl.1, hu.1]
  · linarith [hl.2, hu.2]

omit h in
/-- The VWAP is the average price, weighted by volume. -/
theorem vwap_within {hist : List (TickEntry ExactDouble)} {ticks : List (ℚ × ℚ)}
    (hticks : hist.map (fun e => (e.price, e.volume)) = ticks.map (fun t => (fin t.1, fin t.2)))
    (hprice : ∀ t ∈ ticks, t.1 ∈ Set.Icc lo hi) (hvolume : ∀ t ∈ ticks, 0 ≤ t.2)
    (hdef : vwap hist ≠ .nan) : Within lo hi (vwap hist) := by
  have hfold : ∀ f : ExactDouble → ExactDouble × ExactDouble → ExactDouble,
      hist.foldl (fun acc e => f acc (e.price, e.volume)) zero =
        ticks.foldl (fun acc t => f acc (fin t.1, fin t.2)) zero := by
    intro f
    have hmap := congrArg (fun xs => xs.foldl f zero) hticks
    simpa only [List.foldl_map] using hmap
  have hpv : hist.foldl (fun acc e => add acc (mul e.price e.volume)) zero =
      fin (ticks.map (fun t => t.1 * t.2)).sum :=
    (hfold (fun acc t => add acc (mul t.1 t.2))).trans (foldl_add_map ticks (fun t => t.1 * t.2))
  have hv : hist.foldl (fun acc e => add acc e.volume) zero = fin (ticks.map Prod.snd).sum :=
    (hfold (fun acc t => add acc t.2)).trans (foldl_add_map ticks Prod.snd)
  rw [vwap, hpv, hv] at hdef ⊢
  have hgt : gt (fin (ticks.map Prod.snd).sum) zero = decide (0 < (ticks.map Prod.snd).sum) := rfl
  rw [hgt] at hdef ⊢
  by_cases hpos : 0 < (ticks.map Prod.snd).sum
  · rw [if_pos (decide_eq_true hpos), div_fin _ hpos.ne']
    exact ⟨_, average_mem_Icc hvolume hprice hpos, rfl⟩
  · rw [if_neg (by simpa using hpos)] at hdef
    exact absurd rfl hdef

omit h in
/-- Gains and losses are summed up without their signs. -/
theorem gains_nonneg {cs : List (ExactDouble × ExactDouble)}
    (hcs : ∀ c ∈ cs, ∃ a b, c = (fin a, fin b)) {acc : ExactDouble × ExactDouble} {g l : ℚ}
    (hg : 0 ≤ g) (hl : 0 ≤ l) (hacc : acc = (fin g, fin l)) :
    ∃ g' l', 0 ≤ g' ∧ 0 ≤ l' ∧ cs.foldl (fun acc c =>
      if gt (sub c.2 c.1) zero then (add acc.1 (sub c.2 c.1), acc.2)
      else (acc.1, add acc.2 (neg (sub c.2 c.1)))) acc = (fin g', fin l') := by
  induction cs generalizing acc g l with
  | nil => exact ⟨g, l, hg, hl, hacc⟩
  | cons c cs ih =>
    obtain ⟨a, b, rfl⟩ := hcs c List.mem_cons_self
    have hrest : ∀ c ∈ cs, ∃ a b, c = (fin a, fin b) :=
      fun c hc => hcs c (List.mem_cons_of_mem _ hc)
    have hgt : gt (sub (fin b) (fin a)) zero = decide (0 < b - a) := by
      rw [sub_fin]
      rfl
    rw [List.foldl_cons, hacc]
    dsimp only
    rw [hgt, sub_fin]
    by_cases hpos : 0 < b - a
    · rw [if_pos (decide_eq_true hpos)]
      exact ih hrest (add_nonneg hg hpos.le) hl rfl
    · rw [if_neg (by simpa using hpos)]
      exact ih hrest hg (add_nonneg hl (neg_nonneg.mpr (not_lt.mp hpos))) rfl

omit h in
theorem rsi_within (ps : List ℚ) {period : ℕ} (hp : 0 < period) :
    Within 0 100 (rsi (ps.map fin) period) := by
  have hcs : ∀ c ∈ changes (ps.map fin) period, ∃ a b, c = (fin a, fin b) := by
    rintro ⟨x, y⟩ hc
    obtain ⟨hx, hy⟩ := List.of_mem_zip (List.mem_of_mem_drop hc)
    obtain ⟨a, -, rfl⟩ := List.mem_map.mp hx
    obtain ⟨b, -, rfl⟩ := List.mem_map.mp (List.mem_of_mem_tail hy)
    exact ⟨a, b, rfl⟩
  have hstart : ((zero, zero) : ExactDouble × ExactDouble) = (fin 0, fin 0) := rfl
  obtain ⟨g, l, hg, hl, hfold⟩ := gains_nonneg hcs le_rfl le_rfl hstart
  have hp' : (period : ℚ) ≠ 0 := Nat.cast_ne_zero.mpr hp.ne'
  have hgain : div (fin g) (ofRat (period : ℚ)) = fin (g / period) := div_fin g hp'
  have hloss : div (fin l) (ofRat (period : ℚ)) = fin (l / period) := div_fin l hp'
  -- the denominator is a loss above the threshold, or the threshold
  obtain ⟨m, hm, hdenom⟩ : ∃ m : ℚ, 0 < m ∧
      (if gt (fin (l / period)) epsilon then fin (l / period) else epsilon) = fin m := by
    have hgt : gt (fin (l / period)) epsilon = decide ((1 / 1000000 : ℚ) < l / period) := rfl
    by_cases hbig : (1 / 1000000 : ℚ) < l / period
    · exact ⟨l / period, by linarith, by rw [hgt, if_pos (decide_eq_true hbig)]⟩
    · exact ⟨1 / 1000000, by norm_num, by rw [hgt, if_neg (by simpa using hbig)]; rfl⟩
  have hrs : 0 ≤ g / period / m := div_nonneg (div_nonneg hg (Nat.cast_nonneg period)) hm.le
  have hsum : add one (fin (g / period / m)) = fin (1 + g / period / m) := rfl
  have hquot : div (ofRat 100) (fin (1 + g / period / m)) = fin (100 / (1 + g / period / m)) :=
    div_fin 100 (by linarith)
  refine ⟨100 - 100 / (1 + g / period / m), ⟨?_, ?_⟩, ?_⟩
  · rw [sub_nonneg, div_le_iff₀ (by linarith)]
    linarith
  · rw [sub_le_self_iff]
    positivity
  · rw [rsi]
    dsimp only
    rw [hfold]
    dsimp only
    rw [hgain, hloss, hdenom, div_fin _ hm.ne', hsum, hquot]
    exact sub_fin _ _

end

/-- What `loadFromFile` leaves in a configuration. -/
structure Loaded {D : Type} (cfg : Config D) : Prop where
  bbands : 1 ≤ cfg.taBBands_n
  rsi : 1 ≤ cfg.taRSI
  fast : 1 ≤ cfg.taMACD_fast
  ordered : cfg.taMACD_fast ≤ cfg.taMACD_slow
  signal : 1 ≤ cfg.taMACD_signal
  momentum : 1 ≤ cfg.taMomentum
  atr : 1 ≤ cfg.taATR
  volAvg : 1 ≤ cfg.taVolAvg

theorem Loaded.valid {D : Type} {cfg : Config D} (h : Loaded cfg) : invalidConfig cfg = false := by
  obtain ⟨h1, h2, h3, h4, h5, h6, h7, h8⟩ := h
  rw [invalidConfig, decide_eq_false_iff_not]
  omega

/-- The names of the averages of prices. -/
def AverageName (name : String) : Prop :=
  name = "mean" ∨ name = "median" ∨ name = "vwap" ∨
    ∃ p, name = periodKey "sma" p ∨ name = periodKey "ema" p

/-- The first two letters tell the entries of interest from the others. -/
def kind (name : String) : List Char := name.toList.take 2

theorem kind_periodKey {name : String} (hname : 2 ≤ name.toList.length) (p : ℤ) :
    kind (periodKey name p) = kind name := by
  rw [kind, periodKey, String.toList_append, String.toList_append, List.append_assoc,
    List.take_append_of_le_length hname, kind]

def averageKinds : List (List Char) := ["me".toList, "vw".toList, "sm".toList, "em".toList]

/-- The kinds of the entries whose value is known. -/
def exactKinds : List (List Char) := ["lo".toList, "hi".toList, "ma".toList]

theorem AverageName.kind_mem {name : String} (h : AverageName name) : kind name ∈ averageKinds := by
  rcases h with rfl | rfl | rfl | ⟨p, rfl | rfl⟩
  · decide
  · decide
  · decide
  · rw [kind_periodKey (by decide)]
    decide
  · rw [kind_periodKey (by decide)]
    decide

/-- The extreme prices and the three lines of the MACD. -/
def exactEntries (lo hi : ℚ) (lines : ExactDouble × ExactDouble × ExactDouble) :
    List (String × ExactDouble) :=
  [("lowPrice", .fin lo), ("highPrice", .fin hi), ("macd_line", lines.1),
    ("macd_signal", lines.2.1), ("macd_histogram", lines.2.2)]

/-- What is said about an entry, by the kind of its name. -/
structure Consistent (lo hi : ℚ) (lines : ExactDouble × ExactDouble × ExactDouble)
    (e : String × ExactDouble) : Prop where
  exact : kind e.1 ∈ exactKinds → e ∈ exactEntries lo hi lines
  average : kind e.1 ∈ averageKinds → e.2 ≠ .nan → Within lo hi e.2
  rsi : kind e.1 = "rs".toList → Within 0 100 e.2

section
variable {lo hi : ℚ} {lines : ExactDouble × ExactDouble × ExactDouble} {name : String}
  {v : ExactDouble}

theorem consistent_other (h : kind name ∉ "rs".toList :: (exactKinds ++ averageKinds)) :
    Consistent lo hi lines (name, v) := by
  rw [List.mem_cons, List.mem_append, not_or, not_or] at h
  exact ⟨fun hk => absurd hk h.2.1, fun hk => absurd hk h.2.2, fun hk => absurd hk h.1⟩

theorem consistent_exact (h : kind name ∈ exactKinds)
    (hmem : (name, v) ∈ exactEntries lo hi lines) : Consistent lo hi lines (name, v) := by
  have hne : ∀ k ∈ exactKinds, k ∉ averageKinds ∧ k ≠ "rs".toList := by decide
  exact ⟨fun _ => hmem, fun hk => absurd hk (hne _ h).1, fun hk => absurd hk (hne _ h).2⟩

theorem consistent_average (h : kind name ∈ averageKinds) (hv : v ≠ .nan → Within lo hi v) :
    Consistent lo hi lines (name, v) := by
  have hne : ∀ k ∈ averageKinds, k ∉ exactKinds ∧ k ≠ "rs".toList := by decide
  exact ⟨fun hk => absurd hk (hne _ h).1, fun _ => hv, fun hk => absurd hk (hne _ h).2⟩

/-- The other entries with a period in their name. -/
theorem consistent_period {p : ℤ} (hlen : 2 ≤ name.toList.length)
    (h : kind name ∉ "rs".toList :: (exactKinds ++ averageKinds)) :
    Consistent lo hi lines (periodKey name p, v) :=
  consistent_other (by rwa [kind_periodKey hlen])

/-- An average over every positive period that is listed. -/
theorem consistent_averages {lo hi : ℚ} {lines : ExactDouble × ExactDouble × ExactDouble}
    {f : ℕ → ExactDouble} (hlen : 2 ≤ name.toList.length) (h : kind name ∈ averageKinds)
    (hf : ∀ period, 0 < period → f period ≠ .nan → Within lo hi (f period)) (periods : List ℤ) :
    ∀ e ∈ (periods.filter (0 < ·)).map (fun p => (periodKey name p, f p.toNat)),
      Consistent lo hi lines e := by
  rw [List.forall_mem_map]
  intro p hp
  have hpos : 0 < p := by simpa using (List.mem_filter.mp hp).2
  have hkind : kind (periodKey name p) ∈ averageKinds := by rwa [kind_periodKey hlen]
  exact consistent_average hkind (hf p.toNat (by omega))

theorem consistent_rsi (h : kind name = "rs".toList) (hv : Within 0 100 v) :
    Consistent lo hi lines (name, v) := by
  have hne : "rs".toList ∉ exactKinds ∧ "rs".toList ∉ averageKinds := by decide
  exact ⟨fun hk => absurd (h ▸ hk) hne.1, fun hk => absurd (h ▸ hk) hne.2, fun _ => hv⟩

end

theorem forall_mem_guarded {α : Type} {P : α → Prop} {c : Prop} [Decidable c] {xs : List α}
    (h : c → ∀ x ∈ xs, P x) : ∀ x ∈ (if c then xs else []), P x := by
  intro x hx
  split_ifs at hx with hc
  · exact h hc x hx
  · cases hx

section
open ExactDouble (fin)
variable {cfg : Config ExactDouble} {hist : List (TickEntry ExactDouble)} {ticks : List (ℚ × ℚ)}
  {lo hi : ℚ}
  (hticks : hist.map (fun e => (e.price, e.volume)) = ticks.map (fun t => (fin t.1, fin t.2)))
include hticks

theorem prices_ne (hne : hist ≠ []) : ticks.map Prod.fst ≠ [] := by
  intro hnil
  rw [List.map_eq_nil_iff.mp hnil] at hticks
  exact hne (List.map_eq_nil_iff.mp hticks)

theorem prices_fin : hist.map TickEntry.price = (ticks.map Prod.fst).map fin := by
  have h := congrArg (List.map Prod.fst) hticks
  rw [List.map_map, List.map_map] at h
  rw [List.map_map]
  exact h

variable (hprice : ∀ t ∈ ticks, t.1 ∈ Set.Icc lo hi)
include hprice

theorem consistent_base (hlo : ofFirst Double.min (hist.map TickEntry.price) = fin lo)
    (hhi : ofFirst Double.max (hist.map TickEntry.price) = fin hi) (hne : hist ≠ [])
    (lines : ExactDouble × ExactDouble × ExactDouble) :
    ∀ e ∈ basePrices hist, Consistent lo hi lines e := by
  have hps := prices_fin hticks
  have hmem : ∀ p ∈ ticks.map Prod.fst, p ∈ Set.Icc lo hi := List.forall_mem_map.mpr hprice
  have hpsne := prices_ne hticks hne
  have hmean := mean_within hmem hpsne
  have hlen := (congrArg List.length hps).trans (List.length_map fin)
  rw [← hlen, ← hps] at hmean
  have hmedian := median_within hmem hpsne
  rw [← hps] at hmedian
  have hlow : ("lowPrice", fin lo) ∈ exactEntries lo hi lines := List.mem_cons_self
  have hhigh : ("highPrice", fin hi) ∈ exactEntries lo hi lines :=
    List.mem_cons_of_mem _ List.mem_cons_self
  rw [basePrices, hlo, hhi]
  rw [List.forall_mem_cons, List.forall_mem_cons, List.forall_mem_cons, List.forall_mem_cons,
    List.forall_mem_cons, List.forall_mem_singleton]
  exact ⟨consistent_other (by decide), consistent_other (by decide),
    consistent_exact (by decide) hhigh, consistent_exact (by decide) hlow,
    consistent_average (by decide) (fun _ => hmean),
    consistent_average (by decide) (fun _ => hmedian)⟩

theorem consistent_indicators (hcfg : Loaded cfg) (hvolume : ∀ t ∈ ticks, 0 ≤ t.2) :
    ∀ e ∈ indicators cfg hist, Consistent lo hi (macd (hist.map TickEntry.price)
      cfg.taMACD_fast.toNat cfg.taMACD_slow.toNat cfg.taMACD_signal.toNat) e := by
  have hps := prices_fin hticks
  have hmem : ∀ p ∈ ticks.map Prod.fst, p ∈ Set.Icc lo hi := List.forall_mem_map.mpr hprice
  rw [indicators]
  simp only [List.forall_mem_append]
  refine ⟨⟨⟨⟨⟨⟨⟨⟨⟨⟨⟨?head, ?sma⟩, ?ema⟩, ?rsi⟩, ?macd⟩, ?bollinger⟩, ?momentum⟩, ?atr⟩, ?volume⟩,
    ?volumeAvg⟩, ?obv⟩, ?rank⟩
  case head =>
    rw [List.forall_mem_cons, List.forall_mem_singleton]
    exact ⟨consistent_other (by decide),
      consistent_average (by decide) (vwap_within hticks hprice hvolume)⟩
  case sma =>
    rw [hps]
    exact consistent_averages (by decide) (by decide) (fun _ hpos => sma_within hmem hpos) _
  case ema =>
    rw [hps]
    exact consistent_averages (by decide) (by decide) (fun _ hpos => ema_within hmem hpos) _
  case rsi =>
    apply forall_mem_guarded
    intro _
    have hrsi := hcfg.rsi
    rw [List.forall_mem_singleton, hps]
    refine consistent_rsi ?_ (rsi_within _ (by omega))
    rw [kind_periodKey (by decide)]
    decide
  case macd =>
    intro e he
    have hexact : e ∈ exactEntries lo hi _ := List.mem_cons_of_mem _ (List.mem_cons_of_mem _ he)
    rw [List.mem_cons, List.mem_cons, List.mem_singleton] at he
    rcases he with rfl | rfl | rfl
    · exact consistent_exact (by decide) hexact
    · exact consistent_exact (by decide) hexact
    · exact consistent_exact (by decide) hexact
  case bollinger =>
    apply forall_mem_guarded
    intro _
    rw [List.forall_mem_cons, List.forall_mem_singleton]
    exact ⟨consistent_other (by decide), consistent_other (by decide)⟩
  case momentum =>
    apply forall_mem_guarded
    intro _
    rw [List.forall_mem_cons, List.forall_mem_singleton]
    exact ⟨consistent_period (by decide) (by decide),
      consistent_period (by decide) (by decide)⟩
  case atr =>
    apply forall_mem_guarded
    intro _
    rw [List.forall_mem_singleton]
    exact consistent_period (by decide) (by decide)
  case volume =>
    rw [List.forall_mem_singleton]
    exact consistent_other (by decide)
  case volumeAvg =>
    apply forall_mem_guarded
    intro _
    rw [List.forall_mem_singleton]
    exact consistent_period (by decide) (by decide)
  case obv =>
    rw [List.forall_mem_singleton]
    exact consistent_other (by decide)
  case rank =>
    apply forall_mem_guarded
    intro _
    rw [List.forall_mem_singleton]
    exact consistent_other (by decide)

end

/-- The entries with a known value are among the results. -/
theorem exactEntries_subset {cfg : Config ExactDouble} {hist : List (TickEntry ExactDouble)}
    {lo hi : ℚ} (hlo : ofFirst Double.min (hist.map TickEntry.price) = .fin lo)
    (hhi : ofFirst Double.max (hist.map TickEntry.price) = .fin hi) :
    exactEntries lo hi (macd (hist.map TickEntry.price) cfg.taMACD_fast.toNat
      cfg.taMACD_slow.toNat cfg.taMACD_signal.toNat) ⊆ basePrices hist ++ indicators cfg hist := by
  rw [exactEntries, basePrices, indicators, hlo, hhi]
  simp [List.cons_subset]

/-- On a loaded configuration and at least two ticks: the MACD line is the difference of the two
averages and the histogram what the signal leaves of it, every defined average lies between the
lowest and the highest price, and the RSI between zero and a hundred. -/
theorem indicators_consistent (cfg : Config ExactDouble) (hcfg : Loaded cfg)
    (hist : List (TickEntry ExactDouble)) (hn : 2 ≤ hist.length) (ticks : List (ℚ × ℚ))
    (hticks : hist.map (fun e => (e.price, e.volume)) =
      ticks.map (fun t => (.fin t.1, .fin t.2)))
    (hvolume : ∀ t ∈ ticks, 0 ≤ t.2) :
    let prices := hist.map TickEntry.price
    let results := allAtomicValues cfg hist
    let line := sub (ema prices cfg.taMACD_fast.toNat) (ema prices cfg.taMACD_slow.toNat)
    (cfg.taMACD_slow ≤ hist.length → ∃ signal,
      ∀ v, (("macd_line", v) ∈ results ↔ v = line) ∧ (("macd_signal", v) ∈ results ↔ v = signal) ∧
        (("macd_histogram", v) ∈ results ↔ v = sub line signal)) ∧
    (∃ lo hi, (∀ v, (("lowPrice", v) ∈ results ↔ v = .fin lo) ∧
        (("highPrice", v) ∈ results ↔ v = .fin hi)) ∧
      ∀ name v, AverageName name → (name, v) ∈ results → v ≠ .nan → Within lo hi v) ∧
    ∀ v, (periodKey "rsi" cfg.taRSI, v) ∈ results → Within 0 100 v := by
  intro prices results line
  have hps := prices_fin hticks
  have hne : hist ≠ [] := by
    rintro rfl
    cases hn
  have hpsne := prices_ne hticks hne
  obtain ⟨lo, hi, hlo, hhi, hbounds⟩ := extremes_fin hpsne
  rw [← hps] at hlo hhi
  have hprice := List.forall_mem_map.mp hbounds
  have hresults : results = basePrices hist ++ indicators cfg hist := by
    have hempty : (hist.isEmpty || invalidConfig cfg) = false := by
      rw [hcfg.valid, List.isEmpty_eq_false_iff.mpr hne]
      rfl
    have hone : hist.length ≠ 1 := by omega
    exact (if_neg (by rw [hempty]; exact Bool.false_ne_true)).trans (if_neg hone)
  set lines := macd prices cfg.taMACD_fast.toNat cfg.taMACD_slow.toNat cfg.taMACD_signal.toNat
    with hlines
  have hall : ∀ e ∈ results, Consistent lo hi lines e := by
    rw [hresults, List.forall_mem_append]
    exact ⟨consistent_base hticks hprice hlo hhi hne lines,
      consistent_indicators hticks hprice hcfg hvolume⟩
  have hsub : exactEntries lo hi lines ⊆ results := hresults ▸ exactEntries_subset hlo hhi
  have hexact : ∀ name v, kind name ∈ exactKinds →
      ((name, v) ∈ results ↔ (name, v) ∈ exactEntries lo hi lines) :=
    fun name v hk => ⟨fun h => (hall _ h).exact hk, fun h => hsub h⟩
  refine ⟨fun hslow => ?_, ⟨lo, hi, fun v => ?_, fun name v hname h => ?_⟩, fun v h => ?_⟩
  · have hordered := hcfg.ordered
    have hlength : prices.length = hist.length := List.length_map _
    have htwo : 2 ≤ prices.length := by omega
    have hfast : cfg.taMACD_fast.toNat ≤ cfg.taMACD_slow.toNat := by omega
    have hslow' : cfg.taMACD_slow.toNat ≤ prices.length := by omega
    obtain ⟨signal, hmacd⟩ := macd_eq cfg.taMACD_signal.toNat htwo hfast hslow'
    refine ⟨signal, fun v => ?_⟩
    rw [hexact _ _ (by decide), hexact _ _ (by decide), hexact _ _ (by decide), hlines, hmacd]
    simp [exactEntries, line]
  · rw [hexact _ _ (by decide), hexact _ _ (by decide)]
    simp [exactEntries]
  · exact (hall _ h).average hname.kind_mem
  · apply (hall _ h).rsi
    rw [kind_periodKey (by decide)]
    decide

/-- Three ticks, with periods of one and two for the MACD. -/
theorem indicators_consistent_three_ticks :
    let cfg : Config ExactDouble :=
      { taMACD_fast := 1, taMACD_slow := 2, taBBands_stdK := .fin 2, taRSI := 2 }
    let hist : List (TickEntry ExactDouble) :=
      [⟨.fin 10, .fin 1, zero, zero, 0⟩, ⟨.fin 12, .fin 3, zero, zero, 0⟩,
        ⟨.fin 11, .fin 2, zero, zero, 0⟩]
    ("macd_line", .fin (-1 / 9)) ∈ allAtomicValues cfg hist ∧
      (∃ lo hi, ∀ v, ("vwap", v) ∈ allAtomicValues cfg hist → v ≠ .nan → Within lo hi v) ∧
      ∀ v, (periodKey "rsi" 2, v) ∈ allAtomicValues cfg hist → Within 0 100 v := by
  intro cfg hist
  have hcfg : Loaded cfg := ⟨by decide, by decide, by decide, by decide, by decide, by decide,
    by decide, by decide⟩
  obtain ⟨hmacd, ⟨lo, hi, -, haverage⟩, hrsi⟩ := indicators_consistent cfg hcfg hist (by decide)
    [(10, 1), (12, 3), (11, 2)] rfl (by decide)
  obtain ⟨signal, hlines⟩ := hmacd (by decide)
  have hline : (.fin (-1 / 9) : ExactDouble) = sub (ema (hist.map TickEntry.price) 1)
      (ema (hist.map TickEntry.price) 2) := by decide +kernel
  have hname : AverageName "vwap" := by
    right; right; left
    rfl
  exact ⟨(hlines _).1.mpr hline, ⟨lo, hi, fun v => haverage "vwap" v hname⟩, hrsi⟩

end GmaEngine.MarketTA
