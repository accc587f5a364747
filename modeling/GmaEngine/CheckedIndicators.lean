import GmaEngine.CheckedLoops
import GmaEngine.MarketTA

/-!
# Indicators with checked indices

`computeAllAtomicValues` with its loops over indices, its differences of sizes and its divisors as
the source has them, each checked. Whatever the history and the configuration, no check fails, and
the values are those of the suite.
-/

namespace GmaEngine.MarketTA
open Double DoubleMath BuiltinFunctions CheckedLoops
variable {D : Type} [DoubleMath D]

/-- An `int` converted to `size_t`. -/
def toSize (n : ℤ) : ℕ := if 0 ≤ n then n.toNat else (2 ^ 64 + n).toNat

def divCount (x : D) (n : ℕ) : Checked D := do
  let n ← divisor n
  return div x (ofRat n)

def priceAt (hist : List (TickEntry D)) (i : ℕ) : Checked D := do
  let e ← get hist i
  return e.price

/-- `hist.back()`. -/
def back (hist : List (TickEntry D)) : Checked (TickEntry D) := do
  let i ← minus hist.length 1
  get hist i

def checkedEmaOverSeries (series : List D) (period : ℕ) : Checked D :=
  if series.length < period ∨ period = 0 then return quietNaN
  else do
    let k ← divCount (ofRat 2) (period + 1)
    let start ← minus series.length period
    let val ← get series start
    forRange (start + 1) series.length
      (fun val i => do let x ← get series i; return smooth k val x) val

/-- The smaller half in front of the middle is not empty where its maximum is taken. -/
def checkedMedian (prices : List D) : Checked D :=
  let vals := sorted prices
  if prices.length = 0 then return quietNaN
  else do
    let upper ← get vals (vals.length / 2)
    if vals.length % 2 = 1 then return upper
    else do
      let first ← get (vals.take (vals.length / 2)) 0
      let lower := (vals.take (vals.length / 2)).tail.foldl Double.max first
      return mul (add lower upper) half

def checkedSma (hist : List (TickEntry D)) (period : ℕ) : Checked D :=
  if hist.length < period then return quietNaN
  else do
    let lo ← minus hist.length period
    let s ← forRange lo hist.length (fun s i => do let p ← priceAt hist i; return add s p) zero
    divCount s period

def checkedEma (hist : List (TickEntry D)) (period : ℕ) : Checked D :=
  if hist.length < period then return quietNaN
  else do
    let k ← divCount (ofRat 2) (period + 1)
    let val ← priceAt hist 0
    forRange 1 hist.length (fun val i => do let p ← priceAt hist i; return smooth k val p) val

def checkedRsi (hist : List (TickEntry D)) (period : ℕ) : Checked D := do
  let lo ← minus hist.length period
  let (gain, loss) ← forRange lo hist.length
    (fun acc i => do
      let p ← priceAt hist i
      let j ← minus i 1
      let q ← priceAt hist j
      let d := sub p q
      return if gt d zero then (add acc.1 d, acc.2) else (acc.1, add acc.2 (neg d)))
    (zero, zero)
  let avgGain ← divCount gain period
  let avgLoss ← divCount loss period
  let rs := div avgGain (if gt avgLoss epsilon then avgLoss else epsilon)
  return sub (ofRat 100) (div (ofRat 100) (add one rs))

def checkedMacd (hist : List (TickEntry D)) (fast slow signal : ℕ) : Checked (D × D × D) :=
  if slow ≤ hist.length then do
    let kFast ← divCount (ofRat 2) (fast + 1)
    let kSlow ← divCount (ofRat 2) (slow + 1)
    let first ← priceAt hist 0
    -- the capacity that is reserved
    let _ ← minus hist.length slow
    let (_, _, series) ← forRange 1 hist.length
      (fun acc i => do
        let p ← priceAt hist i
        let emaFast := smooth kFast acc.1 p
        let emaSlow := smooth kSlow acc.2.1 p
        let from_ ← minus slow 1
        return (emaFast, emaSlow,
          if from_ ≤ i then acc.2.2 ++ [sub emaFast emaSlow] else acc.2.2))
      (first, first, [])
    match series.getLast? with
    | some line => do
      let sig ← checkedEmaOverSeries series signal
      return (line, sig, sub line sig)
    | none => return (zero, zero, zero)
  else do
    let emaFast ← checkedEma hist fast
    let emaSlow ← checkedEma hist slow
    return (sub emaFast emaSlow, zero, zero)

def checkedStddev (hist : List (TickEntry D)) (mean : D) (period : ℕ) : Checked D :=
  if period ≤ hist.length then do
    let lo ← minus hist.length period
    let sumSq ← forRange lo hist.length
      (fun acc i => do
        let p ← priceAt hist i
        return add acc (mul (sub p mean) (sub p mean)))
      zero
    let variance ← divCount sumSq period
    return sqrt variance
  else return zero

def checkedAtr (hist : List (TickEntry D)) (period : ℕ) : Checked D := do
  let lo ← minus hist.length period
  let s ← forRange lo hist.length
    (fun acc i => do
      let p ← priceAt hist i
      let j ← minus i 1
      let q ← priceAt hist j
      return add acc (fabs (sub p q)))
    zero
  divCount s period

def checkedVolumeAvg (hist : List (TickEntry D)) (period : ℕ) : Checked D := do
  let lo ← minus hist.length period
  let s ← forRange lo hist.length
    (fun acc i => do let e ← get hist i; return add acc e.volume) zero
  divCount s period

def checkedObv (hist : List (TickEntry D)) : Checked D :=
  forRange 1 hist.length
    (fun acc i => do
      let e ← get hist i
      let j ← minus i 1
      let before ← get hist j
      return add acc (if gt e.price before.price then e.volume
        else if lt e.price before.price then neg e.volume else zero))
    zero

/-- The price `period` ticks before the last one. -/
def checkedPrevious (hist : List (TickEntry D)) (period : ℕ) : Checked D := do
  let i ← minus hist.length period
  let i ← minus i 1
  priceAt hist i

def checkedBase (hist : List (TickEntry D)) : Checked (List (String × D)) := do
  let prices := hist.map TickEntry.price
  let first ← priceAt hist 0
  let last ← back hist
  let mean ← divCount (sum prices) hist.length
  let median ← checkedMedian prices
  return [("lastPrice", last.price), ("openPrice", first),
    ("highPrice", ofFirst Double.max prices), ("lowPrice", ofFirst Double.min prices),
    ("mean", mean), ("median", median)]

/-- Entries that are added under a guard. -/
def whenChecked (guard : Prop) [Decidable guard] (entries : Checked (List (String × D))) :
    Checked (List (String × D)) :=
  if guard then entries else return []

def checkedIndicators (cfg : Config D) (hist : List (TickEntry D)) :
    Checked (List (String × D)) := do
  let n := hist.length
  let prices := hist.map TickEntry.price
  let last ← back hist
  let mean ← divCount (sum prices) n
  let i ← minus n 2
  let prev ← priceAt hist i
  let bbandsN := toSize cfg.taBBands_n
  let smaBB ← checkedSma hist bbandsN
  let smas ← (cfg.taSMA.filter (0 < ·)).mapM (fun p => do
    let v ← checkedSma hist (toSize p)
    return (periodKey "sma" p, v))
  let emas ← (cfg.taEMA.filter (0 < ·)).mapM (fun p => do
    let v ← checkedEma hist (toSize p)
    return (periodKey "ema" p, v))
  let rsiEntries ← whenChecked (toSize cfg.taRSI + 1 ≤ n) (do
    let v ← checkedRsi hist (toSize cfg.taRSI)
    return [(periodKey "rsi" cfg.taRSI, v)])
  let lines ← checkedMacd hist (toSize cfg.taMACD_fast) (toSize cfg.taMACD_slow)
    (toSize cfg.taMACD_signal)
  let stddev ← checkedStddev hist smaBB bbandsN
  let momP := toSize cfg.taMomentum
  let momentumEntries ← whenChecked (momP + 1 ≤ n) (do
    let prevM ← checkedPrevious hist momP
    return [(periodKey "momentum" cfg.taMomentum, sub last.price prevM),
      (periodKey "roc" cfg.taMomentum, roc last.price prevM)])
  let atrEntries ← whenChecked (toSize cfg.taATR + 1 ≤ n) (do
    let v ← checkedAtr hist (toSize cfg.taATR)
    return [(periodKey "atr" cfg.taATR, v)])
  let volumeEntries ← whenChecked (toSize cfg.taVolAvg ≤ n) (do
    let v ← checkedVolumeAvg hist (toSize cfg.taVolAvg)
    return [(periodKey "volume_avg" cfg.taVolAvg, v)])
  let obv ← checkedObv hist
  return [("prevClose", prev), ("vwap", vwap hist)] ++ smas ++ emas ++ rsiEntries ++
    [("macd_line", lines.1), ("macd_signal", lines.2.1), ("macd_histogram", lines.2.2)] ++
    (if bbandsN ≤ n then
      [("bollinger_upper", add smaBB (mul cfg.taBBands_stdK stddev)),
        ("bollinger_lower", sub smaBB (mul cfg.taBBands_stdK stddev))] else []) ++
    momentumEntries ++ atrEntries ++ [("volume", last.volume)] ++ volumeEntries ++ [("obv", obv)] ++
    (if !eq mean zero && decide (bbandsN ≤ n) then
      [("volatility_rank", Double.min (div stddev (fabs mean)) one)] else [])

def checkedAtomicValues (cfg : Config D) (hist : List (TickEntry D)) :
    Checked (List (String × D)) :=
  if hist.length = 0 ∨ invalidConfig cfg then return []
  else do
    let base ← checkedBase hist
    if hist.length = 1 then return base
    else do
      let rest ← checkedIndicators cfg hist
      return base ++ rest

theorem toSize_of_nonneg {n : ℤ} (h : 0 ≤ n) : toSize n = n.toNat := if_pos h

theorem divCount_eq_ok (x : D) {n : ℕ} (h : n ≠ 0) : divCount x n = .ok (div x (ofRat n)) := by
  rw [divCount, divisor_eq_ok h]
  rfl

theorem divCount_succ (period : ℕ) :
    divCount (ofRat 2 : D) (period + 1) = .ok (emaFactor period) := by
  rw [divCount_eq_ok _ (Nat.succ_ne_zero period), Nat.cast_succ]
  rfl

omit [DoubleMath D] in
/-- Reading a price is reading the vector of prices. -/
theorem priceAt_eq (hist : List (TickEntry D)) (i : ℕ) :
    priceAt hist i = get (hist.map TickEntry.price) i := by
  rw [priceAt, get_map]
  cases get hist i <;> rfl

omit [DoubleMath D] in
theorem back_eq_ok {hist : List (TickEntry D)} {e : TickEntry D} (h : hist.getLast? = some e) :
    back hist = .ok e := by
  have hne : hist ≠ [] := by
    rintro rfl
    cases h
  have hpos := List.length_pos_iff.mpr hne
  rw [back, minus_eq_ok (by omega), ok_bind]
  rw [List.getLast?_eq_getElem?] at h
  exact get_eq_ok h

theorem checkedEmaOverSeries_eq (series : List D) (period : ℕ) :
    checkedEmaOverSeries series period = .ok (emaOverSeries series period) := by
  rw [checkedEmaOverSeries, emaOverSeries]
  by_cases hlen : series.length < period
  · rw [if_pos (.inl hlen), if_pos hlen]
    rfl
  by_cases h0 : period = 0
  · have hnil : lastN period series = [] := by
      rw [lastN, h0, Nat.sub_zero, List.drop_length]
    rw [if_pos (.inr h0), if_neg hlen, hnil]
    rfl
  rw [if_neg (not_or.mpr ⟨hlen, h0⟩), if_neg hlen]
  have hstart : series.length - period < series.length := by omega
  have hlast : lastN period series = series[series.length - period] ::
      series.drop (series.length - period + 1) := List.drop_eq_getElem_cons hstart
  rw [hlast, divCount_succ, ok_bind, minus_eq_ok (not_lt.mp hlen), ok_bind,
    get_eq_ok (List.getElem?_eq_getElem hstart), ok_bind]
  exact forRange_drop _ _ hstart (smooth (emaFactor period)) _

theorem checkedSma_eq (hist : List (TickEntry D)) {period : ℕ} (hp : 0 < period) :
    checkedSma hist period = .ok (sma (hist.map TickEntry.price) period) := by
  rw [checkedSma, sma, List.length_map]
  by_cases hlen : hist.length < period
  · rw [if_pos hlen, if_pos hlen]
    rfl
  rw [if_neg hlen, if_neg hlen, minus_eq_ok (not_lt.mp hlen), ok_bind]
  have hloop := forRange_drop (hist.map TickEntry.price) (hist.length - period)
    (by rw [List.length_map]; omega) add (zero : D)
  rw [List.length_map] at hloop
  simp only [priceAt_eq]
  rw [hloop, ok_bind, divCount_eq_ok _ hp.ne', lastN, List.length_map, sum]

theorem checkedEma_eq {hist : List (TickEntry D)} (hne : hist ≠ []) (period : ℕ) :
    checkedEma hist period = .ok (ema (hist.map TickEntry.price) period) := by
  cases hist with
  | nil => exact absurd rfl hne
  | cons e hist =>
    have hema : ema ((e :: hist).map TickEntry.price) period =
        if (e :: hist).length < period then quietNaN
        else (hist.map TickEntry.price).foldl (smooth (emaFactor period)) e.price := by
      simp only [ema, List.map_cons, List.length_cons, List.length_map]
    rw [checkedEma, hema]
    by_cases hlen : (e :: hist).length < period
    · rw [if_pos hlen, if_pos hlen]
      rfl
    have hloop := forRange_drop ((e :: hist).map TickEntry.price) 1 (by simp)
      (smooth (emaFactor period)) e.price
    rw [List.length_map] at hloop
    have hfirst : get ((e :: hist).map TickEntry.price) 0 = .ok e.price := rfl
    simp only [priceAt_eq]
    rw [if_neg hlen, if_neg hlen, divCount_succ, ok_bind, hfirst, ok_bind]
    exact hloop

theorem checkedMedian_eq (prices : List D) :
    checkedMedian prices = .ok (computeMedian prices) := by
  have hlen : (sorted prices).length = prices.length := List.length_insertionSort _ _
  rw [checkedMedian, computeMedian]
  dsimp only
  by_cases h0 : prices.length = 0
  · have hnone : (sorted prices)[(sorted prices).length / 2]? = none := by
      rw [List.getElem?_eq_none_iff]
      omega
    rw [if_pos h0, hnone]
    rfl
  have hmid : (sorted prices).length / 2 < (sorted prices).length := by omega
  rw [if_neg h0, List.getElem?_eq_getElem hmid, get_eq_ok (List.getElem?_eq_getElem hmid), ok_bind]
  dsimp only
  by_cases hodd : (sorted prices).length % 2 = 1
  · rw [if_pos hodd, if_pos hodd]
    rfl
  · rw [if_neg hodd, if_neg hodd]
    -- an even number that is not zero leaves something in front of its middle
    cases hfront : (sorted prices).take ((sorted prices).length / 2) with
    | nil =>
      rw [List.take_eq_nil_iff] at hfront
      rcases hfront with hzero | hnil
      · omega
      · rw [hnil, List.length_nil] at hmid
        omega
    | cons first rest => rfl

section
variable {hist : List (TickEntry D)} {period : ℕ}

omit [DoubleMath D] in
/-- The loops over the last `period` price changes. -/
theorem forRange_changes {σ : Type} (hp : 0 < period) (hlen : period + 1 ≤ hist.length)
    (f : σ → D × D → σ) (init : σ) :
    forRange (hist.length - period) hist.length
      (fun s i => do
        let p ← priceAt hist i
        let j ← minus i 1
        let q ← priceAt hist j
        return f s (q, p)) init =
      .ok ((changes (hist.map TickEntry.price) period).foldl f init) := by
  have hloop := forRange_pairs (hist.map TickEntry.price) (hist.length - period - 1)
    (by rw [List.length_map]; omega) f init
  have hfrom : hist.length - period - 1 + 1 = hist.length - period := by omega
  have hzip : ((hist.map TickEntry.price).zip (hist.map TickEntry.price).tail).length - period =
      hist.length - period - 1 := by
    rw [List.length_zip, List.length_tail, List.length_map]
    omega
  rw [hfrom, List.length_map] at hloop
  simp only [priceAt_eq]
  rw [hloop, changes, lastN, hzip]

theorem checkedRsi_eq (hp : 0 < period) (hlen : period + 1 ≤ hist.length) :
    checkedRsi hist period = .ok (rsi (hist.map TickEntry.price) period) := by
  have hloop := forRange_changes hp hlen
    (fun acc (c : D × D) => if gt (sub c.2 c.1) zero then (add acc.1 (sub c.2 c.1), acc.2)
      else (acc.1, add acc.2 (neg (sub c.2 c.1)))) ((zero, zero) : D × D)
  rw [checkedRsi, minus_eq_ok (by omega), ok_bind]
  rw [hloop, ok_bind]
  dsimp only
  rw [divCount_eq_ok _ hp.ne', ok_bind, divCount_eq_ok _ hp.ne', ok_bind]
  rfl

theorem checkedAtr_eq (hp : 0 < period) (hlen : period + 1 ≤ hist.length) :
    checkedAtr hist period = .ok (atr (hist.map TickEntry.price) period) := by
  have hloop := forRange_changes hp hlen
    (fun acc (c : D × D) => add acc (fabs (sub c.2 c.1))) (zero : D)
  rw [checkedAtr, minus_eq_ok (by omega), ok_bind, hloop, ok_bind, divCount_eq_ok _ hp.ne']
  rfl

theorem checkedStddev_eq (hp : 0 < period) :
    checkedStddev hist (sma (hist.map TickEntry.price) period) period =
      .ok (if period ≤ hist.length then stddevBB (hist.map TickEntry.price) period else zero) := by
  rw [checkedStddev]
  by_cases hlen : period ≤ hist.length
  · have hloop := forRange_drop (hist.map TickEntry.price) (hist.length - period)
      (by rw [List.length_map]; omega)
      (fun acc p => add acc (mul (sub p (sma (hist.map TickEntry.price) period))
        (sub p (sma (hist.map TickEntry.price) period)))) (zero : D)
    rw [List.length_map] at hloop
    simp only [priceAt_eq]
    rw [if_pos hlen, if_pos hlen, minus_eq_ok hlen, ok_bind, hloop, ok_bind,
      divCount_eq_ok _ hp.ne', stddevBB, lastN, List.length_map]
    rfl
  · rw [if_neg hlen, if_neg hlen]
    rfl

theorem checkedVolumeAvg_eq (hp : 0 < period) (hlen : period ≤ hist.length) :
    checkedVolumeAvg hist period =
      .ok (div (sum (lastN period (hist.map TickEntry.volume))) (ofRat period)) := by
  have hloop := forRange_drop hist (hist.length - period) (by omega)
    (fun acc e => add acc e.volume) (zero : D)
  rw [checkedVolumeAvg, minus_eq_ok hlen, ok_bind, hloop, ok_bind, divCount_eq_ok _ hp.ne', sum,
    lastN, List.length_map, ← List.map_drop, List.foldl_map]

theorem checkedObv_eq (hne : hist ≠ []) : checkedObv hist = .ok (obv hist) := by
  have hpos := List.length_pos_iff.mpr hne
  exact forRange_pairs hist 0 hpos
    (fun acc (c : TickEntry D × TickEntry D) => add acc
      (if gt c.2.price c.1.price then c.2.volume
        else if lt c.2.price c.1.price then neg c.2.volume else zero)) zero

theorem checkedPrevious_eq (hlen : period + 1 ≤ hist.length) :
    checkedPrevious hist period =
      .ok ((hist.map TickEntry.price)[hist.length - period - 1]?.getD zero) := by
  have hi : hist.length - period - 1 < (hist.map TickEntry.price).length := by
    rw [List.length_map]
    omega
  rw [checkedPrevious, minus_eq_ok (by omega), ok_bind, minus_eq_ok (by omega), ok_bind, priceAt_eq,
    get_eq_ok (List.getElem?_eq_getElem hi), List.getElem?_eq_getElem hi, Option.getD_some]

end

theorem checkedMacd_eq {hist : List (TickEntry D)} (hne : hist ≠ []) (fast signal : ℕ) {slow : ℕ}
    (hslow : 0 < slow) :
    checkedMacd hist fast slow signal =
      .ok (macd (hist.map TickEntry.price) fast slow signal) := by
  rw [checkedMacd, macd, List.length_map]
  by_cases hlen : slow ≤ hist.length
  · rw [if_pos hlen, if_pos hlen]
    cases hist with
    | nil => exact absurd rfl hne
    | cons e hist =>
      have hfirst : priceAt (e :: hist) 0 = .ok e.price := rfl
      have hloop : forRange 1 (e :: hist).length (fun (acc : D × D × List D) i => do
          let p ← priceAt (e :: hist) i
          let emaFast := smooth (emaFactor fast) acc.1 p
          let emaSlow := smooth (emaFactor slow) acc.2.1 p
          let from_ ← minus slow 1
          return (emaFast, emaSlow,
            if from_ ≤ i then acc.2.2 ++ [sub emaFast emaSlow] else acc.2.2))
          (e.price, e.price, []) = .ok (((hist.map TickEntry.price).zipIdx 1).foldl
            (macdStep fast slow) (e.price, e.price, [])) := by
        apply forRange_eq_ok
        · rw [List.length_zipIdx, List.length_map, List.length_cons, Nat.add_comm]
        · rintro acc j ⟨p, i⟩ hp
          rw [List.getElem?_zipIdx] at hp
          obtain ⟨p', hp', hpair⟩ := Option.map_eq_some_iff.mp hp
          obtain ⟨rfl, rfl⟩ := Prod.mk.inj hpair
          have hread : priceAt (e :: hist) (1 + j) = .ok p' := by
            rw [priceAt_eq, Nat.add_comm]
            exact get_eq_ok hp'
          rw [hread, ok_bind, minus_eq_ok hslow]
          rfl
      rw [divCount_succ, ok_bind, divCount_succ, ok_bind, hfirst, ok_bind, minus_eq_ok hlen,
        ok_bind, hloop, ok_bind, List.map_cons, macdSeries_cons]
      dsimp only
      generalize (((hist.map TickEntry.price).zipIdx 1).foldl _ (e.price, e.price, [])).2.2 = series
      cases series.getLast? with
      | none => rfl
      | some line =>
        dsimp only
        rw [checkedEmaOverSeries_eq]
        rfl
  · rw [if_neg hlen, if_neg hlen, checkedEma_eq hne, ok_bind, checkedEma_eq hne]
    rfl

theorem checkedBase_eq {hist : List (TickEntry D)} (hne : hist ≠ []) :
    checkedBase hist = .ok (basePrices hist) := by
  obtain ⟨last, hlast⟩ : ∃ e, hist.getLast? = some e := ⟨_, List.getLast?_eq_some_getLast hne⟩
  have hlen : hist.length ≠ 0 := fun h => hne (List.length_eq_zero_iff.mp h)
  cases hist with
  | nil => exact absurd rfl hne
  | cons e hist =>
    have hfirst : priceAt (e :: hist) 0 = .ok e.price := rfl
    rw [checkedBase, basePrices]
    rw [hfirst, ok_bind, back_eq_ok hlast, ok_bind, divCount_eq_ok _ hlen, ok_bind, checkedMedian_eq,
      ok_bind, List.getLast?_map, hlast, List.length_map]
    rfl

omit [DoubleMath D] in
theorem whenChecked_eq_ok (guard : Prop) [Decidable guard]
    (entries : Checked (List (String × D))) {xs : List (String × D)}
    (h : guard → entries = .ok xs) :
    whenChecked guard entries = .ok (if guard then xs else []) := by
  rw [whenChecked]
  by_cases hg : guard
  · rw [if_pos hg, if_pos hg, h hg]
  · rw [if_neg hg, if_neg hg]
    rfl

theorem toSize_of_pos {p : ℤ} (hp : 0 < p) : toSize p = p.toNat ∧ 0 < p.toNat :=
  ⟨toSize_of_nonneg hp.le, by omega⟩

omit [DoubleMath D] in
/-- An average over each of the listed periods. -/
theorem checkedAverages_eq (name : String) {check : ℕ → Checked D} {f : ℕ → D}
    (h : ∀ period, 0 < period → check period = .ok (f period)) (periods : List ℤ) :
    (periods.filter (0 < ·)).mapM (fun p => do
        let v ← check (toSize p)
        return (periodKey name p, v)) =
      .ok ((periods.filter (0 < ·)).map (fun p => (periodKey name p, f p.toNat))) := by
  apply mapM_eq_ok
  intro p hp
  obtain ⟨hsize, hpos⟩ := toSize_of_pos (of_decide_eq_true (List.mem_filter.mp hp).2)
  rw [hsize, h _ hpos]
  rfl

theorem checkedIndicators_eq {cfg : Config D} (hcfg : invalidConfig cfg = false)
    {hist : List (TickEntry D)} (hlen : 2 ≤ hist.length) :
    checkedIndicators cfg hist = .ok (indicators cfg hist) := by
  have hne : hist ≠ [] := by
    rintro rfl
    cases hlen
  obtain ⟨last, hlast⟩ : ∃ e, hist.getLast? = some e := ⟨_, List.getLast?_eq_some_getLast hne⟩
  rw [invalidConfig, decide_eq_false_iff_not] at hcfg
  simp only [not_or, not_le] at hcfg
  obtain ⟨hbb, hrsi, hfast, hslow, hsig, hmom, hatr, hvol⟩ := hcfg
  have hprev : priceAt hist (hist.length - 2) =
      .ok ((hist.map TickEntry.price)[hist.length - 2]?.getD zero) := by
    have hi : hist.length - 2 < (hist.map TickEntry.price).length := by
      rw [List.length_map]
      omega
    rw [priceAt_eq, get_eq_ok (List.getElem?_eq_getElem hi), List.getElem?_eq_getElem hi,
      Option.getD_some]
  have hsmas := checkedAverages_eq "sma" (fun _ hp => checkedSma_eq hist hp) cfg.taSMA
  have hemas := checkedAverages_eq "ema" (fun p _ => checkedEma_eq hne p) cfg.taEMA
  have hrsiEntries := whenChecked_eq_ok (cfg.taRSI.toNat + 1 ≤ hist.length)
    (do
      let v ← checkedRsi hist cfg.taRSI.toNat
      return [(periodKey "rsi" cfg.taRSI, v)])
    (fun h => by rw [checkedRsi_eq (toSize_of_pos hrsi).2 h, ok_bind]; rfl)
  have hmomEntries := whenChecked_eq_ok (cfg.taMomentum.toNat + 1 ≤ hist.length)
    (do
      let prevM ← checkedPrevious hist cfg.taMomentum.toNat
      return [(periodKey "momentum" cfg.taMomentum, sub last.price prevM),
        (periodKey "roc" cfg.taMomentum, roc last.price prevM)])
    (fun h => by rw [checkedPrevious_eq h, ok_bind]; rfl)
  have hatrEntries := whenChecked_eq_ok (cfg.taATR.toNat + 1 ≤ hist.length)
    (do
      let v ← checkedAtr hist cfg.taATR.toNat
      return [(periodKey "atr" cfg.taATR, v)])
    (fun h => by rw [checkedAtr_eq (toSize_of_pos hatr).2 h, ok_bind]; rfl)
  have hvolEntries := whenChecked_eq_ok (cfg.taVolAvg.toNat ≤ hist.length)
    (do
      let v ← checkedVolumeAvg hist cfg.taVolAvg.toNat
      return [(periodKey "volume_avg" cfg.taVolAvg, v)])
    (fun h => by rw [checkedVolumeAvg_eq (toSize_of_pos hvol).2 h, ok_bind]; rfl)
  rw [checkedIndicators]
  simp only [(toSize_of_pos hbb).1, (toSize_of_pos hrsi).1, (toSize_of_pos hfast).1, (toSize_of_pos hslow).1, (toSize_of_pos hsig).1,
    (toSize_of_pos hmom).1, (toSize_of_pos hatr).1, (toSize_of_pos hvol).1]
  rw [back_eq_ok hlast, ok_bind, divCount_eq_ok _ (by omega), ok_bind, minus_eq_ok hlen, ok_bind,
    hprev, ok_bind, checkedSma_eq hist (toSize_of_pos hbb).2, ok_bind, hsmas, ok_bind, hemas, ok_bind,
    hrsiEntries, ok_bind, checkedMacd_eq hne _ _ (toSize_of_pos hslow).2, ok_bind,
    checkedStddev_eq (toSize_of_pos hbb).2, ok_bind,
    hmomEntries, ok_bind, hatrEntries, ok_bind, hvolEntries, ok_bind, checkedObv_eq hne, ok_bind,
    indicators]
  simp only [List.length_map, List.getLast?_map, hlast, Option.map_some, Option.getD_some, pure_eq_ok]
  by_cases h : cfg.taBBands_n.toNat ≤ hist.length
  · simp only [if_pos h]
  · simp only [if_neg h, decide_eq_false h, Bool.and_false, Bool.false_eq_true, if_false]

/-- For every history and every configuration the suite runs through without a failed check and
yields its values, and so does the average over any series and period. -/
theorem indices_in_bounds :
    (∀ (cfg : Config D) (hist : List (TickEntry D)),
      checkedAtomicValues cfg hist = .ok (allAtomicValues cfg hist)) ∧
    ∀ (series : List D) (period : ℕ),
      checkedEmaOverSeries series period = .ok (emaOverSeries series period) := by
  refine ⟨?_, checkedEmaOverSeries_eq⟩
  intro cfg hist
  rw [checkedAtomicValues, allAtomicValues]
  by_cases hempty : hist = []
  · subst hempty
    rfl
  have hlen : hist.length ≠ 0 := fun h => hempty (List.length_eq_zero_iff.mp h)
  cases hcfg : invalidConfig cfg with
  | true =>
    rw [if_pos (.inr rfl), Bool.or_true]
    rfl
  | false =>
    have hisEmpty : hist.isEmpty = false := List.isEmpty_eq_false_iff.mpr hempty
    rw [if_neg (by simp [hlen]), hisEmpty, checkedBase_eq hempty, ok_bind]
    by_cases hone : hist.length = 1
    · rw [if_pos hone, if_neg (by decide), if_pos hone]
      rfl
    · rw [if_neg hone, if_neg (by decide), if_neg hone, checkedIndicators_eq hcfg (by omega), ok_bind]
      rfl

end GmaEngine.MarketTA
