import GmaEngine.MarketTA

/-!
# The keys of the tick computer

The names under which the computer writes its results: a fixed list, and a few names that are
followed by a period.
-/

namespace GmaEngine
namespace MarketTA

def plainNames : List String :=
  ["lastPrice", "openPrice", "highPrice", "lowPrice", "mean", "median", "prevClose", "vwap",
    "macd_line", "macd_signal", "macd_histogram", "bollinger_upper", "bollinger_lower", "volume",
    "obv", "volatility_rank"]

def periodNames : List String := ["sma", "ema", "rsi", "momentum", "roc", "atr", "volume_avg"]

def IsResultKey (key : String) : Prop :=
  key ∈ plainNames ∨ ∃ name ∈ periodNames, ∃ period, key = periodKey name period

theorem isResultKey_periodKey {name : String} (h : name ∈ periodNames) (period : ℤ) :
    IsResultKey (periodKey name period) := .inr ⟨name, h, period, rfl⟩

/-- Between the name and its period stands an underscore. -/
theorem underscore_mem_periodKey (name : String) (period : ℤ) :
    '_' ∈ (periodKey name period).toList := by
  simp [periodKey, String.toList_append]

/-- Every name in the list satisfies `P`. -/
def Names {α : Type} (P : String → Prop) (entries : List (String × α)) : Prop :=
  ∀ e ∈ entries, P e.1

section
variable {α β : Type} {P : String → Prop} {xs ys : List (String × α)}

@[simp] theorem names_nil : Names P ([] : List (String × α)) := by
  rintro e ⟨⟩

@[simp] theorem names_cons {key : String} {x : α} :
    Names P ((key, x) :: xs) ↔ P key ∧ Names P xs := List.forall_mem_cons

@[simp] theorem names_append : Names P (xs ++ ys) ↔ Names P xs ∧ Names P ys :=
  List.forall_mem_append

theorem Names.ite (h : Names P xs) (c : Prop) [Decidable c] :
    Names P (if c then xs else []) := by
  split_ifs
  · exact h
  · exact names_nil

theorem Names.map (h : Names P xs) (f : α → β) : Names P (xs.map (fun e => (e.1, f e.2))) := by
  intro e he
  obtain ⟨x, hx, rfl⟩ := List.mem_map.mp he
  exact h x hx

theorem Names.imp {Q : String → Prop} (h : Names P xs) (hPQ : ∀ key, P key → Q key) :
    Names Q xs := fun e he => hPQ e.1 (h e he)

theorem names_periods {name : String} (h : ∀ p, P (periodKey name p)) (periods : List ℤ)
    (f : ℤ → α) : Names P (periods.map (fun p => (periodKey name p, f p))) := by
  intro e he
  obtain ⟨p, -, rfl⟩ := List.mem_map.mp he
  exact h p

end

variable {D : Type} [DoubleMath D]

theorem names_basePrices (hist : List (TickEntry D)) : Names IsResultKey (basePrices hist) := by
  simp [basePrices, IsResultKey, plainNames]

/-- The names of the indicators without a period. -/
def indicatorNames : List String :=
  ["prevClose", "vwap", "macd_line", "macd_signal", "macd_histogram", "bollinger_upper",
    "bollinger_lower", "volume", "obv", "volatility_rank"]

theorem names_indicators {P : String → Prop} (hplain : ∀ key ∈ indicatorNames, P key)
    (hperiod : ∀ name ∈ periodNames, ∀ p, P (periodKey name p)) (cfg : Config D)
    (hist : List (TickEntry D)) : Names P (indicators cfg hist) := by
  simp only [indicatorNames, List.forall_mem_cons] at hplain
  simp only [indicators, names_append]
  refine ⟨⟨⟨⟨⟨⟨⟨⟨⟨⟨⟨?_, ?_⟩, ?_⟩, ?_⟩, ?_⟩, ?_⟩, ?_⟩, ?_⟩, ?_⟩, ?_⟩, ?_⟩, ?_⟩
  · simp [hplain]
  · exact names_periods (hperiod _ (by decide)) _ _
  · exact names_periods (hperiod _ (by decide)) _ _
  · exact Names.ite (names_cons.mpr ⟨hperiod _ (by decide) _, names_nil⟩) _
  · simp [hplain]
  · exact Names.ite (by simp [hplain]) _
  · refine Names.ite ?_ _
    simp only [names_cons, names_nil, and_true]
    exact ⟨hperiod _ (by decide) _, hperiod _ (by decide) _⟩
  · exact Names.ite (names_cons.mpr ⟨hperiod _ (by decide) _, names_nil⟩) _
  · simp [hplain]
  · exact Names.ite (names_cons.mpr ⟨hperiod _ (by decide) _, names_nil⟩) _
  · simp [hplain]
  · exact Names.ite (by simp [hplain]) _

theorem isResultKey_indicators (cfg : Config D) (hist : List (TickEntry D)) :
    Names IsResultKey (indicators cfg hist) := by
  refine names_indicators ?_ (fun name h p => isResultKey_periodKey h p) cfg hist
  have hplain : ∀ key ∈ indicatorNames, key ∈ plainNames := by decide
  exact fun key hkey => .inl (hplain key hkey)

/-- Both paths of the computer write under these names alone. -/
theorem names_taResults (c : MarketTickComputer D) (hist : List (TickEntry D)) (e : TickEntry D) :
    Names IsResultKey (c.taResults hist e) := by
  unfold MarketTickComputer.taResults allAtomicValues lightweightValues
  split_ifs
  · exact names_nil
  · exact names_basePrices hist
  · exact names_append.mpr ⟨names_basePrices hist, isResultKey_indicators c.cfg hist⟩
  · simp [IsResultKey, plainNames]
  · simp [IsResultKey, plainNames]

end MarketTA
end GmaEngine
