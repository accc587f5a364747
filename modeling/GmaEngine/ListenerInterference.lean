import GmaEngine.DispatcherHistory

/-!
# What listeners learn of each other

Two runs over the same ticks, where the second has more listeners, on further fields. A
function's result is stored under the symbol and the function's name alone, so a tick that
carries one of the further fields can show in what the first listeners see. Other ticks do
not.
-/

namespace GmaEngine
namespace Dispatcher
variable {D : Type}

def withListeners (d : Dispatcher D) (more : String → FieldListeners) : Dispatcher D :=
  { d with listeners := more }

/-- The listeners of the first run are those of the second on the fields of the first. -/
def Extends (d : Dispatcher D) (more : String → FieldListeners) : Prop :=
  ∀ symbol, (d.listeners symbol).entries.Sublist (more symbol).entries

/-- The fields of the tick's symbol that have listeners in the first run. -/
def common (d : Dispatcher D) (tick : Event D) (x : Delivery D) : Bool :=
  (d.listeners tick.symbol).fields.contains x.field

theorem Extends.of_listeners {d d' : Dispatcher D} {more : String → FieldListeners}
    (h : d.Extends more) (hsame : d'.listeners = d.listeners) : d'.Extends more := by
  intro symbol
  rw [hsame]
  exact h symbol

theorem common_of_listeners {d d' : Dispatcher D} (hsame : d'.listeners = d.listeners)
    (tick : Event D) : d'.common tick = d.common tick := by
  funext x
  simp only [common, hsame]

section Sublists
variable {entries more : List (String × List NodeId)}

theorem flatMap_eq_of_sublist {β : Type} (g : String × List NodeId → List β)
    (h : entries.Sublist more) (hnodup : (more.map Prod.fst).Nodup)
    (hg : ∀ entry ∈ more, entry.1 ∉ entries.map Prod.fst → g entry = []) :
    more.flatMap g = entries.flatMap g := by
  induction h with
  | slnil => rfl
  | @cons es ms entry hsub ih =>
    obtain ⟨hhead, htail⟩ := List.nodup_cons.mp hnodup
    have hnotin : entry.1 ∉ es.map Prod.fst := fun hin => hhead ((hsub.map Prod.fst).subset hin)
    rw [List.flatMap_cons, hg entry List.mem_cons_self hnotin, List.nil_append]
    exact ih htail (fun e he => hg e (List.mem_cons_of_mem _ he))
  | @cons_cons es ms entry hsub ih =>
    obtain ⟨hhead, htail⟩ := List.nodup_cons.mp hnodup
    rw [List.flatMap_cons, List.flatMap_cons, ih htail]
    intro e he hnotin
    apply hg e (List.mem_cons_of_mem _ he)
    rw [List.map_cons, List.mem_cons, not_or]
    refine ⟨?_, hnotin⟩
    intro heq
    exact hhead (heq ▸ List.mem_map_of_mem he)

theorem lookupKey_eq_of_sublist {field : String} (h : entries.Sublist more)
    (hnodup : (more.map Prod.fst).Nodup) (hfield : field ∈ entries.map Prod.fst) :
    lookupKey more field = lookupKey entries field := by
  obtain ⟨entry, hentry, rfl⟩ := List.mem_map.mp hfield
  rw [(lookupKey_eq_some_iff hnodup).mpr (h.subset hentry),
    (lookupKey_eq_some_iff (hnodup.sublist (h.map Prod.fst))).mpr hentry]

theorem lookupKey_eq_none_of_notMem {field : String} (h : field ∉ entries.map Prod.fst) :
    lookupKey entries field = none := by
  apply lookupKey_eq_none_iff.mpr
  intro entry hentry heq
  exact h (heq ▸ List.mem_map_of_mem hentry)

end Sublists

section Tick
variable {d : Dispatcher D} {more : String → FieldListeners}

/-- Of the posts under a key the first listeners see the same ones. -/
theorem notifyListeners_withListeners (h : d.Extends more) (tick : Event D) (field : String)
    (value : D) :
    ((d.withListeners more).notifyListeners tick.symbol field value).filter (d.common tick) =
      d.notifyListeners tick.symbol field value := by
  have hfield : ∀ nodes : List NodeId, (nodes.map (fun node => (⟨field, node,
      ⟨tick.symbol, .double value⟩⟩ : Delivery D))).filter (d.common tick) =
      if field ∈ (d.listeners tick.symbol).fields then nodes.map (fun node => (⟨field, node,
        ⟨tick.symbol, .double value⟩⟩ : Delivery D)) else [] := by
    intro nodes
    split_ifs with hin
    · rw [List.filter_eq_self]
      intro x hx
      obtain ⟨node, -, rfl⟩ := List.mem_map.mp hx
      simpa [common] using hin
    · rw [List.filter_eq_nil_iff]
      intro x hx
      obtain ⟨node, -, rfl⟩ := List.mem_map.mp hx
      simpa [common] using hin
  rw [notifyListeners, hfield]
  split_ifs with hin
  · rw [notifyListeners, FieldListeners.on, FieldListeners.on]
    change (((lookupKey (more tick.symbol).entries field).getD []).map _) = _
    rw [lookupKey_eq_of_sublist (h tick.symbol) (more tick.symbol).nodup_fields hin]
  · rw [notifyListeners, FieldListeners.on, lookupKey_eq_none_of_notMem hin]
    rfl

theorem flatMap_notifyListeners_withListeners (h : d.Extends more) (tick : Event D)
    (results : List (String × D)) :
    (results.flatMap (fun r =>
        (d.withListeners more).notifyListeners tick.symbol r.1 r.2)).filter (d.common tick) =
      results.flatMap (fun r => d.notifyListeners tick.symbol r.1 r.2) := by
  rw [List.filter_flatMap]
  simp only [notifyListeners_withListeners h]

section Double
variable [Double D] {tick : Event D}

theorem notify_withListeners (h : d.Extends more) {pair : String × NodeId}
    (hpair : pair.1 ∈ (d.listeners tick.symbol).fields) :
    (notify tick (d.withListeners more) pair).1 = (notify tick d pair).1.withListeners more ∧
      (notify tick (d.withListeners more) pair).2.filter (d.common tick) =
        (notify tick d pair).2 := by
  have hsame : (d.withListeners more).refuses tick.symbol pair.1 = d.refuses tick.symbol pair.1 :=
    rfl
  rcases notify_cases tick d pair with ⟨hskip, heq⟩ | ⟨raw, hist, hraw, hrefuses, hhist, heq⟩
  · have hskip' : notify tick (d.withListeners more) pair = (d.withListeners more, []) := by
      rcases notify_cases tick (d.withListeners more) pair with ⟨-, heq'⟩ | ⟨raw, -, hraw, hr, -⟩
      · exact heq'
      · rw [hsame] at hr
        simp [hraw, hr] at hskip
    rw [heq, hskip']
    exact ⟨rfl, rfl⟩
  · rcases notify_cases tick (d.withListeners more) pair with ⟨hskip, -⟩ |
      ⟨raw', hist', hraw', -, hhist', heq'⟩
    · rw [hsame, hraw, hrefuses] at hskip
      simp at hskip
    · cases hraw.symm.trans hraw'
      obtain rfl : hist' = hist := hhist'.trans hhist.symm
      rw [heq, heq']
      refine ⟨rfl, ?_⟩
      have hlast : d.common tick ⟨pair.1, pair.2, ⟨tick.symbol, .double raw⟩⟩ = true := by
        simpa [common] using hpair
      have hresults := flatMap_notifyListeners_withListeners h tick (d.results hist')
      rw [List.filter_append, List.filter_cons_of_pos hlast, List.filter_nil]
      exact congrArg (· ++ _) hresults

theorem notifyAll_withListeners {pairs : List (String × NodeId)} {d : Dispatcher D}
    (h : d.Extends more) (hpairs : ∀ pair ∈ pairs, pair.1 ∈ (d.listeners tick.symbol).fields) :
    (notifyAll tick (d.withListeners more) pairs).1 =
        (notifyAll tick d pairs).1.withListeners more ∧
      (notifyAll tick (d.withListeners more) pairs).2.filter (d.common tick) =
        (notifyAll tick d pairs).2 := by
  induction pairs generalizing d with
  | nil => exact ⟨rfl, rfl⟩
  | cons pair pairs ih =>
    obtain ⟨hstate, hposts⟩ := notify_withListeners h (hpairs pair List.mem_cons_self)
    have hlisteners := (sameSetup_notify tick d pair).listeners
    obtain ⟨hstate', hposts'⟩ := ih (h.of_listeners hlisteners) (fun p hp => by
      rw [hlisteners]
      exact hpairs p (List.mem_cons_of_mem _ hp))
    rw [common_of_listeners hlisteners] at hposts'
    simp only [notifyAll]
    rw [hstate, hstate', List.filter_append, hposts, hposts']
    exact ⟨rfl, rfl⟩

/-- Listeners on fields that hold no number are passed over. -/
theorem notifyAll_filter (pairs : List (String × NodeId)) (d : Dispatcher D) :
    notifyAll tick d (pairs.filter (fun pair => (tick.number pair.1).isSome)) =
      notifyAll tick d pairs := by
  induction pairs generalizing d with
  | nil => rfl
  | cons pair pairs ih =>
    cases hnum : tick.number pair.1 with
    | none =>
      have hskip : notify tick d pair = (d, []) := by simp only [notify, hnum]
      rw [List.filter_cons_of_neg (by simp [hnum]), ih]
      simp [notifyAll, hskip]
    | some raw =>
      rw [List.filter_cons_of_pos (by simp [hnum])]
      simp only [notifyAll, ih]

/-- The tick carries no number under a field that only the second run listens to. -/
def CarriesNoFurther (d : Dispatcher D) (more : String → FieldListeners) (tick : Event D) : Prop :=
  ∀ field ∈ (more tick.symbol).fields, field ∉ (d.listeners tick.symbol).fields →
    tick.number field = none

theorem CarriesNoFurther.of_listeners {d' : Dispatcher D} (h : d.CarriesNoFurther more tick)
    (hsame : d'.listeners = d.listeners) : d'.CarriesNoFurther more tick := by
  intro field hfield hnotin
  rw [hsame] at hnotin
  exact h field hfield hnotin

theorem toNotify_withListeners (h : d.Extends more) (htick : d.CarriesNoFurther more tick) :
    ((d.withListeners more).toNotify tick).filter (fun pair => (tick.number pair.1).isSome) =
      (d.toNotify tick).filter (fun pair => (tick.number pair.1).isSome) := by
  simp only [toNotify, List.filter_flatMap]
  apply flatMap_eq_of_sublist _ (h tick.symbol) (more tick.symbol).nodup_fields
  intro entry hentry hnotin
  have hnone := htick entry.1 (List.mem_map_of_mem hentry) hnotin
  rw [List.filter_eq_nil_iff]
  intro pair hpair
  split_ifs at hpair
  · obtain ⟨node, -, rfl⟩ := List.mem_map.mp hpair
    simp [hnone]
  · cases hpair

end Double

section Math
variable [DoubleMath D] {tick : Event D}

theorem compute_withListeners (h : d.Extends more) (tick : Event D) :
    ((d.withListeners more).compute tick).1 = (d.compute tick).1.withListeners more ∧
      ((d.withListeners more).compute tick).2.filter (d.common tick) = (d.compute tick).2 := by
  unfold compute
  split_ifs
  · exact ⟨rfl, flatMap_notifyListeners_withListeners h tick _⟩
  · exact ⟨rfl, rfl⟩
  · exact ⟨rfl, rfl⟩

/-- A tick without further fields is the same for the first listeners in both runs. -/
theorem onTick_withListeners (h : d.Extends more) (htick : d.CarriesNoFurther more tick) :
    ((d.withListeners more).onTick tick).1 = (d.onTick tick).1.withListeners more ∧
      ((d.withListeners more).onTick tick).2.filter (d.common tick) = (d.onTick tick).2 := by
  cases hempty : tick.symbol.isEmpty with
  | true =>
    have hignored : ∀ e : Dispatcher D, e.onTick tick = (e, []) := fun e => by simp [onTick, hempty]
    rw [hignored, hignored]
    exact ⟨rfl, rfl⟩
  | false =>
    obtain ⟨hstate, hposts⟩ := compute_withListeners h tick
    have hlisteners := (sameSetup_compute d tick).listeners
    have hext := h.of_listeners hlisteners
    have hpairs : ∀ pair ∈ (d.compute tick).1.toNotify tick,
        pair.1 ∈ ((d.compute tick).1.listeners tick.symbol).fields :=
      fun pair hpair => mem_toNotify hpair
    obtain ⟨hstate', hposts'⟩ := notifyAll_withListeners hext hpairs
    -- both loops come down to the listeners on fields with a number
    have hloop : notifyAll tick ((d.compute tick).1.withListeners more)
        (((d.compute tick).1.withListeners more).toNotify tick) =
        notifyAll tick ((d.compute tick).1.withListeners more) ((d.compute tick).1.toNotify tick) := by
      rw [← notifyAll_filter, toNotify_withListeners hext (htick.of_listeners hlisteners),
        notifyAll_filter]
    rw [common_of_listeners hlisteners] at hposts'
    simp only [onTick, hempty, Bool.false_eq_true, if_false]
    rw [hstate, hloop, hstate', List.filter_append, hposts, hposts']
    exact ⟨rfl, rfl⟩

/-- The state after some ticks. -/
def afterTicks (d : Dispatcher D) (ticks : List (Event D)) : Dispatcher D :=
  d.after (ticks.map DispatcherOp.onTick)

theorem afterTicks_snoc (d : Dispatcher D) (ticks : List (Event D)) (tick : Event D) :
    d.afterTicks (ticks ++ [tick]) = ((d.afterTicks ticks).onTick tick).1 := by
  simp [afterTicks, exec]

theorem listeners_afterTicks (d : Dispatcher D) (ticks : List (Event D)) :
    (d.afterTicks ticks).listeners = d.listeners := by
  induction ticks using List.reverseRecOn with
  | nil => rfl
  | append_singleton ticks tick ih =>
    rw [afterTicks_snoc, (sameSetup_onTick _ tick).listeners, ih]

theorem afterTicks_withListeners {ticks : List (Event D)} (h : d.Extends more)
    (hticks : ∀ tick ∈ ticks, d.CarriesNoFurther more tick) :
    (d.withListeners more).afterTicks ticks = (d.afterTicks ticks).withListeners more := by
  induction ticks using List.reverseRecOn with
  | nil => rfl
  | append_singleton ticks tick ih =>
    have hlisteners := listeners_afterTicks d ticks
    have hstep := onTick_withListeners (h.of_listeners hlisteners)
      ((hticks tick (by simp)).of_listeners hlisteners)
    rw [afterTicks_snoc, afterTicks_snoc,
      ih (fun t ht => hticks t (List.mem_append_left _ ht)), hstep.1]

/-- In a run in which no tick carries a number under a field that only the second set of
listeners has, the store and what the first listeners are sent are the same after every tick
with either set. -/
theorem listeners_noninterference {ticks : List (Event D)} (h : d.Extends more)
    (hticks : ∀ tick ∈ ticks, d.CarriesNoFurther more tick) {pre : List (Event D)}
    {tick : Event D} (hpre : pre ++ [tick] <+: ticks) :
    ((d.withListeners more).afterTicks (pre ++ [tick])).store =
        (d.afterTicks (pre ++ [tick])).store ∧
      (((d.withListeners more).afterTicks pre).onTick tick).2.filter (d.common tick) =
        ((d.afterTicks pre).onTick tick).2 := by
  have hmem : ∀ t ∈ pre ++ [tick], t ∈ ticks := fun t ht => hpre.subset ht
  have hlisteners := listeners_afterTicks d pre
  have hstep := onTick_withListeners (h.of_listeners hlisteners)
    ((hticks tick (hmem tick (by simp))).of_listeners hlisteners)
  constructor
  · rw [afterTicks_withListeners h (fun t ht => hticks t (hmem t ht))]
    rfl
  · rw [afterTicks_withListeners h (fun t ht => hticks t (hmem t (List.mem_append_left _ ht))),
      ← common_of_listeners hlisteners]
    exact hstep.2

end Math
end Tick

/-- The listener on AAPL's price and another one on its volume. -/
def priceAndVolume : String → FieldListeners :=
  (onePrice.registerListener "AAPL" "volume" 1).listeners

theorem extends_priceAndVolume : onePrice.Extends priceAndVolume := by
  intro symbol
  simp only [onePrice, priceAndVolume, registerListener, setListeners, Function.update_apply]
  split_ifs with h
  · decide +kernel
  · exact List.Sublist.refl _

theorem noninterference_priceTick :
    ((onePrice.withListeners priceAndVolume).afterTicks ([] ++ [priceTick 42 (by decide)])).store =
        (onePrice.afterTicks ([] ++ [priceTick 42 (by decide)])).store ∧
      (((onePrice.withListeners priceAndVolume).afterTicks []).onTick
          (priceTick 42 (by decide))).2.filter (onePrice.common (priceTick 42 (by decide))) =
        ((onePrice.afterTicks []).onTick (priceTick 42 (by decide))).2 := by
  refine listeners_noninterference extends_priceAndVolume ?_
    (List.prefix_refl ([] ++ [priceTick 42 (by decide)]))
  intro tick htick
  obtain rfl := List.mem_singleton.mp htick
  have hnone : ∀ field ∈ (priceAndVolume "AAPL").fields, field ∉ (onePrice.listeners "AAPL").fields →
      ((priceTick 42 (by decide)).number field).isNone := by decide +kernel
  intro field hfield hnotin
  exact Option.isNone_iff_eq_none.mp (hnone field hfield hnotin)

/-- A tick with a volume: the stored mean of AAPL is the price with one set of listeners and
the volume with the other. -/
theorem volume_listener_changes_mean :
    let tick : Event ExactDouble :=
      { symbol := "AAPL"
        payload := .object [("price", .int ⟨42, by decide, by decide⟩),
          ("volume", .int ⟨100, by decide, by decide⟩)] }
    onePrice.Extends priceAndVolume ∧
      ((onePrice.afterTicks [tick]).store.get "AAPL" "mean").map TreeBuilder.toDouble =
        some (.fin 42) ∧
      (((onePrice.withListeners priceAndVolume).afterTicks [tick]).store.get "AAPL" "mean").map
        TreeBuilder.toDouble = some (.fin 100) :=
  ⟨extends_priceAndVolume, by decide +kernel, by decide +kernel⟩

end Dispatcher
end GmaEngine
