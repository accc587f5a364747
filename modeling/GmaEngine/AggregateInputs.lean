import GmaEngine.AggregateBatches
import GmaEngine.SpecReadings

/-!
# Inputs of an Aggregate

An Aggregate is built in front of its downstream and behind its inputs. Its arity is the number of
values of a symbol that it collects; which of the inputs a value comes from it does not know.
-/

namespace GmaEngine

section Blocks
variable {α β : Type} {n k : ℕ} {xs : List α}

/-- The items from the `k * n`-th on, `n` of them. -/
def blockOf (n k : ℕ) (xs : List α) : List α := (xs.drop (k * n)).take n

theorem blockOf_map (f : α → β) : blockOf n k (xs.map f) = (blockOf n k xs).map f := by
  rw [blockOf, blockOf, List.map_take, List.map_drop]

theorem mul_succ_le_of_lt_div {m : ℕ} (h : k < m / n) : k * n + n ≤ m := by
  have hmul := Nat.div_mul_le_self m n
  have hle := Nat.mul_le_mul_right n (Nat.succ_le_of_lt h)
  rw [Nat.succ_mul] at hle
  omega

theorem length_blockOf (h : k < xs.length / n) : (blockOf n k xs).length = n := by
  have hfits := mul_succ_le_of_lt_div h
  rw [blockOf, List.length_take, List.length_drop]
  omega

/-- The blocks of the complete part are those of the list. -/
theorem blockOf_take (h : k < xs.length / n) :
    blockOf n k (xs.take (n * (xs.length / n))) = blockOf n k xs := by
  have hfits : k * n + n ≤ n * (xs.length / n) := by
    have hle := Nat.mul_le_mul_right n (Nat.succ_le_of_lt h)
    rw [Nat.succ_mul, Nat.mul_comm (xs.length / n)] at hle
    omega
  rw [blockOf, blockOf, List.drop_take, List.take_take]
  congr 1
  omega

/-- A list as long as there are numbers has each of them once, unless it repeats one. -/
theorem count_eq_one_iff_nodup {l : List (Fin n)} (hlen : l.length = n) :
    (∀ i, l.count i = 1) ↔ l.Nodup := by
  constructor
  · intro hcount
    exact List.nodup_iff_count_le_one.mpr (fun i => (hcount i).le)
  · intro hnodup i
    have hcard : l.toFinset.card = Fintype.card (Fin n) := by
      rw [List.toFinset_card_of_nodup hnodup, hlen, Fintype.card_fin]
    have hall := (Finset.card_eq_iff_eq_univ _).mp hcard
    have hmem : i ∈ l := List.mem_toFinset.mp (hall ▸ Finset.mem_univ i)
    exact List.count_eq_one_of_mem hnodup hmem

end Blocks

/-- The `k`-th batch received is made of the values that arrived at its places, one from each
input. -/
def OneFromEach {D : Type} {n : ℕ} (k : ℕ) (received : List (ArgType D))
    (arrivals : List (Fin n × StreamValue D)) : Prop :=
  blockOf n k received = (blockOf n k arrivals).map (fun e => e.2.value) ∧
    ∀ input, ((blockOf n k arrivals).map Prod.fst).count input = 1

namespace TreeBuilder
open EffectPlans StreamMachines
variable {D : Type} [Double D]

theorem blueprint_aggregate {env : BuildEnv D} {spec : Json D} {key : String} {arity : ℕ}
    {inputs : List (Json D)} {bp : Blueprint D} (htype : nodeType spec = .ok .aggregate)
    (harity : aggregateArity spec = .ok arity)
    (hinputs : spec.member "inputs" = some (.array inputs))
    (h : blueprint env spec key = .ok bp) :
    ∃ bps, blueprints env inputs key = .ok bps ∧ bp = .aggregate arity bps := by
  rw [blueprint] at h
  obtain ⟨t, ht, h⟩ := bind_eq_ok h
  obtain rfl := Except.ok.inj (htype.symm.trans ht)
  obtain ⟨arity', harity', h⟩ := bind_eq_ok h
  obtain rfl := Except.ok.inj (harity.symm.trans harity')
  split at h
  · next inputs' hinputs' =>
    obtain rfl : inputs = inputs' := by
      rw [hinputs] at hinputs'
      cases hinputs'
      rfl
    obtain ⟨bps, hbps, h⟩ := bind_eq_ok h
    obtain ⟨_, -, h⟩ := bind_eq_ok h
    cases h
    exact ⟨bps, hbps, rfl⟩
  · cases h

omit [Double D] in
theorem pos_of_aggregateArity {spec : Json D} {arity : ℕ} (h : aggregateArity spec = .ok arity) :
    0 < arity := by
  obtain ⟨_, hpos, h⟩ := bind_eq_ok h
  obtain rfl := Except.ok.inj h
  rw [TreeBuilder.require] at hpos
  by_contra hzero
  rw [if_neg (by simpa using hzero)] at hpos
  cases hpos

/-- The values of a symbol leave an Aggregate in the order in which they came, as many at a time as
it has inputs; such a batch has one value from each input exactly if no input occurs twice among
those that the values came from. -/
theorem aggregate_batches_by_arrival (env : BuildEnv D) {spec : Json D} {key : String}
    {inputs : List (Json D)} {parent root : NodeId} {rt rt' : Runtime D}
    (htype : nodeType spec = .ok .aggregate)
    (hinputs : spec.member "inputs" = some (.array inputs))
    (harity : aggregateArity spec = .ok inputs.length)
    (hbuild : outcome (buildOne env spec key (some parent)) rt = (.ok root, rt')) :
    ∃ bps, blueprints env inputs key = .ok bps ∧
      rt' = rt.install
        ((Blueprint.aggregate inputs.length bps).layout (some parent) rt.nodes.length).nodes ∧
      ∀ (store : String → String → Option (ArgType D)) (live : NodeId → Bool)
        (emitted : List (Fin inputs.length × StreamValue D)),
        (emitted.map (fun e => e.2.symbol)).toFinset.card ≤ 10000 →
        ∃ received : List (List (StreamValue D)),
          outputs (Runtime.callOn env store live rt.nodes.length) rt' (emitted.map Prod.snd) =
            received.map (fun outs => { calls := outs.map (fun out => ⟨parent, out⟩) }) ∧
          ∀ symbol,
            let arrivals := emitted.filter (fun e => e.2.symbol = symbol)
            (valuesOf symbol received.flatten).length =
                inputs.length * (arrivals.length / inputs.length) ∧
              ∀ k < arrivals.length / inputs.length,
                blockOf inputs.length k (valuesOf symbol received.flatten) =
                  (blockOf inputs.length k arrivals).map (fun e => e.2.value) ∧
                (OneFromEach k (valuesOf symbol received.flatten) arrivals ↔
                  ((blockOf inputs.length k arrivals).map Prod.fst).Nodup) := by
  obtain ⟨bp, hbp, -, hrt⟩ := buildOne_ok_iff.mp hbuild
  obtain ⟨bps, hbps, rfl⟩ := blueprint_aggregate htype harity hinputs hbp
  refine ⟨bps, hbps, hrt, ?_⟩
  intro store live emitted hcard
  have hnode : rt'.nodes[rt.nodes.length]? =
      some ((Stage.aggregate inputs.length).node (some parent) []) := by
    rw [hrt, Runtime.nodes_install, List.getElem?_append_right le_rfl, Nat.sub_self]
    rfl
  have hpos := pos_of_aggregateArity harity
  have hsymbols : ∀ sv ∈ emitted.map Prod.snd,
      sv.symbol ∈ (emitted.map (fun e => e.2.symbol)).toFinset := by
    intro sv hsv
    obtain ⟨e, he, rfl⟩ := List.mem_map.mp hsv
    exact List.mem_toFinset.mpr (List.mem_map_of_mem he)
  obtain ⟨-, hvalues⟩ := Stage.outputs_aggregateStep hpos hcard hsymbols
  refine ⟨trace ((Stage.aggregate inputs.length).step store) [] (emitted.map Prod.snd), ?_, ?_⟩
  · rw [(Runtime.callOn_stage env store live _ hnode _).2]
    simp only [Runtime.handOn_some]
  · intro symbol arrivals
    have harrivals :
        valuesOf symbol (emitted.map Prod.snd) = arrivals.map (fun e => e.2.value) := by
      rw [valuesOf, List.filter_map, List.map_map]
      rfl
    have hreceived : valuesOf symbol (trace ((Stage.aggregate inputs.length).step store) []
        (emitted.map Prod.snd)).flatten = (arrivals.map (fun e => e.2.value)).take
          (inputs.length * ((arrivals.map (fun e => e.2.value)).length / inputs.length)) := by
      rw [← harrivals]
      exact hvalues symbol
    rw [hreceived]
    constructor
    · have hle := Nat.mul_div_le arrivals.length inputs.length
      rw [List.length_take, List.length_map]
      omega
    · intro k hk
      have hlen : ((blockOf inputs.length k arrivals).map Prod.fst).length = inputs.length := by
        rw [List.length_map, length_blockOf hk]
      have hblock : blockOf inputs.length k ((arrivals.map (fun e => e.2.value)).take
          (inputs.length * ((arrivals.map (fun e => e.2.value)).length / inputs.length))) =
          (blockOf inputs.length k arrivals).map (fun e => e.2.value) := by
        rw [blockOf_take (by rwa [List.length_map]), blockOf_map]
      rw [OneFromEach, count_eq_one_iff_nodup hlen]
      exact ⟨hblock, fun h => h.2, fun h => ⟨hblock, h⟩⟩

/-- The inputs of an Aggregate that listens to two fields. -/
def bidAndAsk : List (Json ExactDouble) :=
  [.object [("type", .string "Listener"), ("field", .string "bid")],
    .object [("type", .string "Listener"), ("field", .string "ask")]]

def ofTwoInputs : Json ExactDouble :=
  .object [("type", .string "Aggregate"), ("arity", .uint 2), ("inputs", .array bidAndAsk)]

/-- What the build of the specification returns and leaves. -/
def twoInputsBuilt : Except String NodeId × Runtime ExactDouble :=
  outcome (buildOne fullEnv ofTwoInputs "AAPL" (some 0)) terminalOnly

theorem twoInputsBuilt_fst : twoInputsBuilt.1 = .ok 4 := by decide +kernel

theorem aggregate_batches_by_arrival_two :
    ∃ received : List (List (StreamValue ExactDouble)),
      outputs (Runtime.callOn fullEnv (fun _ _ => none) (fun _ => true) 1) twoInputsBuilt.2
        [⟨"AAPL", .double (.fin 7)⟩, ⟨"AAPL", .double (.fin 8)⟩] =
        received.map (fun outs => { calls := outs.map (fun out => ⟨0, out⟩) }) ∧
      OneFromEach 0 (valuesOf "AAPL" received.flatten)
        [((0 : Fin 2), ⟨"AAPL", .double (.fin 7)⟩), ((1 : Fin 2), ⟨"AAPL", .double (.fin 8)⟩)] := by
  have hinputs : ofTwoInputs.member "inputs" = some (.array bidAndAsk) := rfl
  have hbuild : outcome (buildOne fullEnv ofTwoInputs "AAPL" (some 0)) terminalOnly =
      (.ok 4, twoInputsBuilt.2) := Prod.ext twoInputsBuilt_fst rfl
  obtain ⟨bps, -, -, hall⟩ := aggregate_batches_by_arrival fullEnv rfl hinputs rfl hbuild
  obtain ⟨received, hcalls, hsymbols⟩ := hall (fun _ _ => none) (fun _ => true)
    [((0 : Fin 2), ⟨"AAPL", .double (.fin 7)⟩), ((1 : Fin 2), ⟨"AAPL", .double (.fin 8)⟩)]
    ((List.toFinset_card_le _).trans (by simp))
  have hbatch := ((hsymbols "AAPL").2 0 (by decide)).2
  exact ⟨received, hcalls, hbatch.mpr (by decide)⟩

/-- An input that is ahead of the other fills a batch alone. -/
theorem aggregate_batch_of_one_input :
    ¬ ∀ (spec : Json ExactDouble) (inputs : List (Json ExactDouble)) (root : NodeId)
      (rt' : Runtime ExactDouble), nodeType spec = .ok .aggregate →
      spec.member "inputs" = some (.array inputs) → aggregateArity spec = .ok inputs.length →
      outcome (buildOne fullEnv spec "AAPL" (some 0)) terminalOnly = (.ok root, rt') →
      ∀ emitted : List (Fin inputs.length × StreamValue ExactDouble),
        (emitted.map (fun e => e.2.symbol)).toFinset.card ≤ 10000 →
        ∃ received : List (List (StreamValue ExactDouble)),
          outputs (Runtime.callOn fullEnv (fun _ _ => none) (fun _ => true) 1) rt'
            (emitted.map Prod.snd) =
            received.map (fun outs => { calls := outs.map (fun out => ⟨0, out⟩) }) ∧
          ∀ symbol, ∀ k < (emitted.filter (fun e => e.2.symbol = symbol)).length / inputs.length,
            OneFromEach k (valuesOf symbol received.flatten)
              (emitted.filter (fun e => e.2.symbol = symbol)) := by
  intro hall
  have hinputs : ofTwoInputs.member "inputs" = some (.array bidAndAsk) := rfl
  have hbuild : outcome (buildOne fullEnv ofTwoInputs "AAPL" (some 0)) terminalOnly =
      (.ok 4, twoInputsBuilt.2) := Prod.ext twoInputsBuilt_fst rfl
  obtain ⟨received, -, hbatches⟩ := hall ofTwoInputs bidAndAsk 4 _ rfl hinputs rfl hbuild
    [((0 : Fin 2), ⟨"AAPL", .double (.fin 7)⟩), ((0 : Fin 2), ⟨"AAPL", .double (.fin 8)⟩)]
    ((List.toFinset_card_le _).trans (by simp))
  have hcount := (hbatches "AAPL" 0 (by decide)).2 (0 : Fin 2)
  exact absurd hcount (by decide)

end TreeBuilder
end GmaEngine
