import GmaEngine.AggregateInputs
import GmaEngine.BuiltinFunctions
import GmaEngine.SynchronousPipes
import GmaEngine.WorkerWindows

/-!
# A Worker behind an Aggregate

The Aggregate forwards complete batches, but the Worker behind it does not see where one ends: its
window reaches back over the batches before, as far as 1000 values.
-/

namespace GmaEngine

open StreamMachines
variable {D : Type}

namespace Stage

theorem symbol_of_mem_outputs {arity : ℕ} {s : String} {svs : List (StreamValue D)}
    (h : ∀ sv ∈ svs, sv.symbol = s) (buf : SymbolMap D) :
    ∀ out ∈ outputs (aggregateStep arity) buf svs, out.symbol = s := by
  induction svs generalizing buf with
  | nil => simp
  | cons sv svs ih =>
    intro out hout
    rw [outputs_cons, List.mem_append] at hout
    rcases hout with hnow | hlater
    · rw [← h sv List.mem_cons_self]
      unfold aggregateStep at hnow
      split_ifs at hnow
      · cases hnow
      · dsimp only at hnow
        split_ifs at hnow
        · cases hnow
        · obtain ⟨v, -, rfl⟩ := List.mem_map.mp hnow
          rfl
    · exact ih (fun other hother => h other (List.mem_cons_of_mem _ hother)) _ out hlater

theorem getLast_windowOutputs (fn : List (ArgType D) → Option (ArgType D))
    {vals : List (ArgType D)} (h : vals ≠ []) :
    (windowOutputs fn vals).getLast? = some (fn (vals.rtake 1000)) := by
  obtain ⟨front, v, rfl⟩ := List.eq_nil_or_concat vals |>.resolve_left h
  rw [List.concat_eq_append, windowOutputs_concat, List.getLast?_concat]

/-- What the Worker puts out last, when all the values are of one symbol. -/
theorem last_output {fn : List (ArgType D) → Option (ArgType D)} {arity : ℕ} (harity : 0 < arity)
    (hfn : ∀ vals, vals ≠ [] → (fn vals).isSome = true) (s : String) {vals : List (ArgType D)}
    (hfull : forwarded arity vals.length = vals.length) (hne : vals ≠ []) :
    (outputs (workerStep fn) [] (outputs (aggregateStep arity) []
      (vals.map (fun v => ⟨s, v⟩)))).getLast?.map StreamValue.value = fn (vals.rtake 1000) := by
  have hsymbols : ∀ sv ∈ vals.map (fun v => (⟨s, v⟩ : StreamValue D)), sv.symbol = s := by
    intro sv hsv
    obtain ⟨v, -, rfl⟩ := List.mem_map.mp hsv
    rfl
  have hin : ∀ sv ∈ vals.map (fun v => (⟨s, v⟩ : StreamValue D)),
      sv.symbol ∈ ({s} : Finset String) :=
    fun sv hsv => Finset.mem_singleton.mpr (hsymbols sv hsv)
  have hcard : ({s} : Finset String).card ≤ 10000 := by
    rw [Finset.card_singleton]
    omega
  have hforwarded := (outputs_aggregateStep harity hcard hin).2 s
  rw [valuesOf_map, if_pos rfl, hfull, List.take_length] at hforwarded
  have hbatches : outputs (aggregateStep arity) [] (vals.map (fun v => ⟨s, v⟩)) =
      vals.map (fun v => ⟨s, v⟩) := by
    rw [eq_map_valuesOf (symbol_of_mem_outputs hsymbols []), hforwarded]
  obtain ⟨-, outs, htrace, hanswers⟩ := trace_workerStep hfn hcard hin
  have houtputs : outputs (workerStep fn) [] (vals.map (fun v => ⟨s, v⟩)) = outs := by
    rw [outputs, htrace, ← List.flatMap_def, List.flatMap_singleton']
  have houts : ∀ out ∈ outs, out.symbol = s := by
    intro out hout
    have hmem : out.symbol ∈ (vals.map (fun v => (⟨s, v⟩ : StreamValue D))).map
        StreamValue.symbol := by
      rw [← hanswers.symbols]
      exact List.mem_map_of_mem hout
    obtain ⟨sv, hsv, heq⟩ := List.mem_map.mp hmem
    rw [← heq, hsymbols sv hsv]
  have hlast := congrArg List.getLast? (hanswers.values s)
  rw [valuesOf_map, if_pos rfl, getLast_windowOutputs fn hne, List.getLast?_map, valuesOf,
    List.filter_eq_self.mpr (by simpa using houts), List.getLast?_map] at hlast
  rw [hbatches, houtputs]
  cases hget : outs.getLast?.map StreamValue.value with
  | none =>
    rw [hget] at hlast
    cases hlast
  | some v =>
    rw [hget] at hlast
    exact Option.some.inj hlast

end Stage

namespace Runtime
variable [Double D] (env : BuildEnv D) (store : String → String → Option (ArgType D))
  (live : NodeId → Bool)

/-- After its `k`-th batch the Worker has last put out the function of that batch exactly if the
function gives the same on the latest 1000 values of the first `k` batches. -/
theorem worker_per_batch_iff {rt : Runtime D} {a w d : NodeId} {n : ℕ}
    {fn : List (ArgType D) → Option (ArgType D)}
    (haggregate : rt.nodes[a]? = some (.aggregate n (some w) false []))
    (hworker : rt.nodes[w]? = some (.worker fn (some d) false [])) (hda : d ≠ a) (hdw : d ≠ w)
    (hn : 0 < n) (hfn : ∀ vals, vals ≠ [] → (fn vals).isSome = true) (s : String)
    (vals : List (ArgType D)) {k : ℕ} (hk : 0 < k) (hfits : k * n ≤ vals.length) :
    ∃ fuel rt' received,
      deliver env store live d fuel rt ((vals.take (k * n)).map (fun v => ⟨a, ⟨s, v⟩⟩)) =
        some (rt', received) ∧
      (received.getLast?.map StreamValue.value = fn (blockOf n (k - 1) vals) ↔
        fn ((vals.take (k * n)).rtake 1000) = fn (blockOf n (k - 1) vals)) := by
  have haw : a ≠ w := by
    rintro rfl
    rw [haggregate] at hworker
    cases hworker
  have hpipe : Pipe d rt [a, w] [(.aggregate n, []), (.worker fn, [])] :=
    ⟨haggregate, hworker, trivial⟩
  have hnodup : (d :: [a, w]).Nodup := by simp [hda, hdw, haw]
  obtain ⟨fuel, rt', hdeliver, -, -⟩ := deliver_pipe env store live d hpipe hnodup
    ((vals.take (k * n)).map (fun v => ⟨s, v⟩))
  have hlen : (vals.take (k * n)).length = k * n := by
    rw [List.length_take]
    omega
  have hpos : 0 < k * n := Nat.mul_pos hk hn
  have hfull : Stage.forwarded n (vals.take (k * n)).length = (vals.take (k * n)).length := by
    rw [hlen, Stage.forwarded, Nat.mul_div_cancel _ hn, Nat.mul_comm]
  have hne : vals.take (k * n) ≠ [] := List.ne_nil_of_length_pos (by omega)
  have hlast := Stage.last_output hn hfn s hfull hne
  have hcascade : (cascade (Stage.step store) [(.aggregate n, []), (.worker fn, [])]
      ((vals.take (k * n)).map (fun v => ⟨s, v⟩))).2 =
      outputs (Stage.workerStep fn) [] (outputs (Stage.aggregateStep n) []
        ((vals.take (k * n)).map (fun v => ⟨s, v⟩))) := rfl
  rw [List.map_map, hcascade] at hdeliver
  refine ⟨fuel, rt', _, hdeliver, ?_⟩
  rw [hlast]

end Runtime

namespace BatchedWorkers

/-- The function of a Worker with a registered reducer. -/
def workerFn [Double D] (reducer : Func D) (xs : List (ArgType D)) : Option (ArgType D) :=
  (reducer (xs.map TreeBuilder.toDouble)).map .double

def count : Func ExactDouble := fun v => some (BuiltinFunctions.size v)

theorem count_mem : ("count", count) ∈ (builtinFunctions ExactDouble).entries :=
  List.mem_map.mpr ⟨("count", BuiltinFunctions.size), by simp [BuiltinFunctions.all], rfl⟩

def largest : Func ExactDouble := fun v => some (BuiltinFunctions.ofFirst Double.max v)

/-- An Aggregate of arity 2, a Worker with the function `max` behind it, and the terminal. -/
def pairwise : Runtime ExactDouble :=
  { nodes := [.aggregate 2 (some 1) false [], .worker (workerFn largest) (some 2) false [],
      .responder (.int 1) false] }

/-- The largest value is in the last of three batches. -/
def rising : List (ArgType ExactDouble) := [.int 5, .int 2, .int 6, .int 1, .int 3, .int 7, .int 4]

theorem worker_per_batch_rising :
    ∃ fuel rt' received,
      Runtime.deliver TreeBuilder.fullEnv (fun _ _ => none) (fun _ => true) 2 fuel pairwise
        ((rising.take 6).map (fun v => ⟨0, ⟨"AAPL", v⟩⟩)) = some (rt', received) ∧
      received.getLast?.map StreamValue.value = workerFn largest [.int 3, .int 7] := by
  have haggregate : pairwise.nodes[0]? = some (.aggregate 2 (some 1) false []) := rfl
  obtain ⟨fuel, rt', received, hdeliver, hiff⟩ := Runtime.worker_per_batch_iff TreeBuilder.fullEnv
    (fun _ _ => none) (fun _ => true) haggregate rfl (by decide) (by decide) Nat.two_pos
    (fun _ _ => rfl) "AAPL" rising (Nat.succ_pos 2) (by decide)
  exact ⟨fuel, rt', received, hdeliver, hiff.mpr rfl⟩

/-- An Aggregate of arity 1, the Worker behind it, and the terminal. -/
def singles : Runtime ExactDouble :=
  { nodes := [.aggregate 1 (some 1) false [], .worker (workerFn count) (some 2) false [],
      .responder (.int 1) false] }

theorem worker_counts_past_batch :
    ¬ ∀ entry ∈ (builtinFunctions ExactDouble).entries, ∀ (rt : Runtime ExactDouble) (n : ℕ),
      rt.nodes[0]? = some (.aggregate n (some 1) false []) →
      rt.nodes[1]? = some (.worker (workerFn entry.2) (some 2) false []) → 0 < n →
      ∀ (vals : List (ArgType ExactDouble)) (k : ℕ), 0 < k → k * n ≤ vals.length →
        ∃ fuel rt' received,
          Runtime.deliver TreeBuilder.fullEnv (fun _ _ => none) (fun _ => true) 2 fuel rt
            ((vals.take (k * n)).map (fun v => ⟨0, ⟨"AAPL", v⟩⟩)) = some (rt', received) ∧
          received.getLast?.map StreamValue.value = workerFn entry.2 (blockOf n (k - 1) vals) := by
  intro hall
  obtain ⟨fuel, rt', received, hdeliver, hlast⟩ := hall _ count_mem singles 1 rfl rfl Nat.one_pos
    [.int 1, .int 2] 2 Nat.two_pos le_rfl
  have hrun : (Runtime.deliver TreeBuilder.fullEnv (fun _ _ => none) (fun _ => true) 2 6 singles
      [⟨0, ⟨"AAPL", .int 1⟩⟩, ⟨0, ⟨"AAPL", .int 2⟩⟩]).map
        (fun out => out.2.getLast?.map StreamValue.value) =
      some (workerFn count [.int 1, .int 2]) := by
    rfl
  obtain ⟨out, hout, hvalue⟩ := Option.map_eq_some_iff.mp hrun
  have hmore := Runtime.deliver_mono _ _ _ _ hdeliver 6
  have hsame := Runtime.deliver_mono _ _ _ _ hout fuel
  rw [Nat.add_comm] at hsame
  obtain rfl : received = out.2 := congrArg Prod.snd (Option.some.inj (hmore.symm.trans hsame))
  rw [hvalue] at hlast
  change some (ArgType.double (ExactDouble.fin ((2 : ℕ) : ℚ))) =
    some (ArgType.double (ExactDouble.fin ((1 : ℕ) : ℚ))) at hlast
  simp at hlast

end BatchedWorkers
end GmaEngine
