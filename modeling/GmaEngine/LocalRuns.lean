import Mathlib.Data.List.Basic
import Mathlib.Data.List.Induction
import Mathlib.Data.Set.List

/-!
# Runs of local operations

A system with a part for every key. An operation reads and changes the part of one key, or it
does the same to every part. What a run makes of a part, the operations about that part make of
it alone, whatever else runs in between. Where operations are local in the states with an
invariant only, the system is the one of these states. A field that entries write has the value
of the last one.
-/

namespace GmaEngine.LocalRuns

variable {σ ω ε κ ν : Type}

/-- A computation that reads and changes the part of one key and reports events of that key. -/
structure LocalTo (view : σ → κ → ν) (owner : ε → κ) (k : κ) (f : σ → σ × List ε) : Prop where
  elsewhere : ∀ s j, j ≠ k → view (f s).1 j = view s j
  here : ∀ s t, view s k = view t k → view (f s).1 k = view (f t).1 k ∧ (f s).2 = (f t).2
  owned : ∀ s, ∀ e ∈ (f s).2, owner e = k

/-- A computation that does the same to every part and reports nothing. -/
structure Uniform (view : σ → κ → ν) (f : σ → σ × List ε) : Prop where
  parts : ∀ s t k, view s k = view t k → view (f s).1 k = view (f t).1 k
  silent : ∀ s, (f s).2 = []

section
variable {view : σ → κ → ν} {owner : ε → κ} {k : κ} {f g : σ → σ × List ε}

theorem LocalTo.skip : LocalTo view owner k (fun s => (s, [])) where
  elsewhere _ _ _ := rfl
  here _ _ h := ⟨h, rfl⟩
  owned _ _ he := absurd he List.not_mem_nil

/-- It is enough that two states with the same part are served by one local computation. -/
theorem LocalTo.of_pairs
    (h : ∀ s t, view s k = view t k → ∃ g, LocalTo view owner k g ∧ f s = g s ∧ f t = g t) :
    LocalTo view owner k f where
  elsewhere s j hj := by
    obtain ⟨g, hg, hs, -⟩ := h s s rfl
    rw [hs]
    exact hg.elsewhere s j hj
  here s t heq := by
    obtain ⟨g, hg, hs, ht⟩ := h s t heq
    rw [hs, ht]
    exact hg.here s t heq
  owned s := by
    obtain ⟨g, hg, hs, -⟩ := h s s rfl
    rw [hs]
    exact hg.owned s

theorem LocalTo.ite {c : Prop} [Decidable c] (hf : LocalTo view owner k f)
    (hg : LocalTo view owner k g) : LocalTo view owner k (fun s => if c then f s else g s) := by
  by_cases h : c
  · simpa only [if_pos h] using hf
  · simpa only [if_neg h] using hg

theorem LocalTo.andThen (hf : LocalTo view owner k f) (hg : LocalTo view owner k g) :
    LocalTo view owner k (fun s => ((g (f s).1).1, (f s).2 ++ (g (f s).1).2)) where
  elsewhere s j hj := (hg.elsewhere (f s).1 j hj).trans (hf.elsewhere s j hj)
  here s t heq := by
    obtain ⟨hpart, hout⟩ := hf.here s t heq
    obtain ⟨hpart', hout'⟩ := hg.here (f s).1 (f t).1 hpart
    exact ⟨hpart', by rw [hout, hout']⟩
  owned s e he := (List.mem_append.mp he).elim (hf.owned s e) (hg.owned (f s).1 e)

/-- A silent change of one part to something that its old value determines. -/
theorem LocalTo.of_change [DecidableEq κ] {h : σ → σ} (change : ν → ν)
    (hview : ∀ s j, view (h s) j = if j = k then change (view s j) else view s j) :
    LocalTo view owner k (fun s => (h s, [])) where
  elsewhere s j hj := by rw [hview, if_neg hj]
  here s t heq := by
    refine ⟨?_, rfl⟩
    rw [hview, hview, if_pos rfl, if_pos rfl, heq]
  owned _ _ he := absurd he List.not_mem_nil

/-- The same computation with its events under other names. -/
theorem LocalTo.map_events {ε' : Type} {owner' : ε' → κ} (hf : LocalTo view owner k f)
    (rename : ε → ε') (howner : ∀ e, owner' (rename e) = owner e) :
    LocalTo view owner' k (fun s => ((f s).1, (f s).2.map rename)) where
  elsewhere := hf.elsewhere
  here s t heq := by
    obtain ⟨hpart, hout⟩ := hf.here s t heq
    exact ⟨hpart, congrArg (List.map rename) hout⟩
  owned s e' he' := by
    obtain ⟨e, he, rfl⟩ := List.mem_map.mp he'
    exact (howner e).trans (hf.owned s e he)

end

/-- The state after a sequence of operations, with all events reported on the way. -/
def run (step : σ → ω → σ × List ε) (s : σ) (ops : List ω) : σ × List ε :=
  ops.foldl (fun x op => ((step x.1 op).1, x.2 ++ (step x.1 op).2)) (s, [])

theorem run_concat (step : σ → ω → σ × List ε) (s : σ) (ops : List ω) (op : ω) :
    run step s (ops ++ [op]) = ((step (run step s ops).1 op).1,
      (run step s ops).2 ++ (step (run step s ops).1 op).2) := by
  simp [run, List.foldl_append]

theorem run_append (step : σ → ω → σ × List ε) (s : σ) (before after : List ω) :
    run step s (before ++ after) = ((run step (run step s before).1 after).1,
      (run step s before).2 ++ (run step (run step s before).1 after).2) := by
  induction after using List.reverseRecOn with
  | nil => simp [run]
  | append_singleton after op ih =>
    rw [← List.append_assoc, run_concat, ih, run_concat, List.append_assoc]

/-- Every operation is local to the key it is about, or about all keys alike. -/
structure LocalSystem (step : σ → ω → σ × List ε) (about : ω → Option κ) (view : σ → κ → ν)
    (owner : ε → κ) : Prop where
  keyed : ∀ op k, about op = some k → LocalTo view owner k (fun s => step s op)
  unkeyed : ∀ op, about op = none → Uniform view (fun s => step s op)

section
variable [DecidableEq κ] {step : σ → ω → σ × List ε} {about : ω → Option κ} {view : σ → κ → ν}
  {owner : ε → κ}

/-- The operation is about the key, or about all keys. -/
def concerns (about : ω → Option κ) (k : κ) (op : ω) : Bool := (about op).all (· = k)

/-- The part of a key and its events depend on the operations that concern the key. -/
theorem LocalSystem.run_part (h : LocalSystem step about view owner) (k : κ) {s t : σ}
    (hst : view s k = view t k) (ops : List ω) :
    view (run step s ops).1 k = view (run step t (ops.filter (concerns about k))).1 k ∧
    (run step s ops).2.filter (owner · = k) = (run step t (ops.filter (concerns about k))).2 := by
  induction ops using List.reverseRecOn with
  | nil => exact ⟨hst, rfl⟩
  | append_singleton ops op ih =>
    obtain ⟨hpart, hout⟩ := ih
    rw [run_concat, List.filter_append, List.filter_append, hout]
    cases habout : about op with
    | none =>
      have hsame : [op].filter (concerns about k) = [op] := by simp [concerns, habout]
      rw [hsame, run_concat]
      have hop := h.unkeyed op habout
      refine ⟨hop.parts _ _ k hpart, ?_⟩
      rw [hop.silent, hop.silent]
      rfl
    | some j =>
      have hop := h.keyed op j habout
      by_cases hj : j = k
      · subst hj
        have hsame : [op].filter (concerns about j) = [op] := by simp [concerns, habout]
        rw [hsame, run_concat]
        obtain ⟨hnext, hevents⟩ := hop.here _ _ hpart
        have hown : (step (run step s ops).1 op).2.filter (owner · = j) =
            (step (run step s ops).1 op).2 :=
          List.filter_eq_self.mpr (fun e he => decide_eq_true (hop.owned _ e he))
        exact ⟨hnext, by rw [hown, hevents]⟩
      · have hnone : [op].filter (concerns about k) = [] := by simp [concerns, habout, hj]
        have hother : (step (run step s ops).1 op).2.filter (owner · = k) = [] := by
          refine List.filter_eq_nil_iff.mpr (fun e he howner => ?_)
          exact hj ((hop.owned _ e he).symm.trans (of_decide_eq_true howner))
        rw [hnone, List.append_nil, hother, List.append_nil]
        exact ⟨(hop.elsewhere _ k (Ne.symm hj)).trans hpart, rfl⟩

/-- Two runs with the same operations about a key agree on its part and on its events. -/
theorem LocalSystem.run_congr (h : LocalSystem step about view owner) (k : κ) {s t : σ}
    (hst : view s k = view t k) {ops ops' : List ω}
    (hops : ops.filter (concerns about k) = ops'.filter (concerns about k)) :
    view (run step s ops).1 k = view (run step t ops').1 k ∧
    (run step s ops).2.filter (owner · = k) = (run step t ops').2.filter (owner · = k) := by
  obtain ⟨hpart, hout⟩ := h.run_part k hst ops
  obtain ⟨hpart', hout'⟩ := h.run_part k (rfl : view t k = view t k) ops'
  rw [hpart, hpart', hout, hout', hops]
  exact ⟨rfl, rfl⟩

/-- Several parties mix their operations. Where those of all others leave a key alone, its part and
its events are made by the operations of one party. -/
theorem LocalSystem.run_party {ι : Type} [DecidableEq ι] (h : LocalSystem step about view owner)
    (k : κ) (s : σ) {trace : List (ι × ω)} (i : ι)
    (hothers : ∀ x ∈ trace, x.1 ≠ i → concerns about k x.2 = false) :
    let alone := run step s ((trace.filter (·.1 = i)).map Prod.snd)
    view (run step s (trace.map Prod.snd)).1 k = view alone.1 k ∧
    (run step s (trace.map Prod.snd)).2.filter (owner · = k) = alone.2.filter (owner · = k) := by
  refine h.run_congr k rfl ?_
  rw [List.filter_map, List.filter_map, List.filter_filter]
  congr 1
  refine List.filter_congr (fun x hx => ?_)
  by_cases hi : x.1 = i
  · simp [hi]
  · simp [hothers x hx hi]

end

section
variable {Inv : σ → Prop}

/-- The computation on the states with the invariant. -/
def within (f : σ → σ × List ε) (keeps : ∀ s, Inv s → Inv (f s).1) (s : Subtype Inv) :
    Subtype Inv × List ε :=
  (⟨(f s.1).1, keeps s.1 s.2⟩, (f s.1).2)

theorem within_congr {f g : σ → σ × List ε} {hf : ∀ s, Inv s → Inv (f s).1}
    {hg : ∀ s, Inv s → Inv (g s).1} {s : Subtype Inv} (h : f s.1 = g s.1) :
    within f hf s = within g hg s := by
  simp only [within, h]

/-- A computation that keeps the invariant and is local in the states that have it. -/
def LocalWithin (Inv : σ → Prop) (view : σ → κ → ν) (owner : ε → κ) (k : κ)
    (f : σ → σ × List ε) : Prop :=
  ∃ keeps, LocalTo (fun s : Subtype Inv => view s.1) owner k (within f keeps)

variable {view : σ → κ → ν} {owner : ε → κ} {k : κ} {f g : σ → σ × List ε}

theorem LocalWithin.keeps {view : σ → κ → ν} {owner : ε → κ} {k : κ} {f : σ → σ × List ε}
    (h : LocalWithin Inv view owner k f) : ∀ s, Inv s → Inv (f s).1 := by
  obtain ⟨hkeeps, -⟩ := h
  exact hkeeps

theorem LocalWithin.intro (keeps : ∀ s, Inv s → Inv (f s).1)
    (elsewhere : ∀ s, Inv s → ∀ j, j ≠ k → view (f s).1 j = view s j)
    (here : ∀ s t, Inv s → Inv t → view s k = view t k →
      view (f s).1 k = view (f t).1 k ∧ (f s).2 = (f t).2)
    (owned : ∀ s, Inv s → ∀ e ∈ (f s).2, owner e = k) : LocalWithin Inv view owner k f :=
  ⟨keeps, fun s => elsewhere s.1 s.2, fun s t => here s.1 t.1 s.2 t.2, fun s => owned s.1 s.2⟩

theorem LocalWithin.elsewhere (h : LocalWithin Inv view owner k f) {s : σ} (hs : Inv s) {j : κ}
    (hj : j ≠ k) : view (f s).1 j = view s j := by
  obtain ⟨hkeeps, hlocal⟩ := h
  exact hlocal.elsewhere ⟨s, hs⟩ j hj

theorem LocalWithin.here (h : LocalWithin Inv view owner k f) {s t : σ} (hs : Inv s) (ht : Inv t)
    (heq : view s k = view t k) : view (f s).1 k = view (f t).1 k ∧ (f s).2 = (f t).2 := by
  obtain ⟨hkeeps, hlocal⟩ := h
  exact hlocal.here ⟨s, hs⟩ ⟨t, ht⟩ heq

theorem LocalWithin.owned (h : LocalWithin Inv view owner k f) {s : σ} (hs : Inv s) :
    ∀ e ∈ (f s).2, owner e = k := by
  obtain ⟨hkeeps, hlocal⟩ := h
  exact hlocal.owned ⟨s, hs⟩

theorem LocalWithin.andThen (hf : LocalWithin Inv view owner k f)
    (hg : LocalWithin Inv view owner k g) :
    LocalWithin Inv view owner k (fun s => ((g (f s).1).1, (f s).2 ++ (g (f s).1).2)) := by
  obtain ⟨hkeeps, hlocal⟩ := hf
  obtain ⟨hkeeps', hlocal'⟩ := hg
  exact ⟨fun s hs => hkeeps' _ (hkeeps s hs), hlocal.andThen hlocal'⟩

/-- It is enough that two states with the same part are served by one local computation. -/
theorem LocalWithin.of_pairs
    (h : ∀ s t, Inv s → Inv t → view s k = view t k →
      ∃ g, LocalWithin Inv view owner k g ∧ f s = g s ∧ f t = g t) :
    LocalWithin Inv view owner k f := by
  have hkeeps : ∀ s, Inv s → Inv (f s).1 := by
    intro s hs
    obtain ⟨g, ⟨hkeeps, -⟩, heq, -⟩ := h s s hs hs rfl
    rw [heq]
    exact hkeeps s hs
  refine ⟨hkeeps, .of_pairs (fun s t heq => ?_)⟩
  obtain ⟨g, ⟨hkeeps', hlocal⟩, hs, ht⟩ := h s.1 t.1 s.2 t.2 heq
  exact ⟨within g hkeeps', hlocal, within_congr hs, within_congr ht⟩

theorem LocalWithin.skip : LocalWithin Inv view owner k (fun s => (s, [])) :=
  ⟨fun _ hs => hs, .skip⟩

end

section
variable {Inv : σ → Prop} {step : σ → ω → σ × List ε} {about : ω → κ}
  {view : σ → κ → ν} {owner : ε → κ}

/-- The operations of the system that are local within the invariant. -/
abbrev LocalOp (Inv : σ → Prop) (step : σ → ω → σ × List ε) (about : ω → κ) (view : σ → κ → ν)
    (owner : ε → κ) : Type :=
  {op : ω // LocalWithin Inv view owner (about op) (fun s => step s op)}

def stepWithin (s : Subtype Inv) (op : LocalOp Inv step about view owner) :
    Subtype Inv × List ε :=
  within (fun s => step s op.1) op.2.keeps s

theorem run_stepWithin (s : Subtype Inv) (ops : List (LocalOp Inv step about view owner)) :
    run step s.1 (ops.map Subtype.val) =
      ((run stepWithin s ops).1.1, (run stepWithin s ops).2) := by
  induction ops using List.reverseRecOn with
  | nil => rfl
  | append_singleton ops op ih =>
    rw [List.map_append, List.map_singleton, run_concat, run_concat, ih]
    rfl

theorem localSystem_stepWithin :
    LocalSystem (fun s (op : LocalOp Inv step about view owner) => stepWithin s op)
      (fun op => some (about op.1)) (fun s : Subtype Inv => view s.1) owner where
  keyed op k hk := by
    obtain ⟨op, hop⟩ := op
    obtain rfl := Option.some.inj hk
    obtain ⟨hkeeps, hlocal⟩ := hop
    exact hlocal
  unkeyed op hnone := by cases hnone

/-- Where all operations of a run are local within the invariant, the part of a key and its events
depend on the operations about that key. -/
theorem run_part_within [DecidableEq κ] {s : σ} (hs : Inv s) {ops : List ω}
    (hops : ∀ op ∈ ops, LocalWithin Inv view owner (about op) (fun s => step s op)) (k : κ) :
    view (run step s ops).1 k = view (run step s (ops.filter (about · = k))).1 k ∧
    (run step s ops).2.filter (owner · = k) = (run step s (ops.filter (about · = k))).2 := by
  lift ops to List (LocalOp Inv step about view owner) using hops
  have hrun := localSystem_stepWithin.run_part (s := ⟨s, hs⟩) (t := ⟨s, hs⟩) k rfl ops
  rw [List.filter_map, run_stepWithin ⟨s, hs⟩, run_stepWithin ⟨s, hs⟩]
  exact hrun

/-- Two such runs with the same operations about a key agree on its part and on its events. -/
theorem run_congr_within [DecidableEq κ] {s : σ} (hs : Inv s) {ops ops' : List ω}
    (hops : ∀ op ∈ ops, LocalWithin Inv view owner (about op) (fun s => step s op))
    (hops' : ∀ op ∈ ops', LocalWithin Inv view owner (about op) (fun s => step s op)) (k : κ)
    (hsame : ops.filter (about · = k) = ops'.filter (about · = k)) :
    view (run step s ops).1 k = view (run step s ops').1 k ∧
    (run step s ops).2.filter (owner · = k) = (run step s ops').2.filter (owner · = k) := by
  obtain ⟨hpart, hout⟩ := run_part_within hs hops k
  obtain ⟨hpart', hout'⟩ := run_part_within hs hops' k
  rw [hpart, hpart', hout, hout', hsame]
  exact ⟨rfl, rfl⟩

end

section
variable {α : Type}

/-- The value of the last entry with one of these keys. -/
def lastValue (keys : κ → Bool) (entries : List (κ × ν)) : Option ν :=
  ((entries.filter (fun entry => keys entry.1)).getLast?).map Prod.snd

theorem lastValue_concat (keys : κ → Bool) (entries : List (κ × ν)) (entry : κ × ν) :
    lastValue keys (entries ++ [entry]) =
      if keys entry.1 then some entry.2 else lastValue keys entries := by
  rw [lastValue, List.filter_append]
  cases h : keys entry.1 <;> simp [lastValue, h]

/-- A field that the entries with some keys write, and no others. -/
theorem get_foldl {put : σ → κ × ν → σ} {get : σ → α} {keys : κ → Bool} {parse : ν → α}
    (hput : ∀ s entry, get (put s entry) = if keys entry.1 then parse entry.2 else get s)
    (s : σ) (entries : List (κ × ν)) :
    get (entries.foldl put s) = (lastValue keys entries).elim (get s) parse := by
  induction entries using List.reverseRecOn with
  | nil => rfl
  | append_singleton entries entry ih =>
    rw [List.foldl_append, List.foldl_cons, List.foldl_nil, hput, ih, lastValue_concat]
    split_ifs <;> rfl

end

end GmaEngine.LocalRuns
