import GmaEngine.RecencyMaps
import GmaEngine.VenueKeyAdds

/-!
# The capacity of the resolvers

A resolver is a bounded recency map. The capacity is set on the resolvers that exist; one that is
made later has the default capacity, and keeps it until the next call.
-/

namespace GmaEngine

namespace Lru

inductive Op where
  | put (k : String) (v : OrderKey)
  | setCap (c : ℕ)

def exec (l : Lru) : Op → Lru
  | .put k v => l.put k v
  | .setCap c => l.setCap c

def run (ops : List Op) : Lru := ops.foldl exec {}

/-- The same operation on a recency map. -/
def Op.exec (m : RecencyMap String OrderKey) : Op → RecencyMap String OrderKey
  | .put k v => m.put k v
  | .setCap c => m.setCap c

def toRecencyMap (l : Lru) : RecencyMap String OrderKey := ⟨l.entries, l.cap⟩

structure Ok (l : Lru) : Prop where
  wf : l.WF
  bounded : l.dq.length ≤ l.cap

variable {l : Lru} {k : String} {v : OrderKey} {c : ℕ}

theorem ok_empty : Ok {} := ⟨wf_empty, Nat.zero_le _⟩

theorem length_entries (l : Lru) : l.entries.length = l.dq.length := List.length_map ..

theorem Ok.recency_wf (h : l.Ok) : l.toRecencyMap.WF := by
  refine ⟨?_, ?_⟩
  · rw [toRecencyMap, keys_entries]
    exact h.wf.keys
  · rw [toRecencyMap, length_entries]
    exact h.bounded

theorem cget_eq_get (h : l.WF) (k : String) : l.cget k = l.toRecencyMap.get k :=
  cget_eq_lookupKey h k

@[simp] theorem cap_popBack (l : Lru) : l.popBack.cap = l.cap := by
  unfold popBack
  split <;> rfl

@[simp] theorem cap_trim (l : Lru) : l.trim.cap = l.cap := by
  unfold trim
  induction l.dq.length - l.cap with
  | zero => rfl
  | succ rounds ih => rw [Function.iterate_succ_apply', cap_popBack, ih]

@[simp] theorem cap_put (l : Lru) (k : String) (v : OrderKey) : (l.put k v).cap = l.cap := by
  unfold put
  split
  · rfl
  · rw [cap_trim]

theorem cap_setCap (l : Lru) (c : ℕ) : (l.setCap c).cap = max c 1 := by
  rw [setCap, cap_trim]
  split_ifs with hc
  · exact (max_eq_left (Nat.one_le_iff_ne_zero.mpr hc)).symm
  · rw [not_not.mp hc]
    rfl

theorem Ok.toRecencyMap_put (h : l.Ok) (k : String) (v : OrderKey) :
    (l.put k v).toRecencyMap = l.toRecencyMap.put k v := by
  have hentries : (l.put k v).entries = (l.toRecencyMap.put k v).entries := by
    cases hk : l.idx.lookup k with
    | none =>
      have hnot : k ∉ l.toRecencyMap.entries.map Prod.fst := by
        rw [toRecencyMap, keys_entries]
        intro hmem
        obtain ⟨n, hn, hkey⟩ := List.mem_map.mp hmem
        exact h.wf.key_ne hk n hn hkey
      rw [(put_miss h.wf hk).2, RecencyMap.put_of_notMem hnot]
      rfl
    | some it =>
      have hmem : k ∈ l.toRecencyMap.entries.map Prod.fst := by
        obtain ⟨n, hn, hkey, -⟩ := (h.wf.idx k it).mp hk
        rw [toRecencyMap, keys_entries]
        exact List.mem_map.mpr ⟨n, hn, hkey⟩
      rw [(put_hit h.wf hk).2, h.recency_wf.put_of_mem hmem]
      rfl
  rw [toRecencyMap, hentries, cap_put]
  rfl

theorem Ok.toRecencyMap_setCap (h : l.Ok) (c : ℕ) :
    (l.setCap c).toRecencyMap = l.toRecencyMap.setCap c := by
  have hcap := cap_setCap l c
  have hpos : 0 < max c 1 := by omega
  have hwf : WF { l with cap := max c 1 } :=
    ⟨hpos, h.wf.addrs, h.wf.keys, h.wf.idx, h.wf.fresh⟩
  have hset : l.setCap c = trim { l with cap := max c 1 } := by
    rw [setCap, cap_trim] at hcap
    rw [setCap, ← hcap]
  rw [toRecencyMap, hcap, hset, (trim_spec hwf).2.1]
  rfl

theorem Ok.put (h : l.Ok) (k : String) (v : OrderKey) : (l.put k v).Ok := by
  have hbound := (h.recency_wf.put k v).bounded
  rw [← h.toRecencyMap_put, toRecencyMap, length_entries] at hbound
  exact ⟨put_wf h.wf k v, hbound⟩

theorem Ok.setCap (h : l.Ok) (c : ℕ) : (l.setCap c).Ok := by
  have hbound := (h.recency_wf.setCap c).bounded
  rw [← h.toRecencyMap_setCap, toRecencyMap, length_entries] at hbound
  exact ⟨setCap_wf h.wf c, hbound⟩

/-- An operation on a resolver is the same operation on its recency map. -/
theorem Ok.exec (h : l.Ok) (op : Op) :
    (l.exec op).Ok ∧ (l.exec op).toRecencyMap = op.exec l.toRecencyMap := by
  cases op with
  | put k v => exact ⟨h.put k v, h.toRecencyMap_put k v⟩
  | setCap c => exact ⟨h.setCap c, h.toRecencyMap_setCap c⟩

theorem Ok.run (h : l.Ok) (ops : List Op) : (ops.foldl Lru.exec l).Ok ∧
    (ops.foldl Lru.exec l).toRecencyMap = ops.foldl Op.exec l.toRecencyMap := by
  induction ops generalizing l with
  | nil => exact ⟨h, rfl⟩
  | cons op ops ih =>
    obtain ⟨hok, hmap⟩ := h.exec op
    rw [List.foldl_cons, List.foldl_cons, ← hmap]
    exact ih hok

/-- In every run of puts and changes of the capacity the index and the list are in bijection, there
are at most `cap` entries, and the resolver is the recency map of the same run. -/
theorem refines_recency_map (ops : List Op) :
    ((∀ k it, (run ops).idx.lookup k = some it ↔
        ∃ n ∈ (run ops).dq, n.key = k ∧ n.addr = it) ∧
      ((run ops).dq.map LruNode.key).Nodup ∧ ((run ops).dq.map LruNode.addr).Nodup) ∧
    (run ops).dq.length ≤ (run ops).cap ∧
    (run ops).toRecencyMap = ops.foldl Op.exec ⟨[], 4096⟩ ∧
    ∀ k, (run ops).cget k = (ops.foldl Op.exec ⟨[], 4096⟩).get k := by
  obtain ⟨hok, hmap⟩ := ok_empty.run ops
  refine ⟨⟨hok.wf.idx, hok.wf.keys, hok.wf.addrs⟩, hok.bounded, hmap, ?_⟩
  intro k
  rw [run, cget_eq_get hok.wf, hmap]
  rfl

def puts (l : Lru) (writes : List (String × OrderKey)) : Lru :=
  (writes.map (fun w => Op.put w.1 w.2)).foldl exec l

theorem cap_puts (l : Lru) (writes : List (String × OrderKey)) : (l.puts writes).cap = l.cap := by
  induction writes generalizing l with
  | nil => rfl
  | cons w writes ih => exact (ih (l.put w.1 w.2)).trans (cap_put l w.1 w.2)

theorem Ok.puts (h : l.Ok) (writes : List (String × OrderKey)) : (l.puts writes).Ok ∧
    (l.puts writes).toRecencyMap = l.toRecencyMap.putAll writes := by
  induction writes generalizing l with
  | nil => exact ⟨h, rfl⟩
  | cons w writes ih =>
    have hrest := ih (h.put w.1 w.2)
    rw [h.toRecencyMap_put] at hrest
    exact hrest

/-- A resolver of its own holds as many entries as keys were put, up to the default capacity. -/
theorem length_puts (writes : List (String × OrderKey)) :
    (puts {} writes).dq.length = min 4096 (writes.map Prod.fst).toFinset.card := by
  rw [← length_entries]
  have hmap := (ok_empty.puts writes).2
  calc (puts {} writes).entries.length
      = (puts {} writes).toRecencyMap.entries.length := rfl
    _ = ((⟨[], 4096⟩ : RecencyMap String OrderKey).putAll writes).entries.length := by
        rw [hmap]
        rfl
    _ = min 4096 (writes.map Prod.fst).toFinset.card := RecencyMap.length_putAll 4096 writes

/-- Three puts with room for two: the key that was written again stays. -/
example : ((run [.setCap 2, .put "V1" {}, .put "V2" {}, .put "V1" {}, .put "V3" {}]).entries.map
    Prod.fst) = ["V3", "V1"] := by decide

end Lru

namespace OrderBookManager
variable {D : Type}

section
variable [Double D]

/-- Whether a venue-key add files an entry: an accepted one unless its key is all zero, and a stale
one unless its scope is. -/
def FilesVenueKey (m : OrderBookManager D) (a : VenueAdd D) : Prop :=
  if m.acceptsAdd a.symbol a.side a.price a.size then
    ((m.book a.symbol).addKey a.id a.scope a.idMissing).id ≠ 0 ∨ a.scope ≠ {}
  else m.gate a.symbol = true ∧ a.scope ≠ {}

instance (m : OrderBookManager D) (a : VenueAdd D) : Decidable (m.FilesVenueKey a) :=
  inferInstanceAs (Decidable (ite _ _ _))

/-- The symbol and the venue key that an operation files. -/
def filedKey (m : OrderBookManager D) : ManagerOp D → Option (String × String)
  | .resolverPut symbol venueKey _ => some (symbol, venueKey)
  | .addWithVenueKey symbol venueKey id side price size priority scope idMissing =>
    if m.FilesVenueKey ⟨symbol, venueKey, id, side, price, size, priority, scope, idMissing⟩ then
      some (symbol, venueKey)
    else none
  | _ => none

/-- The symbols and venue keys that a run files. -/
def filedKeys (m : OrderBookManager D) : List (ManagerOp D) → List (String × String)
  | [] => []
  | op :: ops => (m.filedKey op).toList ++ filedKeys (m.exec op).1 ops

/-- The venue keys that were filed for a symbol. -/
def venueKeys (symbol : String) (filed : List (String × String)) : Finset String :=
  ((filed.filter (fun entry => entry.1 = symbol)).map Prod.snd).toFinset

variable {m : OrderBookManager D} {ops : List (ManagerOp D)}

theorem filesVenueKey_iff (a : VenueAdd D) : m.FilesVenueKey a ↔
    ¬ ((m.onAddGetKey a.symbol a.id a.side a.price a.size a.priority a.scope a.idMissing).ret.id = 0
      ∧ (m.onAddGetKey a.symbol a.id a.side a.price a.size a.priority a.scope
        a.idMissing).ret.feedId = 0
      ∧ (m.onAddGetKey a.symbol a.id a.side a.price a.size a.priority a.scope
        a.idMissing).ret.epoch = 0) := by
  unfold FilesVenueKey
  cases hacc : m.acceptsAdd a.symbol a.side a.price a.size with
  | true =>
    obtain ⟨hfeed, hepoch⟩ := (m.book a.symbol).addKey_scope a.id a.scope a.idMissing
    rw [if_pos rfl, onAddGetKey_accepted hacc, hfeed, hepoch, ← FeedScope.eq_zero_iff, not_and_or]
  | false =>
    rw [if_neg Bool.false_ne_true]
    cases hgate : m.gate a.symbol with
    | true =>
      rw [onAddGetKey_stale hgate, ← FeedScope.eq_zero_iff]
      simp
    | false =>
      rw [onAddGetKey_malformed hgate hacc]
      simp

theorem filedKey_eq (op : ManagerOp D) :
    m.filedKey op = (m.filedEntry op).map (fun entry => (entry.1, entry.2.1)) := by
  cases op with
  | addWithVenueKey symbol venueKey id side price size priority scope idMissing =>
    have hfiles := filesVenueKey_iff (m := m)
      ⟨symbol, venueKey, id, side, price, size, priority, scope, idMissing⟩
    simp only [filedKey, filedEntry, hfiles]
    split_ifs <;> rfl
  | _ => rfl

theorem resolver_exec_eq_none_iff (op : ManagerOp D) (s : String) :
    (m.exec op).1.resolver s = none ↔
      m.resolver s = none ∧ s ∉ (m.filedKey op).toList.map Prod.fst := by
  by_cases hop : ∃ cap, op = .resolverSetCapacity cap
  · obtain ⟨cap, rfl⟩ := hop
    simp [exec, resolverSetCapacity, filedKey]
  · rw [resolver_exec m (fun cap heq => hop ⟨cap, heq⟩), filedKey_eq]
    cases m.filedEntry op with
    | none => simp
    | some entry =>
      by_cases hs : s = entry.1
      · simp [file, hs]
      · simp [file, hs]

/-- A symbol has a resolver once something was filed for it. -/
theorem resolver_runFrom_eq_none_iff (s : String) : (m.runFrom ops).1.resolver s = none ↔
    m.resolver s = none ∧ s ∉ (m.filedKeys ops).map Prod.fst := by
  induction ops generalizing m with
  | nil => simp [runFrom, filedKeys]
  | cons op ops ih =>
    rw [runFrom_cons, ih, resolver_exec_eq_none_iff, filedKeys, List.map_append, List.mem_append,
      not_or, and_assoc]

/-- While the capacity is not changed the resolver of a symbol takes the entries filed for it. -/
theorem resolver_runFrom (hops : ∀ op ∈ ops, ∀ cap, op ≠ .resolverSetCapacity cap) (s : String) :
    ∃ writes : List (String × OrderKey),
      (writes.map Prod.fst).toFinset = venueKeys s (m.filedKeys ops) ∧
      ((m.runFrom ops).1.resolver s).getD {} =
        ((m.resolver s).getD {}).puts writes := by
  induction ops generalizing m with
  | nil => exact ⟨[], rfl, rfl⟩
  | cons op ops ih =>
    rw [List.forall_mem_cons] at hops
    obtain ⟨writes, hkeys, hrun⟩ := ih (m := (m.exec op).1) hops.2
    rw [runFrom_cons, filedKeys, filedKey_eq, hrun, resolver_exec m hops.1]
    rw [venueKeys] at hkeys
    cases m.filedEntry op with
    | none => exact ⟨writes, hkeys, rfl⟩
    | some entry =>
      by_cases hs : entry.1 = s
      · refine ⟨(entry.2.1, entry.2.2) :: writes, ?_, ?_⟩
        · simp [venueKeys, hs, hkeys]
        · simp [file, ← hs, Lru.puts, Lru.exec]
      · refine ⟨writes, ?_, ?_⟩
        · simp [venueKeys, hs, hkeys]
        · simp [file, Function.update_of_ne (Ne.symm hs)]

theorem run_resolverOk (ops : List (ManagerOp D)) :
    ∀ s l, (run ops).1.resolver s = some l → l.Ok := by
  induction ops using List.reverseRecOn with
  | nil => exact fun s l hl => nomatch hl
  | append_singleton ops op ih =>
    rw [run, runFrom_concat]
    exact forall_resolver_exec Lru.ok_empty (fun _ k v hl => hl.put k v)
      (fun _ c hl => hl.setCap c) ih op

/-- A resolver that was there at the call has its capacity ever after; one that was not has the
default capacity, and an entry for each key that was filed. -/
theorem length_resolver_after (before : List (ManagerOp D)) (c : ℕ) {after : List (ManagerOp D)}
    (hafter : ∀ op ∈ after, ∀ cap, op ≠ .resolverSetCapacity cap) (s : String) :
    ((run before).1.resolver s ≠ none →
      (((run (before ++ .resolverSetCapacity c :: after)).1.resolver s).getD {}).dq.length ≤
        max c 1) ∧
    ((run before).1.resolver s = none →
      (((run (before ++ .resolverSetCapacity c :: after)).1.resolver s).getD {}).dq.length =
        min 4096 (venueKeys s
          ((run (before ++ [.resolverSetCapacity c])).1.filedKeys after)).card) := by
  have hrun : (run (before ++ .resolverSetCapacity c :: after)).1 =
      ((run (before ++ [.resolverSetCapacity c])).1.runFrom after).1 := by
    rw [run, List.append_cons, runFrom_append]
    rfl
  have hcall : (run (before ++ [.resolverSetCapacity c])).1.resolver s =
      ((run before).1.resolver s).map (fun l => l.setCap c) := by
    rw [run, runFrom_concat]
    rfl
  obtain ⟨writes, hkeys, hwrites⟩ := resolver_runFrom
    (m := (run (before ++ [.resolverSetCapacity c])).1) hafter s
  rw [hrun, hwrites, hcall, ← hkeys]
  constructor
  · intro hsome
    obtain ⟨l, hl⟩ := Option.ne_none_iff_exists'.mp hsome
    have hbound := (((run_resolverOk before s l hl).setCap c).puts writes).1.bounded
    rw [Lru.cap_puts, Lru.cap_setCap] at hbound
    rw [hl]
    exact hbound
  · intro hnone
    rw [hnone]
    exact Lru.length_puts writes

/-- After a call with a capacity and until the next one every resolver is within it exactly if each
symbol that had no entry before the call has had at most as many different venue keys since. The
default capacity limits those by itself. -/
theorem resolver_capacity_iff (before : List (ManagerOp D)) (c : ℕ) (after : List (ManagerOp D))
    (hafter : ∀ op ∈ after, ∀ cap, op ≠ .resolverSetCapacity cap) :
    (∀ s l, (run (before ++ .resolverSetCapacity c :: after)).1.resolver s = some l →
      l.dq.length ≤ max c 1) ↔
    ∀ s, s ∉ (filedKeys ({} : OrderBookManager D) before).map Prod.fst →
      min 4096 (venueKeys s
        ((run (before ++ [.resolverSetCapacity c])).1.filedKeys after)).card ≤ max c 1 := by
  have hnone : ∀ s, (run before).1.resolver s = none ↔
      s ∉ (filedKeys ({} : OrderBookManager D) before).map Prod.fst := by
    intro s
    rw [run, resolver_runFrom_eq_none_iff]
    exact and_iff_right rfl
  constructor
  · intro hall s hs
    rw [← (length_resolver_after before c hafter s).2 ((hnone s).mpr hs)]
    cases hl : (run (before ++ .resolverSetCapacity c :: after)).1.resolver s with
    | none => exact Nat.zero_le _
    | some l => exact hall s l hl
  · intro hall s l hl
    obtain ⟨hold, hnew⟩ := length_resolver_after before c hafter s
    rw [hl, Option.getD_some] at hold hnew
    by_cases hs : (run before).1.resolver s = none
    · rw [hnew hs]
      exact hall s ((hnone s).mp hs)
    · exact hold hs

/-- With capacity one, set while AAPL has an entry. -/
theorem resolver_capacity_known :
    ((run (([.resolverPut "AAPL" "V1" {}] : List (ManagerOp ExactDouble)) ++
      .resolverSetCapacity 1 :: [.resolverPut "AAPL" "V2" {}])).1.resolver "AAPL").elim 0
        (·.dq.length) ≤ 1 := by
  refine (resolver_capacity_iff [.resolverPut "AAPL" "V1" {}] 1 [.resolverPut "AAPL" "V2" {}]
    ?_).mpr ?_ "AAPL" _ rfl
  · intro op hop cap
    rw [List.mem_singleton.mp hop]
    exact nofun
  · intro s hs
    have hne : "AAPL" ≠ s := by
      rintro rfl
      exact hs (by decide)
    simp [filedKeys, filedKey, venueKeys, hne]

/-- With capacity one, set before AAPL has an entry: two puts later it holds two. -/
theorem new_symbol_exceeds_capacity :
    ¬ ∀ (before : List (ManagerOp ExactDouble)) (c : ℕ) (after : List (ManagerOp ExactDouble)),
      (∀ op ∈ after, ∀ cap, op ≠ .resolverSetCapacity cap) →
        ∀ s l, (run (before ++ .resolverSetCapacity c :: after)).1.resolver s = some l →
          l.dq.length ≤ max c 1 := by
  intro hall
  have hafter : ∀ op ∈ ([.resolverPut "AAPL" "V1" {}, .resolverPut "AAPL" "V2" {}] :
      List (ManagerOp ExactDouble)), ∀ cap, op ≠ .resolverSetCapacity cap := by
    intro op hop cap
    rcases List.mem_pair.mp hop with rfl | rfl
    · exact nofun
    · exact nofun
  have hbound := hall [] 1 _ hafter "AAPL" _ rfl
  revert hbound
  decide

end

end OrderBookManager
end GmaEngine
