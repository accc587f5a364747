import GmaEngine.EntryMaps
import GmaEngine.ManagerRuns

/-!
# The venue-key resolver

The resolver of a symbol is a list of entries with an index of iterators into it. Under the
invariant that ties the two together it is a list under distinct keys, most recently written
first, of which the end is cut off; this holds of every reachable manager.
-/

namespace GmaEngine
open KeyedQueues

namespace Lru

/-- The entries, most recently written first. -/
def entries (l : Lru) : List (String × OrderKey) := l.dq.map (fun n => (n.key, n.value))

structure WF (l : Lru) : Prop where
  cap : 0 < l.cap
  addrs : (l.dq.map LruNode.addr).Nodup
  keys : (l.dq.map LruNode.key).Nodup
  idx : ∀ k it, l.idx.lookup k = some it ↔ ∃ n ∈ l.dq, n.key = k ∧ n.addr = it
  fresh : ∀ n ∈ l.dq, n.addr < l.nextAddr

variable {l : Lru} {k : String} {v : OrderKey}

theorem wf_empty : WF {} := ⟨by decide, by simp, by simp, by simp, by simp⟩

theorem keys_entries (l : Lru) : l.entries.map Prod.fst = l.dq.map LruNode.key := by
  simp [entries, Function.comp_def]

theorem WF.key_ne (h : l.WF) (hk : l.idx.lookup k = none) : ∀ n ∈ l.dq, n.key ≠ k := by
  intro n hn hkey
  rw [(h.idx k n.addr).mpr ⟨n, hn, hkey, rfl⟩] at hk
  cases hk

/-- Within the list an address stands for its key. -/
theorem WF.addr_iff_key (h : l.WF) {n n' : LruNode} (hn : n ∈ l.dq) (hn' : n' ∈ l.dq) :
    n.addr = n'.addr ↔ n.key = n'.key := by
  constructor
  · intro ha
    rw [List.inj_on_of_nodup_map h.addrs hn hn' ha]
  · intro hk
    rw [List.inj_on_of_nodup_map h.keys hn hn' hk]

theorem cget_eq_lookupKey (h : l.WF) (k : String) : l.cget k = lookupKey l.entries k := by
  cases hk : l.idx.lookup k with
  | none =>
    have hnone : lookupKey l.entries k = none := by
      rw [lookupKey_eq_none_iff]
      intro entry hentry
      obtain ⟨n, hn, rfl⟩ := List.mem_map.mp hentry
      exact h.key_ne hk n hn
    simp [cget, hk, hnone]
  | some it =>
    obtain ⟨n, hn, hkey, ha⟩ := (h.idx k it).mp hk
    have hfind : l.dq.find? (fun m => m.addr = it) = some n :=
      (find?_eq_some_iff h.addrs).mpr ⟨hn, ha⟩
    have hentry : lookupKey l.entries k = some n.value := by
      rw [lookupKey_eq_some_iff (by rw [keys_entries]; exact h.keys), ← hkey]
      exact List.mem_map_of_mem hn
    simp [cget, hk, hfind, hentry]

theorem popBack_spec (h : l.WF) :
    l.popBack.WF ∧ l.popBack.entries = l.entries.dropLast ∧ l.popBack.cap = l.cap := by
  unfold popBack
  cases hlast : l.dq.getLast? with
  | none =>
    have hnil : l.dq = [] := List.getLast?_eq_none_iff.mp hlast
    exact ⟨h, by simp [entries, hnil], rfl⟩
  | some n =>
    obtain ⟨init, hdq⟩ : ∃ init, l.dq = init ++ [n] := by
      obtain ⟨init, hinit⟩ := List.getLast?_eq_some_iff.mp hlast
      exact ⟨init, hinit⟩
    have haddrs := h.addrs
    have hkeys := h.keys
    rw [hdq, List.map_append, List.nodup_append] at haddrs hkeys
    refine ⟨⟨h.cap, ?_, ?_, ?_, ?_⟩, by simp [entries, hdq], rfl⟩
    · simpa [hdq] using haddrs.1
    · simpa [hdq] using hkeys.1
    · intro k it
      simp only [hdq, List.dropLast_concat]
      have hne : ∀ m ∈ init, m.key ≠ n.key := fun m hm =>
        hkeys.2.2 m.key (List.mem_map_of_mem hm) n.key (by simp)
      by_cases hk : k = n.key
      · subst hk
        rw [AList.lookup_erase]
        constructor
        · intro hsome
          cases hsome
        · rintro ⟨m, hm, hkey, -⟩
          exact absurd hkey (hne m hm)
      · rw [AList.lookup_erase_ne hk, h.idx, hdq]
        constructor
        · rintro ⟨m, hm, hkey, ha⟩
          rcases List.mem_append.mp hm with hm | hm
          · exact ⟨m, hm, hkey, ha⟩
          · rw [List.mem_singleton.mp hm] at hkey
            exact absurd hkey.symm hk
        · rintro ⟨m, hm, hkey, ha⟩
          exact ⟨m, List.mem_append_left _ hm, hkey, ha⟩
    · intro m hm
      exact h.fresh m (List.dropLast_subset _ hm)

theorem trim_spec (h : l.WF) :
    l.trim.WF ∧ l.trim.entries = l.entries.take l.cap ∧ l.trim.cap = l.cap := by
  have hrounds : ∀ rounds, (popBack^[rounds] l).WF ∧
      (popBack^[rounds] l).entries = l.entries.take (l.dq.length - rounds) ∧
        (popBack^[rounds] l).cap = l.cap := by
    intro rounds
    induction rounds with
    | zero => exact ⟨h, by simp [entries], rfl⟩
    | succ rounds ih =>
      obtain ⟨hwf, hentries, hcap⟩ := ih
      obtain ⟨hwf', hentries', hcap'⟩ := popBack_spec hwf
      rw [Function.iterate_succ_apply']
      refine ⟨hwf', ?_, hcap'.trans hcap⟩
      rw [hentries', hentries, List.dropLast_eq_take, List.take_take, List.length_take]
      congr 1
      simp only [entries, List.length_map]
      omega
  obtain ⟨hwf, hentries, hcap⟩ := hrounds (l.dq.length - l.cap)
  refine ⟨hwf, ?_, hcap⟩
  rw [trim, hentries]
  by_cases hle : l.cap ≤ l.dq.length
  · rw [Nat.sub_sub_self hle]
  · have hlen : l.entries.length ≤ l.cap := by
      simp only [entries, List.length_map]
      omega
    rw [List.take_of_length_le hlen, List.take_of_length_le]
    simp only [entries, List.length_map]
    omega

theorem setCap_wf (h : l.WF) (c : ℕ) : (l.setCap c).WF := by
  have hcap : 0 < if c ≠ 0 then c else 1 := by
    split_ifs with hc
    · exact Nat.pos_of_ne_zero hc
    · exact Nat.one_pos
  have hwf : WF { l with cap := if c ≠ 0 then c else 1 } :=
    ⟨hcap, h.addrs, h.keys, h.idx, h.fresh⟩
  exact (trim_spec hwf).1

/-- An entry that is there is overwritten and moved to the front. -/
theorem put_hit (h : l.WF) {it : ℕ} (hk : l.idx.lookup k = some it) :
    (l.put k v).WF ∧ (l.put k v).entries = (k, v) :: removeKey Prod.fst k l.entries := by
  obtain ⟨n, hn, rfl, rfl⟩ := (h.idx k it).mp hk
  have hput : l.put n.key v =
      { l with dq := { n with value := v } :: l.dq.filter (fun m => m.addr ≠ n.addr) } := by
    have hself := filter_key_eq_singleton h.addrs hn
    simp only [put, hk, hself, List.map_cons, List.map_nil, List.cons_append, List.nil_append]
  have hperm : (n :: l.dq.filter (fun m => m.addr ≠ n.addr)).Perm l.dq := by
    have happend := List.filter_append_perm (fun m : LruNode => m.addr = n.addr) l.dq
    rw [filter_key_eq_singleton h.addrs hn] at happend
    simpa using happend
  rw [hput]
  refine ⟨⟨h.cap, ?_, ?_, ?_, ?_⟩, ?_⟩
  · exact (hperm.map LruNode.addr).nodup_iff.mpr h.addrs
  · exact (hperm.map LruNode.key).nodup_iff.mpr h.keys
  · intro k' it'
    rw [h.idx]
    have hmem : ∀ m, m ∈ l.dq ↔ m = n ∨ m ∈ l.dq.filter (fun m => m.addr ≠ n.addr) :=
      fun m => hperm.mem_iff.symm.trans List.mem_cons
    simp only [hmem, List.mem_cons]
    constructor
    · rintro ⟨m, rfl | hm, hkey, ha⟩
      · exact ⟨{ m with value := v }, .inl rfl, hkey, ha⟩
      · exact ⟨m, .inr hm, hkey, ha⟩
    · rintro ⟨m, rfl | hm, hkey, ha⟩
      · exact ⟨n, .inl rfl, hkey, ha⟩
      · exact ⟨m, .inr hm, hkey, ha⟩
  · intro m hm
    rcases List.mem_cons.mp hm with rfl | hm
    · exact h.fresh n hn
    · exact h.fresh m (List.mem_of_mem_filter hm)
  · rw [entries, List.map_cons, entries, removeKey, List.filter_map]
    congr 2
    apply List.filter_congr
    intro m hm
    simp [h.addr_iff_key hm hn]

/-- A new entry goes to the front, and what is over the capacity is cut off. -/
theorem put_miss (h : l.WF) (hk : l.idx.lookup k = none) :
    (l.put k v).WF ∧ (l.put k v).entries = ((k, v) :: l.entries).take l.cap := by
  have hne := h.key_ne hk
  have hwf : WF { l with dq := ⟨l.nextAddr, k, v⟩ :: l.dq, idx := l.idx.insert k l.nextAddr,
                         nextAddr := l.nextAddr + 1 } := by
    refine ⟨h.cap, ?_, ?_, ?_, ?_⟩
    · refine List.nodup_cons.mpr ⟨?_, h.addrs⟩
      intro hmem
      obtain ⟨n, hn, ha⟩ := List.mem_map.mp hmem
      exact absurd ha (h.fresh n hn).ne
    · refine List.nodup_cons.mpr ⟨?_, h.keys⟩
      intro hmem
      obtain ⟨n, hn, hkey⟩ := List.mem_map.mp hmem
      exact hne n hn hkey
    · intro k' it
      by_cases hk' : k' = k
      · subst hk'
        rw [AList.lookup_insert]
        constructor
        · intro hit
          exact ⟨_, List.mem_cons_self, rfl, Option.some.inj hit⟩
        · rintro ⟨n, hn, hkey, ha⟩
          rcases List.mem_cons.mp hn with rfl | hn
          · exact congrArg some ha
          · exact absurd hkey (hne n hn)
      · rw [AList.lookup_insert_ne hk', h.idx]
        constructor
        · rintro ⟨n, hn, hkey, ha⟩
          exact ⟨n, List.mem_cons_of_mem _ hn, hkey, ha⟩
        · rintro ⟨n, hn, hkey, ha⟩
          rcases List.mem_cons.mp hn with rfl | hn
          · exact absurd hkey.symm hk'
          · exact ⟨n, hn, hkey, ha⟩
    · intro n hn
      rcases List.mem_cons.mp hn with rfl | hn
      · exact Nat.lt_succ_self _
      · exact (h.fresh n hn).trans (Nat.lt_succ_self _)
  have hput : l.put k v = trim { l with dq := ⟨l.nextAddr, k, v⟩ :: l.dq,
                                        idx := l.idx.insert k l.nextAddr,
                                        nextAddr := l.nextAddr + 1 } := by
    simp only [put, hk]
  obtain ⟨htrim, hentries, -⟩ := trim_spec hwf
  rw [hput]
  exact ⟨htrim, hentries⟩

theorem put_wf (h : l.WF) (k : String) (v : OrderKey) : (l.put k v).WF := by
  cases hk : l.idx.lookup k with
  | none => exact (put_miss h hk).1
  | some it => exact (put_hit h hk).1

/-- The entry just written is found, whatever the capacity. -/
theorem cget_put (h : l.WF) (k : String) (v : OrderKey) : (l.put k v).cget k = some v := by
  rw [cget_eq_lookupKey (put_wf h k v)]
  cases hk : l.idx.lookup k with
  | none =>
    obtain ⟨c, hc⟩ := Nat.exists_eq_succ_of_ne_zero h.cap.ne'
    rw [(put_miss h hk).2, hc, List.take_succ_cons, lookupKey_cons, if_pos rfl]
  | some it => rw [(put_hit h hk).2, lookupKey_cons, if_pos rfl]

end Lru

namespace OrderBookManager
variable {D : Type}

/-- Every symbol's resolver satisfies the invariant. -/
def ResolverWF (m : OrderBookManager D) : Prop := ∀ s l, m.resolver s = some l → l.WF

section
variable {m : OrderBookManager D}

theorem ResolverWF.getD (h : m.ResolverWF) (s : String) : ((m.resolver s).getD {}).WF := by
  cases hl : m.resolver s with
  | none => exact Lru.wf_empty
  | some l => exact h s l hl

theorem resolverGet_resolverPut (h : m.ResolverWF) (symbol venueKey : String) (key : OrderKey) :
    (m.resolverPut symbol venueKey key).resolverGet symbol venueKey = some key := by
  simp only [resolverGet, resolverPut, Function.update_self, Option.bind_eq_bind,
    Option.bind_some]
  exact Lru.cget_put (h.getD symbol) venueKey key

@[simp] theorem resolver_setBook (symbol : String) (b : OrderBook) :
    (m.setBook symbol b).resolver = m.resolver := rfl

@[simp] theorem resolver_maybePublishDelta (symbol : String) (levels : List LevelDelta)
    (newBid newAsk : Option (Price × UInt64)) :
    (m.maybePublishDelta symbol levels newBid newAsk).1.resolver = m.resolver := by
  unfold maybePublishDelta
  split_ifs <;> rfl

@[simp] theorem resolver_mutateWithDelta (symbol : String) (candidates : List (Side × Price))
    (mutator : OrderBook → OrderBook × Bool) :
    (m.mutateWithDelta symbol candidates mutator).mgr.resolver = m.resolver := by
  unfold mutateWithDelta
  dsimp only
  split
  · rfl
  · exact resolver_maybePublishDelta _ _ _ _

@[simp] theorem resolver_afterSnapshot (symbol : String) (snapshotSeq : Option UInt64) :
    (m.afterSnapshot symbol snapshotSeq).1.resolver = m.resolver :=
  resolver_maybePublishDelta _ _ _ _

theorem resolver_onDeleteKey (symbol : String) (key : OrderKey) :
    (m.onDeleteKey symbol key).mgr.resolver = m.resolver := by
  unfold onDeleteKey
  split_ifs <;> simp

theorem resolver_onPriorityKey (symbol : String) (key : OrderKey) (newPriority : UInt64) :
    (m.onPriorityKey symbol key newPriority).mgr.resolver = m.resolver := by
  unfold onPriorityKey
  split_ifs <;> simp

variable [Double D]

theorem resolver_onAddGetKey (symbol : String) (id : UInt64) (side : Side) (price : D)
    (size priority : UInt64) (scope : FeedScope) (idMissing : Bool) :
    (m.onAddGetKey symbol id side price size priority scope idMissing).mgr.resolver =
      m.resolver := by
  unfold onAddGetKey
  split_ifs <;> simp

theorem resolver_onUpdateKey (symbol : String) (key : OrderKey) (newPrice : Option D)
    (newSize : Option UInt64) :
    (m.onUpdateKey symbol key newPrice newSize).mgr.resolver = m.resolver := by
  unfold onUpdateKey
  split_ifs <;> simp

/-- What an operation files in a resolver: the symbol, the venue key and the order key. A venue-key
add files the answer of its add, unless that one is all zero. -/
def filedEntry (m : OrderBookManager D) : ManagerOp D → Option (String × String × OrderKey)
  | .resolverPut symbol venueKey key => some (symbol, venueKey, key)
  | .addWithVenueKey symbol venueKey id side price size priority scope idMissing =>
    let k := (m.onAddGetKey symbol id side price size priority scope idMissing).ret
    if k.id = 0 ∧ k.feedId = 0 ∧ k.epoch = 0 then none else some (symbol, venueKey, k)
  | _ => none

/-- The resolvers with one more entry. -/
def file (resolver : String → Option Lru) (entry : String × String × OrderKey) :
    String → Option Lru :=
  Function.update resolver entry.1 (some (((resolver entry.1).getD {}).put entry.2.1 entry.2.2))

/-- Only a change of the capacity, a put and an accepted venue-key add write the resolvers. -/
theorem resolver_exec (m : OrderBookManager D) {op : ManagerOp D}
    (hop : ∀ cap, op ≠ .resolverSetCapacity cap) :
    (m.exec op).1.resolver = (m.filedEntry op).elim m.resolver (file m.resolver) := by
  cases op with
  | setTickSize symbol tickSize => rfl
  | setAllowNegativePrices allow => rfl
  | seq symbol seq =>
    simp only [exec, onSeq, Outcome.effect]
    split_ifs <;> rfl
  | reset symbol newEpoch => rfl
  | resolverSetCapacity cap => exact absurd rfl (hop cap)
  | resolverPut symbol venueKey key => rfl
  | addGetKey symbol id side price size priority scope idMissing =>
    exact resolver_onAddGetKey symbol id side price size priority scope idMissing
  | add symbol id side price size priority scope idMissing =>
    simp only [exec, onAdd, Outcome.effect]
    split_ifs <;> simp [filedEntry]
  | update symbol id scope newPrice newSize synthetic =>
    exact resolver_onUpdateKey symbol _ newPrice newSize
  | updateKey symbol key newPrice newSize =>
    exact resolver_onUpdateKey symbol key newPrice newSize
  | delete symbol id scope synthetic => exact resolver_onDeleteKey symbol _
  | deleteKey symbol key => exact resolver_onDeleteKey symbol key
  | priority symbol id scope newPriority synthetic =>
    exact resolver_onPriorityKey symbol _ newPriority
  | priorityKey symbol key newPriority => exact resolver_onPriorityKey symbol key newPriority
  | addWithVenueKey symbol venueKey id side price size priority scope idMissing =>
    have hadd := resolver_onAddGetKey (m := m) symbol id side price size priority scope idMissing
    simp only [exec, onAddWithVenueKey, Outcome.effect, filedEntry]
    split_ifs
    · exact hadd
    · simp only [resolverPut, Option.elim_some, file, hadd]
  | updateByVenueKey symbol venueKey newPrice newSize =>
    simp only [exec, onUpdateByVenueKey, Outcome.effect]
    split_ifs
    · rfl
    · split
      · rfl
      · exact resolver_onUpdateKey symbol _ newPrice newSize
  | deleteByVenueKey symbol venueKey =>
    simp only [exec, onDeleteByVenueKey, Outcome.effect]
    split_ifs
    · rfl
    · split
      · rfl
      · exact resolver_onDeleteKey symbol _
  | trade symbol tradePrice size aggr =>
    simp only [exec, onTrade, Outcome.effect]
    split_ifs <;> simp [filedEntry]
  | snapshotPerOrder symbol tickOrders snapshotSeq => exact resolver_afterSnapshot _ _
  | snapshotAggregated symbol levelsD snapshotSeq => exact resolver_afterSnapshot _ _
  | levelSummary symbol side price totalSize orderCount =>
    simp only [exec, onLevelSummary, Outcome.effect]
    split_ifs <;> simp [filedEntry]

/-- What a change of the capacity and a filed entry keep of a resolver, every operation keeps. -/
theorem forall_resolver_exec {P : Lru → Prop} (hnew : P {})
    (hput : ∀ l k v, P l → P (l.put k v)) (hcap : ∀ l c, P l → P (l.setCap c))
    (h : ∀ s l, m.resolver s = some l → P l) (op : ManagerOp D) :
    ∀ s l, (m.exec op).1.resolver s = some l → P l := by
  by_cases hop : ∃ cap, op = .resolverSetCapacity cap
  · obtain ⟨cap, rfl⟩ := hop
    intro s l hl
    obtain ⟨l', hl', rfl⟩ := Option.map_eq_some_iff.mp hl
    exact hcap l' cap (h s l' hl')
  · rw [resolver_exec m (fun cap heq => hop ⟨cap, heq⟩)]
    cases m.filedEntry op with
    | none => exact h
    | some entry =>
      intro s l hl
      rw [Option.elim_some, file] at hl
      by_cases hs : s = entry.1
      · rw [hs, Function.update_self, Option.some_inj] at hl
        rw [← hl]
        refine hput _ _ _ ?_
        cases hold : m.resolver entry.1 with
        | none => exact hnew
        | some l' => exact h entry.1 l' hold
      · rw [Function.update_of_ne hs] at hl
        exact h s l hl

theorem exec_resolverWF (h : m.ResolverWF) (op : ManagerOp D) : (m.exec op).1.ResolverWF :=
  forall_resolver_exec Lru.wf_empty (fun _ k v hl => Lru.put_wf hl k v)
    (fun _ c hl => Lru.setCap_wf hl c) h op

theorem run_resolverWF (ops : List (ManagerOp D)) : (run ops).1.ResolverWF := by
  induction ops using List.reverseRecOn with
  | nil =>
    intro s l hl
    cases hl
  | append_singleton ops op ih =>
    rw [run, runFrom_concat]
    exact exec_resolverWF ih op

end

end OrderBookManager
end GmaEngine
