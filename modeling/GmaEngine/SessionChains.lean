import GmaEngine.ChainCalls
import GmaEngine.ClientSession
import GmaEngine.EntryMaps

/-!
# Chains of a session

An accepted chain ends when its key is canceled or taken by another request, or when the
session closes. Here is the invariant of the running system that keeps an ended chain quiet,
and that the threads beside the strand keep it.
-/

namespace GmaEngine

namespace System
variable {D : Type}

/-- The head of the chain is in the session's table. -/
def live (s : System D) (chain : NodeId) : Bool :=
  s.session.active.any (fun entry => decide (s.origins[entry.2]? = some chain))

/-- An accepted chain whose key was canceled or taken over, or whose session has closed. -/
def Ended (s : System D) (chain : NodeId) : Prop :=
  chain ∈ s.session.accepted ∧ (s.session.isOpen = true → s.live chain = false)

instance (s : System D) (chain : NodeId) : Decidable (s.Ended chain) :=
  inferInstanceAs (Decidable (_ ∧ (_ → _)))

/-- The update frames of a chain among some frames. -/
def updates (chain : NodeId) (frames : List (Frame D)) : List (Frame D) :=
  frames.filter (fun frame => match frame with
    | .update c _ _ => decide (c = chain)
    | _ => false)

structure WellFormed (s : System D) : Prop where
  heap : HeapOk s.rt s.origins
  heads : ∀ entry ∈ s.session.active,
    ∃ node, s.rt.nodes[entry.2]? = some node ∧ node.isListener = true
  keys : (s.session.active.map Prod.fst).Nodup
  calls : ∀ task ∈ s.pool, ∀ call ∈ task, call.node < s.rt.nodes.length
  accepted : ∀ chain ∈ s.session.accepted, chain < s.rt.nodes.length

/-- No node of the chain is registered and none of its timer threads runs. -/
structure Gone (rt : Runtime D) (origins : List NodeId) (chain : NodeId) : Prop where
  unlisted : ∀ {symbol field} {id : ℕ}, id ∈ rt.listeners symbol field → origins[id]? ≠ some chain
  still : ∀ {id : ℕ}, origins[id]? = some chain → ¬ rt.Ticking id

/-- Every call that is left is on a Listener that was shut down. -/
def CallsDropped (s : System D) (chain : NodeId) : Prop :=
  ∀ task ∈ s.pool, ∀ call ∈ task, s.origins[call.node]? = some chain →
    ∃ node, s.rt.nodes[call.node]? = some node ∧ node.isStopped = true

def NoSplit (rt : Runtime D) (origins : List NodeId) (chain : NodeId) : Prop :=
  ∀ (id : ℕ) (node), origins[id]? = some chain → rt.nodes[id]? = some node → node.isSplit = false

/-- What is left of an ended chain. While the session is open nothing of it moves; in a closed
session calls may still be made, but none that builds nodes. -/
structure Dead (s : System D) (chain : NodeId) : Prop where
  gone : Gone s.rt s.origins chain
  calls : s.CallsDropped chain ∨ s.session.isOpen = false ∧ NoSplit s.rt s.origins chain
  sends : s.session.isOpen = true → ∀ key value, Handler.send (.update chain key value) ∉ s.strand

structure Invariant (s : System D) : Prop where
  wellFormed : s.WellFormed
  dead : ∀ chain, s.Ended chain → s.Dead chain

/-- What a step keeps of the chains that have ended before. -/
structure Advances (s s' : System D) : Prop where
  invariant : s'.Invariant
  ended : ∀ chain, s.Ended chain → s'.Ended chain
  frames : ∀ chain, s.Ended chain →
    updates chain s'.session.enqueued = updates chain s.session.enqueued

section Evolves
variable {rt rt' : Runtime D} {origins : List NodeId} {chain other : NodeId}

/-- The nodes of another chain are old nodes. -/
theorem origin_of_extended
    (hother : other ≠ chain ∨ rt'.nodes.length = rt.nodes.length) {id : ℕ}
    (hid : (origins ++ List.replicate (rt'.nodes.length - rt.nodes.length) other)[id]? = some chain) :
    origins[id]? = some chain := by
  rcases Nat.lt_or_ge id origins.length with hlt | hge
  · rw [List.getElem?_append_left hlt] at hid
    exact hid
  · rw [List.getElem?_append_right hge, List.getElem?_replicate] at hid
    split_ifs at hid with hlt
    rcases hother with hne | heq
    · exact absurd (Option.some.inj hid) hne
    · omega

theorem extended_of_origin {n : ℕ} {id : ℕ} (hid : origins[id]? = some chain) :
    (origins ++ List.replicate n other)[id]? = some chain := by
  rw [List.getElem?_append_left (List.getElem?_eq_some_iff.mp hid).1]
  exact hid

theorem Gone.evolves (hgone : Gone rt origins chain) (hheap : HeapOk rt origins)
    (he : Evolves other origins rt rt')
    (hother : other ≠ chain ∨ rt'.nodes.length = rt.nodes.length) :
    Gone rt' (origins ++ List.replicate (rt'.nodes.length - rt.nodes.length) other) chain := by
  have hold : ∀ {id : ℕ}, (origins ++ List.replicate (rt'.nodes.length - rt.nodes.length)
      other)[id]? = some chain → origins[id]? = some chain := fun hid => origin_of_extended hother hid
  refine ⟨?_, ?_⟩
  · intro symbol field id hid horigin
    rcases he.listed hid with hmem | hge
    · exact hgone.unlisted hmem (hold horigin)
    · have hlt := hheap.lt (hold horigin)
      omega
  · intro id horigin htick
    obtain ⟨new, hnew, hticking⟩ := htick
    have hlt := hheap.lt (hold horigin)
    obtain ⟨new', hnew', hbecomes⟩ := he.nodes (List.getElem?_eq_getElem hlt)
    rw [hnew] at hnew'
    cases hnew'
    exact hgone.still (hold horigin)
      ⟨_, List.getElem?_eq_getElem hlt, hbecomes.ticking hticking⟩

theorem NoSplit.evolves (hno : NoSplit rt origins chain) (hheap : HeapOk rt origins)
    (he : Evolves other origins rt rt')
    (hother : other ≠ chain ∨ rt'.nodes.length = rt.nodes.length) :
    NoSplit rt' (origins ++ List.replicate (rt'.nodes.length - rt.nodes.length) other) chain := by
  intro id node horigin hnode
  have hold := origin_of_extended hother horigin
  have hlt := hheap.lt hold
  obtain ⟨new, hnew, hbecomes⟩ := he.nodes (List.getElem?_eq_getElem hlt)
  rw [hnode] at hnew
  cases hnew
  by_contra hsplit
  have hwas := hbecomes.isSplit (by simpa using hsplit)
  rw [hno id _ hold (List.getElem?_eq_getElem hlt)] at hwas
  cases hwas

end Evolves

/-- Another thread leaves the session's tables and what was put in the outbox. -/
structure Beside (s s' : System D) : Prop where
  isOpen : s'.session.isOpen = s.session.isOpen
  active : s'.session.active = s.session.active
  accepted : s'.session.accepted = s.session.accepted
  enqueued : s'.session.enqueued = s.session.enqueued
  origins : ∀ {id : ℕ} {chain}, s.origins[id]? = some chain → s'.origins[id]? = some chain

section Steps
variable {s s' : System D}

theorem WellFormed.origin (h : s.WellFormed) {id : ℕ} (hid : id < s.rt.nodes.length) :
    ∃ chain, s.origins[id]? = some chain := by
  rw [← h.heap.length] at hid
  exact ⟨_, List.getElem?_eq_getElem hid⟩

theorem WellFormed.head_origin (h : s.WellFormed) {entry : RequestKey × NodeId}
    (hentry : entry ∈ s.session.active) : ∃ chain, s.origins[entry.2]? = some chain := by
  obtain ⟨node, hnode, -⟩ := h.heads entry hentry
  exact h.origin (List.getElem?_eq_some_iff.mp hnode).1

theorem live_iff {chain : NodeId} :
    s.live chain = true ↔ ∃ entry ∈ s.session.active, s.origins[entry.2]? = some chain := by
  simp [live]

theorem Beside.live_eq (hb : Beside s s') (h : s.WellFormed) (chain : NodeId) :
    s'.live chain = s.live chain := by
  rw [Bool.eq_iff_iff, live_iff, live_iff, hb.active]
  constructor
  · rintro ⟨entry, hentry, horigin⟩
    obtain ⟨c, hc⟩ := h.head_origin hentry
    have hsame := (hb.origins hc).symm.trans horigin
    exact ⟨entry, hentry, hc.trans hsame⟩
  · rintro ⟨entry, hentry, horigin⟩
    exact ⟨entry, hentry, hb.origins horigin⟩

theorem Beside.ended_iff (hb : Beside s s') (h : s.WellFormed) (chain : NodeId) :
    s'.Ended chain ↔ s.Ended chain := by
  unfold Ended
  rw [hb.accepted, hb.isOpen, hb.live_eq h chain]

theorem Beside.advances (hb : Beside s s') (h : s.Invariant) (hwf : s'.WellFormed)
    (hdead : ∀ chain, s.Ended chain → s'.Dead chain) : Advances s s' := by
  refine ⟨⟨hwf, ?_⟩, ?_, ?_⟩
  · intro chain hended
    exact hdead chain ((hb.ended_iff h.wellFormed chain).mp hended)
  · intro chain hended
    exact (hb.ended_iff h.wellFormed chain).mpr hended
  · intro chain _
    rw [hb.enqueued]

/-- Well-formedness follows the heap. -/
theorem WellFormed.evolves (h : s.WellFormed) {chain : NodeId}
    (he : Evolves chain s.origins s.rt s'.rt)
    (horigins : s'.origins =
      s.origins ++ List.replicate (s'.rt.nodes.length - s.rt.nodes.length) chain)
    (hactive : s'.session.active = s.session.active)
    (haccepted : s'.session.accepted = s.session.accepted)
    (hcalls : ∀ task ∈ s'.pool, ∀ call ∈ task, call.node < s'.rt.nodes.length) : s'.WellFormed := by
  have hle := he.length_le
  refine ⟨?_, ?_, ?_, hcalls, ?_⟩
  · rw [horigins]
    exact he.heap
  · intro entry hentry
    rw [hactive] at hentry
    obtain ⟨node, hnode, hlistener⟩ := h.heads entry hentry
    obtain ⟨new, hnew, hbecomes⟩ := he.nodes hnode
    exact ⟨new, hnew, hbecomes.isListener ▸ hlistener⟩
  · rw [hactive]
    exact h.keys
  · intro c hc
    rw [haccepted] at hc
    exact (h.accepted c hc).trans_le hle

/-- An ended chain stays as it is when the heap evolves for another chain, or without new
nodes, and the new calls and handlers are not its own. -/
theorem Dead.evolves {chain other : NodeId} (hdead : s.Dead chain) (hwf : s.WellFormed)
    (he : Evolves other s.origins s.rt s'.rt)
    (horigins : s'.origins =
      s.origins ++ List.replicate (s'.rt.nodes.length - s.rt.nodes.length) other)
    (hother : other ≠ chain ∨ s'.rt.nodes.length = s.rt.nodes.length)
    (hopen : s'.session.isOpen = s.session.isOpen)
    (hpool : s.CallsDropped chain → ∀ task ∈ s'.pool, ∀ call ∈ task,
      s'.origins[call.node]? = some chain → ∃ old ∈ s.pool, call ∈ old)
    (hsends : s.session.isOpen = true → ∀ key value,
      Handler.send (.update chain key value) ∈ s'.strand →
      Handler.send (.update chain key value) ∈ s.strand) : s'.Dead chain := by
  refine ⟨?_, ?_, ?_⟩
  · rw [horigins]
    exact hdead.gone.evolves hwf.heap he hother
  · rcases hdead.calls with hdropped | ⟨hclosed, hsplit⟩
    · left
      intro task htask call hcall horigin
      obtain ⟨old, hold, hmem⟩ := hpool hdropped task htask call hcall horigin
      rw [horigins] at horigin
      obtain ⟨node, hnode, hstopped⟩ :=
        hdropped old hold call hmem (origin_of_extended hother horigin)
      obtain ⟨new, hnew, hbecomes⟩ := he.nodes hnode
      exact ⟨new, hnew, hbecomes.isStopped hstopped⟩
    · right
      refine ⟨hopen.trans hclosed, ?_⟩
      rw [horigins]
      exact hsplit.evolves hwf.heap he hother
  · intro hopen' key value hmem
    have hwas : s.session.isOpen = true := hopen ▸ hopen'
    exact hdead.sends hwas key value (hsends hwas key value hmem)

/-- More handlers on the strand, none of which sends an update. -/
theorem advances_handlers (h : s.Invariant) {handlers : List (Handler D)}
    (hnew : ∀ handler ∈ handlers, handler ∈ s.strand ∨
      ∀ chain key value, handler ≠ .send (.update chain key value)) :
    Advances s { s with strand := handlers } := by
  refine Beside.advances ?_ h ?_ ?_
  · exact ⟨rfl, rfl, rfl, rfl, fun h => h⟩
  · exact ⟨h.wellFormed.heap, h.wellFormed.heads, h.wellFormed.keys, h.wellFormed.calls,
      h.wellFormed.accepted⟩
  · intro chain hended
    have hdead := h.dead chain hended
    refine ⟨hdead.gone, hdead.calls, ?_⟩
    intro hopen key value hmem
    rcases hnew _ hmem with hold | hne
    · exact hdead.sends hopen key value hold
    · exact hne chain key value rfl

/-- The Dispatcher posts calls on registered listeners, which are of no ended chain. -/
theorem advances_notifyListeners (h : s.Invariant) (symbol field : String) (value : D) :
    Advances s (s.notifyListeners symbol field value) := by
  have hpool : ∀ task ∈ (s.notifyListeners symbol field value).pool, task ∈ s.pool ∨
      ∃ id ∈ s.rt.listeners symbol field, task = [⟨id, ⟨symbol, .double value⟩⟩] := by
    intro task htask
    rcases List.mem_append.mp htask with hold | hnew
    · exact .inl hold
    · obtain ⟨id, hid, rfl⟩ := List.mem_map.mp hnew
      exact .inr ⟨id, hid, rfl⟩
  refine Beside.advances ?_ h ?_ ?_
  · exact ⟨rfl, rfl, rfl, rfl, fun h => h⟩
  · refine ⟨h.wellFormed.heap, h.wellFormed.heads, h.wellFormed.keys, ?_, h.wellFormed.accepted⟩
    intro task htask call hcall
    rcases hpool task htask with hold | ⟨id, hid, rfl⟩
    · exact h.wellFormed.calls task hold call hcall
    · obtain ⟨downstream, hnode⟩ := h.wellFormed.heap.listed hid
      obtain rfl := List.mem_singleton.mp hcall
      exact (List.getElem?_eq_some_iff.mp hnode).1
  · intro chain hended
    have hdead := h.dead chain hended
    refine ⟨hdead.gone, ?_, hdead.sends⟩
    rcases hdead.calls with hdropped | hclosed
    · left
      intro task htask call hcall horigin
      rcases hpool task htask with hold | ⟨id, hid, rfl⟩
      · exact hdropped task hold call hcall horigin
      · obtain rfl := List.mem_singleton.mp hcall
        exact absurd horigin (hdead.gone.unlisted hid)
    · exact .inr hclosed

variable [Double D]

/-- A timer posts to the nodes of its own chain, and only while its thread runs. -/
theorem advances_fireTimer (h : s.Invariant) (id : NodeId) : Advances s (s.fireTimer id) := by
  have hwf := h.wellFormed
  obtain ⟨hlen, -, hposted⟩ := Runtime.timerLoop_spec hwf.heap id id
  have hev := fun c => (Runtime.timerLoop_spec hwf.heap c id).2.1
  have hnone : ∀ c, s.origins ++ List.replicate
      ((s.rt.timerLoop id).1.nodes.length - s.rt.nodes.length) c = s.origins := by
    intro c
    rw [hlen, Nat.sub_self, List.replicate_zero, List.append_nil]
  have hpool : ∀ task ∈ (s.fireTimer id).pool, task ∈ s.pool ∨
      ∃ call ∈ (s.rt.timerLoop id).2, task = [call] := by
    intro task htask
    rcases List.mem_append.mp htask with hold | hnew
    · exact .inl hold
    · obtain ⟨call, hcall, rfl⟩ := List.mem_map.mp hnew
      exact .inr ⟨call, hcall, rfl⟩
  refine Beside.advances ?_ h ?_ ?_
  · exact ⟨rfl, rfl, rfl, rfl, fun h => h⟩
  · refine hwf.evolves (hev id) (hnone id).symm rfl rfl ?_
    intro task htask call hcall
    change call.node < (s.rt.timerLoop id).1.nodes.length
    rw [hlen]
    rcases hpool task htask with hold | ⟨posted, hmem, rfl⟩
    · exact hwf.calls task hold call hcall
    · obtain rfl := List.mem_singleton.mp hcall
      obtain ⟨htick, horigin⟩ := hposted call hmem
      obtain ⟨c, hc⟩ := hwf.origin htick.lt
      exact hwf.heap.lt (horigin.trans hc)
  · intro chain hended
    have hdead := h.dead chain hended
    refine hdead.evolves hwf (hev id) (hnone id).symm (.inr hlen) rfl ?_ (fun _ _ _ hmem => hmem)
    intro _ task htask call hcall horigin
    rcases hpool task htask with hold | ⟨posted, hmem, rfl⟩
    · exact ⟨task, hold, hcall⟩
    · obtain rfl := List.mem_singleton.mp hcall
      obtain ⟨htick, hsame⟩ := hposted call hmem
      exact absurd htick (hdead.gone.still (hsame.symm.trans horigin))

/-- The calls in the pool after a worker's step: those that were there, without the one that
was made, and those that it led to. -/
theorem mem_pool_work {env : SessionEnv D} {store : String → String → Option (ArgType D)} {n : ℕ}
    {call : Call D} {rest : List (Call D)} (hn : s.pool[n]? = some (call :: rest))
    {task : List (Call D)} (htask : task ∈ (s.work env store n).pool) {made : Call D}
    (hmade : made ∈ task) :
    (∃ old ∈ s.pool, made ∈ old) ∨
      made ∈ (s.rt.onValue env.build store (s.rt.alive s.roots) call.node call.value).2.calls ++
        (s.rt.onValue env.build store (s.rt.alive s.roots) call.node call.value).2.posted := by
  have hmem : call :: rest ∈ s.pool := List.mem_of_getElem? hn
  simp only [work, hn] at htask
  rcases List.mem_append.mp htask with hset | hposted
  · rcases List.mem_or_eq_of_mem_set hset with hold | rfl
    · exact .inl ⟨task, hold, hmade⟩
    · split_ifs at hmade
      · cases hmade
      · rcases List.mem_append.mp hmade with hcalls | hrest
        · exact .inr (List.mem_append_left _ hcalls)
        · exact .inl ⟨_, hmem, List.mem_cons_of_mem _ hrest⟩
  · obtain ⟨posted, hmem', rfl⟩ := List.mem_map.mp hposted
    obtain rfl := List.mem_singleton.mp hmade
    exact .inr (List.mem_append_right _ hmem')

/-- A call concerns the chain of its node only; an ended chain has no call left that does
anything, unless the session is closed. -/
theorem advances_work (h : s.Invariant) (env : SessionEnv D)
    (store : String → String → Option (ArgType D)) (n : ℕ) : Advances s (s.work env store n) := by
  have hwf := h.wellFormed
  rcases hn : s.pool[n]? with _ | (_ | ⟨call, rest⟩)
  · have hsame : s.work env store n = s := by simp only [work, hn]
    rw [hsame]
    exact ⟨h, fun _ he => he, fun _ _ => rfl⟩
  · have hsame : s.work env store n = s := by simp only [work, hn]
    rw [hsame]
    exact ⟨h, fun _ he => he, fun _ _ => rfl⟩
  · obtain ⟨chain, hchain⟩ := hwf.origin
      (hwf.calls _ (List.mem_of_getElem? hn) call List.mem_cons_self)
    set out := s.rt.onValue env.build store (s.rt.alive s.roots) call.node call.value with hout
    obtain ⟨hev, hcalls⟩ : Runtime.Stays chain s.origins s.rt out :=
      Runtime.stays_onValue env.build store _ hwf.heap hchain call.value
    have hrt : (s.work env store n).rt = out.1 := by
      simp only [work, hn, withRuntime, hout]
    have horigins : (s.work env store n).origins =
        s.origins ++ List.replicate ((s.work env store n).rt.nodes.length - s.rt.nodes.length)
          chain := by
      simp only [work, hn, withRuntime, hchain, Option.getD_some]
    have hstrand : ∀ handler ∈ (s.work env store n).strand, handler ∈ s.strand ∨
        s.session.isOpen = true ∧ ∃ sent ∈ out.2.sent,
          handler = .send (.update chain sent.1 sent.2) := by
      intro handler hmem
      simp only [work, hn, withRuntime, hchain, Option.getD_some] at hmem
      rcases List.mem_append.mp hmem with hold | hnew
      · exact .inl hold
      · split_ifs at hnew with hopen
        · obtain ⟨sent, hsent, rfl⟩ := List.mem_map.mp hnew
          exact .inr ⟨hopen, sent, hsent, rfl⟩
        · cases hnew
    rw [← hrt] at hev hcalls
    -- a call on a listener that was shut down does nothing
    have hstopped : s.CallsDropped chain → out = (s.rt, {}) := by
      intro hdropped
      obtain ⟨node, hnode, hstop⟩ := hdropped _ (List.mem_of_getElem? hn) call List.mem_cons_self hchain
      exact Runtime.onValue_of_stopped env.build store _ hnode hstop call.value
    refine Beside.advances ?_ h ?_ ?_
    · refine ⟨?_, ?_, ?_, ?_, ?_⟩
      iterate 4 simp only [work, hn, withRuntime]
      intro id c hid
      rw [horigins]
      exact extended_of_origin hid
    · refine hwf.evolves hev horigins (by simp only [work, hn, withRuntime])
        (by simp only [work, hn, withRuntime]) ?_
      intro task htask made hmade
      rcases mem_pool_work hn htask hmade with ⟨old, hold, hmem⟩ | hnew
      · exact (hwf.calls old hold made hmem).trans_le hev.length_le
      · exact hev.heap.lt (hcalls made hnew)
    · intro ended hended
      have hdead := h.dead ended hended
      refine hdead.evolves hwf hev horigins ?_ (by simp only [work, hn, withRuntime]) ?_ ?_
      · by_cases hne : chain = ended
        · subst hne
          right
          rw [hrt]
          rcases hdead.calls with hdropped | ⟨-, hsplit⟩
          · rw [hstopped hdropped]
          · have hlt := hwf.heap.lt hchain
            exact (Runtime.onValue_of_not_split env.build store _ (List.getElem?_eq_getElem hlt)
              (hsplit _ _ hchain (List.getElem?_eq_getElem hlt)) call.value).1
        · exact .inl hne
      · intro hdropped task htask made hmade horigin
        rcases mem_pool_work hn htask hmade with hold | hnew
        · exact hold
        · have hin := hcalls made hnew
          rw [← horigins, horigin] at hin
          cases hin
          rw [← hout, hstopped hdropped] at hnew
          cases hnew
      · intro hopen key value hmem
        rcases hstrand _ hmem with hold | ⟨-, sent, hsent, heq⟩
        · exact hold
        · cases heq
          rcases hdead.calls with hdropped | ⟨hclosed, -⟩
          · rw [hstopped hdropped] at hsent
            cases hsent
          · rw [hopen] at hclosed
            cases hclosed

end Steps
end System
end GmaEngine
