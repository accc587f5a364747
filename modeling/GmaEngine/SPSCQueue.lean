import GmaEngine.CircularIndices

/-!
# The single-producer single-consumer queue

One thread pushes, another one pops, drops and drains. The steps are the loads and stores of the two
indices and the accesses to the slots; those of the two threads interleave in any order.
-/

namespace GmaEngine

/-- Where the producer stands in `try_push`. -/
inductive Producer (T : Type) where
  | idle
  /-- `head` has been loaded. -/
  | loaded (v : T) (h : ℕ)
  /-- `tail` has been loaded and is not the next index. -/
  | room (v : T) (h n : ℕ)
  /-- The slot has been written. -/
  | written (v : T) (n : ℕ)

/-- The caller of a `try_pop`. -/
inductive PopCaller where
  | user
  /-- A `drain` with its bound and its counter. -/
  | drain (max cnt : ℕ)

/-- Where the consumer stands in `try_pop`, `drain` or `drop_one`. -/
inductive Consumer (T : Type) where
  | idle
  /-- Before the next round of `drain`. -/
  | draining (max cnt : ℕ)
  /-- `tail` has been loaded. -/
  | loaded (caller : PopCaller) (t : ℕ)
  /-- `head` has been loaded and is not this index. -/
  | found (caller : PopCaller) (t : ℕ)
  /-- The value has been moved out of the slot. -/
  | taken (caller : PopCaller) (t : ℕ) (out : T)
  /-- `drain` has popped an item. -/
  | handing (max cnt : ℕ) (item : T)
  | dropLoaded (t : ℕ)
  | dropFound (t : ℕ)

namespace Producer
variable {T : Type} {buf : ℕ → T} {cap head held held' : ℕ}

/-- The slot that the producer writes next. -/
def writes : Producer T → Option ℕ
  | .room _ h _ => some h
  | _ => none

/-- What the producer has loaded is current, and the room that it has found is still there. -/
def Ok (buf : ℕ → T) (cap head held : ℕ) : Producer T → Prop
  | .idle => True
  | .loaded _ h => h = head
  | .room _ h n => h = head ∧ n = (head + 1) % cap ∧ held < cap - 1
  | .written v n => buf head = v ∧ n = (head + 1) % cap ∧ held < cap - 1

/-- Room stays when the queue gets shorter. -/
theorem Ok.mono {p : Producer T} (h : p.Ok buf cap head held) (hle : held' ≤ held) :
    p.Ok buf cap head held' := by
  cases p with
  | idle => trivial
  | loaded v i => exact h
  | room v i n => exact ⟨h.1, h.2.1, hle.trans_lt h.2.2⟩
  | written v n => exact ⟨h.1, h.2.1, hle.trans_lt h.2.2⟩

end Producer

namespace Consumer
variable {T : Type} {tail held held' : ℕ}

/-- The consumer holds no value of a slot. -/
def settled : Consumer T → Bool
  | .taken .. => false
  | _ => true

/-- What the consumer has loaded is current, and the value that it has found is still there. -/
def Ok (tail held : ℕ) : Consumer T → Prop
  | .loaded _ t | .dropLoaded t => t = tail
  | .found _ t | .taken _ t _ | .dropFound t => t = tail ∧ 0 < held
  | _ => True

/-- A value stays when the queue gets longer. -/
theorem Ok.mono {c : Consumer T} (h : c.Ok tail held) (hle : held ≤ held') : c.Ok tail held' := by
  cases c with
  | loaded caller t => exact h
  | dropLoaded t => exact h
  | found caller t => exact ⟨h.1, h.2.trans_le hle⟩
  | taken caller t out => exact ⟨h.1, h.2.trans_le hle⟩
  | dropFound t => exact ⟨h.1, h.2.trans_le hle⟩
  | _ => trivial

end Consumer

structure SPSCQueue (T : Type) where
  cap : ℕ
  /-- The elements of the vector by index. -/
  buf : ℕ → T
  head : ℕ := 0
  tail : ℕ := 0
  producer : Producer T := .idle
  consumer : Consumer T := .idle

namespace SPSCQueue
open CircularIndices
variable {T : Type}

/-- What a step does for the callers: a push, pop or drop that takes effect or fails, an item that
`drain` passes on, and the value it returns. -/
inductive Event (T : Type) where
  | pushed (v : T)
  | pushFull
  | popped (v : T)
  | popEmpty
  | dropped (v : T)
  | dropEmpty
  | handed (v : T)
  | drained (cnt : ℕ)

/-- A thread starts a call or makes its next step. -/
inductive Action (T : Type) where
  | tryPush (v : T)
  | producer
  | tryPop
  | drain (max : ℕ)
  | dropOne
  | consumer

def tryPush (q : SPSCQueue T) (v : T) : SPSCQueue T :=
  match q.producer with
  | .idle => { q with producer := .loaded v q.head }
  | _ => q

/-- The next step of `try_push`. -/
def producerStep (q : SPSCQueue T) : SPSCQueue T × List (Event T) :=
  match q.producer with
  | .idle => (q, [])
  | .loaded v h =>
    let n := (h + 1) % q.cap
    if n = q.tail then ({ q with producer := .idle }, [.pushFull])
    else ({ q with producer := .room v h n }, [])
  | .room v h n => ({ q with buf := Function.update q.buf h v, producer := .written v n }, [])
  | .written v n => ({ q with head := n, producer := .idle }, [.pushed v])

/-- A call of the consumer, if it is in none. -/
def start (q : SPSCQueue T) (call : Consumer T) : SPSCQueue T :=
  match q.consumer with
  | .idle => { q with consumer := call }
  | _ => q

/-- `try_pop` returns to its caller without a value. -/
def popEmpty (q : SPSCQueue T) : PopCaller → SPSCQueue T × List (Event T)
  | .user => ({ q with consumer := .idle }, [.popEmpty])
  | .drain _ cnt => ({ q with consumer := .idle }, [.popEmpty, .drained cnt])

/-- `try_pop` returns a value to its caller. -/
def popped (out : T) : PopCaller → Consumer T
  | .user => .idle
  | .drain max cnt => .handing max cnt out

/-- `drain` passes an item on: the counter only counts up to a bound. -/
def hand (q : SPSCQueue T) (max cnt : ℕ) (item : T) : SPSCQueue T × List (Event T) :=
  if max ≠ 0 then
    if max ≤ cnt + 1 then ({ q with consumer := .idle }, [.handed item, .drained (cnt + 1)])
    else ({ q with consumer := .draining max (cnt + 1) }, [.handed item])
  else ({ q with consumer := .draining max cnt }, [.handed item])

/-- The next step of the consumer; `moved` is what a move leaves behind. -/
def consumerStep (moved : T → T) (q : SPSCQueue T) : SPSCQueue T × List (Event T) :=
  match q.consumer with
  | .idle => (q, [])
  | .draining max cnt => ({ q with consumer := .loaded (.drain max cnt) q.tail }, [])
  | .loaded caller t =>
    if t = q.head then q.popEmpty caller else ({ q with consumer := .found caller t }, [])
  | .found caller t =>
    ({ q with buf := Function.update q.buf t (moved (q.buf t)),
              consumer := .taken caller t (q.buf t) }, [])
  | .taken caller t out =>
    ({ q with tail := (t + 1) % q.cap, consumer := popped out caller }, [.popped out])
  | .handing max cnt item => q.hand max cnt item
  | .dropLoaded t =>
    if t = q.head then ({ q with consumer := .idle }, [.dropEmpty])
    else ({ q with consumer := .dropFound t }, [])
  | .dropFound t =>
    ({ q with tail := (t + 1) % q.cap, consumer := .idle }, [.dropped (q.buf t)])

def step (moved : T → T) (q : SPSCQueue T) : Action T → SPSCQueue T × List (Event T)
  | .tryPush v => (q.tryPush v, [])
  | .producer => q.producerStep
  | .tryPop => (q.start (.loaded .user q.tail), [])
  | .drain max => (q.start (.draining max 0), [])
  | .dropOne => (q.start (.dropLoaded q.tail), [])
  | .consumer => q.consumerStep moved

/-- The queue after a run, with everything that happened. -/
def run (moved : T → T) (q : SPSCQueue T) (actions : List (Action T)) :
    SPSCQueue T × List (Event T) :=
  actions.foldl (fun x a => ((x.1.step moved a).1, x.2 ++ (x.1.step moved a).2)) (q, [])

/-- The values of the successful pushes. -/
def pushedOf (events : List (Event T)) : List T :=
  events.filterMap (fun
    | .pushed v => some v
    | _ => none)

/-- The values popped or dropped. -/
def consumedOf (events : List (Event T)) : List T :=
  events.filterMap (fun
    | .popped v => some v
    | .dropped v => some v
    | _ => none)

/-- The number of values held. -/
def held (q : SPSCQueue T) : ℕ := distance q.cap q.tail q.head

def heldSlots (q : SPSCQueue T) : List ℕ := slots q.cap q.tail q.held

/-- The value of a slot; one that is being popped is in the hands of the consumer. -/
def valueAt (q : SPSCQueue T) (i : ℕ) : T :=
  match q.consumer with
  | .taken _ t out => if i = t then out else q.buf i
  | _ => q.buf i

def contents (q : SPSCQueue T) : List T := q.heldSlots.map q.valueAt

structure Ok (q : SPSCQueue T) : Prop where
  head : q.head < q.cap
  tail : q.tail < q.cap
  producer : q.producer.Ok q.buf q.cap q.head q.held
  consumer : q.consumer.Ok q.tail q.held

variable {q : SPSCQueue T} {events events' : List (Event T)}

theorem pushedOf_append : pushedOf (events ++ events') = pushedOf events ++ pushedOf events' :=
  List.filterMap_append

theorem consumedOf_append :
    consumedOf (events ++ events') = consumedOf events ++ consumedOf events' :=
  List.filterMap_append

theorem length_contents (q : SPSCQueue T) : q.contents.length = q.held := by
  simp [contents, heldSlots]

theorem contents_eq_nil_iff : q.contents = [] ↔ q.held = 0 := by
  rw [← List.length_eq_zero_iff, length_contents]

theorem Ok.held_lt (h : q.Ok) : q.held < q.cap :=
  distance_lt (by have := h.head; omega)

theorem Ok.held_eq_zero_iff (h : q.Ok) : q.held = 0 ↔ q.tail = q.head :=
  distance_eq_zero_iff h.tail h.head

theorem Ok.full_iff (h : q.Ok) : (q.head + 1) % q.cap = q.tail ↔ q.held = q.cap - 1 :=
  next_eq_iff h.tail h.head

/-- The slot at the head comes right after the held ones. -/
theorem Ok.slots_head (h : q.Ok) :
    slots q.cap q.tail (q.held + 1) = q.heldSlots ++ [q.head] := by
  have hend : (q.tail + q.held) % q.cap = q.head := add_distance h.tail h.head
  rw [slots_succ, hend, heldSlots]

theorem Ok.head_notMem (h : q.Ok) : q.head ∉ q.heldSlots := by
  have hnodup : (slots q.cap q.tail (q.held + 1)).Nodup := nodup_slots (Nat.succ_le_of_lt h.held_lt)
  rw [h.slots_head] at hnodup
  intro hmem
  exact (List.nodup_append.mp hnodup).2.2 q.head hmem q.head (List.mem_singleton_self _) rfl

theorem Ok.valueAt_of_ne_tail (h : q.Ok) {i : ℕ} (hi : i ≠ q.tail) : q.valueAt i = q.buf i := by
  have hc := h.consumer
  unfold valueAt
  cases hconsumer : q.consumer with
  | taken caller t out =>
    rw [hconsumer] at hc
    exact if_neg (fun heq => hi (heq.trans hc.1))
  | _ => rfl

theorem valueAt_of_settled (h : q.consumer.settled = true) (i : ℕ) : q.valueAt i = q.buf i := by
  unfold valueAt
  cases hconsumer : q.consumer with
  | taken caller t out =>
    rw [hconsumer] at h
    cases h
  | _ => rfl

/-- The queue from its second value on, with the consumer somewhere else. -/
def advance (q : SPSCQueue T) (consumer : Consumer T) : SPSCQueue T :=
  { q with tail := (q.tail + 1) % q.cap, consumer := consumer }

section
variable (h : q.Ok) (hpos : 0 < q.held) {consumer : Consumer T}
include h hpos

theorem Ok.held_advance : q.held = (q.advance consumer).held + 1 :=
  distance_next_left h.tail h.head hpos

theorem Ok.contents_advance (hconsumer : consumer.settled = true) :
    q.contents = q.valueAt q.tail :: (q.advance consumer).contents := by
  have hnodup : q.heldSlots.Nodup := nodup_slots h.held_lt.le
  have hslots : q.heldSlots = q.tail :: (q.advance consumer).heldSlots := by
    have hheld : q.held = (q.advance consumer).held + 1 := h.held_advance hpos
    rw [heldSlots, hheld, slots_cons h.tail]
    rfl
  rw [hslots, List.nodup_cons] at hnodup
  rw [contents, hslots, List.map_cons, contents]
  congr 1
  apply List.map_congr_left
  intro i hi
  have hne : i ≠ q.tail := by
    rintro rfl
    exact hnodup.1 hi
  rw [h.valueAt_of_ne_tail hne, valueAt_of_settled hconsumer]
  rfl

theorem Ok.advance (hconsumer : consumer.Ok ((q.tail + 1) % q.cap) (q.advance consumer).held) :
    (q.advance consumer).Ok := by
  have hheld : q.held = (q.advance consumer).held + 1 := h.held_advance hpos
  exact ⟨h.head, Nat.mod_lt _ (by have := h.head; omega), h.producer.mono (by omega), hconsumer⟩

end

/-- If the consumer holds a value, it is not that of the slot at the head. -/
theorem Ok.valueAt_head (h : q.Ok) : q.valueAt q.head = q.buf q.head := by
  by_cases hempty : q.head = q.tail
  · have hzero := h.held_eq_zero_iff.mpr hempty.symm
    refine valueAt_of_settled ?_ _
    have hc := h.consumer
    cases hconsumer : q.consumer with
    | taken caller t out =>
      rw [hconsumer] at hc
      have hpos := hc.2
      omega
    | _ => rfl
  · exact h.valueAt_of_ne_tail hempty

/-- The queue with the value of a push. -/
def publish (q : SPSCQueue T) : SPSCQueue T :=
  { q with head := (q.head + 1) % q.cap, producer := .idle }

section
variable (h : q.Ok) (hroom : q.held < q.cap - 1)
include h hroom

theorem Ok.held_publish : q.publish.held = q.held + 1 := distance_next_right h.tail h.head hroom

theorem Ok.contents_publish : q.publish.contents = q.contents ++ [q.buf q.head] := by
  have hslots : q.publish.heldSlots = q.heldSlots ++ [q.head] := by
    rw [← h.slots_head, ← h.held_publish hroom]
    rfl
  rw [contents, hslots, List.map_append, List.map_singleton, ← h.valueAt_head]
  rfl

theorem Ok.publish : q.publish.Ok := by
  have hheld := h.held_publish hroom
  refine ⟨Nat.mod_lt _ (by have := h.head; omega), h.tail, trivial, ?_⟩
  exact h.consumer.mono (by omega)

end

/-- What a step keeps: the invariant and the order of the values. It fails only on a full or on an
empty queue. -/
structure Stepped (q : SPSCQueue T) (r : SPSCQueue T × List (Event T)) : Prop where
  cap : r.1.cap = q.cap
  ok : r.1.Ok
  conserved : q.contents ++ pushedOf r.2 = consumedOf r.2 ++ r.1.contents
  full : .pushFull ∈ r.2 → q.contents.length = q.cap - 1
  empty : .popEmpty ∈ r.2 ∨ .dropEmpty ∈ r.2 → q.contents = []

theorem Stepped.quiet {q' : SPSCQueue T} (hcap : q'.cap = q.cap) (hok : q'.Ok)
    (hcontents : q'.contents = q.contents) : Stepped q (q', []) where
  cap := hcap
  ok := hok
  conserved := by simp [pushedOf, consumedOf, hcontents]
  full := by simp
  empty := by simp

/-- A step that changes only where the consumer stands. -/
theorem contents_of_settled {consumer : Consumer T} (hq : q.consumer.settled = true)
    (hconsumer : consumer.settled = true) :
    ({ q with consumer := consumer } : SPSCQueue T).contents = q.contents := by
  rw [contents, contents]
  apply List.map_congr_left
  intro i _
  rw [valueAt_of_settled hq, valueAt_of_settled hconsumer]

theorem Ok.consumerStepped (h : q.Ok) (consumer : Consumer T) (hq : q.consumer.settled = true)
    (hconsumer : consumer.settled = true) (hok : consumer.Ok q.tail q.held)
    (events : List (Event T)) (hvalues : pushedOf events = [] ∧ consumedOf events = [])
    (hfull : .pushFull ∉ events) (hempty : .popEmpty ∈ events ∨ .dropEmpty ∈ events → q.held = 0) :
    Stepped q ({ q with consumer := consumer }, events) where
  cap := rfl
  ok := ⟨h.head, h.tail, h.producer, hok⟩
  conserved := by
    dsimp only
    rw [hvalues.1, hvalues.2, List.append_nil, contents_of_settled hq hconsumer]
    rfl
  full := fun hmem => absurd hmem hfull
  empty := fun hmem => contents_eq_nil_iff.mpr (hempty hmem)

theorem Ok.producerStep (h : q.Ok) : Stepped q q.producerStep := by
  have hp := h.producer
  unfold SPSCQueue.producerStep
  cases hproducer : q.producer with
  | idle => exact .quiet rfl h rfl
  | loaded v i =>
    rw [hproducer] at hp
    obtain rfl : i = q.head := hp
    dsimp only
    split_ifs with hfull
    · have hheld := h.full_iff.mp hfull
      exact
        { cap := rfl
          ok := ⟨h.head, h.tail, trivial, h.consumer⟩
          conserved := by simp [pushedOf, consumedOf]; rfl
          full := fun _ => by rw [length_contents, hheld]
          empty := by simp }
    · have hroom : q.held < q.cap - 1 := by
        have hne : q.held ≠ q.cap - 1 := fun heq => hfull (h.full_iff.mpr heq)
        have hlt := h.held_lt
        omega
      exact .quiet rfl ⟨h.head, h.tail, ⟨rfl, rfl, hroom⟩, h.consumer⟩ rfl
  | room v i n =>
    rw [hproducer] at hp
    obtain ⟨rfl, rfl, hroom⟩ := hp
    refine .quiet rfl ⟨h.head, h.tail, ⟨Function.update_self .., rfl, hroom⟩, h.consumer⟩ ?_
    -- the slot written is not a held one
    rw [contents, contents]
    apply List.map_congr_left
    intro i hi
    have hne : i ≠ q.head := by
      rintro rfl
      exact h.head_notMem hi
    unfold valueAt
    cases q.consumer <;> simp [Function.update_of_ne hne]
  | written v n =>
    rw [hproducer] at hp
    obtain ⟨rfl, rfl, hroom⟩ := hp
    exact
      { cap := rfl
        ok := h.publish hroom
        conserved := by
          have hcontents := (h.contents_publish hroom).symm
          exact hcontents
        full := by simp
        empty := by simp }

/-- A value leaves the queue. -/
theorem Ok.advanced (h : q.Ok) (hpos : 0 < q.held) (consumer : Consumer T)
    (hconsumer : consumer.settled = true)
    (hok : consumer.Ok ((q.tail + 1) % q.cap) (q.advance consumer).held) {event : Event T}
    (hpush : pushedOf [event] = []) (hconsumed : consumedOf [event] = [q.valueAt q.tail])
    (hevent : event ≠ .pushFull ∧ event ≠ .popEmpty ∧ event ≠ .dropEmpty) :
    Stepped q (q.advance consumer, [event]) where
  cap := rfl
  ok := h.advance hpos hok
  conserved := by
    dsimp only
    rw [hpush, hconsumed, List.append_nil, h.contents_advance hpos hconsumer]
    rfl
  full := fun hmem => absurd (List.mem_singleton.mp hmem).symm hevent.1
  empty := by
    rintro (hmem | hmem)
    · exact absurd (List.mem_singleton.mp hmem).symm hevent.2.1
    · exact absurd (List.mem_singleton.mp hmem).symm hevent.2.2

theorem Ok.consumerStep (h : q.Ok) (moved : T → T) : Stepped q (q.consumerStep moved) := by
  have hc := h.consumer
  unfold SPSCQueue.consumerStep
  cases hconsumer : q.consumer with
  | idle => exact .quiet rfl h rfl
  | draining max cnt =>
    have hsettled : q.consumer.settled = true := by rw [hconsumer]; rfl
    exact h.consumerStepped (.loaded (.drain max cnt) q.tail) hsettled rfl rfl [] ⟨rfl, rfl⟩ nofun
      (by simp)
  | loaded caller t =>
    rw [hconsumer] at hc
    obtain rfl : t = q.tail := hc
    have hsettled : q.consumer.settled = true := by rw [hconsumer]; rfl
    dsimp only
    split_ifs with hempty
    · have hzero := h.held_eq_zero_iff.mpr hempty
      cases caller with
      | user =>
        exact h.consumerStepped .idle hsettled rfl trivial _ ⟨rfl, rfl⟩ (by simp) (fun _ => hzero)
      | drain max cnt =>
        exact h.consumerStepped .idle hsettled rfl trivial _ ⟨rfl, rfl⟩ (by simp) (fun _ => hzero)
    · have hpos : 0 < q.held := Nat.pos_of_ne_zero (fun hz => hempty (h.held_eq_zero_iff.mp hz))
      exact h.consumerStepped (.found caller q.tail) hsettled rfl ⟨rfl, hpos⟩ [] ⟨rfl, rfl⟩ nofun
        (by simp)
  | found caller t =>
    rw [hconsumer] at hc
    obtain ⟨rfl, hpos⟩ := hc
    have hsettled : q.consumer.settled = true := by rw [hconsumer]; rfl
    have hne : q.head ≠ q.tail := fun heq => hpos.ne' (h.held_eq_zero_iff.mpr heq.symm)
    refine .quiet rfl ⟨h.head, h.tail, ?_, ⟨rfl, hpos⟩⟩ ?_
    · have hp := h.producer
      cases hproducer : q.producer with
      | written v n =>
        rw [hproducer] at hp
        exact ⟨(Function.update_of_ne hne ..).trans hp.1, hp.2⟩
      | _ => rwa [hproducer] at hp
    · -- the value moved out is in the hands of the consumer
      rw [contents, contents]
      apply List.map_congr_left
      intro i _
      rw [valueAt_of_settled hsettled]
      by_cases hi : i = q.tail
      · rw [hi]
        exact if_pos rfl
      · exact (if_neg hi).trans (Function.update_of_ne hi ..)
  | taken caller t out =>
    rw [hconsumer] at hc
    obtain ⟨rfl, hpos⟩ := hc
    have hvalue : q.valueAt q.tail = out := by
      unfold valueAt
      rw [hconsumer]
      exact if_pos rfl
    refine h.advanced hpos (popped out caller) ?_ ?_ rfl ?_ ⟨nofun, nofun, nofun⟩
    · cases caller <;> rfl
    · cases caller <;> trivial
    · rw [hvalue]
      rfl
  | handing max cnt item =>
    have hsettled : q.consumer.settled = true := by rw [hconsumer]; rfl
    unfold hand
    dsimp only
    split_ifs
    · exact h.consumerStepped .idle hsettled rfl trivial _ ⟨rfl, rfl⟩ (by simp) (by simp)
    · exact h.consumerStepped (.draining max (cnt + 1)) hsettled rfl trivial _ ⟨rfl, rfl⟩ (by simp)
        (by simp)
    · exact h.consumerStepped (.draining max cnt) hsettled rfl trivial _ ⟨rfl, rfl⟩ (by simp)
        (by simp)
  | dropLoaded t =>
    rw [hconsumer] at hc
    obtain rfl : t = q.tail := hc
    have hsettled : q.consumer.settled = true := by rw [hconsumer]; rfl
    dsimp only
    split_ifs with hempty
    · have hzero := h.held_eq_zero_iff.mpr hempty
      exact h.consumerStepped .idle hsettled rfl trivial _ ⟨rfl, rfl⟩ (by simp) (fun _ => hzero)
    · have hpos : 0 < q.held := Nat.pos_of_ne_zero (fun hz => hempty (h.held_eq_zero_iff.mp hz))
      exact h.consumerStepped (.dropFound q.tail) hsettled rfl ⟨rfl, hpos⟩ [] ⟨rfl, rfl⟩ nofun
        (by simp)
  | dropFound t =>
    rw [hconsumer] at hc
    obtain ⟨rfl, hpos⟩ := hc
    have hsettled : q.consumer.settled = true := by rw [hconsumer]; rfl
    refine h.advanced hpos .idle rfl trivial rfl ?_ ⟨nofun, nofun, nofun⟩
    rw [valueAt_of_settled hsettled]
    rfl

theorem Ok.tryPush (h : q.Ok) (v : T) : Stepped q (q.tryPush v, []) := by
  unfold SPSCQueue.tryPush
  split
  · exact .quiet rfl ⟨h.head, h.tail, rfl, h.consumer⟩ rfl
  · exact .quiet rfl h rfl

theorem Ok.start (h : q.Ok) {call : Consumer T} (hcall : call.settled = true)
    (hok : call.Ok q.tail q.held) : Stepped q (q.start call, []) := by
  unfold SPSCQueue.start
  split
  case h_1 hidle =>
    have hsettled : q.consumer.settled = true := by rw [hidle]; rfl
    exact h.consumerStepped call hsettled hcall hok [] ⟨rfl, rfl⟩ nofun (by simp)
  case h_2 => exact .quiet rfl h rfl

theorem Ok.step (h : q.Ok) (moved : T → T) (a : Action T) : Stepped q (q.step moved a) := by
  cases a with
  | tryPush v => exact h.tryPush v
  | producer => exact h.producerStep
  | tryPop => exact h.start rfl rfl
  | drain max => exact h.start rfl trivial
  | dropOne => exact h.start rfl rfl
  | consumer => exact h.consumerStep moved

/-- An empty queue; the vector holds `cap` values of some kind. -/
def new (cap : ℕ) (init : T) : SPSCQueue T := { cap := cap, buf := fun _ => init }

theorem ok_new {cap : ℕ} (hcap : 1 ≤ cap) (init : T) : (new cap init).Ok :=
  ⟨hcap, hcap, trivial, trivial⟩

theorem run_concat (moved : T → T) (actions : List (Action T)) (a : Action T) :
    q.run moved (actions ++ [a]) = (((q.run moved actions).1.step moved a).1,
      (q.run moved actions).2 ++ ((q.run moved actions).1.step moved a).2) := by
  simp [run, List.foldl_append]

/-- What was in the queue and what was pushed has been popped or dropped, in order, or is still in
it. -/
theorem Ok.run (h : q.Ok) (moved : T → T) (actions : List (Action T)) :
    (q.run moved actions).1.cap = q.cap ∧ (q.run moved actions).1.Ok ∧
      q.contents ++ pushedOf (q.run moved actions).2 =
        consumedOf (q.run moved actions).2 ++ (q.run moved actions).1.contents := by
  induction actions using List.reverseRecOn with
  | nil => exact ⟨rfl, h, List.append_nil _⟩
  | append_singleton actions a ih =>
    obtain ⟨hsize, hok, hvalues⟩ := ih
    have hstep := hok.step moved a
    rw [run_concat]
    refine ⟨hstep.cap.trans hsize, hstep.ok, ?_⟩
    rw [pushedOf_append, consumedOf_append, ← List.append_assoc, hvalues, List.append_assoc,
      List.append_assoc, hstep.conserved]

theorem run_ok {cap : ℕ} (hcap : 1 ≤ cap) (init : T) (moved : T → T) (actions : List (Action T)) :
    ((new cap init).run moved actions).1.cap = cap ∧ ((new cap init).run moved actions).1.Ok ∧
      pushedOf ((new cap init).run moved actions).2 =
        consumedOf ((new cap init).run moved actions).2 ++
          ((new cap init).run moved actions).1.contents := by
  have hrun := (ok_new hcap init).run moved actions
  have hnil : (new cap init).contents = [] := contents_eq_nil_iff.mpr (distance_self cap 0)
  rwa [hnil, List.nil_append] at hrun

/-- In every interleaving the values popped and dropped and then those held are the values pushed,
in order; at most one slot less than the capacity is held. A push fails only on a full queue, a pop
or a drop only on an empty one, and the producer writes no slot that is held. -/
theorem bounded_fifo {cap : ℕ} (hcap : 1 ≤ cap) (init : T) (moved : T → T)
    (actions : List (Action T)) :
    pushedOf ((new cap init).run moved actions).2 =
      consumedOf ((new cap init).run moved actions).2 ++
        ((new cap init).run moved actions).1.contents ∧
    ((new cap init).run moved actions).1.contents.length ≤ cap - 1 ∧
    (∀ a, .pushFull ∈ (((new cap init).run moved actions).1.step moved a).2 →
      ((new cap init).run moved actions).1.contents.length = cap - 1) ∧
    (∀ a, .popEmpty ∈ (((new cap init).run moved actions).1.step moved a).2 ∨
        .dropEmpty ∈ (((new cap init).run moved actions).1.step moved a).2 →
      ((new cap init).run moved actions).1.contents = []) ∧
    (∀ i, ((new cap init).run moved actions).1.producer.writes = some i →
      i < cap ∧ i ∉ ((new cap init).run moved actions).1.heldSlots) := by
  obtain ⟨hsize, hok, hvalues⟩ := run_ok hcap init moved actions
  generalize (new cap init).run moved actions = r at hsize hok hvalues
  obtain ⟨q, events⟩ := r
  obtain rfl : q.cap = cap := hsize
  refine ⟨hvalues, ?_, ?_, ?_, ?_⟩
  · have hlt := hok.held_lt
    rw [length_contents]
    dsimp only at hlt ⊢
    omega
  · exact fun a => (hok.step moved a).full
  · exact fun a => (hok.step moved a).empty
  · intro i hi
    have hp := hok.producer
    cases hproducer : q.producer with
    | room v h n =>
      rw [hproducer] at hi hp
      obtain rfl : h = i := Option.some.inj hi
      rw [hp.1]
      exact ⟨hok.head, hok.head_notMem⟩
    | _ =>
      rw [hproducer] at hi
      cases hi

/-- With room for one value, the second push fails while the first value is held. -/
theorem bounded_fifo_two :
    ((new 2 0).run id [.tryPush 7, .producer, .producer, .producer,
      .tryPush 8]).1.contents.length = 1 := by
  refine (bounded_fifo (by decide) 0 id [.tryPush 7, .producer, .producer, .producer,
    .tryPush 8]).2.2.1 .producer ?_
  exact List.mem_singleton_self _

end SPSCQueue
end GmaEngine
