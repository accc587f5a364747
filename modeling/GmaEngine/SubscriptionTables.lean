import GmaEngine.ClosedSessions

/-!
# The subscription tables of a session

`active_` and `chains_` change together: a request that is accepted writes both under its key, a
cancellation erases both, and a request that is refused or cannot be built writes neither. The
limit counts only keys that are new.
-/

namespace GmaEngine
open ClientSession
variable {D : Type}

/-- Both tables have the same keys, each of them once, and not more than the limit. -/
structure TablesAgree (ses : Session D) : Prop where
  same : ses.active.map Prod.fst = ses.chains.map Prod.fst
  once : (ses.active.map Prod.fst).Nodup
  bounded : ses.active.length ≤ maxSubscriptions

/-- What the tables hold under a key. -/
def Session.entry (ses : Session D) (key : RequestKey) : Option NodeId × Option (List NodeId) :=
  (lookupKey ses.active key, lookupKey ses.chains key)

/-- The value that names a request. -/
def ClientSession.keyValue (r : Json D) : Option (Json D) := (r.member "key").or (r.member "id")

theorem ClientSession.keyValue_of_parse {r : Json D} {key : RequestKey}
    (h : parseRequestKeyFromObj r = some key) :
    (∃ n, key = .int n ∧ (keyValue r).bind Json.getInt = some n) ∨
      ∃ text, key = .str text ∧ (keyValue r).bind Json.getString = some text := by
  unfold parseRequestKeyFromObj at h
  unfold keyValue
  cases hkey : r.member "key" with
  | some value =>
    cases hid : r.member "id" with
    | some _ => simp [hkey, hid] at h
    | none =>
      simp only [hkey, hid, Option.map_eq_some_iff] at h
      obtain ⟨n, hn, rfl⟩ := h
      exact .inl ⟨n, rfl, by simpa using hn⟩
  | none =>
    cases hid : r.member "id" with
    | none => simp [hkey, hid] at h
    | some value =>
      simp only [hkey, hid, Option.or_eq_some_iff, Option.map_eq_some_iff] at h
      rcases h with ⟨n, hn, rfl⟩ | ⟨-, text, htext, rfl⟩
      · exact .inl ⟨n, rfl, by simpa using hn⟩
      · exact .inr ⟨text, rfl, by simpa using htext⟩

/-- Two requests under one key are named by the same number or by the same text. -/
theorem ClientSession.key_names_one_value {r r' : Json D} {key : RequestKey}
    (h : parseRequestKeyFromObj r = some key) (h' : parseRequestKeyFromObj r' = some key) :
    (∃ n, (keyValue r).bind Json.getInt = some n ∧ (keyValue r').bind Json.getInt = some n) ∨
      ∃ text, (keyValue r).bind Json.getString = some text ∧
        (keyValue r').bind Json.getString = some text := by
  rcases keyValue_of_parse h with ⟨n, rfl, hn⟩ | ⟨text, rfl, htext⟩
  · rcases keyValue_of_parse h' with ⟨n', heq, hn'⟩ | ⟨text', heq, -⟩
    · cases heq
      exact .inl ⟨n, hn, hn'⟩
    · cases heq
  · rcases keyValue_of_parse h' with ⟨n', heq, -⟩ | ⟨text', heq, htext'⟩
    · cases heq
    · cases heq
      exact .inr ⟨text, htext, htext'⟩

theorem ClientSession.mem_cancelsOf {keyOf : Json D → Option RequestKey} {message : String}
    {elems : List (Json D)} {keys : List RequestKey} {key : RequestKey}
    (hkeys : .cancels keys ∈ cancelsOf keyOf message elems) (hkey : key ∈ keys) :
    ∃ value ∈ elems, keyOf value = some key := by
  rcases List.mem_append.mp hkeys with herror | hcancels
  · obtain ⟨value, -, heq⟩ := List.mem_map.mp herror
    cases heq
  · cases List.mem_singleton.mp hcancels
    exact List.mem_filterMap.mp hkey

/-- A number cancels under a number, and a text under a text. -/
theorem ClientSession.cancels_named_value {doc : Json D} {keys : List RequestKey}
    {key : RequestKey} (hkeys : .cancels keys ∈ handleCancel doc) (hkey : key ∈ keys) :
    (∃ n, key = .int n ∧ ∃ value ∈ elemsOf (doc.member "keys"), value.getInt = some n) ∨
      ∃ text, key = .str text ∧
        ∃ value ∈ elemsOf (doc.member "ids"), value.getString = some text := by
  unfold handleCancel at hkeys
  split at hkeys
  · simp at hkeys
  · next elems hmember _ =>
    obtain ⟨value, hvalue, hof⟩ := mem_cancelsOf hkeys hkey
    obtain ⟨n, hn, rfl⟩ := Option.map_eq_some_iff.mp hof
    refine .inl ⟨n, rfl, value, ?_, hn⟩
    rw [hmember]
    exact hvalue
  · next elems hmember _ =>
    obtain ⟨value, hvalue, hof⟩ := mem_cancelsOf hkeys hkey
    obtain ⟨text, htext, rfl⟩ := Option.map_eq_some_iff.mp hof
    refine .inr ⟨text, rfl, value, ?_, htext⟩
    rw [hmember]
    exact hvalue
  · simp at hkeys

section
variable {s : System D}

theorem TablesAgree.install (h : TablesAgree s.session) {key : RequestKey} {terminal : NodeId}
    {built : BuiltChain}
    (hroom : lookupKey s.session.active key = none → s.session.active.length < maxSubscriptions) :
    TablesAgree (s.install key terminal built).session := by
  refine ⟨?_, nodup_assignKey h.once, ?_⟩
  · simp only [System.install, keys_assignKey, h.same]
  · simp only [System.install, length_assignKey]
    have hbounded := h.bounded
    cases hlookup : lookupKey s.session.active key with
    | none =>
      have hlt := hroom hlookup
      simpa using hlt
    | some head => simpa using hbounded

theorem TablesAgree.handleCancelKey (h : TablesAgree s.session) (key : RequestKey) :
    TablesAgree (s.handleCancelKey key).session := by
  refine ⟨?_, nodup_removeKey h.once, ?_⟩
  · simp only [System.handleCancelKey, keys_removeKey, h.same]
  · exact (List.length_filter_le _ _).trans h.bounded

theorem entry_install (key : RequestKey) (terminal : NodeId) (built : BuiltChain) :
    (s.install key terminal built).session.entry =
      Function.update s.session.entry key (some built.head, some built.keepAlive) := by
  funext other
  simp only [Session.entry, System.install, lookupKey_assignKey, Function.update_apply]
  split_ifs <;> rfl

theorem entry_handleCancelKey (key : RequestKey) :
    (s.handleCancelKey key).session.entry = Function.update s.session.entry key (none, none) := by
  funext other
  simp only [Session.entry, System.handleCancelKey, lookupKey_removeKey, Function.update_apply]
  split_ifs <;> rfl

/-- The tables are as they were. -/
structure SameTables (ses ses' : Session D) : Prop where
  active : ses'.active = ses.active
  chains : ses'.chains = ses.chains

theorem TablesAgree.same_tables {ses ses' : Session D} (h : TablesAgree ses)
    (hsame : SameTables ses ses') : TablesAgree ses' := by
  obtain ⟨hactive, hchains⟩ := hsame
  refine ⟨?_, ?_, ?_⟩
  · rw [hactive, hchains, h.same]
  · rw [hactive]
    exact h.once
  · rw [hactive]
    exact h.bounded

end

namespace System
variable {s : System D}

/-- The answer to a new key when there are too many. -/
def refusedAtLimit : Frame D := .error "subscribe" "max subscriptions reached"

/-- The build of a request, on the heap with its responder. -/
def buildRequest [Double D] (env : SessionEnv D) (s : System D) (key : RequestKey) (rq : Json D) :
    Except String BuiltChain × Runtime D :=
  (TreeBuilder.buildForRequest env.build rq (some s.rt.nodes.length)).run.run
    { s.rt with nodes := s.rt.nodes ++ [.responder key false] }

/-- There is an entry under the key, or room for a new one. -/
def HasPlace (ses : Session D) (key : RequestKey) : Prop :=
  lookupKey ses.active key = none → ses.active.length < maxSubscriptions

variable [Double D]

/-- What a request does to the tables: it changes nothing, or what was built takes the place of
what was under its key. -/
structure RequestEffect (env : SessionEnv D) (r : Json D) (s s' : System D) : Prop where
  rejected : ∀ error, parseRequest r = .error error → SameTables s.session s'.session
  full : ∀ key rq, parseRequest r = .ok (key, rq) → ¬HasPlace s.session key →
    SameTables s.session s'.session
  failed : ∀ key rq message rt, parseRequest r = .ok (key, rq) →
    s.buildRequest env key rq = (.error message, rt) → SameTables s.session s'.session
  /-- The displaced Listener is shut down. -/
  accepted : ∀ key rq built rt, parseRequest r = .ok (key, rq) → HasPlace s.session key →
    s.buildRequest env key rq = (.ok built, rt) →
    s'.session.entry =
      Function.update s.session.entry key (some built.head, some built.keepAlive) ∧
    s'.rt = (lookupKey s.session.active key).elim rt rt.shutdownListener
  /-- A key that is there is not refused for the limit, and takes no new place. -/
  again : ∀ key rq, parseRequest r = .ok (key, rq) → (lookupKey s.session.active key).isSome →
    s'.strand.head? ≠ some (.send refusedAtLimit) ∧
      s'.session.active.map Prod.fst = s.session.active.map Prod.fst

section Outcomes
variable {env : SessionEnv D} {r rq : Json D} {key : RequestKey}

theorem handleRequest_rejected {error : String × String} (hparse : parseRequest r = .error error) :
    s.handleRequest env r = s.next [.send (.error error.1 error.2)] := by
  rw [handleRequest, hparse]

omit [Double D] in
theorem hasPlace_iff : HasPlace s.session key ↔ ((lookupKey s.session.active key).isNone &&
    decide (maxSubscriptions ≤ s.session.active.length)) = false := by
  rw [HasPlace, Bool.and_eq_false_iff, decide_eq_false_iff_not, Nat.not_le]
  cases lookupKey s.session.active key <;> simp

theorem handleRequest_full (hparse : parseRequest r = .ok (key, rq))
    (hfull : ¬HasPlace s.session key) :
    s.handleRequest env r = s.next [.send refusedAtLimit] := by
  rw [hasPlace_iff, Bool.not_eq_false] at hfull
  rw [handleRequest, hparse]
  dsimp only
  rw [if_pos hfull]
  rfl

theorem handleRequest_failed {message : String} {rt : Runtime D}
    (hparse : parseRequest r = .ok (key, rq)) (hplace : HasPlace s.session key)
    (hbuild : s.buildRequest env key rq = (.error message, rt)) :
    s.handleRequest env r =
      (s.withRuntime rt s.rt.nodes.length).next [.send (.error "build" message)] := by
  rw [hasPlace_iff, ← Bool.not_eq_true] at hplace
  rw [buildRequest] at hbuild
  rw [handleRequest, hparse]
  dsimp only
  rw [if_neg hplace, hbuild]

theorem handleRequest_built {built : BuiltChain} {rt : Runtime D}
    (hparse : parseRequest r = .ok (key, rq)) (hplace : HasPlace s.session key)
    (hbuild : s.buildRequest env key rq = (.ok built, rt)) :
    s.handleRequest env r = ((s.withRuntime rt s.rt.nodes.length).install key s.rt.nodes.length
      built).next [.send (.subscribed key)] := by
  rw [hasPlace_iff, ← Bool.not_eq_true] at hplace
  rw [buildRequest] at hbuild
  rw [handleRequest, hparse]
  dsimp only
  rw [if_neg hplace, hbuild]

/-- Everything that a request can do. -/
theorem request_outcomes (env : SessionEnv D) (s : System D) (r : Json D) :
    (∃ error, parseRequest r = .error error) ∨
    ∃ key rq, parseRequest r = .ok (key, rq) ∧ (¬HasPlace s.session key ∨
      HasPlace s.session key ∧ ((∃ message rt, s.buildRequest env key rq = (.error message, rt)) ∨
        ∃ built rt, s.buildRequest env key rq = (.ok built, rt))) := by
  cases parseRequest r with
  | error error => exact .inl ⟨error, rfl⟩
  | ok parsed =>
    refine .inr ⟨parsed.1, parsed.2, rfl, ?_⟩
    by_cases hplace : HasPlace s.session parsed.1
    · refine .inr ⟨hplace, ?_⟩
      obtain ⟨message | built, rt⟩ := s.buildRequest env parsed.1 parsed.2
      · exact .inl ⟨message, rt, rfl⟩
      · exact .inr ⟨built, rt, rfl⟩
    · exact .inl hplace

end Outcomes

theorem requestEffect_handleRequest (env : SessionEnv D) (r : Json D) :
    RequestEffect env r s (s.handleRequest env r) := by
  refine ⟨?_, ?_, ?_, ?_, ?_⟩
  · intro error hparse
    rw [handleRequest_rejected hparse]
    exact ⟨rfl, rfl⟩
  · intro key rq hparse hfull
    rw [handleRequest_full hparse hfull]
    exact ⟨rfl, rfl⟩
  · intro key rq message rt hparse hbuild
    by_cases hplace : HasPlace s.session key
    · rw [handleRequest_failed hparse hplace hbuild]
      exact ⟨rfl, rfl⟩
    · rw [handleRequest_full hparse hplace]
      exact ⟨rfl, rfl⟩
  · intro key rq built rt hparse hplace hbuild
    rw [handleRequest_built hparse hplace hbuild]
    exact ⟨entry_install key _ built, rfl⟩
  · intro key rq hparse hthere
    have hplace : HasPlace s.session key := by
      intro hnone
      rw [hnone] at hthere
      cases hthere
    rcases hbuild : s.buildRequest env key rq with ⟨message | built, rt⟩
    · rw [handleRequest_failed hparse hplace hbuild]
      exact ⟨by simp [next, refusedAtLimit], rfl⟩
    · rw [handleRequest_built hparse hplace hbuild]
      refine ⟨by simp [next, refusedAtLimit], ?_⟩
      have hkeys : ((s.withRuntime rt s.rt.nodes.length).install key s.rt.nodes.length
          built).session.active.map Prod.fst =
          (assignKey s.session.active key built.head).map Prod.fst := rfl
      rw [next, hkeys, keys_assignKey, if_pos (mem_keys_iff.mpr hthere)]

theorem tablesAgree_handleRequest (h : TablesAgree s.session) (env : SessionEnv D) (r : Json D) :
    TablesAgree (s.handleRequest env r).session := by
  rcases request_outcomes env s r with ⟨error, hparse⟩ | ⟨key, rq, hparse, hfull |
    ⟨hplace, ⟨message, rt, hbuild⟩ | ⟨built, rt, hbuild⟩⟩⟩
  · rw [handleRequest_rejected hparse]
    exact h
  · rw [handleRequest_full hparse hfull]
    exact h
  · rw [handleRequest_failed hparse hplace hbuild]
    exact h
  · rw [handleRequest_built hparse hplace hbuild]
    exact @TablesAgree.install D (s.withRuntime rt s.rt.nodes.length) h _ _ _ hplace

/-- The handler is one round of a batch, of requests or of cancellations. -/
def isRound : Handler D → Bool
  | .requests (_ :: _) => true
  | .cancels (_ :: _) => true
  | _ => false

def inBatch (s : System D) : Action D → Bool
  | .strand _ => s.strand.head?.any isRound
  | _ => false

/-- The tables stay, or the session closes and they are cleared. -/
def StaysOrCloses (ses ses' : Session D) : Prop :=
  SameTables ses ses' ∨ ses'.isOpen = false ∧ ses'.active = [] ∧ ses'.chains = []

omit [Double D] in
theorem staysOrCloses_close (s : System D) : StaysOrCloses s.session s.close.session := by
  unfold System.close
  split_ifs
  · exact .inr ⟨rfl, rfl, rfl⟩
  · exact .inl ⟨rfl, rfl⟩

omit [Double D] in
theorem staysOrCloses_sendText (s : System D) (frame : Frame D) :
    StaysOrCloses s.session (s.sendText frame).session := by
  unfold System.sendText
  split_ifs
  · exact .inl ⟨rfl, rfl⟩
  · exact staysOrCloses_close s
  · obtain ⟨-, hactive, hchains⟩ := enqueue_tables s.session frame
    exact .inl ⟨hactive, hchains⟩

omit [Double D] in
theorem staysOrCloses_onWrite (s : System D) (ok : Bool) :
    StaysOrCloses s.session (s.onWrite ok).session := by
  unfold System.onWrite
  split_ifs
  · exact staysOrCloses_close s
  · obtain ⟨-, hactive, hchains⟩ :=
      startWrite_tables { s.session with outbox := s.session.outbox.tail }
    exact .inl ⟨hactive, hchains⟩

theorem staysOrCloses_step (env : SessionEnv D) (action : Action D)
    (haside : s.inBatch action = false) :
    StaysOrCloses s.session (s.step env action).session := by
  cases action with
  | receive doc => exact .inl ⟨rfl, rfl⟩
  | requestClose => exact .inl ⟨rfl, rfl⟩
  | writeDone ok =>
    unfold System.step
    dsimp only
    split_ifs <;> exact .inl ⟨rfl, rfl⟩
  | strand allowed =>
    unfold inBatch at haside
    unfold System.step runStrand
    cases hstrand : s.strand with
    | nil => exact .inl ⟨rfl, rfl⟩
    | cons handler rest =>
      rw [hstrand] at haside
      cases handler with
      | message doc => exact .inl ⟨rfl, rfl⟩
      | requests rs =>
        cases rs with
        | nil => exact .inl ⟨rfl, rfl⟩
        | cons r rs => cases haside
      | cancels keys =>
        cases keys with
        | nil => exact .inl ⟨rfl, rfl⟩
        | cons key keys => cases haside
      | send frame => exact staysOrCloses_sendText { s with strand := rest } frame
      | written ok => exact staysOrCloses_onWrite { s with strand := rest } ok
      | close => exact staysOrCloses_close { s with strand := rest }
  | notify symbol field value => exact .inl ⟨rfl, rfl⟩
  | timer id => exact .inl ⟨rfl, rfl⟩
  | work task store =>
    unfold System.step work
    dsimp only
    split <;> exact .inl ⟨rfl, rfl⟩

theorem tablesAgree_step (h : TablesAgree s.session) (env : SessionEnv D) (action : Action D) :
    TablesAgree (s.step env action).session := by
  cases hbatch : s.inBatch action with
  | false =>
    rcases staysOrCloses_step env action hbatch with hsame | ⟨-, hactive, hchains⟩
    · exact h.same_tables hsame
    · exact ⟨by rw [hactive, hchains]; rfl, by rw [hactive]; exact List.nodup_nil,
        by rw [hactive]; exact Nat.zero_le _⟩
  | true =>
    cases action with
    | strand allowed =>
      unfold inBatch at hbatch
      unfold System.step runStrand
      cases hstrand : s.strand with
      | nil => exact h
      | cons handler rest =>
        rw [hstrand] at hbatch
        cases handler with
        | requests rs =>
          cases rs with
          | nil => cases hbatch
          | cons r rs =>
            exact @tablesAgree_handleRequest D (next { s with strand := rest } [.requests rs]) _
              h env r
        | cancels keys =>
          cases keys with
          | nil => cases hbatch
          | cons key keys =>
            exact @TablesAgree.handleCancelKey D
              (next { s with strand := rest } [.send (.canceled key), .cancels keys]) h key
        | _ => cases hbatch
    | _ => cases hbatch

/-- What holds of the tables in a state, and what the next step does to them. -/
structure TableRules (env : SessionEnv D) (s : System D) : Prop where
  agree : TablesAgree s.session
  request : ∀ allowed r rs rest, s.strand = .requests (r :: rs) :: rest →
    RequestEffect env r s (s.step env (.strand allowed))
  cancel : ∀ allowed key keys rest, s.strand = .cancels (key :: keys) :: rest →
    (s.step env (.strand allowed)).session.entry =
      Function.update s.session.entry key (none, none)
  aside : ∀ action, s.inBatch action = false → (s.step env action).session.isOpen = true →
    SameTables s.session (s.step env action).session

theorem tableRules (h : TablesAgree s.session) (env : SessionEnv D) : s.TableRules env := by
  refine ⟨h, ?_, ?_, ?_⟩
  · intro allowed r rs rest hstrand
    have hstep : s.step env (.strand allowed) =
        (next { s with strand := rest } [.requests rs]).handleRequest env r := by
      unfold System.step runStrand
      rw [hstrand]
    have heffect := @requestEffect_handleRequest D
      (next { s with strand := rest } [.requests rs]) _ env r
    rw [hstep]
    exact ⟨heffect.rejected, heffect.full, heffect.failed, heffect.accepted, heffect.again⟩
  · intro allowed key keys rest hstrand
    have hstep : s.step env (.strand allowed) = (next { s with strand := rest }
        [.send (.canceled key), .cancels keys]).handleCancelKey key := by
      unfold System.step runStrand
      rw [hstrand]
    rw [hstep]
    exact entry_handleCancelKey key
  · intro action haside hopen
    rcases staysOrCloses_step env action haside with hsame | ⟨hclosed, -⟩
    · exact hsame
    · rw [hclosed] at hopen
      cases hopen

/-- In every state that a session reaches its tables agree and keep to the limit, a request
changes its own entry or none, and no entry is named by a number and by a text. -/
theorem subscription_tables (env : SessionEnv D) (actions : List (Action D)) :
    (run env {} actions).TableRules env ∧
      (∀ (r r' : Json D) key, parseRequestKeyFromObj r = some key →
        parseRequestKeyFromObj r' = some key →
        (∃ n, (keyValue r).bind Json.getInt = some n ∧ (keyValue r').bind Json.getInt = some n) ∨
          ∃ text, (keyValue r).bind Json.getString = some text ∧
            (keyValue r').bind Json.getString = some text) ∧
      ∀ (doc : Json D) keys, .cancels keys ∈ handleCancel doc → ∀ key ∈ keys,
        (∃ n, key = .int n ∧ ∃ value ∈ elemsOf (doc.member "keys"), value.getInt = some n) ∨
          ∃ text, key = .str text ∧
            ∃ value ∈ elemsOf (doc.member "ids"), value.getString = some text := by
  refine ⟨?_, fun r r' key => key_names_one_value,
    fun doc keys hkeys key hkey => cancels_named_value hkeys hkey⟩
  apply tableRules
  have hfrom : ∀ s : System D, TablesAgree s.session → TablesAgree (run env s actions).session := by
    induction actions with
    | nil => exact fun s h => h
    | cons action actions ih => exact fun s h => ih _ (tablesAgree_step h env action)
  exact hfrom {} ⟨rfl, List.nodup_nil, Nat.zero_le _⟩

/-- A request with the key of the subscription that is there, and no stream key. -/
def unnamedStream : Json ExactDouble := .object [("key", keyOne)]

def timerAgain : Json ExactDouble :=
  .object [("key", keyOne), ("streamKey", .string "MSFT"), ("field", .string "lastPrice"),
    ("pipeline", .array everySecond)]

def mixedBatch : Json ExactDouble :=
  .object [("type", .string "subscribe"), ("requests", .array [unnamedStream, timerAgain])]

def subscribed : List (Action ExactDouble) :=
  [Action.receive (some (subscribeTo []))] ++ List.replicate 4 (Action.strand true)

/-- The batch is about to be handled. -/
def beforeBatch : List (Action ExactDouble) :=
  subscribed ++ [.receive (some mixedBatch), .strand true]

/-- The request without a stream key has been answered. -/
def beforeAgain : List (Action ExactDouble) := beforeBatch ++ [.strand true, .strand true]

theorem strand_beforeBatch :
    (run fullSessionEnv {} beforeBatch).strand = [.requests [unnamedStream, timerAgain]] := by
  have hempty : (run fullSessionEnv {} subscribed).strand = [] :=
    List.isEmpty_iff.mp (by decide +kernel)
  have hrun : run fullSessionEnv {} beforeBatch =
      ((run fullSessionEnv {} subscribed).step fullSessionEnv
        (.receive (some mixedBatch))).step fullSessionEnv (.strand true) := List.foldl_append
  rw [hrun]
  generalize run fullSessionEnv {} subscribed = s at hempty
  obtain ⟨rt, origins, session, strand, pool⟩ := s
  cases hempty
  rfl

theorem strand_beforeAgain :
    (run fullSessionEnv {} beforeAgain).strand = [.requests [timerAgain]] := by
  have hbatch := strand_beforeBatch
  have hrun : run fullSessionEnv {} beforeAgain =
      ((run fullSessionEnv {} beforeBatch).step fullSessionEnv (.strand true)).step fullSessionEnv
        (.strand true) := List.foldl_append
  rw [hrun]
  generalize run fullSessionEnv {} beforeBatch = s at hbatch
  obtain ⟨rt, origins, session, strand, pool⟩ := s
  cases hbatch
  change (sendText _ _).strand = _
  unfold sendText close
  split_ifs <;> rfl

theorem subscription_tables_again :
    SameTables (run fullSessionEnv {} beforeBatch).session
      ((run fullSessionEnv {} beforeBatch).step fullSessionEnv (.strand true)).session ∧
    (run fullSessionEnv {} beforeAgain).session.entry (.int 1) = (some 1, some [0]) ∧
    ∃ rq built rt, parseRequest timerAgain = .ok (.int 1, rq) ∧
      (run fullSessionEnv {} beforeAgain).buildRequest fullSessionEnv (.int 1) rq =
        (.ok built, rt) ∧
      ((run fullSessionEnv {} beforeAgain).step fullSessionEnv (.strand true)).session.entry =
        Function.update (run fullSessionEnv {} beforeAgain).session.entry (.int 1)
          (some built.head, some built.keepAlive) ∧
      built.head ≠ 1 := by
  have hfirst := (subscription_tables fullSessionEnv beforeBatch).1.request true unnamedStream
    [timerAgain] [] strand_beforeBatch
  have hagain := (subscription_tables fullSessionEnv beforeAgain).1.request true timerAgain [] []
    strand_beforeAgain
  refine ⟨hfirst.rejected _ rfl, by decide +kernel, ?_⟩
  have hkey : (parseRequest timerAgain).toOption.map Prod.fst = some (.int 1) := by decide +kernel
  have hnew : (parseRequest timerAgain).toOption.all (fun parsed =>
      ((run fullSessionEnv {} beforeAgain).buildRequest fullSessionEnv parsed.1
        parsed.2).1.toOption.any (·.head ≠ 1)) = true := by decide +kernel
  rcases hparse : parseRequest timerAgain with error | ⟨key, rq⟩
  · rw [hparse] at hkey
    cases hkey
  · rw [hparse] at hkey hnew
    cases hkey
    rcases hbuild : (run fullSessionEnv {} beforeAgain).buildRequest fullSessionEnv (.int 1) rq with
      ⟨message | built, rt⟩
    · simp [Except.toOption, hbuild] at hnew
    · have hplace : HasPlace (run fullSessionEnv {} beforeAgain).session (.int 1) := by
        intro _
        decide +kernel
      refine ⟨rq, built, rt, rfl, hbuild, (hagain.accepted _ _ built rt hparse hplace hbuild).1, ?_⟩
      simpa [Except.toOption, hbuild] using hnew

end System
end GmaEngine
