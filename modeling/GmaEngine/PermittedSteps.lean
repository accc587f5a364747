import GmaEngine.BridgeCancellation
import GmaEngine.SessionCancellation

/-!
# The nodes that runs make

Only requests and the templates of GroupSplits make nodes. Where both make permitted nodes only, so
do the steps of a session and those of the bridge.
-/

namespace GmaEngine

variable {D : Type} {P : NodeCore D → Prop} {S : Json D → Prop}

namespace Runtime
variable {rt rt' : Runtime D}

theorem templatesOk_empty : TemplatesOk S ({} : Runtime D) := by
  intro id node childDoc key hnode
  cases hnode

theorem TemplatesOk.step (h : rt.TemplatesOk S)
    (htemplate : ∀ child key, P (.groupSplit child key) → S child) (hstep : HeapStep P rt rt') :
    rt'.TemplatesOk S := by
  intro id node childDoc key hnode hcore
  rcases Nat.lt_or_ge id rt.nodes.length with hlt | hge
  · obtain ⟨node', hnode', hsame, -⟩ := hstep.old id _ (List.getElem?_eq_getElem hlt)
    rw [hnode] at hnode'
    cases hnode'
    exact h id _ childDoc key (List.getElem?_eq_getElem hlt) (hsame.symm.trans hcore)
  · have hnew := hstep.new id node hge hnode
    rw [hcore] at hnew
    exact htemplate childDoc key hnew

end Runtime

/-- Whatever comes of it, a request and its terminal make permitted nodes only. -/
def TreeBuilder.Asks [Double D] (env : BuildEnv D) (P : NodeCore D → Prop) (rq : Json D) : Prop :=
  ∀ (rt : Runtime D) (key : RequestKey) (terminal : NodeId),
    HeapStep P rt ((buildForRequest env rq (some terminal)).run.run
      { rt with nodes := rt.nodes ++ [.responder key false] }).2

theorem TreeBuilder.asks_request [Double D] {env : BuildEnv D} (hpermits : Permits env P S)
    (hterminal : ∀ key, P (.responder key)) {rq : Json D}
    (hspecs : ∀ spec ∈ (nodeOf rq).toList ++ (pipelineOf rq).getD [], S spec)
    (hhead : ∀ keys, requestKeys rq = .ok keys → isPipelineOnlyKey keys.2 = false →
      P (.listener keys.1 keys.2)) : Asks env P rq := by
  intro rt key terminal
  have hpush : HeapStep P rt { rt with nodes := rt.nodes ++ [.responder key false] } :=
    HeapStep.push rt (hterminal key)
  exact hpush.trans (makes_buildForRequest hpermits rq terminal hspecs hhead _ trivial).1

namespace System

/-- What a request hands to the builder, if it is not refused before. -/
def buildingOf (s : System D) (r : Json D) : Option (Json D) :=
  match ClientSession.parseRequest r with
  | .ok (key, rq) =>
    if (lookupKey s.session.active key).isNone &&
        decide (ClientSession.maxSubscriptions ≤ s.session.active.length) then none
    else some rq
  | .error _ => none

/-- The request that the strand hands to the builder next. -/
def building (s : System D) : Option (Json D) :=
  match s.strand with
  | .requests (r :: _) :: _ => s.buildingOf r
  | _ => none

variable [Double D]

omit [Double D] in
theorem heapStep_shutdownHeads (P : NodeCore D → Prop) (rt : Runtime D) (heads : List NodeId) :
    HeapStep P rt (heads.foldl Runtime.shutdownListener rt) :=
  Runtime.heapStep_foldl Runtime.heapStep_shutdownListener heads rt

omit [Double D] in
theorem heapStep_shutdownHead (P : NodeCore D → Prop) (rt : Runtime D) (head : Option NodeId) :
    HeapStep P rt (head.elim rt rt.shutdownListener) := by
  cases head with
  | none => exact HeapStep.refl P rt
  | some head => exact Runtime.heapStep_shutdownListener rt head

omit [Double D] in
theorem heapStep_close (P : NodeCore D → Prop) (s : System D) : HeapStep P s.rt s.close.rt := by
  unfold close
  split_ifs
  · exact heapStep_shutdownHeads P s.rt _
  · exact HeapStep.refl P s.rt

omit [Double D] in
theorem heapStep_sendText (P : NodeCore D → Prop) (s : System D) (frame : Frame D) :
    HeapStep P s.rt (s.sendText frame).rt := by
  unfold sendText
  split_ifs
  · exact HeapStep.refl P s.rt
  · exact heapStep_close P s
  · exact HeapStep.refl P s.rt

omit [Double D] in
theorem heapStep_onWrite (P : NodeCore D → Prop) (s : System D) (ok : Bool) :
    HeapStep P s.rt (s.onWrite ok).rt := by
  unfold onWrite
  split_ifs
  · exact heapStep_close P s
  · exact HeapStep.refl P s.rt

theorem heapStep_handleRequest (env : SessionEnv D) {s : System D} {r : Json D}
    (h : ∀ rq ∈ s.buildingOf r, TreeBuilder.Asks env.build P rq) :
    HeapStep P s.rt (s.handleRequest env r).rt := by
  have hrefl := HeapStep.refl P s.rt
  unfold buildingOf at h
  unfold handleRequest
  cases hparse : ClientSession.parseRequest r with
  | error e => exact hrefl
  | ok parsed =>
    obtain ⟨key, rq⟩ := parsed
    rw [hparse] at h
    dsimp only at h ⊢
    by_cases hfull : ((lookupKey s.session.active key).isNone &&
        decide (ClientSession.maxSubscriptions ≤ s.session.active.length)) = true
    · rw [if_pos hfull]
      exact hrefl
    · rw [if_neg hfull] at h ⊢
      have hbuild := h rq rfl s.rt key s.rt.nodes.length
      generalize (TreeBuilder.buildForRequest env.build rq (some s.rt.nodes.length)).run.run
        { s.rt with nodes := s.rt.nodes ++ [.responder key false] } = out at hbuild ⊢
      obtain ⟨result, rt⟩ := out
      cases result with
      | error message => exact hbuild
      | ok built => exact hbuild.trans (heapStep_shutdownHead _ rt _)

theorem heapStep_runStrand (env : SessionEnv D) (allowed : Bool) {s : System D}
    (h : ∀ rq ∈ s.building, TreeBuilder.Asks env.build P rq) :
    HeapStep P s.rt (s.runStrand env allowed).rt := by
  have hrefl := HeapStep.refl P s.rt
  unfold building at h
  unfold runStrand
  cases hstrand : s.strand with
  | nil => exact hrefl
  | cons handler rest =>
    rw [hstrand] at h
    cases handler with
    | message doc => exact hrefl
    | requests rs =>
      cases rs with
      | nil => exact hrefl
      | cons r rs =>
        have hasks : ∀ rq ∈ ({ s with strand := rest }.next [.requests rs]).buildingOf r,
            TreeBuilder.Asks env.build P rq := h
        exact heapStep_handleRequest env hasks
    | cancels keys =>
      cases keys with
      | nil => exact hrefl
      | cons key keys => exact heapStep_shutdownHead _ s.rt _
    | send frame => exact heapStep_sendText _ { s with strand := rest } frame
    | written ok => exact heapStep_onWrite _ { s with strand := rest } ok
    | close => exact heapStep_close _ { s with strand := rest }

/-- Only the strand builds requests, and only workers build from templates. -/
theorem heapStep_step (env : SessionEnv D) (hpermits : Permits env.build P S) {s : System D}
    (htemplates : s.rt.TemplatesOk S) {action : Action D}
    (h : ∀ allowed, action = .strand allowed → ∀ rq ∈ s.building,
      TreeBuilder.Asks env.build P rq) : HeapStep P s.rt (s.step env action).rt := by
  have hrefl := HeapStep.refl P s.rt
  cases action with
  | strand allowed => exact heapStep_runStrand env allowed (h allowed rfl)
  | timer id => exact Runtime.heapStep_timerLoop s.rt id
  | work task store =>
    unfold step work
    dsimp only
    cases s.pool[task]? with
    | none => exact hrefl
    | some calls =>
      cases calls with
      | nil => exact hrefl
      | cons call rest =>
        exact Runtime.heapStep_onValue hpermits htemplates store _ call.node call.value
  | writeDone ok =>
    unfold step
    dsimp only
    split_ifs <;> exact hrefl
  | _ => exact hrefl

end System

namespace Bridge

/-- What a request hands to the builder, if it is not refused before. -/
def buildingOf (b : Bridge D) (connId : String) (r : Json D) : Option (Json D) :=
  match (r.member "id").bind idOf, (r.member "streamKey").bind Json.getString,
      (r.member "field").bind Json.getString with
  | some reqId, some streamKey, some field =>
    if !r.isObject then none
    else if streamKey = "" || ClientSession.maxStreamKeyLen < streamKey.utf8ByteSize then none
    else if field = "" || ClientSession.maxFieldLen < field.utf8ByteSize then none
    else if b.overLimit connId reqId then none
    else if lookupKey b.connections connId ≠ some true then none
    else
      match ClientSession.validateSpecs r with
      | .ok () => some (ClientSession.requestFor r streamKey field)
      | .error _ => none
  | _, _, _ => none

/-- The request that the bridge hands to the builder next. -/
def building (b : Bridge D) : Option (Json D) :=
  match b.pending with
  | .requests connId (r :: _) :: _ => b.buildingOf connId r
  | _ => none

variable [Double D]

omit [Double D] in
theorem rt_sendTo (b : Bridge D) (connId : String) (frame : BridgeFrame D) :
    (b.sendTo connId frame).rt = b.rt := by
  unfold sendTo
  split_ifs <;> rfl

theorem heapStep_subscribe (env : BuildEnv D) (b : Bridge D) (connId reqId : String) {rq : Json D}
    (h : TreeBuilder.Asks env P rq) :
    HeapStep P b.rt (b.subscribe env connId reqId rq).rt := by
  have hbuild := h b.rt (.str reqId) b.rt.nodes.length
  unfold subscribe
  dsimp only
  generalize (TreeBuilder.buildForRequest env rq (some b.rt.nodes.length)).run.run
    { b.rt with nodes := b.rt.nodes ++ [.responder (.str reqId) false] } = out at hbuild ⊢
  obtain ⟨result, rt⟩ := out
  cases result with
  | error message =>
    rw [rt_sendTo]
    exact hbuild.trans (Runtime.heapStep_shutdown rt _)
  | ok built =>
    rw [rt_sendTo]
    exact hbuild.trans ((heapStep_shutdownSub (b.withRuntime rt b.rt.nodes.length) connId reqId).imp
      (fun _ hfalse => hfalse.elim))

theorem heapStep_handleRequest (env : BuildEnv D) {b : Bridge D} {connId : String} {r : Json D}
    (h : ∀ rq ∈ b.buildingOf connId r, TreeBuilder.Asks env P rq) :
    HeapStep P b.rt (b.handleRequest env connId r).rt := by
  have hrefl := HeapStep.refl P b.rt
  have hsend : ∀ frame, HeapStep P b.rt (b.sendTo connId frame).rt := by
    intro frame
    rw [rt_sendTo]
    exact hrefl
  unfold buildingOf at h
  unfold handleRequest
  split
  · exact hrefl
  · next hobject =>
    cases hid : (r.member "id").bind idOf with
    | none => exact hsend _
    | some reqId =>
      cases hstream : (r.member "streamKey").bind Json.getString with
      | none => exact hsend _
      | some streamKey =>
        cases hfield : (r.member "field").bind Json.getString with
        | none => exact hsend _
        | some field =>
          rw [hid, hstream, hfield] at h
          dsimp only at h ⊢
          rw [if_neg hobject] at h
          split_ifs at h ⊢
          · exact hsend _
          · exact hsend _
          · exact hsend _
          · exact hrefl
          · cases hvalid : ClientSession.validateSpecs r with
            | error message => exact hsend _
            | ok _ =>
              rw [hvalid] at h
              exact heapStep_subscribe env b connId reqId (h _ rfl)

omit [Double D] in
theorem rt_onMessage (b : Bridge D) (connId : String) (doc : Option (Json D)) :
    (b.onMessage connId doc).rt = b.rt := by
  unfold onMessage
  split
  · split
    · unfold handleSubscribe
      split
      · rfl
      · exact rt_sendTo b connId _
    · unfold handleCancel
      split
      · rfl
      · exact rt_sendTo b connId _
    · exact rt_sendTo b connId _
    · exact rt_sendTo b connId _
  · exact rt_sendTo b connId _

theorem heapStep_serve (env : BuildEnv D) {b : Bridge D}
    (h : ∀ rq ∈ b.building, TreeBuilder.Asks env P rq) :
    HeapStep P b.rt (b.serve env).rt := by
  have hrefl := HeapStep.refl P b.rt
  unfold building at h
  unfold serve
  cases hpending : b.pending with
  | nil => exact hrefl
  | cons call rest =>
    rw [hpending] at h
    cases call with
    | onOpen connId callable => exact hrefl
    | onMessage connId doc =>
      dsimp only
      rw [rt_onMessage]
      exact hrefl
    | requests connId rs =>
      cases rs with
      | nil => exact hrefl
      | cons r rs =>
        have hasks : ∀ rq ∈ buildingOf { b with pending := .requests connId rs :: rest } connId r,
            TreeBuilder.Asks env P rq := h
        exact heapStep_handleRequest env hasks
    | cancels connId ids =>
      cases ids with
      | nil => exact hrefl
      | cons reqId ids =>
        dsimp only [cancelId]
        rw [rt_sendTo]
        exact (heapStep_shutdownSub { b with pending := .cancels connId ids :: rest } connId
          reqId).imp (fun _ hfalse => hfalse.elim)
    | onClose connId =>
      exact (Runtime.heapStep_foldl Runtime.heapStep_shutdown _ _).trans
        (Runtime.heapStep_foldl Runtime.heapStep_shutdown _ _)

theorem heapStep_step (env : BuildEnv D) (hpermits : Permits env P S) {b : Bridge D}
    (htemplates : b.rt.TemplatesOk S) {action : BridgeAction D}
    (h : action = .serve → ∀ rq ∈ b.building, TreeBuilder.Asks env P rq) :
    HeapStep P b.rt (b.step env action).rt := by
  have hrefl := HeapStep.refl P b.rt
  cases action with
  | serve => exact heapStep_serve env (h rfl)
  | timer id => exact Runtime.heapStep_timerLoop b.rt id
  | work task store =>
    unfold step work
    dsimp only
    cases b.pool[task]? with
    | none => exact hrefl
    | some calls =>
      cases calls with
      | nil => exact hrefl
      | cons call rest =>
        exact Runtime.heapStep_onValue hpermits htemplates store _ call.node call.value
  | _ => exact hrefl

end Bridge
end GmaEngine
