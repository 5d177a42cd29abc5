import MurlSystem.Consent.Alike
import MurlSystem.Core.Report
import MurlSystem.Daemon.Framed
import MurlSystem.Foundation.Segments

namespace MurlSystem.Protocol

open Program

inductive Deed
  | received (request : Request)
  | resolved (plan : Resolution)
  | asked (request : ConsentRequest) (granted : List Nat)
  | did (event : Event)

def Deed.isAsked : Deed → Bool
  | .asked _ _ => true
  | _ => false

-- Everything a request needs. The resolver's collaborators, the consent surface and the launcher
-- are the outside world, which answers from everything that was done so far.
structure Context where
  resolver : List Deed → Env
  policy : Policy
  os : Path.Platform
  opener : OpenerConfig
  launcher : List Deed → Launcher
  consent : List Deed → ConsentRequest → List Nat
  limits : Limits
  startedAt : UInt64
  socket : String
  version : String

def Response.isOutcome : Response → Bool
  | .outcome _ => true
  | _ => false

structure Server where
  cache : Cache
  activations : UInt64
  deeds : List Deed

def Server.does (server : Server) (deeds : List Deed) : Server :=
  { server with deeds := server.deeds ++ deeds }

def Server.resolved (server : Server) (plan : Resolution) (cache : Cache) : Server :=
  { server with cache := cache, deeds := server.deeds ++ [.resolved plan] }

section Handle

variable (ctx : Context)

def resolvePlan (server : Server) (murl : String) : List Response × Server :=
  match Murl.parse murl with
  | .error e => ([.error "parse" e.toString],server)
  | .ok m =>
    match resolve (ctx.resolver server.deeds) m (Run.start server.cache) with
    | .ok res run =>
      let plan := res.applyPolicy ctx.policy
      ([.plan plan.toJson],server.resolved plan run.cache)
    | .error e run => ([.error "resolve" e.toString],{ server with cache := run.cache })

def consentIds (wanted : Approval → Bool) (plan : Resolution) (approvals : List Approval) :
    List String :=
  ((plan.resources.zip approvals).filter fun entry => wanted entry.2).map fun entry =>
    entry.1.resource.id

def isApproved : Approval → Bool
  | .approved => true
  | _ => false

def isDenied : Approval → Bool
  | .denied _ => true
  | _ => false

def dispatch (server : Server) (plan : Resolution) (approvals : List Approval) :
    List Response × Server :=
  match execute ctx.os ctx.opener (ctx.launcher server.deeds) plan approvals ctx.limits [] with
  | .ok report events =>
    ([.outcome report.toJson],
      { server with
        activations := server.activations + 1
        deeds := server.deeds ++ events.map .did })
  | .error e events => ([.error "activate" e.toString],server.does (events.map .did))

-- A plan without a root node would be a panic.
def obtainConsent (server : Server) (plan : Resolution) (only : List String) :
    List Response × Server :=
  match Daemon.prepare plan only with
  | none => ([],server)
  | some (request,slots) =>
    let granted := ctx.consent server.deeds request
    let approvals := Daemon.apply slots granted
    let (responses,after) := dispatch ctx (server.does [.asked request granted]) plan approvals
    (.consent (consentIds isApproved plan approvals)
      (consentIds isDenied plan approvals) :: responses,after)

def activate (server : Server) (murl : String) (only : List String) : List Response × Server :=
  match Murl.parse murl with
  | .error e => ([.error "parse" e.toString],server)
  | .ok m =>
    match resolve (ctx.resolver server.deeds) m (Run.start server.cache) with
    | .error e run => ([.error "activate" e.toString],{ server with cache := run.cache })
    | .ok res run =>
      let plan := res.applyPolicy ctx.policy
      let (responses,after) := obtainConsent ctx (server.resolved plan run.cache) plan only
      (.plan plan.toJson :: responses,after)

def handleRequest (now : UInt64) (server : Server) (request : Request) : List Response × Server :=
  let server := server.does [.received request]
  match request with
  | .ping _ => ([.pong protocolVersion ctx.version],server)
  | .status _ =>
    ([.status ctx.version (now.toNat - ctx.startedAt.toNat) server.activations.toNat ctx.socket],server)
  | .resolve _ murl => resolvePlan ctx server murl
  | .activate _ murl only => activate ctx server murl only

inductive Accepted
  | failed
  | stream (incoming : Incoming) (peer : Outgoing) (now : UInt64)

def maxRequests : Nat := 32

def serveAll (crates : Crates) : Server → List Accepted → Server
  | server,[] => server
  | server,.failed :: rest => serveAll crates server rest
  | server,.stream incoming peer now :: rest =>
    serveAll crates
      (serveConnection crates (handleRequest ctx now) peer incoming maxRequests server).2.state rest

end Handle

section Keeps

variable {σ : Type} {crates : Crates} {handle : σ → Request → List Response × σ} {peer : Outgoing}
  {maxRequests : Nat} {J K : Session σ → Prop}

theorem serveLines_ends (hend : ∀ s, J s → K s)
    (hok : ∀ index line text s s', J s →
      serveLine crates handle peer index line text s = (.ok (),s') → J s')
    (herror : ∀ index line text s e s', J s →
      serveLine crates handle peer index line text s = (.error e,s') → K s')
    (ending : Except String Unit) (lines : List Bytes) : ∀ (index served : Nat) (s : Session σ),
      J s → K (serveLines crates handle peer maxRequests ending lines index served s).2 := by
  induction lines with
  | nil =>
    intro index served s h
    rw [serveLines]
    split <;> exact hend s h
  | cons line rest ih =>
    intro index served s h
    rw [serveLines]
    split
    · exact hend s h
    · cases fromUtf8 line with
      | none => exact hend s h
      | some text =>
        dsimp only
        split
        · exact ih (index + 1) served s h
        · cases hserve : serveLine crates handle peer index line (trimmed text) s with
          | mk result s' =>
            cases result with
            | error e => exact herror _ _ _ _ _ _ h hserve
            | ok _ => exact ih (index + 1) (served + 1) s' (hok _ _ _ _ _ h hserve)

theorem serveConnection_keeps
    (hJ : ∀ index line text s, J s → J (serveLine crates handle peer index line text s).2)
    (stream : Incoming) (state : σ) (h : J ⟨state,[],[]⟩) :
    J (serveConnection crates handle peer stream maxRequests state).2 := by
  refine serveLines_ends (fun _ hs => hs) ?_ ?_ _ _ 0 0 ⟨state,[],[]⟩ h
  · intro index line text s s' hs hserve
    have hkept := hJ index line text s hs
    rwa [hserve] at hkept
  · intro index line text s e s' hs hserve
    have hkept := hJ index line text s hs
    rwa [hserve] at hkept

end Keeps

section Segments

structure Planned (ctx : Context) (before : List Deed) (murl : String) (plan : Resolution) : Prop where
  made : ∃ m cache res run, Murl.parse murl = .ok m ∧
    resolve (ctx.resolver before) m (Run.start cache) = .ok res run ∧
    plan = res.applyPolicy ctx.policy

inductive Serves (ctx : Context) (before : List Deed) : List Deed → Prop
  | received (request : Request) : Serves ctx before [.received request]
  | resolved (request : Request) (plan : Resolution) : Serves ctx before [.received request,.resolved plan]
  | activated {version : Nat} {murl : String} {only : List String} {plan : Resolution}
      {request : ConsentRequest} {slots : List (Option Approval)} {granted : List Nat}
      {events : List Event}
      (planned : Planned ctx (before ++ [.received (.activate version murl only)]) murl plan)
      (shown : Daemon.prepare plan only = some (request,slots))
      (answered : granted =
        ctx.consent (before ++ [.received (.activate version murl only)] ++ [.resolved plan]) request)
      (launched : ∀ e ∈ events, (Daemon.apply slots granted)[e.index]? = some .approved ∧
        e.index < plan.resources.length) :
      Serves ctx before (.received (.activate version murl only) :: .resolved plan ::
        .asked request granted :: events.map .did)

def Deed.request? : Deed → Option Request
  | .received request => some request
  | _ => none

variable {ctx : Context} {server : Server} {before : List Deed} {murl : String} {plan : Resolution}

theorem Planned.decided (h : Planned ctx before murl plan) : Decided ctx.policy plan := by
  obtain ⟨m,cache,res,run,-,hres,rfl⟩ := h.made
  have hproduced := wp_ok (resolveRef_produced (ctx.resolver before) cache (.murl m)) hres
  exact hproduced.decided ctx.policy

theorem prepare_slots {only : List String} {request : ConsentRequest}
    {slots : List (Option Approval)} (h : Daemon.prepare plan only = some (request,slots)) :
    slots = plan.resources.map (consentSlot only) ∧
      request.items = plan.resources.zipIdx.filterMap (offer only) := by
  obtain ⟨root,-,hroot⟩ := Option.bind_eq_some_iff.mp h
  obtain ⟨rfl,rfl⟩ := Prod.mk.inj (Option.some.inj hroot)
  exact ⟨rfl,rfl⟩

theorem execute_total (os : Path.Platform) (opener : OpenerConfig) (launcher : Launcher)
    (limits : Limits) {approvals : List Approval} (hlen : approvals.length = plan.resources.length) :
    ∃ report events, execute os opener launcher plan approvals limits [] = .ok report events ∧
      ∀ e ∈ events, approvals[e.index]? = some .approved ∧ e.index < plan.resources.length := by
  have hspec := execute_spec os opener launcher plan approvals limits []
  cases hx : execute os opener launcher plan approvals limits [] with
  | error e events => exact absurd hlen (wp_error hspec hx).1
  | ok report events =>
    obtain ⟨new,rfl,hnew⟩ := (wp_ok hspec hx).2
    exact ⟨report,_,rfl,hnew⟩

theorem countP_asked (received : Request) (plan : Resolution) (request : ConsentRequest)
    (granted : List Nat) (events : List Event) :
    (.received received :: .resolved plan :: .asked request granted :: events.map Deed.did).countP
      Deed.isAsked = 1 := by
  have hdid : (events.map Deed.did).countP Deed.isAsked = 0 := by
    rw [List.countP_eq_zero]
    intro d hd
    obtain ⟨e,-,rfl⟩ := List.mem_map.mp hd
    exact Bool.false_ne_true
  rw [List.countP_cons_of_neg Bool.false_ne_true,List.countP_cons_of_neg Bool.false_ne_true,
    List.countP_cons_of_pos rfl,hdid]

theorem filterMap_asked (received : Request) (plan : Resolution) (request : ConsentRequest)
    (granted : List Nat) (events : List Event) :
    (.received received :: .resolved plan :: .asked request granted :: events.map Deed.did).filterMap
      Deed.request? = [received] := by
  have hdid : (events.map Deed.did).filterMap Deed.request? = [] := by
    rw [List.filterMap_eq_nil_iff]
    intro d hd
    obtain ⟨e,-,rfl⟩ := List.mem_map.mp hd
    rfl
  simp only [List.filterMap_cons,Deed.request?,hdid]

structure Answered (ctx : Context) (server : Server) (request : Request) (responses : List Response)
    (after : Server) : Prop where
  segment : ∃ segment, after.deeds = server.deeds ++ segment ∧ Serves ctx server.deeds segment ∧
    segment.filterMap Deed.request? = [request] ∧
    segment.countP Deed.isAsked = responses.countP Response.isOutcome
  counted : after.activations =
    server.activations + UInt64.ofNat (responses.countP Response.isOutcome)
  status : ∀ r ∈ responses, ∀ version uptime n socket, r = .status version uptime n socket →
    responses = [r] ∧ n = server.activations.toNat

theorem Answered.refused {request : Request} {stage message : String} {cache : Cache} :
    Answered ctx server request [.error stage message]
      { server.does [.received request] with cache := cache } where
  segment := ⟨_,rfl,.received request,rfl,rfl⟩
  counted := (UInt64.add_zero _).symm
  status := by
    intro r hr version uptime n socket h
    rw [List.mem_singleton.mp hr] at h
    cases h

theorem resolvePlan_answered (request : Request) (murl : String) :
    Answered ctx server request (resolvePlan ctx (server.does [.received request]) murl).1
      (resolvePlan ctx (server.does [.received request]) murl).2 := by
  unfold resolvePlan
  cases Murl.parse murl with
  | error e => exact .refused
  | ok m =>
    dsimp only
    cases resolve _ m _ with
    | error e run => exact .refused
    | ok res run =>
      refine ⟨⟨_,List.append_assoc _ _ _,.resolved request _,rfl,rfl⟩,(UInt64.add_zero _).symm,?_⟩
      intro r hr version uptime n socket h
      rw [List.mem_singleton.mp hr] at h
      cases h

theorem dispatch_counted (server : Server) {approvals : List Approval}
    (hlen : approvals.length = plan.resources.length) : ∃ (report : Value) (events : List Event),
    dispatch ctx server plan approvals = ([.outcome report],
      { server with
        activations := server.activations + 1
        deeds := server.deeds ++ events.map .did }) ∧
      ∀ e ∈ events, approvals[e.index]? = some .approved ∧ e.index < plan.resources.length := by
  obtain ⟨report,events,hx,hevents⟩ := execute_total ctx.os ctx.opener (ctx.launcher server.deeds)
    ctx.limits hlen
  refine ⟨report.toJson,events,?_,hevents⟩
  unfold dispatch
  rw [hx]

theorem apply_length {only : List String} {request : ConsentRequest}
    {slots : List (Option Approval)} (h : Daemon.prepare plan only = some (request,slots))
    (granted : List Nat) : (Daemon.apply slots granted).length = plan.resources.length := by
  rw [(prepare_slots h).1]
  simp [Daemon.apply]

theorem activate_answered (version : Nat) (murl : String) (only : List String) :
    Answered ctx server (.activate version murl only)
      (activate ctx (server.does [.received (.activate version murl only)]) murl only).1
      (activate ctx (server.does [.received (.activate version murl only)]) murl only).2 := by
  unfold activate
  cases hparse : Murl.parse murl with
  | error e => exact .refused
  | ok m =>
    dsimp only
    cases hres : resolve _ m _ with
    | error e run => exact .refused
    | ok res run =>
      dsimp only
      have hplanned : Planned ctx (server.deeds ++ [.received (.activate version murl only)]) murl
          (res.applyPolicy ctx.policy) := ⟨m,_,res,run,hparse,hres,rfl⟩
      obtain ⟨request,slots,hprep⟩ := consent_prepared hplanned.decided only
      unfold obtainConsent
      rw [hprep]
      dsimp only
      obtain ⟨report,events,hdispatch,hevents⟩ := @dispatch_counted ctx (res.applyPolicy ctx.policy) _ _
        (apply_length hprep _)
      rw [hdispatch]
      refine ⟨⟨_,?_,.activated hplanned hprep rfl hevents,?_,?_⟩,rfl,?_⟩
      · simp [Server.does,Server.resolved]
      · exact filterMap_asked _ _ _ _ _
      · exact countP_asked _ _ _ _ _
      · intro r hr version uptime n socket h
        subst h
        simp at hr

theorem handleRequest_answered (ctx : Context) (now : UInt64) (server : Server) (request : Request) :
    Answered ctx server request (handleRequest ctx now server request).1
      (handleRequest ctx now server request).2 := by
  cases request with
  | ping protocol =>
    refine ⟨⟨_,rfl,.received (.ping protocol),rfl,rfl⟩,(UInt64.add_zero _).symm,?_⟩
    intro r hr version uptime n socket h
    rw [List.mem_singleton.mp hr] at h
    cases h
  | status protocol =>
    refine ⟨⟨_,rfl,.received (.status protocol),rfl,rfl⟩,(UInt64.add_zero _).symm,?_⟩
    intro r hr version uptime n socket h
    obtain rfl := List.mem_singleton.mp hr
    cases h
    exact ⟨rfl,rfl⟩
  | resolve protocol murl => exact resolvePlan_answered (.resolve protocol murl) murl
  | activate protocol murl only => exact activate_answered protocol murl only

end Segments

section Serve

structure Spoken (crates : Crates) (connections : List Accepted) (request : Request) : Prop where
  line : ∃ incoming peer now, .stream incoming peer now ∈ connections ∧
    ∃ line ∈ (incoming.reads (byteBudget maxRequests)).1, requestOf crates line = some request

structure Sound (ctx : Context) (server : Server) : Prop where
  segments : Trace.Segmented (Serves ctx) server.deeds
  counted : server.activations = UInt64.ofNat (server.deeds.countP Deed.isAsked)

variable {crates : Crates} {ctx : Context} {connections : List Accepted} {server after : Server}
  {peer : Outgoing} {now : UInt64} {request : Request} {responses : List Response}

theorem Sound.answer (h : Sound ctx server) (ha : Answered ctx server request responses after) :
    Sound ctx after := by
  obtain ⟨segment,hdeeds,hserves,-,hasked⟩ := ha.segment
  refine ⟨?_,?_⟩
  · rw [hdeeds]
    exact .snoc h.segments hserves
  · rw [ha.counted,h.counted,hdeeds,List.countP_append,hasked,UInt64.ofNat_add]

theorem Answered.requests (ha : Answered ctx server request responses after) :
    after.deeds.filterMap Deed.request? = server.deeds.filterMap Deed.request? ++ [request] := by
  obtain ⟨segment,hdeeds,-,hrequest,-⟩ := ha.segment
  rw [hdeeds,List.filterMap_append,hrequest]

structure Serving (ctx : Context) (earlier : List Request) (session : Session Server) : Prop where
  sound : Sound ctx session.state
  requests : session.state.deeds.filterMap Deed.request? =
    earlier ++ session.handled.map Handled.request

theorem Serving.line {earlier : List Request} {session : Session Server}
    (h : Serving ctx earlier session) (index : Nat) (line : Bytes) (text : String) :
    Serving ctx earlier
      (serveLine crates (handleRequest ctx now) peer index line text session).2 := by
  unfold serveLine
  cases parseRequest crates text with
  | error refusal => exact ⟨h.sound,h.requests⟩
  | ok request =>
    have ha := handleRequest_answered ctx now session.state request
    refine ⟨h.sound.answer ha,?_⟩
    have hrequests := ha.requests
    rw [h.requests] at hrequests
    change (handleRequest ctx now session.state request).2.deeds.filterMap Deed.request? = _
    rw [hrequests,List.map_append,List.append_assoc]
    rfl

theorem serveConnection_serving (crates : Crates) (peer : Outgoing) (now : UInt64) (h : Sound ctx server)
    (incoming : Incoming) :
    Serving ctx (server.deeds.filterMap Deed.request?)
      (serveConnection crates (handleRequest ctx now) peer incoming maxRequests server).2 :=
  serveConnection_keeps (fun index line text _ hs => hs.line index line text) incoming server
    ⟨h,(List.append_nil _).symm⟩

theorem Spoken.of_handled {incoming : Incoming}
    (hmem : .stream incoming peer now ∈ connections) {e : Handled}
    (he : e ∈ (serveConnection crates (handleRequest ctx now) peer incoming maxRequests server).2.handled) :
    Spoken crates connections e.request := by
  have hlogged := (serveConnection_run (handleRequest ctx now) peer server).logged e he
  obtain ⟨j,-,hline,-⟩ := hlogged.place
  exact ⟨incoming,peer,now,hmem,e.line,List.mem_of_getElem? hline,hlogged.request⟩

theorem serveAll_sound (rest : List Accepted) (hall : ∀ c ∈ rest, c ∈ connections) : ∀ server,
    Sound ctx server →
      (∀ request ∈ server.deeds.filterMap Deed.request?, Spoken crates connections request) →
      Sound ctx (serveAll ctx crates server rest) ∧
        ∀ request ∈ (serveAll ctx crates server rest).deeds.filterMap Deed.request?,
          Spoken crates connections request := by
  induction rest with
  | nil => exact fun server h hspoken => ⟨h,hspoken⟩
  | cons connection rest ih =>
    intro server h hspoken
    obtain ⟨hmem,hrest⟩ := List.forall_mem_cons.mp hall
    cases connection with
    | failed => exact ih hrest server h hspoken
    | stream incoming peer now =>
      have hserving := serveConnection_serving crates peer now h incoming
      refine ih hrest _ hserving.sound ?_
      rw [hserving.requests]
      refine List.forall_mem_append.mpr ⟨hspoken,?_⟩
      intro request hrequest
      obtain ⟨e,he,rfl⟩ := List.mem_map.mp hrequest
      exact .of_handled hmem he

end Serve

section Consented

structure Authorised (ctx : Context) (earlier : List Deed) (event : Event) : Prop where
  asked : ∃ before version murl only plan request slots granted, ∃ events : List Event,
    earlier = before ++ (.received (.activate version murl only) :: .resolved plan ::
      .asked request granted :: events.map Deed.did) ∧
    Planned ctx (before ++ [.received (.activate version murl only)]) murl plan ∧
    Daemon.prepare plan only = some (request,slots) ∧
    granted = ctx.consent
      (before ++ [.received (.activate version murl only)] ++ [.resolved plan]) request ∧
    ∃ pr, plan.resources[event.index]? = some pr ∧ selectedBy only pr = true ∧
      (pr.decision = some .allow ∨ ∃ reasons, pr.decision = some (.prompt reasons) ∧
        consentItem event.index pr reasons ∈ request.items ∧ event.index ∈ granted) ∧
      (ctx.policy.dangerousRequiresTrust = true → Launchable plan pr)

structure Consented (crates : Crates) (ctx : Context) (connections : List Accepted)
    (server : Server) : Prop where
  authorised : ∀ i event, server.deeds[i]? = some (.did event) →
    Authorised ctx (server.deeds.take i) event
  spoken : ∀ request ∈ server.deeds.filterMap Deed.request?, Spoken crates connections request
  counted : server.activations = UInt64.ofNat (server.deeds.countP Deed.isAsked)

variable {ctx : Context} {plan : Resolution} {only : List String} {request : ConsentRequest}
  {slots : List (Option Approval)} {granted : List Nat} {i : Nat}

theorem approved_chosen (hprep : Daemon.prepare plan only = some (request,slots))
    (h : (Daemon.apply slots granted)[i]? = some .approved) :
    ∃ pr, plan.resources[i]? = some pr ∧ selectedBy only pr = true ∧
      (pr.decision = some .allow ∨ ∃ reasons, pr.decision = some (.prompt reasons) ∧
        consentItem i pr reasons ∈ request.items ∧ i ∈ granted) := by
  obtain ⟨hslots,hitems⟩ := prepare_slots hprep
  rw [apply_at,hslots,List.getElem?_map,Option.map_map] at h
  obtain ⟨pr,hpr,hslot⟩ := Option.map_eq_some_iff.mp h
  refine ⟨pr,hpr,?_⟩
  have hplace : (pr,i) ∈ plan.resources.zipIdx := List.mk_mem_zipIdx_iff_getElem?.mpr hpr
  dsimp only [Function.comp_apply,grantSlot,consentSlot] at hslot
  cases hsel : selectedBy only pr with
  | false => simp [hsel] at hslot
  | true =>
    refine ⟨rfl,?_⟩
    cases hdec : pr.decision with
    | none => simp [hsel,hdec] at hslot
    | some decision =>
      cases decision with
      | allow => exact .inl rfl
      | deny reason => simp [hsel,hdec] at hslot
      | prompt reasons =>
        refine .inr ⟨reasons,rfl,?_,?_⟩
        · rw [hitems]
          refine List.mem_filterMap.mpr ⟨(pr,i),hplace,?_⟩
          simp [offer,hsel,hdec]
        · by_contra hnot
          simp [hsel,hdec,hnot] at hslot

theorem permitted_of_chosen {pr : PlannedResource} {p : List String → Prop}
    (h : pr.decision = some .allow ∨ ∃ reasons, pr.decision = some (.prompt reasons) ∧ p reasons) :
    pr.permitted = true := by
  rcases h with hallow | ⟨reasons,hprompt,-⟩
  · simp [PlannedResource.permitted,hallow]
  · simp [PlannedResource.permitted,hprompt]

theorem asked_did {received : Request} {events : List Event} {event : Event} {j : Nat}
    (h : (.received received :: .resolved plan :: .asked request granted ::
      events.map Deed.did)[j]? = some (.did event)) :
    ∃ k, j = k + 3 ∧ events[k]? = some event := by
  obtain ⟨hj,hdid⟩ := List.getElem?_eq_some_iff.mp h
  have hlate : 3 ≤ j := by
    by_contra hearly
    have hcases : j = 0 ∨ j = 1 ∨ j = 2 := by omega
    rcases hcases with rfl | rfl | rfl <;> cases hdid
  obtain ⟨k,rfl⟩ := Nat.exists_eq_add_of_le' hlate
  rw [List.getElem?_cons_succ,List.getElem?_cons_succ,List.getElem?_cons_succ,List.getElem?_map] at h
  obtain ⟨e,he,heq⟩ := Option.map_eq_some_iff.mp h
  cases heq
  exact ⟨k,rfl,he⟩

theorem received_did {received : Request} {event : Event} {j : Nat} :
    ([.received received] : List Deed)[j]? ≠ some (.did event) := by
  intro h
  cases List.mem_singleton.mp (List.mem_of_getElem? h)

theorem resolved_did {received : Request} {event : Event} {j : Nat} :
    ([.received received,.resolved plan] : List Deed)[j]? ≠ some (.did event) := by
  intro h
  rcases List.mem_cons.mp (List.mem_of_getElem? h) with hfirst | hlast
  · cases hfirst
  · cases List.mem_singleton.mp hlast

theorem Sound.authorised {server : Server} (h : Sound ctx server) {event : Event}
    (hi : server.deeds[i]? = some (.did event)) : Authorised ctx (server.deeds.take i) event := by
  obtain ⟨before,segment,after,j,hsplit,hserves,rfl,hj⟩ := (h.segments.locate hi).split
  cases hserves with
  | received request => exact absurd hj received_did
  | resolved request plan => exact absurd hj resolved_did
  | @activated version murl only plan request slots granted events planned shown answered launched =>
    obtain ⟨k,rfl,hk⟩ := asked_did hj
    obtain ⟨happroved,-⟩ := launched event (List.mem_of_getElem? hk)
    obtain ⟨pr,hpr,hselected,hchosen⟩ := approved_chosen shown happroved
    refine ⟨before,version,murl,only,plan,request,slots,granted,events.take k,?_,planned,shown,answered,
      pr,hpr,hselected,hchosen,?_⟩
    · rw [hsplit,List.append_assoc,List.take_length_add_append]
      have hlt : k < events.length := (List.getElem?_eq_some_iff.mp hk).1
      simp [List.take_append,hlt.le]
    · intro hp
      exact launchable_of_permitted hp planned.decided (List.mem_of_getElem? hpr)
        (permitted_of_chosen hchosen)

theorem daemon_consented (crates : Crates) (ctx : Context) (cache : Cache)
    (connections : List Accepted) :
    Consented crates ctx connections (serveAll ctx crates ⟨cache,0,[]⟩ connections) := by
  have hstart : Sound ctx ⟨cache,0,[]⟩ := ⟨.nil,rfl⟩
  obtain ⟨hsound,hspoken⟩ := @serveAll_sound crates ctx connections connections (fun _ hc => hc)
    ⟨cache,0,[]⟩ hstart (List.forall_mem_nil _)
  exact ⟨fun _ _ hi => hsound.authorised hi,hspoken,hsound.counted⟩

end Consented

section Status

def Tallied (start : UInt64) (written : List Response) : Prop :=
  ∀ i version uptime n socket, written[i]? = some (.status version uptime n socket) →
    n = (start + UInt64.ofNat ((written.take i).countP Response.isOutcome)).toNat

variable {start : UInt64} {written responses : List Response} {ctx : Context} {server : Server}
  {peer : Outgoing}

theorem Tallied.prefix {rest : List Response} (h : Tallied start (written ++ rest)) :
    Tallied start written := by
  intro i version uptime n socket hi
  obtain ⟨hlt,-⟩ := List.getElem?_eq_some_iff.mp hi
  have hwhole := h i version uptime n socket (by rw [List.getElem?_append_left hlt,hi])
  rwa [List.take_append_of_le_length hlt.le] at hwhole

theorem sendAll_cut (responses : List Response) : ∀ written, ∃ sent rest,
    responses = sent ++ rest ∧ (sendAll peer written responses).2 = written ++ sent ∧
      ((sendAll peer written responses).1 = .ok () → rest = []) := by
  induction responses with
  | nil =>
    intro written
    refine ⟨[],[],rfl,?_,fun _ => rfl⟩
    rw [sendAll]
    split <;> simp
  | cons r rest ih =>
    intro written
    rw [sendAll]
    split
    · exact ⟨[],r :: rest,rfl,(List.append_nil _).symm,by rintro ⟨⟩⟩
    · obtain ⟨sent,left,rfl,hwritten,hall⟩ := ih (written ++ [r])
      exact ⟨r :: sent,left,rfl,by rw [hwritten,List.append_assoc]; rfl,hall⟩

theorem Answered.tallied {request : Request} {after : Server} (h : Tallied start written)
    (ha : Answered ctx server request responses after)
    (hcount : server.activations =
      start + UInt64.ofNat (written.countP Response.isOutcome)) :
    Tallied start (written ++ responses) := by
  intro i version uptime n socket hi
  by_cases hlt : i < written.length
  · rw [List.getElem?_append_left hlt] at hi
    rw [List.take_append_of_le_length hlt.le]
    exact h i version uptime n socket hi
  · have hle := Nat.le_of_not_lt hlt
    rw [List.getElem?_append_right hle] at hi
    obtain ⟨hsingle,rfl⟩ := ha.status _ (List.mem_of_getElem? hi) version uptime n socket rfl
    rw [hsingle] at hi
    have hzero : i - written.length = 0 := by
      have hbound := (List.getElem?_eq_some_iff.mp hi).1
      rw [List.length_singleton] at hbound
      omega
    have hi : i = written.length := by omega
    rw [hi,List.take_left,hcount]

theorem Tallied.refused {stage message : String} (h : Tallied start written) :
    Tallied start (written ++ [.error stage message]) := by
  intro i version uptime n socket hi
  by_cases hlt : i < written.length
  · rw [List.getElem?_append_left hlt] at hi
    rw [List.take_append_of_le_length hlt.le]
    exact h i version uptime n socket hi
  · rw [List.getElem?_append_right (Nat.le_of_not_lt hlt)] at hi
    cases List.mem_singleton.mp (List.mem_of_getElem? hi)

def Response.isError : Response → Prop
  | .error _ _ => True
  | _ => False

theorem parseRequest_blames (crates : Crates) (text : String) :
    Fallible.Blames Response.isError (parseRequest crates text) := by
  unfold parseRequest
  refine .guard trivial ?_
  refine .bind (.mapError (fun _ => trivial) _) fun value => ?_
  refine .bind (.mapError (fun _ => trivial) _) fun request => ?_
  exact .guard trivial (.pure request)

theorem parseRequest_error {crates : Crates} {text : String} {refusal : Response}
    (h : parseRequest crates text = .error refusal) :
    ∃ stage message, refusal = .error stage message := by
  have herror := parseRequest_blames crates text refusal h
  cases refusal with
  | error stage message => exact ⟨stage,message,rfl⟩
  | pong => cases herror
  | plan => cases herror
  | consent => cases herror
  | outcome => cases herror
  | status => cases herror

structure Counting (start : UInt64) (session : Session Server) : Prop where
  tallied : Tallied start session.written
  counted : session.state.activations =
    start + UInt64.ofNat (session.written.countP Response.isOutcome)

theorem respond_tallied (crates : Crates) (ctx : Context) (now : UInt64) (text : String)
    {session : Session Server} (h : Counting start session) :
    Tallied start (session.written ++
        (respond crates (handleRequest ctx now) session.state text).1) ∧
      (respond crates (handleRequest ctx now) session.state text).2.activations =
        session.state.activations + UInt64.ofNat
          ((respond crates (handleRequest ctx now) session.state text).1.countP Response.isOutcome) := by
  unfold respond
  cases hparse : parseRequest crates text with
  | error refusal =>
    obtain ⟨stage,message,rfl⟩ := parseRequest_error hparse
    exact ⟨h.tallied.refused,(UInt64.add_zero _).symm⟩
  | ok request =>
    have ha := handleRequest_answered ctx now session.state request
    exact ⟨ha.tallied h.tallied h.counted,ha.counted⟩

theorem serveLine_respond {σ : Type} (crates : Crates) (handle : σ → Request → List Response × σ)
    (index : Nat) (line : Bytes) (text : String) (session : Session σ) :
    (serveLine crates handle peer index line text session).1 =
        (sendAll peer session.written (respond crates handle session.state text).1).1 ∧
      (serveLine crates handle peer index line text session).2.written =
        (sendAll peer session.written (respond crates handle session.state text).1).2 ∧
      (serveLine crates handle peer index line text session).2.state =
        (respond crates handle session.state text).2 := by
  unfold serveLine respond
  cases parseRequest crates text with
  | error refusal => exact ⟨rfl,rfl,rfl⟩
  | ok request => exact ⟨rfl,rfl,rfl⟩

theorem serveLine_counting (crates : Crates) (ctx : Context) (now : UInt64) (index : Nat) (line : Bytes)
    (text : String) {session : Session Server} (h : Counting start session) :
    Tallied start
        (serveLine crates (handleRequest ctx now) peer index line text session).2.written ∧
      ((serveLine crates (handleRequest ctx now) peer index line text session).1 = .ok () →
        Counting start
          (serveLine crates (handleRequest ctx now) peer index line text session).2) := by
  obtain ⟨hresult,hwritten,hstate⟩ := @serveLine_respond peer _ crates (handleRequest ctx now) index
    line text session
  obtain ⟨htallied,hcount⟩ := respond_tallied crates ctx now text h
  obtain ⟨sent,rest,hsplit,hsent,hall⟩ := @sendAll_cut peer
    (respond crates (handleRequest ctx now) session.state text).1 session.written
  rw [hsplit,← List.append_assoc] at htallied
  refine ⟨by rw [hwritten,hsent]; exact htallied.prefix,?_⟩
  intro hok
  obtain rfl := hall (hresult.symm.trans hok)
  rw [List.append_nil] at hsplit htallied
  refine ⟨by rw [hwritten,hsent]; exact htallied,?_⟩
  rw [hstate,hcount,h.counted,hwritten,hsent,hsplit,List.countP_append,UInt64.ofNat_add,
    UInt64.add_assoc]

theorem status_tallied (crates : Crates) (ctx : Context) (peer : Outgoing) (incoming : Incoming)
    (maxRequests : Nat) (now : UInt64) (server : Server) :
    Tallied server.activations
      (serveConnection crates (handleRequest ctx now) peer incoming maxRequests server).2.written := by
  refine @serveLines_ends _ crates (handleRequest ctx now) peer maxRequests
    (Counting server.activations) (fun s => Tallied server.activations s.written) ?_ ?_ ?_ _ _ 0 0
    ⟨server,[],[]⟩ ?_
  · exact fun s h => h.tallied
  · intro index line text s s' h hserve
    have hline := (@serveLine_counting _ peer crates ctx now index line text s h).2
    rw [hserve] at hline
    exact hline rfl
  · intro index line text s e s' h hserve
    have hline := (@serveLine_counting _ peer crates ctx now index line text s h).1
    rwa [hserve] at hline
  · refine ⟨?_,(UInt64.add_zero _).symm⟩
    intro i version uptime n socket hi
    cases hi

end Status

end MurlSystem.Protocol
