import MurlSystem.Activation.ExitCode
import MurlSystem.Daemon.Exchange

namespace MurlSystem.Protocol

open Program

section TryOpen

def reportAggregate (report : Value) : Option String :=
  (report.asObject.bind (List.lookup "aggregate")).bind Value.asStr

def readOutcome (exit : Nat) : List Response → Outcome
  | [] => .handled exit
  | .error stage message :: _ =>
    .refused (Error.resolution s!"daemon ({stage}): {message}").toString
  | .outcome report :: rest => readOutcome (exitCodeForReport (reportAggregate report)) rest
  | .plan _ :: rest | .consent _ _ :: rest | .pong _ _ :: rest | .status _ _ _ _ :: rest =>
    readOutcome exit rest

-- The probe and the activation are two connections, so two states of the daemon may answer them.
def tryOpen (crates : Crates) (probed daemon : Endpoint) (inv : Invocation) : Option Outcome :=
  match route inv with
  | .settled outcome => some outcome
  | .panics => none
  | .daemon =>
    if probe crates probed then
      match request crates daemon (.activate protocolVersion inv.target inv.opts.only) with
      | .ok responses => some (readOutcome 0 responses)
      | .error e => some (refuseOrFallBack inv.mode e.toString)
    else some (refuseOrFallBack inv.mode s!"no usable daemon at {probed.path}")

end TryOpen

section Refines

def daemonOf (party : Party) (ask : ConsentRequest → List Nat) (startedAt : UInt64)
    (socket version : String) : Context where
  resolver _ := party.env
  policy := party.policy
  os := party.desktop.os
  opener := party.desktop.opener
  launcher _ := party.desktop.launcher
  consent _ := ask
  limits := party.desktop.limits
  startedAt := startedAt
  socket := socket
  version := version

inductive Represents : Response → MurlSystem.Response → Prop
  | plan (resolution : Value) : Represents (.plan resolution) .plan
  | consent (granted denied : List String) : Represents (.consent granted denied) (.consent granted denied)
  | outcome (report : ExecutionReport) : Represents (.outcome report.toJson) (.outcome report.aggregate)
  | error (stage message : String) : Represents (.error stage message) (.error stage message)

variable {party : Party} {ask : ConsentRequest → List Nat} {startedAt : UInt64}
  {socket version : String} {server : Server}

theorem reportAggregate_report (report : ExecutionReport) :
    reportAggregate report.toJson = some report.aggregate.toString := rfl

theorem exitCode_wire (aggregate : AggregateStatus) :
    exitCodeForReport (some aggregate.toString) = exitCodeFor aggregate := by
  cases aggregate <;> rfl

theorem readOutcome_represents {responses : List Response} {abstract : List MurlSystem.Response}
    (h : List.Forall₂ Represents responses abstract) :
    ∀ exit, readOutcome exit responses = MurlSystem.readResponses exit abstract := by
  induction h with
  | nil => exact fun _ => rfl
  | cons hrep _ ih =>
    intro exit
    cases hrep with
    | plan resolution => exact ih exit
    | consent granted denied => exact ih exit
    | outcome report =>
      rw [readOutcome,reportAggregate_report,exitCode_wire]
      exact ih (exitCodeFor report.aggregate)
    | error stage message => rfl

theorem consent_represents (plan : Resolution) (approvals : List Approval) :
    Represents (.consent (consentIds isApproved plan approvals) (consentIds isDenied plan approvals))
      (consentResponse plan approvals) := by
  have happroved : isApproved = fun a => a == .approved := by
    funext a
    cases a <;> rfl
  have hconsent : consentResponse plan approvals = .consent
      (consentIds (fun a => a == .approved) plan approvals) (consentIds isDenied plan approvals) := rfl
  rw [happroved,hconsent]
  exact .consent _ _

theorem activate_represents (murl : String) (only : List String) :
    List.Forall₂ Represents
      (activate (daemonOf party ask startedAt socket version) server murl only).1
      (party.activate ask server.cache murl only) := by
  unfold activate Party.activate Party.plan resolveRef
  cases Murl.parse murl with
  | error e => exact .cons (.error _ _) .nil
  | ok m =>
    dsimp only [daemonOf]
    cases hres : resolve party.env m (Run.start server.cache) with
    | error e run => exact .cons (.error _ _) .nil
    | ok res run =>
      have hplan : party.plan (.murl m) server.cache = .ok (res.applyPolicy party.policy) := by
        rw [Party.plan,resolveRef,hres]
      obtain ⟨request,slots,hprep⟩ := consent_prepared (plan_decided hplan) only
      unfold obtainConsent dispatch Party.dispatch
      dsimp only [Server.does,Server.resolved]
      rw [hprep]
      dsimp only
      cases execute _ _ _ _ _ _ _ with
      | ok report events =>
        exact .cons (.plan _) (.cons (consent_represents _ _) (.cons (.outcome report) .nil))
      | error e events =>
        exact .cons (.plan _) (.cons (consent_represents _ _) (.cons (.error _ _) .nil))

theorem compactItems_strings (texts : List String) :
    compactItems (texts.map .string) = texts.map writeString := by
  induction texts with
  | nil => rfl
  | cons text rest ih =>
    rw [List.map_cons,compactItems,ih]
    rfl

theorem compact_activate (target : String) (only : List String) :
    compact (Request.activate protocolVersion target only).toValue =
      "\x7b" ++ ",".intercalate [writeString "type" ++ ":" ++ writeString "activate",
        writeString "protocol" ++ ":" ++ (Number.int protocolVersion).toString,
        writeString "murl" ++ ":" ++ writeString target,
        writeString "only" ++ ":" ++
          ("[" ++ ",".intercalate (only.map writeString) ++ "]")] ++ "\x7d" := by
  unfold Request.toValue
  rw [compact,compactMembers,compactMembers,compactMembers,compactMembers,compactMembers,
    Value.strings,compact,compact,compact,compact,compactItems_strings]

theorem members_join {start comma a b c d x y z head between tail : String}
    (hhead : start ++ a ++ comma ++ b ++ comma ++ c = head) (hbetween : comma ++ d ++ x = between)
    (htail : y ++ z = tail) (t w : String) :
    start ++ comma.intercalate [a,b,c ++ t,d ++ (x ++ w ++ y)] ++ z =
      head ++ t ++ between ++ w ++ tail := by
  have hjoin : comma.intercalate [a,b,c ++ t,d ++ (x ++ w ++ y)] =
      a ++ comma ++ b ++ comma ++ (c ++ t) ++ comma ++ (d ++ (x ++ w ++ y)) := by
    rw [String.intercalate_cons_cons,String.intercalate_cons_cons,String.intercalate_cons_cons,
      String.intercalate_singleton]
    simp only [String.append_assoc]
  rw [hjoin,← hhead,← hbetween,← htail]
  simp only [String.append_assoc]

theorem compact_requestLine (target : String) (only : List String) :
    compact (Request.activate protocolVersion target only).toValue = requestLine target only := by
  refine (compact_activate target only).trans ?_
  unfold requestLine
  refine members_join ?_ ?_ ?_ _ _
  · decide +kernel
  · decide +kernel
  · decide +kernel

end Refines

section Opening

variable {crates : Crates} {f64 : List Char → Option String}

theorem daemonOf_sized {party : Party} (hdepth : party.env.limits.maxDepth < 2 ^ 32)
    (hmanifests : party.env.limits.maxNestedManifests < 2 ^ 64) (ask : ConsentRequest → List Nat)
    (startedAt : UInt64) (socket version : String) :
    (daemonOf party ask startedAt socket version).Sized := fun _ => ⟨hdepth,hmanifests⟩

theorem open_over_wire (crates : Crates) (f64 : List Char → Option String)
    (serde : Serde.Tokenises crates f64) (party : Party) (ask : ConsentRequest → List Nat)
    (hdepth : party.env.limits.maxDepth < 2 ^ 32)
    (hmanifests : party.env.limits.maxNestedManifests < 2 ^ 64) (startedAt : UInt64)
    (socket version path : String) (now later : UInt64) (idle server : Server) (inv : Invocation)
    (served : Served inv) :
    tryOpen crates (daemonAt crates (daemonOf party ask startedAt socket version) now idle path)
        (daemonAt crates (daemonOf party ask startedAt socket version) later server path) inv =
      some (MurlSystem.readResponses 0 (party.activate ask server.cache inv.target inv.opts.only)) := by
  have sized := daemonOf_sized hdepth hmanifests ask startedAt socket version
  have hfits : (compact (Request.activate protocolVersion inv.target inv.opts.only).toValue).utf8ByteSize ≤
      maxLineBytes := by
    rw [compact_requestLine]
    exact served.fits
  have hprobed : probe crates
      (daemonAt crates (daemonOf party ask startedAt socket version) now idle path) = true :=
    probe_daemonAt serde sized path
  have htold := @request_told crates f64 _ later server serde sized
    (.activate protocolVersion inv.target inv.opts.only) rfl hfits path
  have hactivated := @activate_represents party ask startedAt socket version
    (server.does [.received (.activate protocolVersion inv.target inv.opts.only)]) inv.target inv.opts.only
  have houtcome := readOutcome_represents hactivated 0
  unfold tryOpen
  rw [served.routed,hprobed,htold]
  exact congrArg some houtcome

theorem docs_over_wire : tryOpen (Serde.tokenising Serde.shown Serde.bareCrates)
    (daemonAt (Serde.tokenising Serde.shown Serde.bareCrates)
      (daemonOf docsParty grantAll 0 "murl.sock" "0.3.0") 0 ⟨Cache.empty,0,[]⟩ "murl.sock")
    (daemonAt (Serde.tokenising Serde.shown Serde.bareCrates)
      (daemonOf docsParty grantAll 0 "murl.sock" "0.3.0") 1 ⟨Cache.empty,0,[]⟩ "murl.sock")
    docsInvocation = some (MurlSystem.readResponses 0
      (docsParty.activate grantAll Cache.empty "murl://a.com/docs" [])) :=
  open_over_wire _ Serde.shown (Serde.tokenising_tokenises _ _) docsParty grantAll (by decide) (by decide)
    0 "murl.sock" "0.3.0" "murl.sock" 0 1 ⟨Cache.empty,0,[]⟩ ⟨Cache.empty,0,[]⟩ docsInvocation
    ⟨by decide +kernel,by decide +kernel⟩

end Opening

end MurlSystem.Protocol
