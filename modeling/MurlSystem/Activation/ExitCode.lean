import MurlSystem.Activation.Exclusion
import MurlSystem.Consent.Alike
import MurlSystem.Dispatch.Required

namespace MurlSystem

open Program

inductive Ended where
  | code (n : Nat)
  | panicked
deriving DecidableEq, Repr

def Error.exitCode : Error → Nat
  | .validation _ => 2
  | .denied _ => 4
  | _ => 1

def AggregateStatus.wire : AggregateStatus → String
  | .success => "SUCCESS"
  | .partialSuccess => "PARTIAL_SUCCESS"
  | .failed => "FAILED"
  | .denied => "DENIED"

section InProcess

def openExit : AggregateStatus → Nat
  | .success => 0
  | .partialSuccess => 3
  | .failed => 1
  | .denied => 4

def Party.openRef (party : Party) (ref : TargetRef) (opts : OpenOptions) (cache : Cache)
    (terminal : Terminal) : Ended :=
  match party.plan ref cache with
  | .error e => .code e.exitCode
  | .ok plan =>
    match Cli.decide plan opts terminal with
    | none => .panicked
    | some approvals =>
      match party.dispatch plan approvals with
      | .ok report _ => .code (openExit report.aggregate)
      | .error e _ => .code e.exitCode

def Party.openTarget (party : Party) (inv : Invocation) (cache : Cache) (terminal : Terminal) :
    Ended :=
  match namesMurl inv.target with
  | none => .panicked
  | some false => party.openRef (.file inv.target) inv.opts cache terminal
  | some true =>
    match Murl.parse inv.target with
    | .error e => .code (Error.exitCode (.parse e))
    | .ok m => party.openRef (.murl m) inv.opts cache terminal

end InProcess

section ThroughDaemon

def maxLineBytes : Nat := 8 * 1024

def requestLine (target : String) (only : List String) : String :=
  "\x7b\"type\":\"activate\",\"protocol\":1,\"murl\":" ++ writeString target ++ ",\"only\":[" ++
    ",".intercalate (only.map writeString) ++ "]\x7d"

-- The consent surface is given the request and returns what the user granted; without a root
-- node the daemon panics, which the client sees as no reply at all.
def Party.activate (party : Party) (ask : ConsentRequest → List Nat) (cache : Cache)
    (target : String) (only : List String) : List Response :=
  match Murl.parse target with
  | .error e => [.error "parse" e.toString]
  | .ok m =>
    match party.plan (.murl m) cache with
    | .error e => [.error "activate" e.toString]
    | .ok plan =>
      match Daemon.prepare plan only with
      | none => []
      | some (request,slots) =>
        let approvals := Daemon.apply slots (ask request)
        match party.dispatch plan approvals with
        | .ok report _ => [.plan,consentResponse plan approvals,.outcome report.aggregate]
        | .error e _ => [.plan,consentResponse plan approvals,.error "activate" e.toString]

def exitCodeForReport (aggregate : Option String) : Nat :=
  match aggregate with
  | some "SUCCESS" => 0
  | some "PARTIAL_SUCCESS" => 3
  | some "DENIED" => 4
  | _ => 1

def readReplies (exit : Nat) : List Response → Ended
  | [] => .code exit
  | .error stage message :: _ =>
    .code (Error.exitCode (.resolution s!"daemon ({stage}): {message}"))
  | .outcome aggregate :: rest => readReplies (exitCodeForReport (some aggregate.wire)) rest
  | .plan :: rest | .consent _ _ :: rest => readReplies exit rest

def Party.serveOpen (party : Party) (ask : ConsentRequest → List Nat) (cache : Cache)
    (inv : Invocation) : Ended :=
  readReplies 0 (party.activate ask cache inv.target inv.opts.only)

structure Served (inv : Invocation) : Prop where
  routed : route inv = .daemon
  fits : (requestLine inv.target inv.opts.only).utf8ByteSize ≤ maxLineBytes

end ThroughDaemon

section Statuses

variable (os : Path.Platform) (opener : OpenerConfig) (launcher : Launcher) (limits : Limits)

def SameStatus (a b : Approval) : Prop := a.status = b.status

variable {a b : Approval}

theorem SameStatus.approves (h : SameStatus a b) : (a == .approved) = (b == .approved) := by
  cases a <;> cases b <;> first | rfl | cases h

theorem AlikeAt.sameStatus {pr : PlannedResource} (h : AlikeAt pr a b) : SameStatus a b := by
  obtain ⟨happroved,-,hskipped⟩ := h
  cases a with
  | approved => rw [happroved.mp rfl]; rfl
  | skipped why =>
    obtain ⟨why',rfl⟩ := hskipped.mp ⟨why,rfl⟩
    rfl
  | denied why =>
    cases b with
    | approved => exact absurd (happroved.mpr rfl) (by simp)
    | denied why' => rfl
    | skipped why' => simp at hskipped

theorem executeOne_alike (h : SameStatus a b) (index : Nat) (launchedAny : Bool)
    (pr : PlannedResource) (events : List Event) :
    ∃ status why why' after,
      executeOne os opener launcher index limits launchedAny pr a events =
        .ok (status,why) after ∧
      executeOne os opener launcher index limits launchedAny pr b events =
        .ok (status,why') after := by
  cases a with
  | approved =>
    cases b with
    | approved =>
      cases hx : executeOne os opener launcher index limits launchedAny pr .approved events with
      | ok status after => exact ⟨status.1,status.2,status.2,after,rfl,rfl⟩
      | error e after => exact (wp_error (executeOne_spec limits launchedAny pr _) hx).elim
    | denied reason => cases h
    | skipped reason => cases h
  | denied reason =>
    cases b with
    | denied reason' => exact ⟨.denied,some reason,some reason',events,rfl,rfl⟩
    | approved => cases h
    | skipped reason' => cases h
  | skipped reason =>
    cases b with
    | skipped reason' => exact ⟨.skipped,some reason,some reason',events,rfl,rfl⟩
    | approved => cases h
    | denied reason' => cases h

theorem executeFrom_alike {cli daemon : List Approval} (h : List.Forall₂ SameStatus cli daemon)
    (resources : List PlannedResource) (index : Nat) (launchedAny : Bool) (events : List Event) :
    ∃ outcomes outcomes' after,
      executeFrom os opener launcher limits index launchedAny (resources.zip cli) events =
        .ok outcomes after ∧
      executeFrom os opener launcher limits index launchedAny (resources.zip daemon) events =
        .ok outcomes' after ∧
      outcomes.map ResourceOutcome.status = outcomes'.map ResourceOutcome.status := by
  induction h generalizing resources index launchedAny events with
  | nil => exact ⟨[],[],events,by rw [List.zip_nil_right]; rfl,by rw [List.zip_nil_right]; rfl,rfl⟩
  | @cons a b cli daemon hab hrest ih =>
    cases resources with
    | nil => exact ⟨[],[],events,rfl,rfl,rfl⟩
    | cons pr rest =>
      obtain ⟨status,why,why',mid,hone,hone'⟩ :=
        executeOne_alike os opener launcher limits hab index launchedAny pr events
      obtain ⟨outcomes,outcomes',after,hfrom,hfrom',hstatuses⟩ := ih rest (index + 1)
        (launchedAny || (a == .approved && status == .opened)) mid
      refine ⟨outcomeOf pr (status,why) :: outcomes,outcomeOf pr (status,why') :: outcomes',after,
        ?_,?_,?_⟩
      · rw [List.zip_cons_cons,executeFrom,bind_eq_ok]
        refine ⟨_,_,hone,?_⟩
        rw [bind_eq_ok]
        exact ⟨_,_,hfrom,rfl⟩
      · rw [List.zip_cons_cons,executeFrom,bind_eq_ok]
        refine ⟨_,_,hone',?_⟩
        rw [bind_eq_ok]
        rw [hab.approves] at hfrom'
        exact ⟨_,_,hfrom',rfl⟩
      · simp [outcomeOf,hstatuses]

theorem aggregate_alike (resolution : Resolution) {outcomes outcomes' : List ResourceOutcome}
    (h : outcomes.map ResourceOutcome.status = outcomes'.map ResourceOutcome.status) :
    aggregate resolution outcomes = aggregate resolution outcomes' := by
  unfold aggregate
  rw [h]

theorem execute_alike (resolution : Resolution) {cli daemon : List Approval}
    (h : List.Forall₂ SameStatus cli daemon) (hlen : cli.length = resolution.resources.length) :
    ∃ report report' events,
      execute os opener launcher resolution cli limits [] = .ok report events ∧
      execute os opener launcher resolution daemon limits [] = .ok report' events ∧
      report.aggregate = report'.aggregate := by
  obtain ⟨outcomes,outcomes',events,hfrom,hfrom',hstatuses⟩ :=
    executeFrom_alike os opener launcher limits h resolution.resources 0 false []
  have hcli : (cli.length != resolution.resources.length) = false := by simp [hlen]
  have hdaemon : (daemon.length != resolution.resources.length) = false := by
    simp [← h.length_eq,hlen]
  refine ⟨⟨outcomes,aggregate resolution outcomes⟩,⟨outcomes',aggregate resolution outcomes'⟩,
    events,?_,?_,aggregate_alike resolution hstatuses⟩
  · unfold execute
    rw [hcli]
    exact bind_eq_ok.mpr ⟨_,_,hfrom,rfl⟩
  · unfold execute
    rw [hdaemon]
    exact bind_eq_ok.mpr ⟨_,_,hfrom',rfl⟩

theorem exitCodeForReport_wire (aggregate : AggregateStatus) :
    exitCodeForReport (some aggregate.wire) = openExit aggregate := by
  cases aggregate <;> rfl

end Statuses

section Alike

variable {party : Party} {cache : Cache} {inv : Invocation} {ask : ConsentRequest → List Nat}
variable {typed : List String}

def SameAnswers (party : Party) (cache : Cache) (inv : Invocation)
    (ask : ConsentRequest → List Nat) (typed : List String) : Prop :=
  ∀ m plan request slots, Murl.parse inv.target = .ok m →
    party.plan (.murl m) cache = .ok plan →
    Daemon.prepare plan inv.opts.only = some (request,slots) →
    SelectsExactly request typed (ask request)

def Party.failsApart (party : Party) (cache : Cache) (target : String) : Prop :=
  ∃ m e r, Murl.parse target = .ok m ∧ resolve party.env m (Run.start cache) = .error e r ∧
    e.exitCode ≠ 1

theorem plan_error {m : Murl} {e : Error} :
    party.plan (.murl m) cache = .error e ↔
      ∃ r, resolve party.env m (Run.start cache) = .error e r := by
  unfold Party.plan
  rw [resolveRef]
  cases resolve party.env m (Run.start cache) with
  | ok res r => simp
  | error e' r => simp

theorem plan_decided {ref : TargetRef} {plan : Resolution} (h : party.plan ref cache = .ok plan) :
    Decided party.policy plan := by
  unfold Party.plan at h
  cases hrun : resolveRef party.env ref (Run.start cache) with
  | error e r =>
    rw [hrun] at h
    cases h
  | ok res r =>
    rw [hrun] at h
    cases h
    exact (wp_ok (resolveRef_produced party.env cache ref) hrun).decided party.policy

theorem inexpressible_none {inv : Invocation} (h : inexpressibleFlag inv = none) :
    inv.opts = { only := inv.opts.only } := by
  obtain ⟨mode,target,offline,refresh,yes,sensitive,dangerous,only,skip⟩ := inv
  unfold inexpressibleFlag at h
  cases offline <;> cases refresh <;> cases skip <;> cases yes <;> cases sensitive <;>
    cases dangerous <;> first | rfl | simp at h

theorem Served.named (h : Served inv) : namesMurl inv.target = some true := by
  have hrouted := h.routed
  unfold route at hrouted
  split at hrouted
  · cases hrouted
  · split at hrouted <;> first | assumption | cases hrouted

theorem Served.opts (h : Served inv) : inv.opts = { only := inv.opts.only } := by
  have hrouted := h.routed
  unfold route at hrouted
  rw [h.named] at hrouted
  split at hrouted
  · cases hrouted
  · cases hflag : inexpressibleFlag inv with
    | none => exact inexpressible_none hflag
    | some flag =>
      rw [hflag] at hrouted
      cases hrouted

theorem Agree.statuses {res : Resolution} {cli daemon : List Approval}
    (h : Agree res cli daemon) : List.Forall₂ SameStatus cli daemon := by
  obtain ⟨hcli,hdaemon,hat⟩ := h
  rw [List.forall₂_iff_get]
  refine ⟨hcli.trans hdaemon.symm,?_⟩
  intro i hi hi'
  have hres := List.getElem?_eq_getElem (hcli ▸ hi)
  exact (hat i _ _ _ hres (List.getElem?_eq_getElem hi) (List.getElem?_eq_getElem hi')).sameStatus

theorem planned_alike {m : Murl} {plan : Resolution} (hopts : inv.opts = { only := inv.opts.only })
    (hparse : Murl.parse inv.target = .ok m) (hplan : party.plan (.murl m) cache = .ok plan)
    (hsame : SameAnswers party cache inv ask typed) :
    party.serveOpen ask cache inv = party.openRef (.murl m) inv.opts cache ⟨true,typed⟩ := by
  have hdecided := plan_decided hplan
  obtain ⟨request,slots,hprep⟩ := (consent_prepared hdecided inv.opts.only)
  obtain ⟨cli,hcli,hagree⟩ :=
    decide_agrees hdecided hprep (hsame m plan request slots hparse hplan hprep)
  obtain ⟨report,report',events,hrun,hrun',haggregate⟩ := execute_alike party.desktop.os
    party.desktop.opener party.desktop.launcher party.desktop.limits plan hagree.statuses hagree.1
  have hdispatch : party.dispatch plan cli = .ok report events := hrun
  have hdispatch' : party.dispatch plan (Daemon.apply slots (ask request)) =
      .ok report' events := hrun'
  rw [← hopts] at hcli
  unfold Party.serveOpen Party.activate Party.openRef
  rw [hparse]
  dsimp only
  rw [hplan]
  dsimp only
  rw [hprep,hcli]
  dsimp only
  rw [hdispatch,hdispatch']
  change Ended.code (exitCodeForReport (some report'.aggregate.wire)) =
    .code (openExit report.aggregate)
  rw [exitCodeForReport_wire,haggregate]

theorem open_alike_iff (party : Party) (cache : Cache) (inv : Invocation)
    (ask : ConsentRequest → List Nat) (typed : List String) (served : Served inv)
    (same : SameAnswers party cache inv ask typed) :
    party.serveOpen ask cache inv = party.openTarget inv cache ⟨true,typed⟩ ↔
      ¬party.failsApart cache inv.target := by
  unfold Party.openTarget
  rw [served.named]
  cases hparse : Murl.parse inv.target with
  | error e =>
    have hno : ¬party.failsApart cache inv.target := by
      rintro ⟨m,_,_,hm,-⟩
      rw [hparse] at hm
      cases hm
    simp only [hno,not_false_eq_true,iff_true]
    unfold Party.serveOpen Party.activate
    rw [hparse]
    rfl
  | ok m =>
    dsimp only
    cases hplan : party.plan (.murl m) cache with
    | ok plan =>
      have hno : ¬party.failsApart cache inv.target := by
        rintro ⟨m',e,r,hm,hrun,-⟩
        rw [hparse] at hm
        cases hm
        rw [plan_error.mpr ⟨r,hrun⟩] at hplan
        cases hplan
      simp only [hno,not_false_eq_true,iff_true]
      exact planned_alike served.opts hparse hplan same
    | error e =>
      have hfails : party.failsApart cache inv.target ↔ e.exitCode ≠ 1 := by
        obtain ⟨r,hrun⟩ := plan_error.mp hplan
        constructor
        · rintro ⟨m',e',r',hm,hrun',hcode⟩
          rw [hparse] at hm
          cases hm
          rw [hrun] at hrun'
          cases hrun'
          exact hcode
        · intro hcode
          exact ⟨m,e,r,hparse,hrun,hcode⟩
      have hserve : party.serveOpen ask cache inv = .code 1 := by
        unfold Party.serveOpen Party.activate
        rw [hparse]
        dsimp only
        rw [hplan]
        rfl
      have hopen : party.openRef (.murl m) inv.opts cache ⟨true,typed⟩ = .code e.exitCode := by
        unfold Party.openRef
        rw [hplan]
      rw [hserve,hopen,hfails,not_not,Ended.code.injEq]
      exact eq_comm

end Alike

section Runs

def docsInvocation : Invocation := { mode := .auto, target := "murl://a.com/docs" }

def grantAll (request : ConsentRequest) : List Nat := request.offered

theorem docs_open_alike :
    docsParty.serveOpen grantAll Cache.empty docsInvocation = .code 0 ∧
      docsParty.openTarget docsInvocation Cache.empty ⟨true,["a"]⟩ = .code 0 := by
  have hserved : Served docsInvocation := ⟨by decide +kernel,by decide +kernel⟩
  have hsame : SameAnswers docsParty Cache.empty docsInvocation grantAll ["a"] := by
    intro m plan request slots _ _ _ i
    exact Iff.rfl
  have hopen : docsParty.openTarget docsInvocation Cache.empty ⟨true,["a"]⟩ = .code 0 := by
    simp only [docsParty,siteEnv,siteCrates,published_compact]
    decide +kernel
  have halike := open_alike_iff docsParty Cache.empty docsInvocation grantAll ["a"] hserved hsame
  refine ⟨(halike.mpr ?_).trans hopen,hopen⟩
  rintro ⟨m,e,r,hm,hrun,-⟩
  have hdocs : Murl.parse docsInvocation.target = .ok ⟨.remote "a.com" none,["docs"],.latest,none,none⟩ := by
    decide +kernel
  obtain rfl := Except.ok.inj (hdocs.symm.trans hm)
  have hok : succeeds (resolve docsParty.env ⟨.remote "a.com" none,["docs"],.latest,none,none⟩)
      (Run.start Cache.empty) = true := by
    simp only [docsParty,siteEnv,siteCrates,published_compact]
    decide +kernel
  obtain ⟨res,r',hres⟩ := succeeds_ok hok
  rw [hres] at hrun
  cases hrun

def namelessPage : Value :=
  manifestValue "" [resourceValue "docs" "https" "https://e.com" none]

def namelessParty : Party :=
  { docsParty with
    env := siteEnv (siteCrates [namelessPage] [] [])
      [("https://a.com/.well-known/murl/docs.murl.json",namelessPage)] }

theorem nameless_open_apart :
    ¬∀ (party : Party) (cache : Cache) (inv : Invocation) (ask : ConsentRequest → List Nat)
      (typed : List String), Served inv → SameAnswers party cache inv ask typed →
        party.serveOpen ask cache inv = party.openTarget inv cache ⟨true,typed⟩ := by
  intro h
  have hserved : Served docsInvocation := ⟨by decide +kernel,by decide +kernel⟩
  have hsame : SameAnswers namelessParty Cache.empty docsInvocation grantAll ["a"] := by
    intro m plan request slots _ _ _ i
    exact Iff.rfl
  have heq := h namelessParty Cache.empty docsInvocation grantAll ["a"] hserved hsame
  revert heq
  simp only [namelessParty,docsParty,siteEnv,siteCrates,published_compact]
  decide +kernel

end Runs

end MurlSystem
