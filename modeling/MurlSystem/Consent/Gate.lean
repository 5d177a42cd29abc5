import MurlSystem.Consent.Decide
import MurlSystem.Dispatch.Execution
import MurlSystem.Resolution.Produced

namespace MurlSystem

open Program

inductive ConsentInput where
  | cli (opts : OpenOptions) (terminal : Terminal)
  | daemon (only : List String) (ui : ConsentRequest → List Nat)

def ConsentInput.approvals (input : ConsentInput) (plan : Resolution) : Option (List Approval) :=
  match input with
  | .cli opts terminal => Cli.decide plan opts terminal
  | .daemon only ui =>
    (Daemon.prepare plan only).map fun (request,slots) => Daemon.apply slots (ui request)

structure Desktop where
  os : Path.Platform
  opener : OpenerConfig
  launcher : Launcher
  limits : Limits

def Desktop.events (desktop : Desktop) (plan : Resolution) (approvals : List Approval) :
    List Event :=
  final (execute desktop.os desktop.opener desktop.launcher plan approvals desktop.limits) []

structure Launchable (plan : Resolution) (pr : PlannedResource) : Prop where
  allowed : ∀ reason, pr.decision ≠ some (.deny reason)
  trusted : pr.tier = .dangerous → ∀ node, plan.nodes[pr.node]? = some node →
    node.trust ≠ .unsignedRemote ∧ ∀ keyId, node.trust ≠ .signedUnknownKey keyId

structure Guarded (desktop : Desktop) (plan : Resolution) (approvals : List Approval) : Prop where
  length : approvals.length = plan.resources.length
  launched : ∀ e ∈ desktop.events plan approvals, e.effect.isLaunch = true →
    ∃ pr, plan.resources[e.index]? = some pr ∧ Launchable plan pr

section Gate

variable {policy : Policy} {plan : Resolution}

theorem isTrusted_of_permitted {pr : PlannedResource} (hp : policy.dangerousRequiresTrust = true)
    (h : Decided policy plan) (hpr : pr ∈ plan.resources) (hpermitted : pr.permitted = true)
    (hd : pr.tier = .dangerous) {node : ResolvedNode} (hnode : plan.nodes[pr.node]? = some node) :
    node.trust.isTrusted = true := by
  obtain ⟨node',hnode',hdecision⟩ := h.decided pr hpr
  obtain rfl : node' = node := Option.some.inj (hnode'.symm.trans hnode)
  cases ht : node'.trust.isTrusted with
  | true => rfl
  | false =>
    have hdeny := Policy.evaluate_untrusted policy pr.kind node'.evalContext hp ht
    rw [hd,hdeny] at hdecision
    simp [PlannedResource.permitted,hdecision] at hpermitted

theorem launchable_of_permitted {pr : PlannedResource} (hp : policy.dangerousRequiresTrust = true)
    (h : Decided policy plan) (hpr : pr ∈ plan.resources) (hpermitted : pr.permitted = true) :
    Launchable plan pr := by
  constructor
  · intro reason hdeny
    simp [PlannedResource.permitted,hdeny] at hpermitted
  · intro hd node hnode
    have htrust := isTrusted_of_permitted hp h hpr hpermitted hd hnode
    constructor
    · intro ht
      rw [ht] at htrust
      cases htrust
    · intro keyId ht
      rw [ht] at htrust
      cases htrust

theorem Decided.isSome (h : Decided policy plan) :
    ∀ pr ∈ plan.resources, pr.decision.isSome = true := by
  intro pr hpr
  obtain ⟨node,-,hdecision⟩ := h.decided pr hpr
  rw [hdecision]
  rfl

theorem approvals_granted (h : Decided policy plan) (input : ConsentInput) :
    ∃ approvals, input.approvals plan = some approvals ∧
      List.Forall₂ Granted plan.resources approvals := by
  cases input with
  | cli opts terminal => exact decide_granted opts terminal h.isSome
  | daemon only ui =>
    obtain ⟨request,slots,hprepare,hgranted⟩ := prepare_granted only ui h.root
    exact ⟨_,by rw [ConsentInput.approvals,hprepare]; rfl,hgranted⟩

theorem events_approved (desktop : Desktop) {approvals : List Approval}
    (hlen : approvals.length = plan.resources.length) :
    ∀ e ∈ desktop.events plan approvals, approvals[e.index]? = some .approved ∧
      e.index < plan.resources.length := by
  have hspec := execute_spec desktop.os desktop.opener desktop.launcher plan approvals
    desktop.limits []
  have hfinal := wp_final (wp_mono hspec (fun _ _ h => h.2) (fun _ _ h => absurd hlen h.1))
  obtain ⟨new,hnew,hall⟩ := hfinal
  intro e he
  refine hall e ?_
  rw [Desktop.events,hnew] at he
  simpa using he

theorem guarded_of_granted {approvals : List Approval}
    (hp : policy.dangerousRequiresTrust = true) (h : Decided policy plan) (desktop : Desktop)
    (hgranted : List.Forall₂ Granted plan.resources approvals) :
    Guarded desktop plan approvals := by
  have hlen := hgranted.length_eq.symm
  refine ⟨hlen,?_⟩
  intro e he _
  obtain ⟨happroved,hindex⟩ := events_approved desktop hlen e he
  obtain ⟨happrovals,hvalue⟩ := List.getElem?_eq_some_iff.mp happroved
  have hpr : plan.resources[e.index]? = some plan.resources[e.index] :=
    List.getElem?_eq_getElem hindex
  refine ⟨plan.resources[e.index],hpr,?_⟩
  have hmem : plan.resources[e.index] ∈ plan.resources := List.getElem_mem hindex
  exact launchable_of_permitted hp h hmem (hgranted.get hindex happrovals hvalue)

theorem untrusted_never_launched (env : Env) (cache : Cache) (ref : TargetRef) (policy : Policy)
    (input : ConsentInput) (desktop : Desktop) (hp : policy.dangerousRequiresTrust = true) :
    wp (resolveRef env ref)
      (fun res _ => ∃ approvals, input.approvals (res.applyPolicy policy) = some approvals ∧
        Guarded desktop (res.applyPolicy policy) approvals)
      (fun _ _ => True) (Run.start cache) := by
  refine wp_mono (resolveRef_produced env cache ref) ?_ (fun _ _ h => h)
  intro res _ hproduced
  have hdecided := hproduced.decided policy
  obtain ⟨approvals,happrovals,hgranted⟩ := approvals_granted hdecided input
  exact ⟨approvals,happrovals,guarded_of_granted hp hdecided desktop hgranted⟩

end Gate

section Shell

def shellPage : Value :=
  manifestValue "Shell" [resourceValue "docs" "https" "https://e.com" none,
    resourceValue "shell" "terminal" "/home/u" none]

def shellEnv : Env :=
  siteEnv (siteCrates [shellPage] [] [])
    [("https://a.com/.well-known/murl/shell.murl.json",shellPage)]

def shellMurl : Murl := ⟨.remote "a.com" none,["shell"],.latest,none,none⟩

def yesToAll : ConsentInput :=
  .cli { yes := true, allowSensitive := true, allowDangerous := true } ⟨true,["all"]⟩

def sampleDesktop : Desktop where
  os := .posix
  opener := { openArgv := ["xdg-open"], terminalArgv := some ["xterm"] }
  launcher := ⟨fun _ _ _ => .ok (),fun _ _ => true⟩
  limits := {}

theorem shell_guarded :
    wp (resolveRef shellEnv (.murl shellMurl))
      (fun res _ => ∃ approvals, yesToAll.approvals (res.applyPolicy {}) = some approvals ∧
        Guarded sampleDesktop (res.applyPolicy {}) approvals)
      (fun _ _ => True) (Run.start Cache.empty) :=
  untrusted_never_launched shellEnv Cache.empty (.murl shellMurl) {} yesToAll sampleDesktop rfl

example : okHolds (resolveRef shellEnv (.murl shellMurl))
    (fun res _ => sampleDesktop.events (res.applyPolicy {})
      ((yesToAll.approvals (res.applyPolicy {})).getD []) ==
        [⟨0,.launch ["xdg-open","https://e.com"] none⟩]) (Run.start Cache.empty) = true := by
  decide +kernel

end Shell

end MurlSystem
