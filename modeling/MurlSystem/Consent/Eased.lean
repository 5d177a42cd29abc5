import MurlSystem.Consent.Alike
import MurlSystem.Consent.Gate
import MurlSystem.Dispatch.Launched
import MurlSystem.Trusting.Labels

namespace MurlSystem

open Program

section Decisions

def ConsentMode.rank : ConsentMode → Nat
  | .allow => 0
  | .prompt => 1
  | .deny => 2

def Decision.rank : Decision → Nat
  | .allow => 0
  | .prompt _ => 1
  | .deny _ => 2

structure Policy.Eases (p p' : Policy) : Prop where
  mode : ∀ tier, (p'.mode tier).rank ≤ (p.mode tier).rank
  trust : p'.dangerousRequiresTrust = true → p.dangerousRequiresTrust = true
  files : p'.remoteFilesystemRefs.rank ≤ p.remoteFilesystemRefs.rank

def Policy.Refuses (p : Policy) (kind : Kind) (tier : Tier) (ctx : EvalContext) : Prop :=
  (tier = .dangerous ∧ p.dangerousRequiresTrust = true ∧ ctx.trust.isTrusted = false) ∨
  (ctx.manifestExpired = true ∧ tier ≠ .safe) ∨ (ctx.manifestPremature = true ∧ tier ≠ .safe) ∨
  p.mode tier = .deny ∨
  (ctx.remoteOrigin = true ∧ kind.isFilesystem = true ∧ p.remoteFilesystemRefs = .deny)

variable {p p' : Policy} {kind : Kind} {tier : Tier} {ctx : EvalContext}

theorem evaluate_refused (h : p.Refuses kind tier ctx) : (p.evaluate kind tier ctx).rank = 2 := by
  have hdeny (b : Bool) (hb : b = true) (why : String) (d : Decision) :
      (if b = true then Decision.deny why else d).rank = 2 := by
    rw [if_pos hb]
    rfl
  have hlater (c : Prop) [Decidable c] (why : String) (d : Decision) (hd : d.rank = 2) :
      (if c then Decision.deny why else d).rank = 2 := by
    split
    · rfl
    · exact hd
  unfold Policy.evaluate
  rcases h with ⟨htier,hneeds,htrust⟩ | ⟨hexpired,htier⟩ | ⟨hpremature,htier⟩ | hmode |
    ⟨hremote,hfiles,hrefs⟩
  · exact hdeny _ (by simp [htier,hneeds,htrust]) _ _
  · exact hlater _ _ _ (hdeny _ (by simp [hexpired,htier]) _ _)
  · exact hlater _ _ _ (hlater _ _ _ (hdeny _ (by simp [hpremature,htier]) _ _))
  · refine hlater _ _ _ (hlater _ _ _ (hlater _ _ _ ?_))
    rw [if_pos hmode]
    rfl
  · refine hlater _ _ _ (hlater _ _ _ (hlater _ _ _ (hlater _ _ _ ?_)))
    exact hdeny _ (by simp [hremote,hfiles,hrefs]) _ _

theorem evaluate_admitted (h : ¬p.Refuses kind tier ctx) :
    p.evaluate kind tier ctx = if (p.reasons kind tier ctx).isEmpty then .allow
      else .prompt (p.reasons kind tier ctx) := by
  unfold Policy.Refuses at h
  push Not at h
  obtain ⟨htrust,hexpired,hpremature,hmode,hfiles⟩ := h
  have h₁ : ¬(decide (tier = .dangerous) && p.dangerousRequiresTrust && !ctx.trust.isTrusted) = true := by
    simpa using htrust
  have h₂ : ¬(ctx.manifestExpired && tier != .safe) = true := by simpa using hexpired
  have h₃ : ¬(ctx.manifestPremature && tier != .safe) = true := by simpa using hpremature
  have h₅ : ¬(ctx.remoteOrigin && kind.isFilesystem &&
      decide (p.remoteFilesystemRefs = .deny)) = true := by
    simpa using hfiles
  unfold Policy.evaluate
  rw [if_neg h₁,if_neg h₂,if_neg h₃,if_neg hmode,if_neg h₅]

def Policy.Asks (p : Policy) (kind : Kind) (tier : Tier) (ctx : EvalContext) : Prop :=
  p.mode tier = .prompt ∨ ctx.manifestExpired = true ∨ ctx.manifestPremature = true ∨
  (ctx.remoteOrigin = true ∧ kind.isFilesystem = true ∧ p.remoteFilesystemRefs = .prompt) ∨
  (tier = .dangerous ∧ ctx.trust.isTrusted = false)

theorem reasons_isEmpty : (p.reasons kind tier ctx).isEmpty = true ↔ ¬p.Asks kind tier ctx := by
  have hnil (c : Prop) [Decidable c] (why : String) :
      (if c then [why] else []) = [] ↔ ¬c := by
    by_cases hc : c <;> simp [hc]
  unfold Policy.reasons Policy.Asks
  rw [List.isEmpty_iff,List.append_eq_nil_iff,List.append_eq_nil_iff,List.append_eq_nil_iff,
    List.append_eq_nil_iff,hnil,hnil,hnil,hnil,hnil]
  simp only [Bool.and_eq_true,decide_eq_true_eq,Bool.not_eq_true']
  tauto

theorem evaluate_rank : (p.evaluate kind tier ctx).rank = 2 ∧ p.Refuses kind tier ctx ∨
    (p.evaluate kind tier ctx).rank = 1 ∧ ¬p.Refuses kind tier ctx ∧ p.Asks kind tier ctx ∨
    (p.evaluate kind tier ctx).rank = 0 ∧ ¬p.Refuses kind tier ctx ∧ ¬p.Asks kind tier ctx := by
  by_cases hrefuses : p.Refuses kind tier ctx
  · exact .inl ⟨evaluate_refused hrefuses,hrefuses⟩
  · rw [evaluate_admitted hrefuses]
    by_cases hasks : p.Asks kind tier ctx
    · rw [if_neg (fun hempty => reasons_isEmpty.mp hempty hasks)]
      exact .inr (.inl ⟨rfl,hrefuses,hasks⟩)
    · rw [if_pos (reasons_isEmpty.mpr hasks)]
      exact .inr (.inr ⟨rfl,hrefuses,hasks⟩)

theorem Vouches.isTrusted {a b : TrustStatus} (h : Vouches a b) (ha : a.isTrusted = true) :
    b.isTrusted = true := by
  rcases h with rfl | ⟨keyId,rfl,rfl⟩
  · exact ha
  · cases ha

variable {ctx' : EvalContext}

structure SameButVouched (ctx ctx' : EvalContext) : Prop where
  trust : Vouches ctx.trust ctx'.trust
  expired : ctx'.manifestExpired = ctx.manifestExpired
  premature : ctx'.manifestPremature = ctx.manifestPremature
  remote : ctx'.remoteOrigin = ctx.remoteOrigin

theorem SameButVouched.untrusted (h : SameButVouched ctx ctx')
    (huntrusted : ctx'.trust.isTrusted = false) : ctx.trust.isTrusted = false := by
  cases htrust : ctx.trust.isTrusted with
  | false => rfl
  | true =>
    rw [h.trust.isTrusted htrust] at huntrusted
    cases huntrusted

theorem rank_two {m : ConsentMode} (h : 2 ≤ m.rank) : m = .deny := by
  cases m with
  | allow => exact absurd h (by decide)
  | prompt => exact absurd h (by decide)
  | deny => rfl

theorem rank_one {m : ConsentMode} (h : 1 ≤ m.rank) (hdeny : m ≠ .deny) : m = .prompt := by
  cases m with
  | allow => exact absurd h (by decide)
  | prompt => rfl
  | deny => exact absurd rfl hdeny

theorem refuses_eased (h : p.Eases p') (hctx : SameButVouched ctx ctx')
    (hrefuses : p'.Refuses kind tier ctx') : p.Refuses kind tier ctx := by
  unfold Policy.Refuses at hrefuses
  rw [hctx.expired,hctx.premature,hctx.remote] at hrefuses
  rcases hrefuses with ⟨htier,hneeds,htrust⟩ | hexpired | hpremature | hmode | ⟨hremote,hfiles,hrefs⟩
  · exact .inl ⟨htier,h.trust hneeds,hctx.untrusted htrust⟩
  · exact .inr (.inl hexpired)
  · exact .inr (.inr (.inl hpremature))
  · have hrank := h.mode tier
    rw [hmode] at hrank
    exact .inr (.inr (.inr (.inl (rank_two hrank))))
  · have hrank := h.files
    rw [hrefs] at hrank
    exact .inr (.inr (.inr (.inr ⟨hremote,hfiles,rank_two hrank⟩)))

theorem asks_eased (h : p.Eases p') (hctx : SameButVouched ctx ctx')
    (hadmits : ¬p.Refuses kind tier ctx) (hasks : p'.Asks kind tier ctx') :
    p.Asks kind tier ctx := by
  unfold Policy.Refuses at hadmits
  push Not at hadmits
  unfold Policy.Asks at hasks
  rw [hctx.expired,hctx.premature,hctx.remote] at hasks
  rcases hasks with hmode | hexpired | hpremature | ⟨hremote,hfiles,hrefs⟩ | ⟨htier,htrust⟩
  · have hrank := h.mode tier
    rw [hmode] at hrank
    exact .inl (rank_one hrank hadmits.2.2.2.1)
  · exact .inr (.inl hexpired)
  · exact .inr (.inr (.inl hpremature))
  · have hrank := h.files
    rw [hrefs] at hrank
    exact .inr (.inr (.inr (.inl ⟨hremote,hfiles,rank_one hrank (hadmits.2.2.2.2 hremote hfiles)⟩)))
  · exact .inr (.inr (.inr (.inr ⟨htier,hctx.untrusted htrust⟩)))

theorem evaluate_eased (h : p.Eases p') (hctx : SameButVouched ctx ctx') :
    (p'.evaluate kind tier ctx').rank ≤ (p.evaluate kind tier ctx).rank := by
  have hrefuses := @refuses_eased p p' kind tier ctx ctx' h hctx
  have hasks := @asks_eased p p' kind tier ctx ctx' h hctx
  rcases @evaluate_rank p kind tier ctx with ⟨hrank,-⟩ | ⟨hrank,hno,-⟩ | ⟨hrank,hno,hquiet⟩ <;>
    rcases @evaluate_rank p' kind tier ctx' with ⟨hrank',hyes'⟩ | ⟨hrank',-,hasks'⟩ | ⟨hrank',-,-⟩ <;>
    rw [hrank,hrank']
  · exact Nat.le_succ 1
  · exact Nat.zero_le 2
  · exact absurd (hrefuses hyes') hno
  · exact Nat.zero_le 1
  · exact absurd (hrefuses hyes') hno
  · exact absurd (hasks hno hasks') hquiet

end Decisions

section Plans

inductive Eased : Decision → Decision → Prop
  | refused (why : String) (d' : Decision) : Eased (.deny why) d'
  | allowed : Eased .allow .allow
  | asked (reasons reasons' : List String) : Eased (.prompt reasons) (.prompt reasons')
  | freed (reasons : List String) : Eased (.prompt reasons) .allow

theorem eased_of_rank {d d' : Decision} (h : d'.rank ≤ d.rank) : Eased d d' := by
  cases d with
  | deny why => exact .refused why d'
  | allow =>
    cases d' with
    | allow => exact .allowed
    | prompt reasons => exact absurd h (Nat.not_succ_le_zero 0)
    | deny why => exact absurd h (Nat.not_succ_le_zero 1)
  | prompt reasons =>
    cases d' with
    | allow => exact .freed reasons
    | prompt reasons' => exact .asked reasons reasons'
    | deny why => exact absurd h (Nat.not_succ_le_self 1)

structure Laxer (pr pr' : PlannedResource) : Prop where
  rest : pr' = { pr with decision := pr'.decision }
  decision : ∃ d d', pr.decision = some d ∧ pr'.decision = some d' ∧ Eased d d'

variable {p p' : Policy} {res res' : Resolution} {env : Env}

theorem laxer_planned (h : p.Eases p') (hproduced : Produced env res)
    (hres : res.Relabels Vouches res') :
    List.Forall₂ Laxer (res.applyPolicy p).resources (res'.applyPolicy p').resources := by
  have hresources : (res'.applyPolicy p').resources =
      res.resources.map (PlannedResource.decide p' res'.nodes) := by
    change res'.resources.map _ = _
    rw [hres.rest]
  rw [hresources]
  refine List.forall₂_map_left_iff.mpr (List.forall₂_map_right_iff.mpr
    (List.forall₂_same.mpr fun pr hpr => ?_))
  obtain ⟨node,hnode,-⟩ := hproduced.planned pr hpr
  obtain ⟨hi,hget⟩ := List.getElem?_eq_some_iff.mp hnode
  have hi' : pr.node < res'.nodes.length := by rwa [← hres.nodes.length_eq]
  have hvouched : SameButTrust Vouches node res'.nodes[pr.node] := by
    have hpair := (List.forall₂_iff_get.mp hres.nodes).2 pr.node hi hi'
    rw [← hget]
    exact hpair
  have hctx : SameButVouched node.evalContext (res'.nodes[pr.node]).evalContext := by
    rw [hvouched.rest]
    exact ⟨hvouched.trust,rfl,rfl,rfl⟩
  have hnode' : res'.nodes[pr.node]? = some res'.nodes[pr.node] := List.getElem?_eq_getElem hi'
  unfold PlannedResource.decide
  rw [hnode,hnode']
  exact ⟨rfl,_,_,rfl,rfl,eased_of_rank (evaluate_eased h hctx)⟩

def ConsentInput.Settled : ConsentInput → Prop
  | .cli _ terminal => terminal.interactive = false
  | .daemon _ ui => ∃ granted, ∀ request, ui request = granted

theorem mapM_slots {f : PlannedResource → Option (Option Approval)} {l : List PlannedResource}
    {slots : List (Option Approval)} (h : l.mapM f = some slots) :
    List.Forall₂ (fun pr slot => f pr = some slot) l slots := by
  induction l generalizing slots with
  | nil =>
    cases h
    exact .nil
  | cons pr rest ih =>
    rw [List.mapM_cons] at h
    cases hslot : f pr with
    | none =>
      rw [hslot] at h
      cases h
    | some slot =>
      cases hslots : rest.mapM f with
      | none =>
        rw [hslot,hslots] at h
        cases h
      | some more =>
        rw [hslot,hslots] at h
        cases h
        exact .cons hslot (ih hslots)

theorem Laxer.slot {pr pr' : PlannedResource} (h : Laxer pr pr') (opts : OpenOptions)
    {slot slot' : Option Approval} (hslot : opts.slot pr = some slot)
    (hslot' : opts.slot pr' = some slot') (happroved : slot = some .approved) :
    slot' = some .approved := by
  obtain ⟨d,d',hd,hd',heased⟩ := h.decision
  have hsame : opts.slot pr' = OpenOptions.slot opts { pr with decision := some d' } := by
    rw [h.rest,hd']
  rw [hsame] at hslot'
  unfold OpenOptions.slot at hslot hslot'
  rw [happroved,hd] at hslot
  change (if !selectedBy opts.only pr then _ else if opts.skip.any (fun s => s == pr.resource.id)
    then _ else _) = _ at hslot'
  by_cases honly : (!selectedBy opts.only pr) = true
  · rw [if_pos honly] at hslot
    cases hslot
  · rw [if_neg honly] at hslot hslot'
    by_cases hskip : (opts.skip.any fun s => s == pr.resource.id) = true
    · rw [if_pos hskip] at hslot
      cases hslot
    · rw [if_neg hskip] at hslot hslot'
      cases heased with
      | refused why d' => cases hslot
      | allowed => exact (Option.some.inj hslot').symm
      | asked reasons reasons' => exact (Option.some.inj hslot').symm.trans (Option.some.inj hslot)
      | freed reasons => exact (Option.some.inj hslot').symm

theorem Laxer.granted {pr pr' : PlannedResource} (h : Laxer pr pr') (only : List String)
    (granted : List Nat) (i : Nat)
    (happroved : grantSlot granted (consentSlot only pr,i) = .approved) :
    grantSlot granted (consentSlot only pr',i) = .approved := by
  obtain ⟨d,d',hd,hd',heased⟩ := h.decision
  have hsame : consentSlot only pr' = consentSlot only { pr with decision := some d' } := by
    rw [h.rest,hd']
  rw [hsame]
  unfold consentSlot at happroved ⊢
  rw [hd] at happroved
  change grantSlot granted ((if !selectedBy only pr then _ else _),i) = _
  by_cases honly : (!selectedBy only pr) = true
  · rw [if_pos honly] at happroved
    cases happroved
  · rw [if_neg honly] at happroved ⊢
    cases heased with
    | refused why d' => cases happroved
    | allowed => rfl
    | asked reasons reasons' => exact happroved
    | freed reasons => rfl

def Wider (a a' : Approval) : Prop := a = .approved → a' = .approved

theorem slots_eased {opts : OpenOptions} {why : String} {l l' : List PlannedResource}
    {slots slots' : List (Option Approval)} (h : List.Forall₂ Laxer l l')
    (hslots : l.mapM opts.slot = some slots) (hslots' : l'.mapM opts.slot = some slots') :
    List.Forall₂ Wider (fillAll (.denied why) slots) (fillAll (.denied why) slots') := by
  have hread := mapM_slots hslots
  have hread' := mapM_slots hslots'
  clear hslots hslots'
  induction h generalizing slots slots' with
  | nil =>
    cases hread
    cases hread'
    exact .nil
  | cons hlax _ ih =>
    cases hread with
    | cons hslot hrest =>
      cases hread' with
      | cons hslot' hrest' =>
        refine .cons (fun happroved => ?_) (ih hrest hrest')
        have hfilled {slot : Option Approval} (hslot : slot.getD (.denied why) = .approved) :
            slot = some .approved := by
          cases slot with
          | none => cases hslot
          | some a => rw [show a = .approved from hslot]
        rw [hlax.slot opts hslot hslot' (hfilled happroved)]
        rfl

theorem granted_eased (only : List String) (granted : List Nat) {l l' : List PlannedResource}
    (h : List.Forall₂ Laxer l l') :
    List.Forall₂ Wider (Daemon.apply (l.map (consentSlot only)) granted)
      (Daemon.apply (l'.map (consentSlot only)) granted) := by
  have hfrom (k : Nat) : List.Forall₂ Wider
      (((l.map (consentSlot only)).zipIdx k).map (grantSlot granted))
      (((l'.map (consentSlot only)).zipIdx k).map (grantSlot granted)) := by
    induction h generalizing k with
    | nil => exact .nil
    | cons hlax _ ih =>
      simp only [List.map_cons,List.zipIdx_cons]
      exact .cons (hlax.granted only granted k) (ih (k + 1))
  exact hfrom 0

theorem approvals_eased {input : ConsentInput} (hinput : input.Settled) {plan plan' : Resolution}
    (h : List.Forall₂ Laxer plan.resources plan'.resources) {approvals approvals' : List Approval}
    (happrovals : input.approvals plan = some approvals)
    (happrovals' : input.approvals plan' = some approvals') :
    List.Forall₂ Wider approvals approvals' := by
  cases input with
  | cli opts terminal =>
    have hquiet : terminal.interactive = false := hinput
    change Cli.decide plan opts terminal = _ at happrovals
    change Cli.decide plan' opts terminal = _ at happrovals'
    unfold Cli.decide at happrovals happrovals'
    rw [hquiet] at happrovals happrovals'
    cases hslots : plan.resources.mapM opts.slot with
    | none =>
      rw [hslots] at happrovals
      cases happrovals
    | some slots =>
      cases hslots' : plan'.resources.mapM opts.slot with
      | none =>
        rw [hslots'] at happrovals'
        cases happrovals'
      | some slots' =>
        rw [hslots] at happrovals
        rw [hslots'] at happrovals'
        cases happrovals
        cases happrovals'
        exact slots_eased h hslots hslots'
  | daemon only ui =>
    obtain ⟨granted,hgranted⟩ := hinput
    have hanswer {plan : Resolution} {approvals : List Approval}
        (h : (ConsentInput.daemon only ui).approvals plan = some approvals) :
        approvals = Daemon.apply (plan.resources.map (consentSlot only)) granted := by
      obtain ⟨prepared,hprepared,rfl⟩ := Option.map_eq_some_iff.mp h
      unfold Daemon.prepare at hprepared
      cases hroot : plan.nodes.head? with
      | none =>
        rw [hroot] at hprepared
        cases hprepared
      | some root =>
        rw [hroot] at hprepared
        cases hprepared
        dsimp only
        rw [hgranted]
    rw [hanswer happrovals,hanswer happrovals']
    exact granted_eased only granted h

end Plans

section Activations

def launches (env : Env) (policy : Policy) (input : ConsentInput) (desktop : Desktop)
    (ref : TargetRef) (cache : Cache) : List Event :=
  match resolveRef env ref (Run.start cache) with
  | .ok res _ =>
    (desktop.events (res.applyPolicy policy)
      ((input.approvals (res.applyPolicy policy)).getD [])).filter fun e => e.effect.isLaunch
  | .error _ _ => []

variable {p p' : Policy} {input : ConsentInput} {desktop : Desktop}

theorem effectsOf_laxer {pr pr' : PlannedResource} (h : Laxer pr pr') (os : Path.Platform)
    (opener : OpenerConfig) (present : List Char → Bool) :
    effectsOf os opener present pr' = effectsOf os opener present pr := by
  rw [h.rest]
  rfl

theorem launchedFor_eased {os : Path.Platform} {opener : OpenerConfig}
    {present : List Char → Bool} {l l' : List PlannedResource} {approvals approvals' : List Approval}
    (h : List.Forall₂ Laxer l l') (hwider : List.Forall₂ Wider approvals approvals') {e : Event}
    (he : LaunchedFor os opener present 0 (l.zip approvals) e) :
    LaunchedFor os opener present 0 (l'.zip approvals') e := by
  obtain ⟨i,pr,hi,hindex,heffect⟩ := he.asked
  obtain ⟨hpr,happroved⟩ := List.getElem?_zip_eq_some.mp hi
  obtain ⟨hbound,rfl⟩ := List.getElem?_eq_some_iff.mp hpr
  obtain ⟨hbound',hvalue⟩ := List.getElem?_eq_some_iff.mp happroved
  have hthere : i < l'.length := h.length_eq ▸ hbound
  have hthere' : i < approvals'.length := hwider.length_eq ▸ hbound'
  have hlax : Laxer l[i] l'[i] := (List.forall₂_iff_get.mp h).2 i hbound hthere
  have hstill : approvals'[i] = .approved :=
    (List.forall₂_iff_get.mp hwider).2 i hbound' hthere' hvalue
  refine ⟨i,l'[i],List.getElem?_zip_eq_some.mpr ⟨List.getElem?_eq_getElem hthere,?_⟩,hindex,?_⟩
  · rw [List.getElem?_eq_getElem hthere',hstill]
  · rw [effectsOf_laxer hlax os opener present]
    exact heffect

theorem eased_launches_more (env : Env) (t u : TrustStore)
    (hpins : ∀ authority keyId, t.isTrusted authority keyId = true →
      u.isTrusted authority keyId = true)
    (hpolicy : p.Eases p') (hinput : input.Settled) (present : List Char → Bool)
    (hsteady : desktop.launcher.Steady present) (ref : TargetRef) (cache : Cache) :
    ∀ e ∈ launches (env.trusting t) p input desktop ref cache,
      e ∈ launches (env.trusting u) p' input desktop ref cache := by
  intro e he
  have hpaired := labels_resolveRef (trustOf_vouches hpins env) ref _ _ (relabels_start cache)
  unfold launches at he ⊢
  cases hok : resolveRef (env.trusting t) ref (Run.start cache) with
  | error e r =>
    rw [hok] at he
    cases he
  | ok res r =>
    cases hok' : resolveRef (env.trusting u) ref (Run.start cache) with
    | error e r' =>
      rw [hok,hok'] at hpaired
      cases hpaired
    | ok res' r' =>
      rw [hok,hok'] at hpaired
      rw [hok] at he
      cases hpaired with
      | ok hres _ =>
        have hproduced := wp_ok (resolveRef_produced (env.trusting t) cache ref) hok
        have hproduced' := wp_ok (resolveRef_produced (env.trusting u) cache ref) hok'
        have hlax := laxer_planned hpolicy hproduced hres
        obtain ⟨approvals,happrovals,hgranted⟩ := approvals_granted (hproduced.decided p) input
        obtain ⟨approvals',happrovals',hgranted'⟩ := approvals_granted (hproduced'.decided p') input
        have hwider := approvals_eased hinput hlax happrovals happrovals'
        dsimp only at he ⊢
        rw [happrovals] at he
        rw [happrovals']
        obtain ⟨hmem,hlaunch⟩ := List.mem_filter.mp he
        refine List.mem_filter.mpr ⟨?_,hlaunch⟩
        have hfor := (execute_launches hsteady _ hgranted.length_eq.symm hlaunch).mp hmem
        exact (execute_launches hsteady _ hgranted'.length_eq.symm hlaunch).mpr
          (launchedFor_eased hlax hwider hfor)

def flagsOnly : ConsentInput :=
  .cli { yes := true, allowSensitive := true, allowDangerous := true } ⟨false,[]⟩

theorem shell_still_launched :
    ⟨0,.launch ["xdg-open","https://e.com"] none⟩ ∈ launches (shellEnv.trusting keyedStore)
      { dangerousRequiresTrust := false } flagsOnly sampleDesktop (.murl shellMurl) Cache.empty := by
  refine eased_launches_more shellEnv ⟨[]⟩ keyedStore (fun authority keyId h => ?_)
    (p := {}) ⟨fun tier => ?_,fun h => ?_,?_⟩ (show flagsOnly.Settled from rfl) (fun _ => true)
    (fun _ => rfl) (.murl shellMurl) Cache.empty _ ?_
  · rw [unpinned] at h
    cases h
  · cases tier <;> exact Nat.le_refl _
  · rfl
  · exact Nat.le_refl _
  · have hlaunched : decide (⟨0,.launch ["xdg-open","https://e.com"] none⟩ ∈
        launches (shellEnv.trusting ⟨[]⟩) {} flagsOnly sampleDesktop (.murl shellMurl)
          Cache.empty) = true := by
      simp only [shellEnv,siteEnv,siteCrates,published_compact]
      decide +kernel
    exact of_decide_eq_true hlaunched

end Activations

end MurlSystem
