import MurlSystem.Core.Dispatch

namespace MurlSystem

open Program

def Effect.isLaunch : Effect → Bool
  | .launch _ _ => true
  | _ => false

def Appends (ok : Event → Prop) (events after : List Event) : Prop :=
  ∃ new, after = events ++ new ∧ ∀ e ∈ new, ok e

section Appends

variable {ok : Event → Prop} {events after later : List Event}

theorem Appends.refl (events : List Event) : Appends ok events events :=
  ⟨[],by simp,by simp⟩

theorem Appends.trans (h : Appends ok events after) (h' : Appends ok after later) :
    Appends ok events later := by
  obtain ⟨new,rfl,hnew⟩ := h
  obtain ⟨new',rfl,hnew'⟩ := h'
  refine ⟨new ++ new',by simp,?_⟩
  intro e he
  rcases List.mem_append.mp he with he | he
  · exact hnew e he
  · exact hnew' e he

theorem Appends.mono {ok' : Event → Prop} (h : Appends ok events after)
    (himp : ∀ e, ok e → ok' e) : Appends ok' events after := by
  obtain ⟨new,rfl,hnew⟩ := h
  exact ⟨new,rfl,fun e he => himp e (hnew e he)⟩

theorem Appends.single {e : Event} (h : ok e) : Appends ok events (events ++ [e]) :=
  ⟨[e],rfl,by simpa using h⟩

end Appends

section One

variable {os : Path.Platform} {opener : OpenerConfig} {launcher : Launcher} {index : Nat}
variable {Q : Status → List Event → Prop} {E : Error → List Event → Prop} {events : List Event}

theorem wp_perform {Q : Unit → List Event → Prop} {effect : Effect} :
    wp (perform index effect) Q E events ↔ Q () (events ++ [⟨index,effect⟩]) := Iff.rfl

def Blank (argv : List String) : Prop := (argv.headD "").toList.all Text.isWhitespace = true

theorem wp_launch {argv : List String} {cwd : Option (List Char)} (hskip : ∀ s, Q s events)
    (hlaunch : ¬Blank argv → ∀ s, Q s (events ++ [⟨index,.launch argv cwd⟩])) :
    wp (launch launcher index argv cwd) Q E events := by
  unfold launch
  rw [wp_ite]
  refine ⟨fun _ => hskip _,fun hblank => ?_⟩
  rw [wp_bind,wp_get,wp_bind,wp_perform]
  cases launcher.launch events argv cwd with
  | ok _ => exact hlaunch hblank _
  | error e => exact hlaunch hblank _

theorem wp_dispatchPath {target : String} {openPath : List Char → DispatchM Status}
    (hskip : ∀ s, Q s events)
    (hmissing : ∀ s path, Q s (events ++ [⟨index,.pathExists path⟩]))
    (hopen : ∀ path, opener.expandPath os target = .ok path →
      wp (openPath path) Q E (events ++ [⟨index,.pathExists path⟩])) :
    wp (dispatchPath os opener launcher index target openPath) Q E events := by
  unfold dispatchPath
  cases hp : opener.expandPath os target with
  | error e => exact hskip _
  | ok path =>
    dsimp only
    rw [wp_bind,wp_get,wp_bind,wp_perform,wp_ite]
    exact ⟨fun _ => hopen path hp,fun _ => hmissing _ path⟩

def ByIndex (index : Nat) (e : Event) : Prop := e.index = index

theorem Appends.emit (effect : Effect) :
    Appends (ByIndex index) events (events ++ [⟨index,effect⟩]) :=
  .single rfl

theorem launch_spec (argv : List String) (cwd : Option (List Char)) :
    wp (launch launcher index argv cwd) (fun _ after => Appends (ByIndex index) events after)
      (fun _ _ => False) events :=
  wp_launch (fun _ => .refl events) (fun _ _ => .single rfl)

theorem dispatchTemplate_spec (template : Option (List String)) (missing target : String) :
    wp (dispatchTemplate launcher index template missing target)
      (fun _ after => Appends (ByIndex index) events after) (fun _ _ => False) events := by
  unfold dispatchTemplate
  cases template with
  | none => exact .refl events
  | some argv => exact launch_spec _ none

theorem dispatchPath_spec {target : String} {openPath : List Char → DispatchM Status}
    (h : ∀ path events, wp (openPath path)
      (fun _ after => Appends (ByIndex index) events after) (fun _ _ => False) events) :
    wp (dispatchPath os opener launcher index target openPath)
      (fun _ after => Appends (ByIndex index) events after) (fun _ _ => False) events := by
  refine wp_dispatchPath (fun _ => .refl events) (fun _ _ => .single rfl) ?_
  intro path _
  exact wp_mono (h path _) (fun _ _ ha => (Appends.emit _).trans ha) (fun _ _ hf => hf)

theorem dispatchOne_spec (pr : PlannedResource) :
    wp (dispatchOne os opener launcher index pr)
      (fun _ after => Appends (ByIndex index) events after) (fun _ _ => False) events := by
  unfold dispatchOne
  cases pr.kind with
  | https => exact launch_spec _ none
  | geo => exact launch_spec _ none
  | mailto => exact launch_spec _ none
  | file => exact dispatchPath_spec fun path _ => launch_spec _ none
  | dir => exact dispatchPath_spec fun path _ => launch_spec _ none
  | terminal =>
    refine dispatchPath_spec fun path later => ?_
    cases opener.terminalArgv with
    | none => exact .refl later
    | some template => exact launch_spec _ (some path)
  | ssh => exact dispatchTemplate_spec _ _ _
  | remoteDesktop => exact dispatchTemplate_spec _ _ _
  | murl => exact .refl events
  | custom name => exact dispatchTemplate_spec _ _ _

theorem executeOne_spec (limits : Limits) (launchedAny : Bool) (pr : PlannedResource)
    (approval : Approval) :
    wp (executeOne os opener launcher index limits launchedAny pr approval)
      (fun _ after => Appends (fun e => e.index = index ∧ approval = .approved) events after)
      (fun _ _ => False) events := by
  cases approval with
  | denied reason => exact .refl events
  | skipped reason => exact .refl events
  | approved =>
    unfold executeOne stagger
    rw [wp_bind,wp_ite]
    have hone : ∀ later, Appends (ByIndex index) events later →
        wp (dispatchOne os opener launcher index pr)
          (fun _ after => Appends (fun e => e.index = index ∧ Approval.approved = .approved)
            events after) (fun _ _ => False) later := by
      intro later hl
      refine wp_mono (dispatchOne_spec pr) ?_ (fun _ _ hf => hf)
      intro _ after ha
      exact (hl.trans ha).mono fun e he => ⟨he,rfl⟩
    refine ⟨fun _ => ?_,fun _ => hone events (.refl events)⟩
    rw [wp_perform]
    exact hone _ (.single rfl)

end One

section Execute

variable {os : Path.Platform} {opener : OpenerConfig} {launcher : Launcher}

def OnApproved (index : Nat) (plan : List (PlannedResource × Approval)) (e : Event) : Prop :=
  index ≤ e.index ∧ ∃ pr, plan[e.index - index]? = some (pr,.approved)

theorem OnApproved.cons {index : Nat} {plan : List (PlannedResource × Approval)}
    {first : PlannedResource × Approval} {e : Event} (h : OnApproved (index + 1) plan e) :
    OnApproved index (first :: plan) e := by
  obtain ⟨hle,pr,hpr⟩ := h
  refine ⟨by omega,pr,?_⟩
  have hsucc : e.index - index = (e.index - (index + 1)) + 1 := by omega
  rw [hsucc,List.getElem?_cons_succ,hpr]

theorem executeFrom_spec (limits : Limits) (plan : List (PlannedResource × Approval))
    (index : Nat) (launchedAny : Bool) (events : List Event) :
    wp (executeFrom os opener launcher limits index launchedAny plan)
      (fun outcomes after => outcomes.length = plan.length ∧
        Appends (OnApproved index plan) events after)
      (fun _ _ => False) events := by
  induction plan generalizing index launchedAny events with
  | nil => exact ⟨rfl,.refl events⟩
  | cons first rest ih =>
    obtain ⟨pr,approval⟩ := first
    unfold executeFrom
    rw [wp_bind]
    refine wp_mono (executeOne_spec limits launchedAny pr approval) ?_ (fun _ _ hf => hf)
    intro status after hafter
    rw [wp_bind]
    refine wp_mono (ih (index + 1) _ after) ?_ (fun _ _ hf => hf)
    rintro outcomes later ⟨hlen,hlater⟩
    have hhead : Appends (OnApproved index ((pr,approval) :: rest)) events after := by
      refine hafter.mono ?_
      rintro e ⟨hindex,happroved⟩
      exact ⟨by omega,pr,by simp [hindex,happroved]⟩
    exact ⟨by simp [hlen],hhead.trans (hlater.mono fun e he => he.cons)⟩

theorem execute_spec (os : Path.Platform) (opener : OpenerConfig) (launcher : Launcher)
    (resolution : Resolution) (approvals : List Approval) (limits : Limits)
    (events : List Event) :
    wp (execute os opener launcher resolution approvals limits)
      (fun report after => report.outcomes.length = resolution.resources.length ∧
        Appends (fun e => approvals[e.index]? = some .approved ∧
          e.index < resolution.resources.length) events after)
      (fun _ after => approvals.length ≠ resolution.resources.length ∧ after = events) events := by
  unfold execute
  rw [wp_ite]
  refine ⟨fun hne => ⟨by simpa using hne,rfl⟩,fun heq => ?_⟩
  have hlen : approvals.length = resolution.resources.length := by simpa using heq
  rw [wp_bind]
  refine wp_mono (executeFrom_spec limits _ 0 false events) ?_ (fun _ _ hf => hf.elim)
  rintro outcomes after ⟨hout,hafter⟩
  refine ⟨by simpa [hlen] using hout,hafter.mono ?_⟩
  rintro e ⟨-,pr,hpr⟩
  rw [Nat.sub_zero,List.getElem?_zip_eq_some] at hpr
  exact ⟨hpr.2,(List.getElem?_eq_some_iff.mp hpr.1).1⟩

end Execute

end MurlSystem
