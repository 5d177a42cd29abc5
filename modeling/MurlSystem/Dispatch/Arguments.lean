import MurlSystem.Dispatch.Isolated
import MurlSystem.Foundation.Replace

namespace MurlSystem

open Program

namespace OpenerConfig

def argument (opener : OpenerConfig) (os : Path.Platform) (kind : Kind) (target : String) :
    Option String :=
  match kind with
  | .file | .dir | .terminal => (opener.expandPath os target).toOption.map String.ofList
  | .murl => none
  | _ => some target

def template (opener : OpenerConfig) : Kind → Option (List String)
  | .terminal => opener.terminalArgv
  | .ssh => opener.sshArgv
  | .remoteDesktop => opener.remoteDesktopArgv
  | .custom name => opener.custom.lookup name
  | _ => none

def argvFor (opener : OpenerConfig) (kind : Kind) (argument : String) : Option (List String) :=
  match kind with
  | .https | .geo | .mailto | .file | .dir => some (openWith opener argument)
  | .murl => none
  | kind => (opener.template kind).map fun template => substitute template argument

structure Passed (opener : OpenerConfig) (os : Path.Platform) (kind : Kind)
    (target argument : String) (argv : List String) : Prop where
  made : opener.argument os kind target = some argument
  given : opener.argvFor kind argument = some argv
  visible : ¬Blank argv

end OpenerConfig

open OpenerConfig

section One

variable {os : Path.Platform} {opener : OpenerConfig} {launcher : Launcher} {index : Nat}
variable {events : List Event} {pr : PlannedResource}

def PassedBy (os : Path.Platform) (opener : OpenerConfig) (pr : PlannedResource) (e : Event) :
    Prop :=
  ∀ argv cwd, e.effect = .launch argv cwd →
    ∃ argument, Passed opener os pr.kind pr.resource.target argument argv

theorem launch_passes {argument : String} {argv : List String} {cwd : Option (List Char)}
    (harg : opener.argument os pr.kind pr.resource.target = some argument)
    (hargv : opener.argvFor pr.kind argument = some argv) :
    wp (launch launcher index argv cwd)
      (fun _ after => Appends (PassedBy os opener pr) events after) (fun _ _ => False) events := by
  refine wp_launch (fun _ => .refl events) (fun hblank _ => .single ?_)
  intro argv' cwd' he
  cases he
  exact ⟨argument,harg,hargv,hblank⟩

theorem dispatchPath_passes {openPath : List Char → DispatchM Status}
    (h : ∀ path events, opener.expandPath os pr.resource.target = .ok path → wp (openPath path)
      (fun _ after => Appends (PassedBy os opener pr) events after) (fun _ _ => False) events) :
    wp (dispatchPath os opener launcher index pr.resource.target openPath)
      (fun _ after => Appends (PassedBy os opener pr) events after) (fun _ _ => False) events := by
  have hexists : ∀ path, Appends (PassedBy os opener pr) events
      (events ++ [⟨index,.pathExists path⟩]) := by
    intro path
    refine .single ?_
    intro argv cwd he
    cases he
  refine wp_dispatchPath (fun _ => .refl events) (fun _ path => hexists path) ?_
  intro path hpath
  exact wp_mono (h path _ hpath) (fun _ _ ha => (hexists path).trans ha) (fun _ _ hf => hf)

theorem dispatchTemplate_passes {template : Option (List String)} {missing : String}
    (harg : opener.argument os pr.kind pr.resource.target = some pr.resource.target)
    (hargv : opener.argvFor pr.kind pr.resource.target =
      template.map fun template => substitute template pr.resource.target) :
    wp (dispatchTemplate launcher index template missing pr.resource.target)
      (fun _ after => Appends (PassedBy os opener pr) events after) (fun _ _ => False) events := by
  unfold dispatchTemplate
  cases template with
  | none => exact .refl events
  | some argv => exact launch_passes harg hargv

theorem dispatchOne_passes : wp (dispatchOne os opener launcher index pr)
    (fun _ after => Appends (PassedBy os opener pr) events after) (fun _ _ => False) events := by
  unfold dispatchOne
  cases hk : pr.kind with
  | https => exact launch_passes (by rw [hk]; rfl) (by rw [hk]; rfl)
  | geo => exact launch_passes (by rw [hk]; rfl) (by rw [hk]; rfl)
  | mailto => exact launch_passes (by rw [hk]; rfl) (by rw [hk]; rfl)
  | file =>
    refine dispatchPath_passes fun path later hpath => ?_
    exact launch_passes (by simp only [hk,argument,hpath]; rfl) (by rw [hk]; rfl)
  | dir =>
    refine dispatchPath_passes fun path later hpath => ?_
    exact launch_passes (by simp only [hk,argument,hpath]; rfl) (by rw [hk]; rfl)
  | terminal =>
    refine dispatchPath_passes fun path later hpath => ?_
    cases ht : opener.terminalArgv with
    | none => exact .refl later
    | some argv =>
      exact launch_passes (by simp only [hk,argument,hpath]; rfl)
        (by simp only [hk,argvFor,template,ht]; rfl)
  | ssh => exact dispatchTemplate_passes (by rw [hk]; rfl) (by rw [hk]; rfl)
  | remoteDesktop => exact dispatchTemplate_passes (by rw [hk]; rfl) (by rw [hk]; rfl)
  | murl => exact .refl events
  | custom name => exact dispatchTemplate_passes (by rw [hk]; rfl) (by rw [hk]; rfl)

def LaunchedWith (os : Path.Platform) (opener : OpenerConfig) (pr : PlannedResource)
    (argv : List String) : Prop :=
  ∃ launcher index events status new cwd,
    dispatchOne os opener launcher index pr events = .ok status (events ++ new) ∧
    Event.mk index (.launch argv cwd) ∈ new

theorem launch_runs {argv : List String} {cwd : Option (List Char)} (h : ¬Blank argv) :
    launch (steady true (.ok ())) index argv cwd events =
      .ok (.opened,none) (events ++ [⟨index,.launch argv cwd⟩]) := by
  have hblank : ¬(argv.headD "").toList.all Text.isWhitespace = true := h
  unfold launch
  rw [if_neg hblank]
  exact bind_eq_ok.mpr ⟨events,events,rfl,bind_eq_ok.mpr ⟨(),_,rfl,rfl⟩⟩

theorem dispatchPath_runs {path : List Char} {argv : List String} {cwd : Option (List Char)}
    {openPath : List Char → DispatchM Status}
    (hpath : opener.expandPath os pr.resource.target = .ok path)
    (hopen : openPath path = launch (steady true (.ok ())) 0 argv cwd) (h : ¬Blank argv) :
    dispatchPath os opener (steady true (.ok ())) 0 pr.resource.target openPath [] =
      .ok (.opened,none) ([] ++ [⟨0,.pathExists path⟩,⟨0,.launch argv cwd⟩]) := by
  unfold dispatchPath
  rw [hpath]
  refine bind_eq_ok.mpr ⟨[],[],rfl,bind_eq_ok.mpr ⟨(),[⟨0,.pathExists path⟩],rfl,?_⟩⟩
  change openPath path [⟨0,.pathExists path⟩] = _
  rw [hopen,launch_runs h]
  rfl

theorem argument_path {kind : Kind} {target argument : String}
    (hk : kind = .file ∨ kind = .dir ∨ kind = .terminal)
    (h : opener.argument os kind target = some argument) :
    ∃ path, opener.expandPath os target = .ok path ∧ argument = String.ofList path := by
  have hmap : (opener.expandPath os target).toOption.map String.ofList = some argument := by
    rcases hk with rfl | rfl | rfl <;> exact h
  cases hp : opener.expandPath os target with
  | error e => simp [hp,Except.toOption] at hmap
  | ok path => exact ⟨path,rfl,by simpa [hp,Except.toOption] using hmap.symm⟩

theorem dispatchTemplate_runs {template : Option (List String)} {missing target : String}
    {argv : List String}
    (hargv : template.map (fun template => substitute template target) = some argv)
    (h : ¬Blank argv) : dispatchTemplate (steady true (.ok ())) 0 template missing target [] =
      .ok (.opened,none) ([] ++ [⟨0,.launch argv none⟩]) := by
  cases template with
  | none => cases hargv
  | some template =>
    obtain rfl := Option.some.inj hargv
    exact launch_runs h

theorem passed_runs {argument : String} {argv : List String}
    (h : Passed opener os pr.kind pr.resource.target argument argv) :
    ∃ new cwd, dispatchOne os opener (steady true (.ok ())) 0 pr [] =
      .ok (.opened,none) ([] ++ new) ∧ Event.mk 0 (.launch argv cwd) ∈ new := by
  obtain ⟨hmade,hgiven,hvisible⟩ := h
  unfold dispatchOne
  cases hk : pr.kind with
  | https | geo | mailto =>
    rw [hk] at hmade hgiven
    cases hmade
    cases hgiven
    exact ⟨_,none,launch_runs hvisible,List.mem_singleton_self _⟩
  | file | dir =>
    rw [hk] at hmade hgiven
    obtain ⟨path,hpath,rfl⟩ := argument_path (by simp) hmade
    cases hgiven
    exact ⟨_,none,dispatchPath_runs hpath rfl hvisible,by simp⟩
  | terminal =>
    rw [hk] at hmade hgiven
    obtain ⟨path,hpath,rfl⟩ := argument_path (by simp) hmade
    cases ht : opener.terminalArgv with
    | none => simp [argvFor,template,ht] at hgiven
    | some argv' =>
      obtain rfl : substitute argv' (String.ofList path) = argv := by
        simpa [argvFor,template,ht] using hgiven
      exact ⟨_,some path,dispatchPath_runs hpath rfl hvisible,by simp⟩
  | ssh | remoteDesktop | custom =>
    rw [hk] at hmade hgiven
    cases hmade
    exact ⟨_,none,dispatchTemplate_runs hgiven hvisible,List.mem_singleton_self _⟩
  | murl =>
    rw [hk] at hmade
    cases hmade

theorem launchedWith_iff {argv : List String} : LaunchedWith os opener pr argv ↔
    ∃ argument, Passed opener os pr.kind pr.resource.target argument argv := by
  constructor
  · rintro ⟨launcher,index,events,status,new,cwd,hrun,hmem⟩
    obtain ⟨new',heq,hpassed⟩ := wp_ok dispatchOne_passes hrun
    obtain rfl := List.append_cancel_left heq
    exact hpassed _ hmem argv cwd rfl
  · rintro ⟨argument,hpassed⟩
    obtain ⟨new,cwd,hrun,hmem⟩ := passed_runs hpassed
    exact ⟨_,_,_,_,_,cwd,hrun,hmem⟩

end One

section Slots

variable {opener : OpenerConfig} {kind : Kind} {i : Nat}

def OpenerConfig.Slot (opener : OpenerConfig) (kind : Kind) (i : Nat) : Prop :=
  match kind with
  | .https | .geo | .mailto | .file | .dir => i = opener.openArgv.length
  | kind => ∃ template, opener.template kind = some template ∧
      (i = template.length ∨ ∃ part, template[i]? = some part ∧ mentionsTarget part = true)

def OpenerConfig.Alone (opener : OpenerConfig) (kind : Kind) (i : Nat) : Prop :=
  match kind with
  | .https | .geo | .mailto | .file | .dir => i = opener.openArgv.length
  | kind => ∃ template, opener.template kind = some template ∧
      (template[i]? = some (String.ofList targetSlot) ∨
        i = template.length ∧ template.any mentionsTarget = false)

theorem argvFor_template {template : List String} {argument : String}
    (h : opener.template kind = some template) :
    opener.argvFor kind argument = some (substitute template argument) := by
  cases kind with
  | https | geo | mailto | file | dir | murl => cases h
  | terminal | ssh | remoteDesktop | custom =>
    exact congrArg (Option.map fun template => substitute template argument) h

theorem substitutePart_slot (target : String) :
    substitutePart target (String.ofList targetSlot) = target := by
  rw [substitutePart,String.toList_ofList,Text.replace_self (by decide)]
  simp

theorem substitutePart_free {target part : String} (h : mentionsTarget part = false) :
    substitutePart target part = part := by
  rw [substitutePart,Text.replace_free h]
  simp

theorem openWith_last {target : String} (h : ¬Blank (openWith opener target)) :
    openWith opener target = opener.openArgv ++ [target] := by
  unfold openWith at h ⊢
  split
  · rename_i hempty
    rw [if_pos hempty] at h
    exact absurd rfl h
  · rfl

theorem substitute_parts {template : List String} {target : String}
    (h : ¬Blank (substitute template target)) :
    template ≠ [] ∧ substitute template target = template.map (substitutePart target) ++
      (if template.any mentionsTarget then [] else [target]) := by
  unfold substitute at h ⊢
  split
  · rename_i hempty
    rw [if_pos hempty] at h
    exact absurd rfl h
  · rename_i hempty
    exact ⟨by simpa using hempty,rfl⟩

end Slots

end MurlSystem
