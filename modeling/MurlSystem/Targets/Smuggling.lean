import MurlSystem.Dispatch.Chosen
import MurlSystem.Targets.Paths
import MurlSystem.Targets.Web

namespace MurlSystem

open Syntax OpenerConfig

def ReadsAsOption (argument : String) : Prop := argument.toList.head? = some '-'

section Heads

variable {crates : Crates} {kind : Kind} {target : List Char}

theorem prefixed_head {c : Char} (p : List Char) (hp : p.head? = some c)
    (h : target.dropPrefix? p ≠ none) : target.head? = some c := by
  obtain ⟨tail,rfl⟩ := List.head?_eq_some_iff.mp hp
  obtain ⟨rest,hrest⟩ := Option.ne_none_iff_exists'.mp h
  rw [dropPrefix_iff.mp hrest]
  rfl

theorem web_head (h : validateWebTarget target = .ok ()) : target.head? = some 'h' := by
  by_contra hhead
  have hsecure : target.dropPrefix? "https://".toList = none :=
    of_not_not fun hn => hhead (prefixed_head _ rfl hn)
  have hplain : target.dropPrefix? "http://".toList = none :=
    of_not_not fun hn => hhead (prefixed_head _ rfl hn)
  obtain ⟨rest,plainHttp,hs,-⟩ := validateWebTarget_ok h
  rw [webScheme,hsecure,hplain] at hs
  cases hs

theorem geo_head (h : validateGeoTarget crates target = .ok ()) : target.head? = some 'g' := by
  unfold validateGeoTarget at h
  refine prefixed_head "geo:".toList rfl fun hn => ?_
  simp only [hn,Fallible.throw_ok] at h

theorem mailto_head (h : validateMailtoTarget target = .ok ()) : target.head? = some 'm' := by
  unfold validateMailtoTarget at h
  refine prefixed_head "mailto:".toList rfl fun hn => ?_
  simp only [hn,Fallible.throw_ok] at h

theorem ssh_head (h : validateSshTarget target = .ok ()) : target.head? = some 's' := by
  unfold validateSshTarget at h
  refine prefixed_head "ssh://".toList rfl fun hn => ?_
  simp only [hn,Fallible.throw_ok] at h

theorem remoteDesktop_head (h : validateRemoteDesktopTarget target = .ok ()) :
    target.head? = some 'r' ∨ target.head? = some 'v' := by
  by_contra hhead
  rw [not_or] at hhead
  have hrdp : target.dropPrefix? "rdp://".toList = none :=
    of_not_not fun hn => hhead.1 (prefixed_head _ rfl hn)
  have hvnc : target.dropPrefix? "vnc://".toList = none :=
    of_not_not fun hn => hhead.2 (prefixed_head _ rfl hn)
  unfold validateRemoteDesktopTarget at h
  simp only [hrdp,hvnc,Option.or_none,Fallible.throw_ok] at h

theorem custom_head (h : validateCustomTarget target = .ok ()) :
    target.head? ≠ some '-' ∧ isNetworkPath target = false := by
  unfold validateCustomTarget at h
  rw [Fallible.guard_ok,Fallible.guard_ok] at h
  exact ⟨by simpa using h.1,by simpa using h.2.1⟩

theorem path_head (h : validatePathTarget target = .ok ()) : target.head? ≠ some '-' := by
  intro hdash
  obtain ⟨rest,rfl⟩ := List.head?_eq_some_iff.mp hdash
  rcases (validatePathTarget_checked h).body with hhome | ⟨body,hbody,-⟩
  · cases hhome
  · unfold pathBody at hbody
    split at hbody
    · rename_i he
      cases he
    · rename_i he
      cases he
    · rename_i he
      cases he
      cases hbody
    · cases hbody

end Heads

section Launched

variable {crates : Crates} {os : Path.Platform} {opener : OpenerConfig} {kind : Kind}
variable {target argument : String} {argv : List String} {i : Nat}

def Homeward (target : String) : Prop := target.toList.head? = some '~'

structure Harmless (kind : Kind) (target argument : String) : Prop where
  noOption : ¬ReadsAsOption argument
  noNetwork : (kind.isFilesystem = true ∧ ¬Homeward target ∨ ∃ name, kind = .custom name) →
    isNetworkPath argument.toList = false

theorem harmless_self {c : Char} (hc : c ≠ '-') (hfile : kind.isFilesystem = false)
    (hcustom : ∀ name, kind ≠ .custom name) (h : target.toList.head? = some c) :
    Harmless kind target target := by
  refine ⟨fun hopt => ?_,?_⟩
  · rw [ReadsAsOption,h] at hopt
    exact hc (Option.some.inj hopt)
  · rintro (⟨hpath,-⟩ | ⟨name,hname⟩)
    · rw [hfile] at hpath
      cases hpath
    · exact absurd hname (hcustom name)

theorem harmless_path (hhome : ∀ home ∈ opener.homeDir, Path.isAbsolute os home = true)
    {path : List Char} (hvalid : validatePathTarget target.toList = .ok ())
    (hcustom : ∀ name, kind ≠ .custom name) (hpath : opener.expandPath os target = .ok path) :
    Harmless kind target (String.ofList path) := by
  by_cases ht : Homeward target
  · obtain ⟨rest,hrest⟩ := List.head?_eq_some_iff.mp ht
    obtain ⟨home,hsome,hhead⟩ := expandPath_home hrest hpath
    obtain ⟨c,tail,rfl,hc⟩ := absolute_head (hhome home hsome)
    refine ⟨fun hopt => ?_,?_⟩
    · rw [ReadsAsOption,String.toList_ofList,hhead (List.cons_ne_nil c tail)] at hopt
      exact hc (Option.some.inj hopt)
    · rintro (⟨-,hno⟩ | ⟨name,hname⟩)
      · exact absurd ht hno
      · exact absurd hname (hcustom name)
  · have hplain : ∀ rest, target.toList ≠ '~' :: rest :=
      fun rest he => ht (by rw [Homeward,he]; rfl)
    obtain rfl := expandPath_plain hplain hpath
    rw [String.ofList_toList]
    exact ⟨path_head hvalid,fun _ => (validatePathTarget_checked hvalid).local_⟩

theorem argument_harmless (hhome : ∀ home ∈ opener.homeDir, Path.isAbsolute os home = true)
    (hvalid : validateTarget crates kind target = .ok ())
    (hmade : opener.argument os kind target = some argument) : Harmless kind target argument := by
  cases kind with
  | https =>
    cases hmade
    exact harmless_self (by decide) rfl (fun _ he => (by cases he)) (web_head hvalid)
  | geo =>
    cases hmade
    exact harmless_self (by decide) rfl (fun _ he => (by cases he)) (geo_head hvalid)
  | mailto =>
    cases hmade
    exact harmless_self (by decide) rfl (fun _ he => (by cases he)) (mailto_head hvalid)
  | ssh =>
    cases hmade
    exact harmless_self (by decide) rfl (fun _ he => (by cases he)) (ssh_head hvalid)
  | remoteDesktop =>
    cases hmade
    rcases remoteDesktop_head hvalid with hhead | hhead
    · exact harmless_self (by decide) rfl (fun _ he => (by cases he)) hhead
    · exact harmless_self (by decide) rfl (fun _ he => (by cases he)) hhead
  | file | dir | terminal =>
    obtain ⟨path,hpath,rfl⟩ := argument_path (by simp) hmade
    exact harmless_path hhome hvalid (fun _ he => (by cases he)) hpath
  | murl => cases hmade
  | custom name =>
    cases hmade
    obtain ⟨hdash,hnet⟩ := custom_head hvalid
    exact ⟨hdash,fun _ => hnet⟩

theorem openWith_alone (h : ¬Blank (openWith opener argument)) :
    (openWith opener argument)[opener.openArgv.length]? = some argument := by
  rw [openWith_last h]
  simp

theorem substitute_alone {template : List String} (h : ¬Blank (substitute template argument))
    (hi : template[i]? = some (String.ofList targetSlot) ∨
      i = template.length ∧ template.any mentionsTarget = false) :
    (substitute template argument)[i]? = some argument := by
  rw [(substitute_parts h).2]
  rcases hi with hi | ⟨rfl,hnone⟩
  · have hlt := (List.getElem?_eq_some_iff.mp hi).1
    rw [List.getElem?_append_left (by simpa using hlt),List.getElem?_map,hi,Option.map_some,
      substitutePart_slot]
  · rw [hnone]
    simp

theorem alone_argument (h : Passed opener os kind target argument argv)
    (halone : opener.Alone kind i) : argv[i]? = some argument := by
  cases kind with
  | https | geo | mailto | file | dir =>
    obtain rfl : openWith opener argument = argv := Option.some.inj h.given
    obtain rfl : i = opener.openArgv.length := halone
    exact openWith_alone h.visible
  | terminal | ssh | remoteDesktop | custom =>
    obtain ⟨template,ht,hi⟩ := halone
    have hgiven := h.given
    rw [argvFor_template ht] at hgiven
    obtain rfl := Option.some.inj hgiven
    exact substitute_alone h.visible hi
  | murl => cases h.made

theorem no_option_smuggled (hhome : ∀ home ∈ opener.homeDir, Path.isAbsolute os home = true)
    {pr : PlannedResource} (hpass : Passes crates pr.kind pr.resource.target)
    (hlaunch : LaunchedWith os opener pr argv) (halone : opener.Alone pr.kind i) :
    ∃ argument, argv[i]? = some argument ∧ Harmless pr.kind pr.resource.target argument := by
  obtain ⟨argument,hpassed⟩ := launchedWith_iff.mp hlaunch
  exact ⟨argument,alone_argument hpassed halone,
    argument_harmless hhome hpass.checked.valid hpassed.made⟩

end Launched

section Terminal

def termOpener : OpenerConfig where
  openArgv := ["xdg-open"]
  terminalArgv := some ["term",String.ofList targetSlot]
  homeDir := some "/home/u".toList

theorem notes_argument_harmless :
    LaunchedWith .posix termOpener (plannedFor .terminal "~/notes") ["term","/home/u/notes"] ∧
    ∃ argument, ["term","/home/u/notes"][1]? = some argument ∧
      Harmless .terminal "~/notes" argument := by
  have hterminal : Kind.parse "terminal" = .ok .terminal := rfl
  have hpass : Passes Serde.bareCrates .terminal "~/notes" :=
    (passes_iff hterminal).mpr ⟨by decide +kernel,by decide +kernel,by decide +kernel⟩
  have hmade : termOpener.argument .posix .terminal "~/notes" = some "/home/u/notes" := by
    decide +kernel
  have hrun : LaunchedWith .posix termOpener (plannedFor .terminal "~/notes")
      ["term","/home/u/notes"] :=
    launchedWith_iff.mpr ⟨_,hmade,by decide +kernel,by unfold Blank; decide +kernel⟩
  refine ⟨hrun,no_option_smuggled ?_ hpass hrun ⟨_,rfl,.inl rfl⟩⟩
  rintro home ⟨⟩
  decide +kernel

end Terminal

end MurlSystem
