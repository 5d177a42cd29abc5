import MurlSystem.Dispatch.Arguments
import MurlSystem.Targets.Accepted

namespace MurlSystem

open OpenerConfig

structure SameProgram (opener : OpenerConfig) (kind : Kind) (argv argv' : List String) : Prop where
  program : argv.head? = argv'.head?
  count : argv.length = argv'.length
  slots : ∀ i, argv[i]? ≠ argv'[i]? → opener.Slot kind i

def ProgramFixed (crates : Crates) (os : Path.Platform) (opener : OpenerConfig) (kind : Kind) :
    Prop :=
  ∀ pr pr' argv argv', pr.kind = kind → pr'.kind = kind → Passes crates kind pr.resource.target →
    Passes crates kind pr'.resource.target → LaunchedWith os opener pr argv →
    LaunchedWith os opener pr' argv' → SameProgram opener kind argv argv'

def ProgramPlain (opener : OpenerConfig) (kind : Kind) : Prop :=
  ∀ program rest, opener.template kind = some (program :: rest) → mentionsTarget program = false

section Fixed

variable {os : Path.Platform} {opener : OpenerConfig} {kind : Kind}
variable {target target' argument argument' : String} {argv argv' : List String}

theorem openWith_same (hk : ∀ a, opener.argvFor kind a = some (openWith opener a))
    (hslot : ∀ i, i = opener.openArgv.length → opener.Slot kind i)
    (h : Passed opener os kind target argument argv)
    (h' : Passed opener os kind target' argument' argv') : SameProgram opener kind argv argv' := by
  obtain rfl : openWith opener argument = argv := by
    simpa [hk] using h.given
  obtain rfl : openWith opener argument' = argv' := by
    simpa [hk] using h'.given
  rw [openWith_last h.visible,openWith_last h'.visible]
  have hne : opener.openArgv ≠ [] := by
    intro hnil
    refine h.visible ?_
    rw [openWith,hnil]
    rfl
  obtain ⟨program,rest,hopen⟩ := List.exists_cons_of_ne_nil hne
  refine ⟨by simp [hopen],by simp,?_⟩
  intro i hi
  refine hslot i ?_
  by_contra hlen
  refine hi ?_
  rcases Nat.lt_or_ge i opener.openArgv.length with hlt | hge
  · rw [List.getElem?_append_left hlt,List.getElem?_append_left hlt]
  · rw [List.getElem?_eq_none (by simp; omega),List.getElem?_eq_none (by simp; omega)]

theorem substitute_same (hplain : ProgramPlain opener kind)
    (hk : ∀ a, opener.argvFor kind a =
      (opener.template kind).map fun template => substitute template a)
    (hslot : ∀ i template, opener.template kind = some template →
      (i = template.length ∨ ∃ part, template[i]? = some part ∧ mentionsTarget part = true) →
      opener.Slot kind i)
    (h : Passed opener os kind target argument argv)
    (h' : Passed opener os kind target' argument' argv') : SameProgram opener kind argv argv' := by
  cases ht : opener.template kind with
  | none =>
    have hgiven := h.given
    simp [hk,ht] at hgiven
  | some template =>
    obtain rfl : substitute template argument = argv := by
      simpa [hk,ht] using h.given
    obtain rfl : substitute template argument' = argv' := by
      simpa [hk,ht] using h'.given
    obtain ⟨hne,hparts⟩ := substitute_parts h.visible
    rw [hparts,(substitute_parts h'.visible).2]
    obtain ⟨program,rest,rfl⟩ := List.exists_cons_of_ne_nil hne
    have hprogram := hplain program rest ht
    refine ⟨by simp [substitutePart_free hprogram],?_,?_⟩
    · split <;> simp
    · intro i hi
      refine hslot i _ ht ?_
      by_contra hno
      rw [not_or] at hno
      refine hi ?_
      rcases Nat.lt_or_ge i (program :: rest).length with hlt | hge
      · rw [List.getElem?_append_left (by simpa using hlt),
          List.getElem?_append_left (by simpa using hlt)]
        have hfree : mentionsTarget (program :: rest)[i] = false := by
          by_contra hm
          exact hno.2 ⟨_,List.getElem?_eq_getElem hlt,by simpa using hm⟩
        simp only [List.getElem?_map,List.getElem?_eq_getElem hlt,Option.map_some,
          substitutePart_free hfree]
      · have hgt : (program :: rest).length < i := lt_of_le_of_ne hge (Ne.symm hno.1)
        rw [List.getElem?_eq_none,List.getElem?_eq_none]
        all_goals
          split <;> simp at hgt ⊢ <;> omega

theorem programFixed_of_plain (crates : Crates) (hplain : ProgramPlain opener kind) :
    ProgramFixed crates os opener kind := by
  intro pr pr' argv argv' hk hk' _ _ hlaunch hlaunch'
  obtain ⟨argument,h⟩ := launchedWith_iff.mp hlaunch
  obtain ⟨argument',h'⟩ := launchedWith_iff.mp hlaunch'
  rw [hk] at h
  rw [hk'] at h'
  cases kind with
  | https | geo | mailto | file | dir => exact openWith_same (fun _ => rfl) (fun _ hi => hi) h h'
  | terminal | ssh | remoteDesktop | custom =>
    exact substitute_same hplain (fun _ => rfl) (fun i template ht hi => ⟨template,ht,hi⟩) h h'
  | murl =>
    have hmade : none = some argument := h.made
    cases hmade

def stem : Kind → String
  | .terminal => "/a"
  | .ssh => "ssh://a"
  | .remoteDesktop => "rdp://a"
  | _ => "a"

def plannedFor (kind : Kind) (target : String) : PlannedResource :=
  ⟨⟨"a",kind.toString,target,none,none,false,100,[],[],none,none⟩,kind,.dangerous,0,"a",none⟩

theorem stem_passes (crates : Crates) (os : Path.Platform) {name : String}
    {template : List String} {target : String} (hname : Kind.parse name = .ok kind) (ht : opener.template kind = some template)
    (htarget : target = stem kind ∨ target = stem kind ++ "b") :
    Passes crates kind target ∧ opener.argument os kind target = some target ∧
      'a' ∈ target.toList ∧ opener.argvFor kind target = some (substitute template target) := by
  rw [passes_iff hname]
  cases kind with
  | https | geo | mailto | file | dir | murl => cases ht
  | terminal | ssh | remoteDesktop =>
    rcases htarget with rfl | rfl
    · exact ⟨⟨rfl,rfl,rfl⟩,rfl,by simp [stem],argvFor_template ht⟩
    · exact ⟨⟨rfl,rfl,rfl⟩,rfl,by simp [stem],argvFor_template ht⟩
  | custom =>
    have hgraphic : hasControl "a" = false ∧ hasControl "ab" = false := by decide +kernel
    have hvalid : validateCustomTarget "a".toList = .ok () ∧
        validateCustomTarget "ab".toList = .ok () := by decide +kernel
    rcases htarget with rfl | rfl
    · exact ⟨⟨rfl,hgraphic.1,hvalid.1⟩,rfl,by simp [stem],argvFor_template ht⟩
    · exact ⟨⟨rfl,hgraphic.2,hvalid.2⟩,rfl,by simp [stem],argvFor_template ht⟩

theorem mentioned_visible {program target : String} {rest : List String}
    (h : mentionsTarget program = true) (ha : 'a' ∈ target.toList) :
    ¬Blank (substitute (program :: rest) target) := by
  intro hblank
  have hmem : 'a' ∈ (substitutePart target program).toList := by
    rw [substitutePart,String.toList_ofList]
    exact Text.mem_replaceFrom (by decide) h ha
  have hwhite : ((substitutePart target program).toList.all Text.isWhitespace) = true := hblank
  exact absurd (List.all_eq_true.mp hwhite 'a' hmem) (by decide)

theorem plain_of_programFixed {crates : Crates} {name : String}
    (hname : Kind.parse name = .ok kind) (hfixed : ProgramFixed crates os opener kind) :
    ProgramPlain opener kind := by
  intro program rest ht
  by_contra hmention
  have hmention : mentionsTarget program = true := by simpa using hmention
  obtain ⟨hpass,hmade,ha,hgiven⟩ := stem_passes crates os hname ht (.inl rfl)
  obtain ⟨hpass',hmade',ha',hgiven'⟩ := stem_passes crates os hname ht (.inr rfl)
  have hsame := hfixed (plannedFor kind _) (plannedFor kind _) _ _ rfl rfl hpass hpass'
    (launchedWith_iff.mpr ⟨_,hmade,hgiven,mentioned_visible hmention ha⟩)
    (launchedWith_iff.mpr ⟨_,hmade',hgiven',mentioned_visible hmention ha'⟩)
  have hprogram : substitutePart (stem kind) program = substitutePart (stem kind ++ "b") program :=
    Option.some.inj hsame.program
  have hlists := congrArg String.toList hprogram
  rw [substitutePart,substitutePart,String.toList_ofList,String.toList_ofList] at hlists
  exact Text.replace_length_ne (by decide) hmention (by simp) hlists

end Fixed

end MurlSystem
