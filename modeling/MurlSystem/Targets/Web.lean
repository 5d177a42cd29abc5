import MurlSystem.Canonical.Lossless
import MurlSystem.Foundation.Split
import MurlSystem.Foundation.WebUrl
import MurlSystem.Naming.Items
import MurlSystem.Targets.Accepted

namespace MurlSystem

open Syntax

def Loopback (host : List Char) : Prop :=
  host = "localhost".toList ∨ host = "127.0.0.1".toList ∨ ".localhost".toList <:+ host

def hostPart (rest : List Char) : List Char := (authorityOf rest).takeWhile fun c => c != ':'

def comparedHost (rest : List Char) : List Char := Text.lowercase (hostPart rest)

structure HostAgrees (rest : List Char) (plainHttp : Bool) : Prop where
  anonymous : (WebUrl.read rest).userinfo = none
  nonempty : (WebUrl.read rest).host ≠ []
  same : Text.lowercase (WebUrl.read rest).host = comparedHost rest
  loopback : plainHttp = true → Loopback (Text.lowercase (WebUrl.read rest).host)

structure HostPlain (rest : List Char) : Prop where
  unslashed : '\\' ∉ hostPart rest
  closed : WebUrl.openAfter false (hostPart rest) = true → ':' ∉ authorityOf rest

def BrowserAgrees (target : List Char) : Prop :=
  ∃ rest plainHttp, webScheme target = some (rest,plainHttp) ∧ HostAgrees rest plainHttp

def PlainTarget (target : List Char) : Prop :=
  ∃ rest plainHttp, webScheme target = some (rest,plainHttp) ∧ HostPlain rest

section Checked

variable {rest target : List Char} {plainHttp : Bool}

structure WebChecked (rest : List Char) (plainHttp : Bool) : Prop where
  anonymous : '@' ∉ authorityOf rest
  nonempty : hostPart rest ≠ []
  loopback : plainHttp = true → Loopback (comparedHost rest)

theorem validateWebTarget_ok (h : validateWebTarget target = .ok ()) :
    ∃ rest plainHttp, webScheme target = some (rest,plainHttp) ∧ WebChecked rest plainHttp := by
  unfold validateWebTarget at h
  cases hs : webScheme target with
  | none => simp only [hs,Fallible.throw_ok] at h
  | some parts =>
    obtain ⟨rest,plainHttp⟩ := parts
    simp only [hs,check_ok] at h
    obtain ⟨-,hat,hhost,-,hloop⟩ := h
    change ¬(comparedHost rest).isEmpty = true at hhost
    refine ⟨rest,plainHttp,rfl,by simpa using hat,?_,?_⟩
    · intro hnil
      rw [comparedHost,hnil] at hhost
      exact hhost rfl
    · rintro rfl
      rw [if_pos rfl,checked_ok] at hloop
      change ¬(!(comparedHost rest == "localhost".toList ||
        comparedHost rest == "127.0.0.1".toList ||
        ".localhost".toList.isSuffixOf (comparedHost rest))) = true at hloop
      simp only [Bool.not_eq_true',Bool.not_eq_false] at hloop
      simpa [Loopback,or_assoc] using hloop

theorem authorityOf_free {c : Char} (h : c ∈ authorityOf rest) : isAuthorityEnd c = false := by
  simpa using List.mem_takeWhile_imp h

theorem mem_hostPart {c : Char} (h : c ∈ hostPart rest) : c ∈ authorityOf rest ∧ c ≠ ':' :=
  ⟨(List.takeWhile_prefix _).mem h,by simpa using List.mem_takeWhile_imp h⟩

theorem hostPart_cases (rest : List Char) : authorityOf rest = hostPart rest ∨
    ∃ t, authorityOf rest = hostPart rest ++ ':' :: t := by
  have hsplit := List.takeWhile_append_dropWhile (p := fun c => c != ':') (l := authorityOf rest)
  cases hd : (authorityOf rest).dropWhile fun c => c != ':' with
  | nil =>
    rw [hd,List.append_nil] at hsplit
    exact .inl hsplit.symm
  | cons c t =>
    have hne : (authorityOf rest).dropWhile (fun c => c != ':') ≠ [] := by simp [hd]
    have hc := List.head_dropWhile_not (fun c => c != ':') hne
    obtain rfl : c = ':' := by simpa [hd] using hc
    rw [hd] at hsplit
    exact .inr ⟨t,hsplit.symm⟩

theorem browser_authority (h : hostPart rest ≠ []) (hslash : '\\' ∉ hostPart rest) :
    WebUrl.authority rest = (authorityOf rest).takeWhile fun c => c != '\\' := by
  obtain ⟨d,hs,hpart⟩ := List.exists_cons_of_ne_nil h
  have hd : d ∈ hostPart rest := by simp [hpart]
  have hslashed : WebUrl.isSlash d = false := by
    have hend := authorityOf_free (mem_hostPart hd).1
    have hback : d ≠ '\\' := fun he => hslash (he ▸ hd)
    simp_all [WebUrl.isSlash,isAuthorityEnd]
  have hrest : ∃ tail, rest = d :: tail := by
    obtain ⟨u,hu⟩ := (List.takeWhile_prefix fun c => c != ':').trans
      (List.takeWhile_prefix (l := rest) fun c => !isAuthorityEnd c)
    change hostPart rest ++ u = rest at hu
    rw [hpart] at hu
    exact ⟨hs ++ u,hu.symm⟩
  obtain ⟨tail,htail⟩ := hrest
  have hdrop : rest.dropWhile WebUrl.isSlash = rest := by
    rw [htail,List.dropWhile_cons,hslashed]
    rfl
  rw [WebUrl.authority,hdrop,authorityOf,List.takeWhile_takeWhile]
  congr 1
  funext c
  simp only [WebUrl.endsAuthority,WebUrl.isSlash,isAuthorityEnd]
  rw [Bool.eq_iff_iff]
  simp
  tauto

theorem colon_not_compared : ':' ∉ comparedHost rest := by
  rw [comparedHost,Text.mem_lowercase (by decide)]
  exact fun hm => (mem_hostPart hm).2 rfl

theorem browser_host (hat : '@' ∉ authorityOf rest) (hne : hostPart rest ≠ [])
    (hslash : '\\' ∉ hostPart rest) : ∃ tail, WebUrl.read rest = ⟨none,tail⟩ ∧
      (tail = hostPart rest ∨ WebUrl.openAfter false (hostPart rest) = true ∧
        ':' ∈ authorityOf rest ∧ ':' ∈ tail) ∧
      (WebUrl.openAfter false (hostPart rest) = true → ':' ∈ authorityOf rest → ':' ∈ tail) := by
  have hread : WebUrl.read rest =
      ⟨none,WebUrl.hostText false ((authorityOf rest).takeWhile fun c => c != '\\')⟩ := by
    rw [WebUrl.read,browser_authority hne hslash,WebUrl.readAuthority_plain]
    exact fun hm => hat ((List.takeWhile_prefix _).mem hm)
  refine ⟨_,hread,?_⟩
  have hcolon : ':' ∉ hostPart rest := fun hm => (mem_hostPart hm).2 rfl
  have hplain : ∀ c ∈ hostPart rest, (c != '\\') = true := by
    intro c hc
    have hback : c ≠ '\\' := fun he => hslash (he ▸ hc)
    simpa using hback
  rcases hostPart_cases rest with hwhole | ⟨t,hsplit⟩
  · rw [hwhole,List.takeWhile_eq_self_iff.mpr hplain,WebUrl.hostText_free hcolon]
    exact ⟨.inl rfl,fun _ hm => absurd hm hcolon⟩
  · rw [hsplit,List.takeWhile_append_of_pos hplain]
    have hcut : (':' :: t).takeWhile (fun c => c != '\\') =
        ':' :: t.takeWhile fun c => c != '\\' := rfl
    rw [hcut,WebUrl.hostText_colon hcolon]
    cases hopen : WebUrl.openAfter false (hostPart rest) with
    | true => simp
    | false => simp

theorem web_host_iff (h : WebChecked rest plainHttp) : HostAgrees rest plainHttp ↔ HostPlain rest := by
  by_cases hslash : '\\' ∈ hostPart rest
  · constructor
    · intro hagrees
      have hmem : '\\' ∈ comparedHost rest := (Text.mem_lowercase (by decide)).mpr hslash
      rw [← hagrees.same,Text.mem_lowercase (by decide)] at hmem
      exact absurd (WebUrl.mem_read_host hmem) (by decide)
    · intro hplain
      exact absurd hslash hplain.unslashed
  · obtain ⟨tail,hread,htail,hopen⟩ := browser_host h.anonymous h.nonempty hslash
    constructor
    · intro hagrees
      refine ⟨hslash,fun ho hm => ?_⟩
      have hcolon : ':' ∈ Text.lowercase (WebUrl.read rest).host := by
        rw [hread,Text.mem_lowercase (by decide)]
        exact hopen ho hm
      rw [hagrees.same] at hcolon
      exact colon_not_compared hcolon
    · intro hplain
      have hsame : tail = hostPart rest := by
        rcases htail with htail | ⟨ho,hm,-⟩
        · exact htail
        · exact absurd hm (hplain.closed ho)
      subst hsame
      refine ⟨by rw [hread],by rw [hread]; exact h.nonempty,by rw [hread]; rfl,?_⟩
      intro hp
      rw [hread]
      exact h.loopback hp

end Checked

theorem web_target_host {crates : Crates} {target : String} (h : Passes crates .https target) :
    BrowserAgrees target.toList ↔ PlainTarget target.toList := by
  obtain ⟨rest,plainHttp,hs,hchecked⟩ := validateWebTarget_ok h.checked.valid
  constructor
  · rintro ⟨rest',plainHttp',hs',hagrees⟩
    rw [hs] at hs'
    cases hs'
    exact ⟨rest,plainHttp,hs,(web_host_iff hchecked).mp hagrees⟩
  · rintro ⟨rest',plainHttp',hs',hplain⟩
    rw [hs] at hs'
    cases hs'
    exact ⟨rest,plainHttp,hs,(web_host_iff hchecked).mpr hplain⟩

section Hosts

def guidePage : String := "https://docs.example:8443/guide?q=a:b@c"

def disguisedPage : String := "http://evil.example\\.localhost/"

theorem https_parsed : Kind.parse "https" = .ok .https := rfl

theorem guidePage_passes : Passes Serde.bareCrates .https guidePage :=
  (passes_iff https_parsed).mpr ⟨by decide +kernel,by decide +kernel,by decide +kernel⟩

theorem guide_host_agrees : Passes Serde.bareCrates .https guidePage ∧
    BrowserAgrees guidePage.toList := by
  refine ⟨guidePage_passes,(web_target_host guidePage_passes).mpr ⟨_,_,rfl,?_,?_⟩⟩
  · decide +kernel
  · decide +kernel

theorem disguised_host_apart : Passes Serde.bareCrates .https disguisedPage ∧
    WebUrl.read "evil.example\\.localhost/".toList = ⟨none,"evil.example".toList⟩ ∧
    comparedHost "evil.example\\.localhost/".toList = "evil.example\\.localhost".toList ∧
    ¬BrowserAgrees disguisedPage.toList := by
  have hread : WebUrl.read "evil.example\\.localhost/".toList =
      ⟨none,"evil.example".toList⟩ := by decide +kernel
  refine ⟨(passes_iff https_parsed).mpr ⟨by decide +kernel,by decide +kernel,
    by decide +kernel⟩,hread,by decide +kernel,?_⟩
  rintro ⟨rest,plainHttp,hs,hagrees⟩
  cases hs
  have hsame := hagrees.same
  revert hsame
  decide +kernel

end Hosts

end MurlSystem
