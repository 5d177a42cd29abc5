import Mathlib.Algebra.Group.Action.Defs
import Mathlib.Algebra.Order.BigOperators.Group.List
import MurlSystem.Cli.Signing
import MurlSystem.Cli.Slug
import MurlSystem.Naming.Printing

namespace MurlSystem

open ValidationReport Syntax

structure Creator where
  crates : Crates
  limits : Limits
  present : String → Bool

inductive Creation where
  | printed (text : Bytes)
  | file (path : String) (data : Bytes)

def localId (slug : String) : String := s!"murl://local/{slug}"

def describe (name : String) : String := s!"{name} — everything this destination is made of."

def projectsPath (slug : String) : String := s!"~/projects/{slug}"

def docsResource : Value := .object
  [("id",.string "docs"),("kind",.string "https"),("label",.string "Documentation"),
   ("order",.number (.int 10)),("role",.string "docs"),("target",.string "https://example.com/docs")]

def workspaceResource (slug : String) : Value := .object
  [("id",.string "workspace"),("kind",.string "dir"),("label",.string "Local workspace"),
   ("order",.number (.int 20)),("role",.string "workspace"),
   ("target",.string (projectsPath slug))]

def template (name : String) : Value := .object
  [("description",.string (describe name)),("id",.string (localId (slugify name))),
   ("murlVersion",.string "0.2"),("name",.string name),
   ("resources",.array [docsResource,workspaceResource (slugify name)])]

def Creator.create (app : Creator) (name output : Option String) (force : Bool) :
    Except Error Creation := do
  let name := name.getD "My Project"
  let text := pretty 0 (template name)
  let manifest ← Manifest.fromSlice app.crates (Text.bytes text) app.limits
  if !(manifest.validate app.crates).errors.isEmpty then
    throw (.validation "the generated manifest is invalid; please report this as a bug")
  if output = some "-" then return .printed (Text.bytes (text ++ "\n"))
  let path := output.getD s!"{slugify name}.murl.json"
  if app.present path && !force then
    throw (.validation s!"{path} already exists (pass --force to overwrite)")
  return .file path (Text.bytes (text ++ "\n"))

section Id

variable {slug : String} {l : List Char}

theorem dashAlnum_segChar {c : Char} (h : isDashAlnum c = true) : isSegChar c = true := by
  simp only [isDashAlnum,Bool.or_eq_true,beq_iff_eq] at h
  rcases h with h | rfl
  · exact alnum_segChar (by rw [isAlnum,h,Bool.true_or])
  · decide

theorem dashAlnum_printable {c : Char} (h : isDashAlnum c = true) : isPrintable c = true :=
  idChar_printable (dashAlnum_idChar h)

theorem dashAlnum_solid {c : Char} (h : isDashAlnum c = true) :
    Text.isControl c = false ∧ c ≠ '/' ∧ c ≠ '\\' ∧ c ≠ '.' ∧ c ≠ ':' := by
  have hcontrol : Text.isControl c = false := by
    have hp := dashAlnum_printable h
    simp only [isPrintable,Bool.and_eq_true,decide_eq_true_eq] at hp
    simp [Text.isControl]
    omega
  refine ⟨hcontrol,?_,?_,?_,?_⟩
  all_goals
    rintro rfl
    revert h
    decide

theorem decodes_solid (h : ∀ c ∈ l, isSegChar c = true) :
    Decodes l (l.map fun c => UInt8.ofNat c.toNat) := by
  induction l with
  | nil => exact .done
  | cons c l ih =>
    obtain ⟨hc,hl⟩ := List.forall_mem_cons.mp h
    exact .plain c l _ hc (ih hl)

theorem decodes_length {raw : List Char} {bytes : List UInt8} (h : Decodes raw bytes)
    (hraw : '%' ∉ raw) : bytes.length = raw.length := by
  induction h with
  | done => rfl
  | plain c rest bytes ok next ih =>
    rw [List.length_cons,List.length_cons,ih fun hc => hraw (by simp [hc])]
  | escaped => simp at hraw

theorem localId_toList (slug : String) :
    (localId slug).toList = "murl://local/".toList ++ slug.toList := by
  simp [localId,toString]

theorem ascii_scheme : ∀ c ∈ "murl://local/".toList, Text.isAscii c = true :=
  List.all_eq_true.mp (by decide)

theorem localId_size (h : ∀ c ∈ slug.toList, isDashAlnum c = true) :
    (localId slug).utf8ByteSize = 13 + slug.toList.length := by
  have hascii : ∀ c ∈ (localId slug).toList, Text.isAscii c = true := by
    intro c hc
    rw [localId_toList,List.mem_append] at hc
    rcases hc with hc | hc
    · exact ascii_scheme c hc
    · exact isSegChar_ascii (dashAlnum_segChar (h c hc))
  rw [Text.size_ascii hascii,localId_toList,List.length_append]
  rfl

theorem escapedByte_solid {c : Char} (h : isDashAlnum c = true) :
    escapedByte (UInt8.ofNat c.toNat) = [c] := by
  have hp := dashAlnum_printable h
  simp only [isPrintable,Bool.and_eq_true,decide_eq_true_eq] at hp
  have hbyte : (UInt8.ofNat c.toNat).toNat = c.toNat := by
    rw [UInt8.toNat_ofNat']
    omega
  have hkeep : isUnreserved (UInt8.ofNat c.toNat) = true := by
    simp only [isDashAlnum,Bool.or_eq_true,beq_iff_eq] at h
    rw [isUnreserved,hbyte,Char.ofNat_toNat]
    rcases h with h | rfl
    · simp [isAlnum,h]
    · decide
  rw [escapedByte,if_pos hkeep,hbyte,Char.ofNat_toNat]

theorem encodeSegment_solid (h : ∀ c ∈ slug.toList, isDashAlnum c = true) :
    encodeSegment slug = slug := by
  have hbytes := @Text.bytes_ascii slug.toList fun c hc => isSegChar_ascii (dashAlnum_segChar (h c hc))
  rw [String.ofList_toList] at hbytes
  refine String.toList_inj.mp ?_
  rw [encodeSegment_toList,hbytes,List.flatMap_map,List.flatMap_congr fun c hc =>
    escapedByte_solid (h c hc),List.flatMap_singleton']

def localParts (slug : String) : Parts :=
  ⟨"murl://".toList,localAuthority.toList,[slug.toList],none,none,none⟩

def localMurl (slug : String) : Murl := ⟨.local,[slug],.latest,none,none⟩

theorem scheme_local (l : List Char) :
    "murl://".toList ++ ("local".toList ++ '/' :: l) = "murl://local/".toList ++ l := rfl

theorem localMurl_toString (h : ∀ c ∈ slug.toList, isDashAlnum c = true) :
    (localMurl slug).toString = localId slug := by
  have hidentity : (localMurl slug).toString = (localMurl slug).identity := rfl
  have hslashed : slashed (localMurl slug).name = '/' :: slug.toList := by
    rw [slashed,localMurl,List.map_singleton,List.flatten_singleton,encodeSegment_solid h]
  have hparts := identity_parts (localMurl slug)
  rw [hslashed] at hparts
  have hbare := congrArg ("murl://".toList ++ ·) (List.append_nil ("local".toList ++ '/' :: slug.toList))
  refine String.toList_inj.mp ?_
  rw [hidentity,localId_toList]
  exact hparts.trans (hbare.trans (scheme_local slug.toList))

theorem localParts_wellFormed (hne : slug ≠ "") (h : ∀ c ∈ slug.toList, isDashAlnum c = true) :
    (localParts slug).WellFormed .exact where
  scheme := rfl
  authority := .inl rfl
  nonempty := List.cons_ne_nil _ _
  segments := by
    obtain ⟨ws,hws,hpieces⟩ := pieces_of_decodes
      (decodes_solid fun c hc => dashAlnum_segChar (h c hc))
    refine List.forall_mem_singleton.mpr ⟨ws,hws,List.length_pos_of_ne_nil ?_,by simp,hpieces⟩
    rintro rfl
    exact hne (String.toList_eq_nil_iff.mp hws)
  version := fun _ hv => by cases hv
  query := fun _ hq => by cases hq
  selector := fun _ hf => by cases hf

theorem bare_text (scheme authority segment : List Char) :
    Parts.text ⟨scheme,authority,[segment],none,none,none⟩ =
      scheme ++ (authority ++ '/' :: segment) := by
  simp [Parts.text,Parts.path,marked]

theorem localParts_text (slug : String) : (localParts slug).text = (localId slug).toList := by
  rw [localId_toList]
  exact (bare_text _ _ _).trans (scheme_local slug.toList)

theorem localSegment_reads (hne : slug ≠ "") (h : ∀ c ∈ slug.toList, isDashAlnum c = true)
    (hsize : slug.toList.length ≤ maxSegmentBytes) :
    SegmentReads Text.isControl slug.toList slug := by
  have hascii : ∀ c ∈ slug.toList, Text.isAscii c = true :=
    fun c hc => isSegChar_ascii (dashAlnum_segChar (h c hc))
  have hbytes := Text.bytes_ascii hascii
  rw [String.ofList_toList] at hbytes
  have hdot : '.' ∉ slug.toList := fun hc => (dashAlnum_solid (h '.' hc)).2.2.2.1 rfl
  refine ⟨by simpa using hne,?_,by rwa [Text.size_ascii hascii],?_,?_,?_⟩
  · rw [hbytes]
    exact decodes_solid fun c hc => dashAlnum_segChar (h c hc)
  · intro c hc
    obtain ⟨hcontrol,hslash,hback,-⟩ := dashAlnum_solid (h c hc)
    exact ⟨hcontrol,hslash,hback⟩
  · rintro rfl
    exact hdot (by decide)
  · rintro rfl
    exact hdot (by decide)

theorem localId_accepted (hne : slug ≠ "") (h : ∀ c ∈ slug.toList, isDashAlnum c = true)
    (hsize : slug.toList.length ≤ maxSegmentBytes) :
    Murl.parse (localId slug) = .ok (localMurl slug) := by
  have hbytes := localId_size h
  have hmost : maxSegmentBytes = 64 ∧ maxMurlLen = 1024 := ⟨rfl,rfl⟩
  refine parse_ok.mpr ⟨localParts slug,localParts_text slug,localParts_wellFormed hne h,?_,by omega,?_,
    (by decide : localAuthority.length ≤ maxAuthorityLen)⟩
  · exact {
      authority := .reserved
      few := (by decide : 1 ≤ maxSegments)
      name := .cons (localSegment_reads hne h hsize) .nil
      version := .absent
      query := rfl
      selector := .absent }
  · rw [localMurl_toString h]
    omega

theorem validateId_local (hne : slug ≠ "") (h : ∀ c ∈ slug.toList, isDashAlnum c = true) :
    (validateId (localId slug)).errors = [] ↔ slug.toList.length ≤ maxSegmentBytes := by
  constructor
  · intro hvalid
    rw [validateId] at hvalid
    cases hparse : Murl.parse (localId slug) with
    | error e =>
      rw [hparse] at hvalid
      cases hvalid
    | ok m =>
      obtain ⟨p,hp⟩ := parse_ok.mp hparse
      have hsame := wellFormed_unique hp.rule (localParts_wellFormed hne h)
        (hp.text.trans (localParts_text slug).symm)
      subst hsame
      have hname : List.Forall₂ (SegmentReads Text.isControl) [slug.toList] m.name := hp.reads.name
      cases hnames : m.name with
      | nil =>
        rw [hnames] at hname
        cases hname
      | cons seg rest =>
        rw [hnames,List.forall₂_cons] at hname
        have hseg := hname.1
        have hlength := decodes_length hseg.decoded fun hc => by
          have hpercent := h _ hc
          revert hpercent
          decide
        rw [Text.length_bytes] at hlength
        rw [← hlength]
        exact hseg.size
  · intro hsize
    rw [validateId,localId_accepted hne h hsize]
    rfl

end Id

section Document

variable {name slug : String} {crates : Crates}

def docsDoc : ResourceDoc :=
  ⟨"docs","https","https://example.com/docs",some "Documentation",some "docs",false,10,[],[],none,none⟩

def workspaceDoc (slug : String) : ResourceDoc :=
  ⟨"workspace","dir",projectsPath slug,some "Local workspace",some "workspace",false,20,[],[],none,none⟩

def templateDoc (name : String) : ManifestDoc :=
  ⟨"0.2",some (localId (slugify name)),name,some (describe name),none,none,none,
    [docsDoc,workspaceDoc (slugify name)],[],none⟩

theorem template_fromValue (name : String) :
    ManifestDoc.fromValue (template name) = .ok (templateDoc name) := rfl

theorem docs_valid (all : List ResourceDoc) : (validateResource crates all [] docsDoc).errors = [] := rfl

theorem projectsPath_toList (slug : String) :
    (projectsPath slug).toList = "~/projects/".toList ++ slug.toList := by
  simp [projectsPath,toString]

theorem projects_segments {l : List Char} (h : ∀ c ∈ l, isDashAlnum c = true) :
    ("projects/".toList ++ l).splitOnP isSeparator = ["projects".toList,l] := by
  have hslug : ∀ c ∈ l, isSeparator c = false := by
    intro c hc
    obtain ⟨-,hslash,hback,-⟩ := dashAlnum_solid (h c hc)
    simp [isSeparator,hslash,hback]
  have hword : ∀ c ∈ "projects".toList, isSeparator c = false := by simp [isSeparator]
  have hlist : "projects/".toList ++ l = "projects".toList ++ '/' :: l := rfl
  rw [hlist,List.splitOnP_append_cons _ _ (by decide : isSeparator '/' = true),
    List.splitOnP_eq_singleton hword,List.splitOnP_eq_singleton hslug]
  rfl

theorem startsWithDrive_solid {l : List Char} (h : ∀ c ∈ l, isDashAlnum c = true) :
    startsWithDrive l = false := by
  unfold startsWithDrive
  split
  · next d rest => exact absurd rfl (dashAlnum_solid (h ':' (by simp))).2.2.2.2
  · rfl

theorem isDotSegment_solid {l : List Char} (h : ∀ c ∈ l, isDashAlnum c = true) :
    isDotSegment l = false := by
  have hdot : '.' ∉ l := fun hc => (dashAlnum_solid (h '.' hc)).2.2.2.1 rfl
  rw [isDotSegment,Bool.or_eq_false_iff,beq_eq_false_iff_ne,beq_eq_false_iff_ne]
  constructor
  · rintro rfl
    exact hdot (by simp)
  · rintro rfl
    exact hdot (by simp)

theorem stripSeparator_solid {l : List Char} (hne : l ≠ []) (h : ∀ c ∈ l, isDashAlnum c = true) :
    stripSeparator ("projects/".toList ++ l) = "projects/".toList ++ l := by
  obtain ⟨init,c,rfl⟩ : ∃ init c, l = init ++ [c] := ⟨_,_,(List.dropLast_append_getLast hne).symm⟩
  obtain ⟨-,hslash,hback,-⟩ := dashAlnum_solid (h c (by simp))
  have hlast : ("projects/".toList ++ (init ++ [c])).getLast? = some c := by
    rw [← List.append_assoc,List.getLast?_append]
    rfl
  rw [stripSeparator,hlast]
  simp [isSeparator,hslash,hback]

theorem projectsPath_valid (hne : slug ≠ "") (h : ∀ c ∈ slug.toList, isDashAlnum c = true) :
    validatePathTarget (projectsPath slug).toList = .ok () := by
  have hlist : slug.toList ≠ [] := by simpa using hne
  have hpath : (projectsPath slug).toList = '~' :: '/' :: ("projects/".toList ++ slug.toList) :=
    projectsPath_toList slug
  have hnetwork : isNetworkPath (projectsPath slug).toList = false := by rw [hpath]; rfl
  have hhome : checkHomeSegments (projectsPath slug).toList = .ok () := by
    have hdrop : (projectsPath slug).toList.dropPrefix? "~/".toList =
        some ("projects/".toList ++ slug.toList) := by rw [hpath]; rfl
    rw [checkHomeSegments,hdrop]
    simp only [stripSeparator_solid hlist h,projects_segments h]
    have hdrives : (["projects".toList,slug.toList].any startsWithDrive) = false := by
      rw [List.any_cons,List.any_cons,startsWithDrive_solid h]
      rfl
    have hempty : (["projects".toList,slug.toList].any List.isEmpty) = false := by
      rw [List.any_cons,List.any_cons,List.isEmpty_eq_false_iff.mpr hlist]
      rfl
    rw [hdrives,hempty]
    rfl
  have hbody : pathBody (projectsPath slug).toList = .ok ("projects/".toList ++ slug.toList) := by
    rw [hpath]
    rfl
  have hdots : (["projects".toList,slug.toList].any isDotSegment) = false := by
    rw [List.any_cons,List.any_cons,isDotSegment_solid h]
    rfl
  have htilde : (projectsPath slug).toList ≠ ['~'] := by
    rw [hpath]
    simp
  have hchecked : (if (("projects/".toList ++ slug.toList).splitOnP isSeparator).any isDotSegment = true
      then throw "dot segments are forbidden in path targets" else pure () : Except String Unit) =
        .ok () := by
    rw [projects_segments h,hdots]
    rfl
  simp only [validatePathTarget,hnetwork,hhome,hbody,if_neg htilde]
  exact hchecked

theorem solid_control (h : ∀ c ∈ slug.toList, isDashAlnum c = true) :
    hasControl (projectsPath slug) = false := by
  have hslug : ∀ c ∈ slug.toList, Text.isControl c = false :=
    fun c hc => (dashAlnum_solid (h c hc)).1
  rw [hasControl,projectsPath_toList,List.any_append,Bool.or_eq_false_iff]
  exact ⟨rfl,List.any_eq_false.mpr fun c hc => by simp [hslug c hc]⟩

theorem projectsPath_size (h : ∀ c ∈ slug.toList, isDashAlnum c = true) :
    (projectsPath slug).utf8ByteSize = 11 + slug.toList.length := by
  have hascii : ∀ c ∈ (projectsPath slug).toList, Text.isAscii c = true := by
    intro c hc
    rw [projectsPath_toList,List.mem_append] at hc
    rcases hc with hc | hc
    · exact List.all_eq_true.mp (by decide : "~/projects/".toList.all Text.isAscii = true) c hc
    · exact isSegChar_ascii (dashAlnum_segChar (h c hc))
  rw [Text.size_ascii hascii,projectsPath_toList,List.length_append]
  rfl

theorem workspace_valid (hne : slug ≠ "") (h : ∀ c ∈ slug.toList, isDashAlnum c = true)
    (hlen : slug.toList.length ≤ 120) : (validateResource crates
      [docsDoc,workspaceDoc slug] [docsDoc] (workspaceDoc slug)).errors = [] := by
  have hsize := projectsPath_size h
  have hpresent : targetPresent (projectsPath slug) = true := by
    have hsome : (projectsPath slug).isEmpty = false := by
      rw [← Bool.not_eq_true,String.isEmpty_iff]
      intro hempty
      have hlist := congrArg String.toList hempty
      rw [projectsPath_toList] at hlist
      simp at hlist
    have hmost : maxTargetLen = 2048 := rfl
    simp only [targetPresent,hsome,Bool.false_or,Bool.not_eq_true',decide_eq_false_iff_not]
    omega
  have hreaches : reachesTarget (workspaceDoc slug) = some .dir := by
    rw [reachesTarget,workspaceDoc]
    dsimp only
    rw [hpresent,solid_control h]
    rfl
  have htarget : validateTarget crates .dir (workspaceDoc slug).target = .ok () :=
    projectsPath_valid hne h
  have hshown : targetPresent (workspaceDoc slug).target = true := hpresent
  have hclean : hasControl (workspaceDoc slug).target = false := solid_control h
  have hchecked : (validateResourceTarget crates (fun field => s!"/resources/1/{field}") [docsDoc]
      (workspaceDoc slug)).errors = [] := by
    simp [validateResourceTarget,hreaches,hshown,hclean,htarget]
  rw [validateResource]
  simp only [append_errors,List.append_eq_nil_iff]
  have hid : isValidResourceId (workspaceDoc slug).id = true := by
    change isValidResourceId "workspace" = true
    decide
  have hrole : isValidRole "workspace" = true := by decide
  refine ⟨⟨⟨⟨⟨⟨⟨⟨⟨by rw [hid]; rfl,?_⟩,?_⟩,hchecked⟩,?_⟩,by
    rw [workspaceDoc,forOption,validateRole,hrole]; rfl⟩,?_⟩,?_⟩,?_⟩,?_⟩
  all_goals rfl

theorem describe_toList (name : String) : (describe name).toList =
    name.toList ++ " — everything this destination is made of.".toList := by
  simp [describe,toString]

theorem validateName_nil : (validateName name).errors = [] ↔
    name ≠ "" ∧ name.length ≤ 120 ∧ hasControl name = false := by
  have hmost : maxNameLen = 120 := rfl
  simp [validateName,hmost,and_assoc]

theorem describe_valid (hname : (validateName name).errors = []) :
    (validateDescription (describe name)).errors = [] := by
  obtain ⟨-,hlen,hcontrol⟩ := validateName_nil.mp hname
  have hlength : (describe name).length = name.length + 42 := by
    rw [← String.length_toList,describe_toList,List.length_append,String.length_toList]
    rfl
  have hclean : hasControl (describe name) = false := by
    rw [hasControl] at hcontrol ⊢
    rw [describe_toList,List.any_append,hcontrol]
    rfl
  have hmost : maxDescriptionLen = 2000 := rfl
  simp only [validateDescription,append_errors,List.append_eq_nil_iff,when_errors_nil,
    decide_eq_true_eq,hclean,hlength]
  exact ⟨fun hlong => absurd hlong (by omega),by simp⟩

theorem template_integral (name : String) : Serde.Integral (template name) := by
  intro n hn
  have hnumbers : Serde.numbers (template name) = [.int 10,.int 20] := rfl
  rw [hnumbers] at hn
  rcases List.mem_pair.mp hn with rfl | rfl
  · exact .inl rfl
  · exact .inl rfl

theorem template_validate (hname : (validateName name).errors = []) :
    (Manifest.validate crates ⟨template name,templateDoc name⟩).errors = [] ↔
      (validateId (localId (slugify name))).errors = [] := by
  obtain ⟨-,hlen,-⟩ := validateName_nil.mp hname
  obtain ⟨hne,hchars,hmost,-⟩ := slugify_spec name
  have hnumbers := (Serde.walkNumbers_iff (template name) "").mpr (template_integral name)
  have hresources : (validateResources crates (templateDoc name).resources).errors = [] := by
    have hdocs := @docs_valid crates [docsDoc,workspaceDoc (slugify name)]
    have hworkspace := @workspace_valid _ crates hne hchars (by omega)
    have heach : (validateEach crates [docsDoc,workspaceDoc (slugify name)] []
        [docsDoc,workspaceDoc (slugify name)]).errors = [] := by
      simp only [validateEach,append_errors,hdocs,List.nil_append,hworkspace,empty_errors]
    have hfew : ¬maxResourcesPerManifest < (templateDoc name).resources.length := by
      change ¬maxResourcesPerManifest < 2
      decide
    rw [validateResources,if_neg (by simp [templateDoc])]
    simp only [append_errors,List.append_eq_nil_iff,when_errors_nil,decide_eq_true_eq]
    exact ⟨fun hmany => absurd hmany hfew,heach⟩
  have horder : executionOrder (templateDoc name).resources = .ok [0,1] := rfl
  have hversion : (!acceptedMurlVersions.contains (templateDoc name).murlVersion) = false := rfl
  have hheader : (validateHeader (templateDoc name)).errors = [] ↔
      (validateId (localId (slugify name))).errors = [] := by
    have hdescription := describe_valid hname
    rw [validateHeader,hversion]
    simp only [append_errors,List.append_eq_nil_iff]
    constructor
    · rintro ⟨⟨⟨⟨⟨-,hid⟩,-⟩,-⟩,-⟩,-⟩
      exact hid
    · intro hid
      exact ⟨⟨⟨⟨⟨⟨⟨rfl,hname⟩,hdescription⟩,hid⟩,rfl⟩,rfl⟩,rfl⟩,rfl⟩
  have hunknown := unknownMembers_errors (template name)
  simp only [Manifest.validate,append_errors,List.append_eq_nil_iff,hresources,hnumbers,hunknown,
    and_true,validateOrder,horder,when_errors_nil]
  constructor
  · rintro ⟨⟨⟨hvalid,-⟩,-⟩,-⟩
    exact hheader.mp hvalid
  · intro hid
    exact ⟨⟨⟨hheader.mpr hid,fun _ => rfl⟩,rfl⟩,rfl⟩

theorem template_kept (name : String) : Serde.Kept Serde.maxNesting (template name) := by
  have hresource : ∀ {a b c d f : String} {n : Int}, 0 ≤ n → n < 2 ^ 64 → Serde.Kept 125 (.object
      [("id",.string a),("kind",.string b),("label",.string c),("order",.number (.int n)),
       ("role",.string d),("target",.string f)]) := by
    intro a b c d f n hlo hhi
    have hascending : ["id","kind","label","order","role","target"].Pairwise (· < ·) := by decide
    refine .object 124 _ ?_ (List.pairwise_map.mp hascending)
    simp only [List.forall_mem_cons]
    exact ⟨.string _ _,.string _ _,.string _ _,.int _ _ (by omega) hhi,.string _ _,.string _ _,by simp⟩
  have hascending : ["description","id","murlVersion","name","resources"].Pairwise (· < ·) := by decide
  refine .object 126 _ ?_ (List.pairwise_map.mp hascending)
  simp only [List.forall_mem_cons]
  refine ⟨.string _ _,.string _ _,.string _ _,.string _ _,.array 125 _ ?_,by simp⟩
  simp only [List.forall_mem_cons]
  exact ⟨hresource (by decide) (by decide),hresource (by decide) (by decide),by simp⟩

theorem charSize_le (c : Char) : charSize c ≤ 6 := by
  have hmost := c.utf8Size_le_four
  unfold charSize
  split
  · decide
  · split
    · decide
    · omega

theorem textSize_le (s : String) : textSize s ≤ 6 * s.length + 2 := by
  rw [textSize,← String.length_toList]
  have hsum := List.sum_le_card_nsmul (s.toList.map charSize) 6 (by
    intro n hn
    obtain ⟨c,-,rfl⟩ := List.mem_map.mp hn
    exact charSize_le c)
  rw [List.length_map] at hsum
  simp only [smul_eq_mul] at hsum
  omega

theorem shownSize_workspace (slug : String) :
    shownSize 2 (workspaceResource slug) = 150 + textSize (projectsPath slug) := by
  have hwords : textSize "id" = 4 ∧ textSize "kind" = 6 ∧ textSize "label" = 7 ∧
      textSize "order" = 7 ∧ textSize "role" = 6 ∧ textSize "target" = 8 ∧ textSize "workspace" = 11 ∧
      textSize "dir" = 5 ∧ textSize "Local workspace" = 17 ∧
      (Number.int 20).toString.utf8ByteSize = 2 := ⟨rfl,rfl,rfl,rfl,rfl,rfl,rfl,rfl,rfl,rfl⟩
  simp only [workspaceResource,shownSize,membersSize,framedSize,hwords,List.length_cons,
    List.length_nil,Nat.add_one_ne_zero,if_false]
  omega

theorem shownSize_template (name : String) : shownSize 0 (template name) =
    416 + textSize (describe name) + textSize (localId (slugify name)) + textSize name +
      textSize (projectsPath (slugify name)) := by
  have hwords : textSize "description" = 13 ∧ textSize "id" = 4 ∧ textSize "murlVersion" = 13 ∧
      textSize "0.2" = 5 ∧ textSize "name" = 6 ∧ textSize "resources" = 11 ∧
      shownSize 2 docsResource = 166 := ⟨rfl,rfl,rfl,rfl,rfl,rfl,rfl⟩
  simp only [template,shownSize,membersSize,itemsSize,framedSize,Nat.reduceAdd,hwords,
    shownSize_workspace,List.length_cons,List.length_nil,Nat.add_one_ne_zero,if_false]
  omega

theorem template_size (hname : (validateName name).errors = []) :
    (pretty 0 (template name)).utf8ByteSize ≤ 4096 := by
  obtain ⟨-,hlen,-⟩ := validateName_nil.mp hname
  obtain ⟨-,-,hmost,-⟩ := slugify_spec name
  have hdescription := textSize_le (describe name)
  have hid := textSize_le (localId (slugify name))
  have hshown := textSize_le name
  have hpath := textSize_le (projectsPath (slugify name))
  have hlengths : (describe name).length = name.length + 42 ∧
      (localId (slugify name)).length = 13 + (slugify name).toList.length ∧
      (projectsPath (slugify name)).length = 11 + (slugify name).toList.length := by
    simp only [← String.length_toList,describe_toList,localId_toList,projectsPath_toList,
      List.length_append]
    exact ⟨rfl,rfl,rfl⟩
  rw [size_pretty,shownSize_template]
  omega

end Document

section Created

variable {crates : Crates} {f64 : List Char → Option String} {name tail : String}

theorem template_fromSlice (serde : Serde.Tokenises crates f64) (htail : Rfc8259.Blank tail.toList)
    (hfew : tail.utf8ByteSize ≤ 1) (hname : (validateName name).errors = []) :
    Manifest.fromSlice crates (Text.bytes (pretty 0 (template name) ++ tail)) {} =
      .ok ⟨template name,templateDoc name⟩ := by
  have hsize := template_size hname
  have hread : fromSliceStrict crates (Text.bytes (pretty 0 (template name) ++ tail)) =
      .ok (template name) := by
    have htokens := (serde _ _).mpr (@pretty_tokens f64 (template name) tail htail
      (Serde.kept_token (template_kept name)) (template_integral name))
    simp only [fromSliceStrict,Fallible.bind_ok]
    exact ⟨_,htokens,Serde.noDup_self (template_kept name)⟩
  refine Manifest.fromSlice_iff.mpr ⟨?_,hread,rfl,template_fromValue name⟩
  rw [Text.length_bytes,String.utf8ByteSize_append]
  change _ ≤ 256 * 1024
  omega

def Validates (crates : Crates) (text : String) : Prop :=
  ∃ m, Manifest.fromSlice crates (Text.bytes text) {} = .ok m ∧ (m.validate crates).errors = []

theorem validates_iff (serde : Serde.Tokenises crates f64) (htail : Rfc8259.Blank tail.toList)
    (hfew : tail.utf8ByteSize ≤ 1) (hname : (validateName name).errors = []) :
    Validates crates (pretty 0 (template name) ++ tail) ↔ slugSize name ≤ maxSegmentBytes := by
  obtain ⟨hne,hchars,-,hsize⟩ := slugify_spec name
  have hread := template_fromSlice serde htail hfew hname
  rw [← hsize,← validateId_local hne hchars,← @template_validate name crates hname]
  constructor
  · rintro ⟨m,hm,hvalid⟩
    obtain rfl := Except.ok.inj (hread.symm.trans hm)
    exact hvalid
  · intro hvalid
    exact ⟨_,hread,hvalid⟩

theorem create_printed {app : Creator} (hlimits : app.limits = {}) (name : String) (force : Bool) :
    (∃ made, app.create (some name) (some "-") force = .ok made) ↔
      Validates app.crates (pretty 0 (template name)) := by
  unfold Creator.create Validates
  rw [hlimits]
  simp only [Option.getD_some]
  cases hm : Manifest.fromSlice app.crates (Text.bytes (pretty 0 (template name))) {} with
  | error e => simp [bind,Except.bind]
  | ok m =>
    cases hvalid : (m.validate app.crates).errors with
    | nil => simp [hvalid,bind,Except.bind,pure,Except.pure]
    | cons e es => simp [hvalid,bind,Except.bind,throw,throwThe,MonadExceptOf.throw]

end Created

theorem template_valid_iff (crates : Crates) (f64 : List Char → Option String)
    (serde : Serde.Tokenises crates f64) (name : String)
    (hname : (validateName name).errors = []) :
    (Validates crates (pretty 0 (template name)) ↔ slugSize name ≤ maxSegmentBytes) ∧
    (Validates crates (pretty 0 (template name) ++ "\n") ↔ slugSize name ≤ maxSegmentBytes) := by
  have hempty : Rfc8259.Blank "".toList := by
    intro c hc
    cases hc
  have hbare := validates_iff serde hempty (Nat.zero_le 1) hname
  rw [String.append_empty] at hbare
  exact ⟨hbare,validates_iff serde newline_blank (Nat.le_refl 1) hname⟩

theorem template_valid_project : (validateName "My Project").errors = [] ∧
    Validates sealCrates (pretty 0 (template "My Project")) := by
  have hname : (validateName "My Project").errors = [] := by decide
  exact ⟨hname,((template_valid_iff sealCrates Serde.shown sealCrates_serde "My Project" hname).1).mpr
    (by decide)⟩

def wordyName : String := String.ofList (List.replicate 65 'a')

theorem long_slug_refused : (validateName wordyName).errors = [] ∧ slugSize wordyName = 65 ∧
    ¬Validates sealCrates (pretty 0 (template wordyName) ++ "\n") := by
  have hname : (validateName wordyName).errors = [] := by decide +kernel
  have hsize : slugSize wordyName = 65 := by decide +kernel
  refine ⟨hname,hsize,?_⟩
  rw [validates_iff sealCrates_serde newline_blank (Nat.le_refl 1) hname,hsize]
  decide

end MurlSystem
