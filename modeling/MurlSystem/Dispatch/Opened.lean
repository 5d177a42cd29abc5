import MurlSystem.Dispatch.Execution
import MurlSystem.Resolution.Outcome

namespace MurlSystem

def executableLowered (name : List Char) : Bool :=
  match Text.rsplitOnce '.' (Text.trimEnd isDotOrSpace name) with
  | some (_,ext) => executableExtensions.contains (String.ofList ext)
  | none => false

def executableName (name : List Char) : Bool := executableLowered (Text.lowercase name)

def opensExecutable (os : Path.Platform) (path : List Char) : Bool :=
  (Path.finalPiece os path).any executableName

def endsInSep (os : Path.Platform) (path : List Char) : Bool :=
  path.getLast?.any (Path.isSep os)

section Names

def Spells (name : List Char) : Prop :=
  ∃ stem ext tail, Text.lowercase name = stem ++ '.' :: (ext.toList ++ tail) ∧
    ext ∈ executableExtensions ∧ ∀ c ∈ tail, isDotOrSpace c = true

def nameBreaks : List Char := ['.',' ','/','\\',':']

theorem extensions_plain : (executableExtensions.all fun ext => !ext.toList.isEmpty &&
    ext.toList.all fun c => !nameBreaks.contains c) = true := by
  decide +kernel

theorem extension_chars : ∀ ext ∈ executableExtensions,
    ext.toList ≠ [] ∧ ∀ c ∈ ext.toList, c ∉ nameBreaks := by
  intro ext hext
  have hplain := List.all_eq_true.mp extensions_plain ext hext
  rw [Bool.and_eq_true] at hplain
  refine ⟨by simpa using hplain.1,?_⟩
  intro c hc hmem
  have hno := List.all_eq_true.mp hplain.2 c hc
  rw [List.contains_iff_mem.mpr hmem] at hno
  cases hno

theorem extension_trimmed {stem : List Char} {ext : String} (h : ext ∈ executableExtensions) :
    Text.trimEnd isDotOrSpace (stem ++ '.' :: ext.toList) = stem ++ '.' :: ext.toList := by
  obtain ⟨hne,hchars⟩ := extension_chars ext h
  have hlast : isDotOrSpace (ext.toList.getLast hne) = false := by
    have hc := hchars _ (List.getLast_mem hne)
    simp only [nameBreaks,List.mem_cons,not_or] at hc
    simp [isDotOrSpace,hc.1,hc.2.1]
  have hsplit : stem ++ '.' :: ext.toList =
      (stem ++ '.' :: ext.toList.dropLast) ++ [ext.toList.getLast hne] := by
    simp [List.dropLast_append_getLast hne]
  rw [hsplit,Text.trimEnd_eq_self hlast]

theorem executableName_iff {name : List Char} : executableName name = true ↔ Spells name := by
  constructor
  · intro h
    unfold executableName executableLowered at h
    cases hr : Text.rsplitOnce '.' (Text.trimEnd isDotOrSpace (Text.lowercase name)) with
    | none => simp [hr] at h
    | some q =>
      obtain ⟨stem,ext⟩ := q
      rw [hr] at h
      obtain ⟨hs,-⟩ := Text.rsplitOnce_some hr
      obtain ⟨tail,ht,hall⟩ := Text.trimEnd_spec isDotOrSpace (Text.lowercase name)
      refine ⟨stem,String.ofList ext,tail,?_,by simpa using h,hall⟩
      rw [ht,hs]
      simp
  · rintro ⟨stem,ext,tail,hname,hext,hall⟩
    have hdot : '.' ∉ ext.toList := by
      intro hc
      exact (extension_chars ext hext).2 _ hc (by simp [nameBreaks])
    have htrim : Text.trimEnd isDotOrSpace (Text.lowercase name) = stem ++ '.' :: ext.toList := by
      rw [hname,← List.cons_append,← List.append_assoc,Text.trimEnd_append_all _ hall,
        extension_trimmed hext]
    unfold executableName executableLowered
    rw [htrim,Text.rsplitOnce_append stem hdot]
    simpa using hext

theorem executableName_append (x : List Char) {y : List Char} (h : executableName y = true) :
    executableName (x ++ y) = true := by
  obtain ⟨stem,ext,tail,hname,hext⟩ := executableName_iff.mp h
  refine executableName_iff.mpr ⟨Text.lowercase x ++ stem,ext,tail,?_,hext⟩
  rw [Text.lowercase_append,hname,List.append_assoc]

theorem cut_chars : ∀ c ∈ ['/','\\',':'], c.toLower = c ∧ isDotOrSpace c = false := by
  intro c hc
  have hcase : c = '/' ∨ c = '\\' ∨ c = ':' := by simpa using hc
  rcases hcase with rfl | rfl | rfl <;> decide

theorem lowercase_cut {c : Char} (hc : c ∈ ['/','\\',':']) (x y : List Char) :
    Text.lowercase (x ++ c :: y) = Text.lowercase x ++ c :: Text.lowercase y := by
  simp [Text.lowercase,(cut_chars c hc).1]

theorem executableName_cut {c : Char} (hc : c ∈ ['/','\\',':']) (x y : List Char) :
    executableName (x ++ c :: y) = executableName y := by
  rw [Bool.eq_iff_iff]
  constructor
  · intro h
    obtain ⟨stem,ext,tail,hname,hext,hall⟩ := executableName_iff.mp h
    rw [lowercase_cut hc] at hname
    have hsuffix : c ∉ '.' :: (ext.toList ++ tail) := by
      intro hm
      rcases List.mem_cons.mp hm with rfl | hm
      · revert hc
        decide
      · rcases List.mem_append.mp hm with hm | hm
        · refine (extension_chars ext hext).2 c hm ?_
          simp only [nameBreaks,List.mem_cons] at hc ⊢
          tauto
        · exact absurd (hall c hm) (by simp [(cut_chars c hc).2])
    rcases List.append_eq_append_iff.mp hname with ⟨z,hz,hy⟩ | ⟨z,hz,hy⟩
    · cases z with
      | nil =>
        simp only [List.nil_append] at hy
        exact absurd (hy ▸ List.mem_cons_self) hsuffix
      | cons d z =>
        obtain ⟨-,hrest⟩ : c = d ∧ Text.lowercase y = z ++ '.' :: (ext.toList ++ tail) := by
          simpa using hy
        exact executableName_iff.mpr ⟨z,ext,tail,hrest,hext,hall⟩
    · have hm : c ∈ '.' :: (ext.toList ++ tail) := by
        rw [hy]
        simp
      exact absurd hm hsuffix
  · intro h
    have hcons : executableName ([c] ++ y) = true := executableName_append [c] h
    exact executableName_append x hcons

theorem isSeparator_toLower (c : Char) : isSeparator c.toLower = isSeparator c := by
  delta Char.toLower
  split
  · rename_i h
    have hlo : 65 ≤ c.val.toNat := UInt32.le_iff_toNat_le.mp h.1
    have hhi : c.val.toNat ≤ 90 := UInt32.le_iff_toNat_le.mp h.2
    have hval : (c.val + ('a'.val - 'A'.val)).toNat = c.val.toNat + 32 := by
      rw [UInt32.toNat_add]
      have hgap : ('a'.val - 'A'.val).toNat = 32 := by decide
      omega
    have hsep : ∀ d : Char, isSeparator d = true → d.val.toNat = 47 ∨ d.val.toNat = 92 := by
      intro d hd
      have hcase : d = '/' ∨ d = '\\' := by simpa [isSeparator] using hd
      rcases hcase with rfl | rfl <;> decide
    rw [Bool.eq_iff_iff]
    constructor
    · intro hd
      have hn := hsep _ hd
      simp only [hval] at hn
      omega
    · intro hd
      have hn := hsep _ hd
      omega
  · rfl

theorem getLastD_append {α : Type} (x : List α) (y d : α) : (x ++ [y]).getLastD d = y := by
  simp

theorem hasExecutableExtension_last (target : String) :
    hasExecutableExtension target = executableLowered
      (((Text.lowercase target.toList).splitOnP isSeparator).getLastD
        (Text.lowercase target.toList)) := rfl

theorem hasExecutableExtension_eq (target : String) :
    hasExecutableExtension target = executableName target.toList := by
  rw [hasExecutableExtension_last]
  rcases Text.cut_last isSeparator target.toList with hno | ⟨x,c,y,hs,hc,hy⟩
  · have hlow : ∀ d ∈ Text.lowercase target.toList, isSeparator d = false := by
      simpa [Text.lowercase,isSeparator_toLower] using hno
    rw [List.splitOnP_eq_singleton hlow]
    rfl
  · have hcut : c ∈ ['/','\\',':'] := by
      have hcase : c = '/' ∨ c = '\\' := by simpa [isSeparator] using hc
      rcases hcase with rfl | rfl <;> decide
    have hlow : ∀ d ∈ Text.lowercase y, isSeparator d = false := by
      simpa [Text.lowercase,isSeparator_toLower] using hy
    rw [hs,executableName_cut hcut,lowercase_cut hcut,List.splitOnP_append_cons _ _ hc,
      List.splitOnP_eq_singleton hlow,getLastD_append]
    rfl

end Names

section Validated

theorem isSeparator_of_isSep {os : Path.Platform} {c : Char} (h : Path.isSep os c = true) :
    isSeparator c = true := by
  cases os with
  | posix =>
    have hc : c = '/' := by simpa [Path.isSep] using h
    simp [isSeparator,hc]
  | windows => simpa [Path.isSep,isSeparator] using h

theorem pathBody_split {target body : List Char} (h : pathBody target = .ok body) :
    ∃ head c, isSeparator c = true ∧ target = head ++ c :: body := by
  unfold pathBody at h
  split at h
  · cases h
    exact ⟨['~'],'/',rfl,rfl⟩
  · cases h
    exact ⟨[],'/',rfl,rfl⟩
  · rename_i d c rest _
    split at h
    · rename_i hc
      cases h
      rw [Bool.and_eq_true] at hc
      exact ⟨[d,':'],c,hc.2,rfl⟩
    · cases h
  · cases h

theorem validatePathTarget_body {target : List Char} (h : validatePathTarget target = .ok ()) :
    target = ['~'] ∨ ∃ head c body, isSeparator c = true ∧ target = head ++ c :: body ∧
      (body.splitOnP isSeparator).any isDotSegment = false := by
  by_cases hhome : target = ['~']
  · exact .inl hhome
  · right
    simp only [validatePathTarget,hhome,if_false] at h
    cases hnet : isNetworkPath target with
    | true => simp [hnet,throw,throwThe,MonadExceptOf.throw,bind,Except.bind] at h
    | false =>
      cases hseg : checkHomeSegments target with
      | error e => simp [hnet,hseg,bind,Except.bind] at h
      | ok u =>
        cases hb : pathBody target with
        | error e => simp [hnet,hseg,hb,bind,Except.bind] at h
        | ok body =>
          obtain ⟨head,c,hc,ht⟩ := pathBody_split hb
          refine ⟨head,c,body,hc,ht,?_⟩
          cases hdot : (body.splitOnP isSeparator).any isDotSegment with
          | false => rfl
          | true => simp only [hnet,hseg,hb,hdot,bind,Except.bind] at h; cases h

theorem validatePathTarget_noDot {target x : List Char} {c : Char} (hc : isSeparator c = true)
    (h : validatePathTarget target = .ok ()) : target ≠ x ++ [c,'.'] := by
  intro ht
  rcases validatePathTarget_body h with hhome | ⟨head,d,body,hd,hbody,hdots⟩
  · rw [hhome] at ht
    have hlen := congrArg List.length ht
    simp at hlen
  · have hsplit : ((head ++ d :: body).splitOnP isSeparator).getLast? =
        ((x ++ c :: ['.']).splitOnP isSeparator).getLast? := by
      rw [← hbody,ht]
    rw [List.splitOnP_append_cons _ _ hd,List.splitOnP_append_cons _ _ hc] at hsplit
    have hlast : (body.splitOnP isSeparator).getLast? = some ['.'] := by
      obtain ⟨l,s,hl⟩ := List.eq_nil_or_concat (body.splitOnP isSeparator) |>.resolve_left
        (List.splitOnP_ne_nil isSeparator body)
      have hone : ['.'].splitOnP isSeparator = [['.']] :=
        List.splitOnP_eq_singleton (by simp [isSeparator])
      rw [hl,hone] at hsplit
      rw [hl]
      simpa using hsplit
    have hmem : ['.'] ∈ body.splitOnP isSeparator := List.mem_of_getLast? hlast
    have hdot : (body.splitOnP isSeparator).any isDotSegment = true :=
      List.any_eq_true.mpr ⟨['.'],hmem,rfl⟩
    rw [hdots] at hdot
    cases hdot

end Validated

section Opened

variable {os : Path.Platform}

theorem opensExecutable_under (x : List Char) {b : List Char} {c : Char}
    (hc : Path.isSep os c = true) (hb : (Path.finalPiece os b).isSome = true) :
    opensExecutable os (x ++ c :: b) = opensExecutable os b := by
  rw [opensExecutable,Path.finalPiece_under x hc hb,opensExecutable]

theorem opensExecutable_push {base b : List Char} (hb : b ≠ [])
    (h : Path.plainName os b = true) :
    opensExecutable os (Path.push os base b) = opensExecutable os b := by
  obtain ⟨f,hf,hpush | ⟨d,hpush⟩⟩ := Path.finalPiece_push base hb h
  · rw [opensExecutable,hpush,opensExecutable,hf]
  · have hcut : executableName (d :: ':' :: f) = executableName f :=
      executableName_cut (by decide) [d] f
    simp [opensExecutable,hpush,hf,hcut]

theorem pushSegment_ok {target : String} {base segment path : List Char}
    (h : pushSegment os target base segment = .ok path) :
    segment ≠ [] ∧ Path.plainName os segment = true ∧ path = Path.push os base segment := by
  unfold pushSegment at h
  split at h
  · cases h
  · rename_i hne
    split at h
    · cases h
    · split at h
      · cases h
      · rename_i hplain
        cases h
        exact ⟨by simpa using hne,by simpa using hplain,rfl⟩

theorem pushSegments_last {target : String} {segments : List (List Char)} {home path : List Char}
    (hne : segments ≠ []) (h : segments.foldlM (pushSegment os target) home = .ok path) :
    ∃ base segment, segments.getLast? = some segment ∧ segment ≠ [] ∧
      Path.plainName os segment = true ∧ path = Path.push os base segment := by
  induction segments generalizing home with
  | nil => exact absurd rfl hne
  | cons segment rest ih =>
    rw [List.foldlM_cons] at h
    cases hp : pushSegment os target home segment with
    | error e => simp [hp,bind,Except.bind] at h
    | ok next =>
      rw [hp] at h
      change rest.foldlM (pushSegment os target) next = .ok path at h
      cases rest with
      | nil =>
        obtain ⟨hs,hplain,hnext⟩ := pushSegment_ok hp
        cases h
        exact ⟨home,segment,rfl,hs,hplain,hnext⟩
      | cons segment' rest' =>
        obtain ⟨base,last,hlast,hrest⟩ := ih (by simp) h
        exact ⟨base,last,by rw [List.getLast?_cons_cons,hlast],hrest⟩

theorem splitOn_last {c : Char} {s last : List Char} (h : (s.splitOn c).getLast? = some last) :
    s = last ∨ ∃ x, s = x ++ c :: last := by
  rw [List.splitOn_eq_splitOnP] at h
  rcases Text.cut_last (· == c) s with hno | ⟨x,d,y,hs,hd,hy⟩
  · rw [List.splitOnP_eq_singleton hno] at h
    exact .inl (by simpa using h)
  · right
    have hjoin : (x ++ d :: y).splitOnP (· == c) = x.splitOnP (· == c) ++ y.splitOnP (· == c) :=
      List.splitOnP_append_cons x y hd
    rw [hs,hjoin,List.splitOnP_eq_singleton hy] at h
    obtain rfl : y = last := by simpa using h
    exact ⟨x,by rw [hs,beq_iff_eq.mp hd]⟩

theorem stripSlash_cases (rest : List Char) :
    rest = stripSlash rest ∨ rest = stripSlash rest ++ ['/'] := by
  unfold stripSlash
  cases h : rest.dropSuffix? ['/'] with
  | none => exact .inl rfl
  | some stem =>
    right
    obtain ⟨slash,hs,hslash⟩ := List.dropSuffix?_eq_some_iff.mp h
    rw [Option.getD_some,hs,beq_iff_eq.mp hslash]

def namedPath (home : Option (List Char)) (target : String) : List Char :=
  if target = "~" ∨ target = "~/" then home.getD [] else target.toList

theorem validated_home {target : String} (h : validatePathTarget target.toList = .ok ()) :
    target ≠ "~//" := by
  rintro rfl
  revert h
  decide +kernel

theorem finalPiece_slash (rest : List Char) :
    Path.finalPiece os (stripSlash rest) = Path.finalPiece os rest := by
  rcases stripSlash_cases rest with h | h
  · rw [← h]
  · conv_rhs => rw [h]
    rw [Path.finalPiece_trailing _ Path.isSep_slash]

theorem finalPiece_lastSegment {rest segment : List Char}
    (hlast : ((stripSlash rest).splitOn '/').getLast? = some segment)
    (hsome : (Path.finalPiece os segment).isSome = true) :
    Path.finalPiece os rest = Path.finalPiece os segment := by
  rw [← finalPiece_slash]
  rcases splitOn_last hlast with hs | ⟨x,hs⟩
  · rw [hs]
  · rw [hs,Path.finalPiece_under x Path.isSep_slash hsome]

inductive Expands (os : Path.Platform) (home : Option (List Char)) (target path : List Char) :
    Prop where
  | home (hhome : home = some path)
      (ht : target = ['~'] ∨ target = ['~','/'] ∨ target = ['~','/','/'])
  | under (rest base segment : List Char) (ht : target = '~' :: '/' :: rest) (hne : rest ≠ [])
      (hlast : ((stripSlash rest).splitOn '/').getLast? = some segment) (hsegment : segment ≠ [])
      (hplain : Path.plainName os segment = true) (hpath : path = Path.push os base segment)
  | plain (ht : target = path) (hno : ∀ rest, target ≠ '~' :: rest)

theorem expandPath_expands {opener : OpenerConfig} {target : String} {path : List Char}
    (h : opener.expandPath os target = .ok path) :
    Expands os opener.homeDir target.toList path := by
  unfold OpenerConfig.expandPath at h
  split at h
  · rename_i rest ht
    split at h
    · cases h
    · rename_i home hhome
      split at h
      · cases h
        exact .home hhome (.inl ht)
      · rename_i rest
        split at h
        · rename_i hempty
          cases h
          refine .home hhome (.inr ?_)
          rcases stripSlash_cases rest with hr | hr
          · rw [List.isEmpty_iff.mp hempty] at hr
            exact .inl (by rw [ht,hr])
          · rw [List.isEmpty_iff.mp hempty] at hr
            exact .inr (by rw [ht,hr]; rfl)
        · rename_i hne
          have hpieces : (stripSlash rest).splitOn '/' ≠ [] := List.splitOn_ne_nil '/' _
          obtain ⟨base,segment,hlast,hsegment,hplain,hpath⟩ := pushSegments_last hpieces h
          have hrest : rest ≠ [] := by
            rintro rfl
            exact hne rfl
          exact .under rest base segment ht hrest hlast hsegment hplain hpath
      · cases h
  · rename_i hno
    cases h
    exact .plain rfl hno

theorem namedPath_home {home : Option (List Char)} {target : String} {path : List Char}
    (hhome : home = some path) (ht : target.toList = ['~'] ∨ target.toList = ['~','/']) :
    namedPath home target = path := by
  have htext : target = "~" ∨ target = "~/" := by
    rcases ht with ht | ht
    · exact .inl (String.toList_inj.mp ht)
    · exact .inr (String.toList_inj.mp ht)
  simp [namedPath,htext,hhome]

theorem namedPath_self {home : Option (List Char)} {target : String}
    (ht : target.toList ≠ ['~'] ∧ target.toList ≠ ['~','/']) :
    namedPath home target = target.toList := by
  have htext : ¬(target = "~" ∨ target = "~/") := by
    rintro (rfl | rfl)
    · exact ht.1 rfl
    · exact ht.2 rfl
  simp [namedPath,htext]

theorem expandPath_executable {opener : OpenerConfig} {target : String} {path : List Char}
    (hvalid : validatePathTarget target.toList = .ok ())
    (h : opener.expandPath os target = .ok path) :
    opensExecutable os path = opensExecutable os (namedPath opener.homeDir target) := by
  cases expandPath_expands h with
  | home hhome ht =>
    rcases ht with ht | ht | ht
    · rw [namedPath_home hhome (.inl ht)]
    · rw [namedPath_home hhome (.inr ht)]
    · exact absurd (String.toList_inj.mp ht) (validated_home hvalid)
  | under rest base segment ht hne hlast hsegment hplain hpath =>
    obtain ⟨f,hf,-⟩ := Path.finalPiece_push base hsegment hplain
    have hsome : (Path.finalPiece os segment).isSome = true := by simp [hf]
    have hrest := finalPiece_lastSegment hlast hsome
    have hname : namedPath opener.homeDir target = ['~'] ++ '/' :: rest := by
      rw [namedPath_self (by simp [ht,hne]),ht]
      rfl
    rw [hname,hpath,opensExecutable_push hsegment hplain,
      opensExecutable_under _ Path.isSep_slash (by rw [hrest,hsome])]
    rw [opensExecutable,opensExecutable,hrest]
  | plain ht hno =>
    rw [namedPath_self ⟨hno [],hno ['/']⟩,ht]

theorem executableName_endsInSep {s : List Char} (h : endsInSep os s = true) :
    executableName s = false := by
  rcases List.eq_nil_or_concat s with rfl | ⟨x,c,rfl⟩
  · rfl
  · have hc : Path.isSep os c = true := by simpa [endsInSep] using h
    have hcut : c ∈ ['/','\\',':'] := by
      have hcase : c = '/' ∨ c = '\\' := by
        simpa [isSeparator] using isSeparator_of_isSep hc
      rcases hcase with rfl | rfl <;> decide
    rw [List.concat_eq_append,executableName_cut hcut]
    rfl

theorem finalPiece_whole {s f : List Char} (h : Path.finalPiece os s = some f)
    (hend : endsInSep os s = false) (hdot : ∀ x c, Path.isSep os c = true → s ≠ x ++ [c,'.']) :
    ∃ x, s = x ++ f := by
  obtain ⟨x,t,rfl,-,ht,-⟩ := Path.finalPiece_elim h
  rcases ht with rfl | ⟨c,t',rfl,hc,hnone⟩
  · exact ⟨x,by simp⟩
  · exfalso
    rcases Text.cut_last (Path.isSep os) (c :: t') with hno | ⟨a,d,b,hs,hd,hb⟩
    · rw [hno c List.mem_cons_self] at hc
      cases hc
    · have hb' : Path.finalPiece os b = none := by
        have hall : Path.finalPiece os ([] ++ c :: t') = none := by
          rw [Path.finalPiece_append [] t' hc,hnone,Path.finalPiece_nil,Option.or_none]
        rw [List.nil_append,hs,Path.finalPiece_append a b hd] at hall
        exact (Option.or_eq_none_iff.mp hall).1
      rcases Path.finalPiece_plain_none hb hb' with rfl | rfl
      · rw [hs] at hend
        simp [endsInSep,hd] at hend
      · exact hdot (x ++ f ++ a) d hd (by simp [hs])

theorem classify_dangerous {kind : Kind} {target : String} (hkind : kind = .file ∨ kind = .dir) :
    classify kind target = .dangerous ↔ kind = .file ∧ executableName target.toList = true := by
  rcases hkind with rfl | rfl
  · simp [classify,hasExecutableExtension_eq]
  · simp [classify]

theorem validateTarget_path {crates : Crates} {kind : Kind} {target : String}
    (hkind : kind = .file ∨ kind = .dir) :
    validateTarget crates kind target = validatePathTarget target.toList := by
  rcases hkind with rfl | rfl <;> rfl

def CoversOpened (os : Path.Platform) (home : Option (List Char)) (kind : Kind)
    (target : String) : Prop :=
  opensExecutable os (namedPath home target) = true →
    kind = .file ∧ target ≠ "~" ∧ endsInSep os target.toList = false

theorem opened_path_classified (crates : Crates) (os : Path.Platform) (opener : OpenerConfig)
    (kind : Kind) (target : String) (path : List Char) (hkind : kind = .file ∨ kind = .dir)
    (hvalid : validateTarget crates kind target = .ok ())
    (hopen : opener.expandPath os target = .ok path) :
    (opensExecutable os path = true → classify kind target = .dangerous) ↔
      CoversOpened os opener.homeDir kind target := by
  rw [validateTarget_path hkind] at hvalid
  rw [expandPath_executable hvalid hopen,classify_dangerous hkind]
  refine imp_congr_right fun hexec => ?_
  refine and_congr_right fun _ => ?_
  constructor
  · intro hname
    constructor
    · rintro rfl
      revert hname
      decide
    · cases hend : endsInSep os target.toList with
      | false => rfl
      | true =>
        rw [executableName_endsInSep hend] at hname
        cases hname
  · rintro ⟨hhome,hend⟩
    have hslash : target ≠ "~/" := by
      rintro rfl
      cases os <;> revert hend <;> decide
    have hname : namedPath opener.homeDir target = target.toList := by
      simp [namedPath,hhome,hslash]
    rw [hname,opensExecutable] at hexec
    obtain ⟨f,hf,hfexec⟩ := (Option.any_eq_true _ _).mp hexec
    obtain ⟨x,hx⟩ := finalPiece_whole hf hend
      (fun x c hc => validatePathTarget_noDot (isSeparator_of_isSep hc) hvalid)
    rw [hx]
    exact executableName_append x hfexec

theorem trailing_slash_hides_executable :
    ¬∀ (crates : Crates) (os : Path.Platform) (opener : OpenerConfig) (kind : Kind)
      (target : String) (path : List Char), kind = .file ∨ kind = .dir →
      validateTarget crates kind target = .ok () → opener.expandPath os target = .ok path →
      opensExecutable os path = true → classify kind target = .dangerous := by
  intro h
  have hrun := h (siteCrates [] [] []) .posix { openArgv := ["open"], homeDir := some "/home/u".toList }
    .file "~/setup.exe/" "/home/u/setup.exe".toList (.inl rfl) (by decide +kernel)
    (by decide +kernel) (by decide +kernel)
  revert hrun
  decide +kernel

theorem setup_covered :
    (opensExecutable .windows "C:\\Users\\u\\setup.exe".toList = true →
      classify .file "~/setup.exe" = .dangerous) ↔
      CoversOpened .windows (some "C:\\Users\\u".toList) .file "~/setup.exe" :=
  opened_path_classified (siteCrates [] [] []) .windows
    { openArgv := ["explorer.exe"], homeDir := some "C:\\Users\\u".toList } .file "~/setup.exe" _
    (.inl rfl) (by decide +kernel) (by decide +kernel)

end Opened

end MurlSystem
