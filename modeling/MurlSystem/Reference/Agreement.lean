import MurlSystem.Reference.Reading

namespace MurlSystem.Reference

open Abnf MurlSystem.Syntax

section Rest

structure PathReads (path : List Char) (segs : List (List Char)) (ver : Option (List Char))
    (name : List String) (version : VersionTag) : Prop where
  text : path = ['/'].intercalate segs ++ marked '@' ver
  nonempty : segs ≠ []
  free : ∀ s ∈ segs, '/' ∉ s ∧ '@' ∉ s
  few : segs.length ≤ maxNameSegments
  marker : ∀ v ∈ ver, '/' ∉ v
  name : List.Forall₂ (fun raw seg => parseSegment raw = .ok seg) segs name
  version : VersionReads .exact ver version

theorem parsePath_ok {path : List Char} {name : List String} {o : Option String} :
    parsePath path = .ok (name,o) ↔
      ∃ segs ver t, PathReads path segs ver name t ∧ o = versionText t := by
  rw [parsePath]
  simp only [Fallible.bind_ok,Prod.exists,parseMark_ok,Fallible.ite_ok,Fallible.throw_ok,false_and,
    exists_false,and_false,false_or,Fallible.pure_ok,Fallible.mapM_ok,Prod.mk.injEq]
  constructor
  · rintro ⟨namePart,_,⟨ver,rfl,hat,hmarker,t,hread,rfl⟩,hlen,names,hnames,rfl,rfl⟩
    have hjoin : ['/'].intercalate (namePart.splitOn '/') = namePart := List.intercalate_splitOn '/'
    refine ⟨namePart.splitOn '/',ver,t,?_,rfl⟩
    exact {
      text := by rw [hjoin]
      nonempty := List.splitOn_ne_nil '/' namePart
      free := fun s hs => ⟨Text.sep_not_mem_splitOn hs,fun hc => hat (Text.mem_of_mem_splitOn hs hc)⟩
      few := by
        simp only [Bool.not_eq_true',Bool.and_eq_false_iff,decide_eq_false_iff_not,not_or,
          not_not] at hlen
        exact hlen.2
      marker := hmarker
      name := hnames
      version := hread }
  · rintro ⟨segs,ver,t,h,rfl⟩
    have hsplit : (['/'].intercalate segs).splitOn '/' = segs :=
      List.splitOn_intercalate '/' (fun s hs => (h.free s hs).1) h.nonempty
    have hat : '@' ∉ ['/'].intercalate segs := by
      intro hc
      rcases Text.mem_intercalate hc with hc | ⟨s,hs,hc⟩
      · exact absurd hc (by decide)
      · exact (h.free s hs).2 hc
    refine ⟨_,_,⟨ver,h.text,hat,h.marker,t,h.version,rfl⟩,?_,name,by rw [hsplit]; exact h.name,rfl,rfl⟩
    have hpos := List.length_pos_of_ne_nil h.nonempty
    have hfew := h.few
    rw [hsplit]
    simp only [Bool.not_eq_true',Bool.and_eq_false_iff,decide_eq_false_iff_not,not_or,not_not]
    omega

def parseRest (rest : List Char) (query selectorRaw : Option (List Char)) :
    Except MurlSyntaxError Murl := do
  let some (authorityRaw,path) := Text.splitOnce '/' rest | throw .slash
  let (authority,port) ← parseAuthority authorityRaw
  let (segments,version) ← parsePath path
  let selector ← selectorRaw.mapM parseSelector
  query.forM checkQuery
  return ⟨authority,port,segments,version,query.map String.ofList,selector⟩

theorem parseMurl_eq (s : String) :
    parseMurl s =
      if maxMurlBytes < s.utf8ByteSize then .error .tooLong
      else if s.toList.any fun c => !(0x21 ≤ c.toNat && c.toNat ≤ 0x7e) then .error .character
      else if Text.lowercase (s.toList.take 7) ≠ scheme then .error .scheme
      else
        let (a,selectorRaw) := cutMark '#' (s.toList.drop 7)
        let (b,query) := cutMark '?' a
        parseRest b query selectorRaw := by
  rw [parseMurl]
  by_cases hlen : maxMurlBytes < s.utf8ByteSize
  · simp only [if_pos hlen]
    rfl
  · by_cases hany : (s.toList.any fun c => !(0x21 ≤ c.toNat && c.toNat ≤ 0x7e)) = true
    · simp only [if_neg hlen,if_pos hany]
      rfl
    · by_cases hscheme : Text.lowercase (s.toList.take 7) ≠ scheme
      · simp only [if_neg hlen,if_neg hany,if_pos hscheme]
        rfl
      · simp only [if_neg hlen,if_neg hany,if_neg hscheme]
        rfl

def rendered (m : MurlSystem.Murl) : Murl :=
  ⟨(place m.authority).1,(place m.authority).2,m.name,versionText m.version,m.query,
    m.selector.map fun items => items.map SelectorItem.toString⟩

structure Derived (s : String) (p : Parts) (m : MurlSystem.Murl) : Prop where
  text : p.text = s.toList
  rule : p.WellFormed .exact
  reads : p.Reads .exact refControl m
  size : s.utf8ByteSize ≤ maxMurlBytes

theorem checkQuery_ok {q : List Char} {u : Unit} : checkQuery q = .ok u ↔ q.length ≤ 512 := by
  rw [checkQuery,Fallible.guard_ok]
  simp [maxQueryChars]

theorem queryForM_ok {o : Option (List Char)} {u : Unit} :
    (o.forM checkQuery : Except MurlSyntaxError Unit) = .ok u ↔ ∀ q ∈ o, q.length ≤ 512 := by
  cases o with
  | none => simp [Option.forM]
  | some q => simp [Option.forM,checkQuery_ok]

theorem selectorMapM_ok {o : Option (List Char)} {l : Option (List String)} :
    (o.mapM parseSelector : Except MurlSyntaxError _) = .ok l ↔ ∃ items,
      SelectorReads .exact o items ∧ l = items.map fun items => items.map SelectorItem.toString := by
  cases o with
  | none =>
    rw [Option.mapM_none,Fallible.pure_ok]
    constructor
    · rintro rfl
      exact ⟨none,.absent,rfl⟩
    · rintro ⟨_,⟨⟩,rfl⟩
      rfl
  | some f =>
    rw [Option.mapM_some,Fallible.fmap_ok]
    constructor
    · rintro ⟨l,h,rfl⟩
      obtain ⟨items,hread,rfl⟩ := parseSelector_ok.mp h
      exact ⟨some items,hread,rfl⟩
    · rintro ⟨o,hread,rfl⟩
      cases hread with
      | items ps items nonempty few each =>
        exact ⟨_,parseSelector_ok.mpr ⟨items,.items ps items nonempty few each,rfl⟩,rfl⟩

end Rest

section Derivation

variable {s : String} {p : Parts} {m : MurlSystem.Murl} {r : Murl}

theorem printable_any : (s.toList.any fun c => !(0x21 ≤ c.toNat && c.toNat ≤ 0x7e)) = false ↔
    ∀ c ∈ s.toList, isPrintable c = true := by
  rw [List.any_eq_false]
  simp only [Bool.not_eq_true',Bool.not_eq_false]
  exact .rfl

theorem derived_of_parse (h : parseMurl s = .ok r) : ∃ p m, Derived s p m ∧ r = rendered m := by
  rw [parseMurl_eq,Fallible.guard_ok,Fallible.guard_ok,Fallible.guard_ok] at h
  obtain ⟨hsize,hany,hscheme,h⟩ := h
  have hprint := printable_any.mp (by simpa using hany)
  have hscheme : Text.lowercase (s.toList.take 7) = "murl://".toList := not_not.mp hscheme
  rcases hf : cutMark '#' (s.toList.drop 7) with ⟨a,fragment⟩
  rcases hq : cutMark '?' a with ⟨b,query⟩
  obtain ⟨hdrop,hnof⟩ := cutMark_eq.mp hf
  obtain ⟨rfl,hnoq⟩ := cutMark_eq.mp hq
  simp only [hf,hq,parseRest] at h
  cases hs : Text.splitOnce '/' b with
  | none => simp [hs] at h
  | some q =>
    obtain ⟨auth,path⟩ := q
    obtain ⟨rfl,hslash⟩ := Text.splitOnce_eq_some.mp hs
    simp only [hs,Fallible.bind_ok,Prod.exists,Fallible.pure_ok,parseAuthority_ok,parsePath_ok,
      selectorMapM_ok,queryForM_ok] at h
    obtain ⟨_,_,⟨auth',hauth,hplace⟩,name,_,⟨segs,ver,t,hpath,rfl⟩,_,⟨items,hsel,rfl⟩,u,hquery,rfl⟩ := h
    let p : Parts := ⟨s.toList.take 7,auth,segs,ver,query,fragment⟩
    let m : MurlSystem.Murl := ⟨auth',name,t,items,query.map String.ofList⟩
    have htext : p.text = s.toList := by
      rw [← List.take_append_drop 7 s.toList,hdrop,hpath.text]
      rfl
    have hmem : ∀ {c}, c ∈ auth ++ '/' :: path ++ marked '?' query → isPrintable c = true := by
      intro c hc
      apply hprint
      rw [← List.take_append_drop 7 s.toList,hdrop]
      exact List.mem_append_right _ (List.mem_append_left _ hc)
    have hraw : ∀ raw ∈ segs, ∀ c ∈ raw, isRawChar c = true := by
      intro raw hraw c hc
      have hpathc : c ∈ path := by
        rw [hpath.text]
        exact List.mem_append_left _ (Text.mem_intercalate_of_mem hraw hc)
      refine segChar_raw (hmem (by simp [hpathc])) ?_ ?_ ?_ ?_
      · rintro rfl
        exact (hpath.free raw hraw).1 hc
      · rintro rfl
        exact hnoq (by simp [hpathc])
      · rintro rfl
        exact hnof (by simp [hpathc])
      · rintro rfl
        exact (hpath.free raw hraw).2 hc
    have hreads : p.Reads .exact refControl m := {
      authority := hauth
      few := hpath.few
      name := forall₂_weaken hpath.name fun raw hr _ hseg => (parseSegment_ok (hraw raw hr)).mp hseg
      version := hpath.version
      query := rfl
      selector := hsel }
    have hq : ∀ q ∈ query, Syntax.query.Derives q := by
      intro q hq
      refine query_derives.mpr ⟨fun c hc => ?_,hquery q hq⟩
      have hc' : c ∈ marked '?' query := mem_marked.mpr ⟨q,hq,.inr hc⟩
      rw [isQueryChar,hmem (by simp [hc'])]
      simp only [Bool.true_and,bne_iff_ne,ne_eq]
      rintro rfl
      exact hnof (by simp [hc'])
    refine ⟨p,m,⟨htext,reads_wellFormed hscheme hpath.nonempty hq hreads,hreads,Nat.not_lt.mp hsize⟩,?_⟩
    rw [rendered,← hplace]

theorem parse_of_derived (h : Derived s p m) : parseMurl s = .ok (rendered m) := by
  have htext : s.toList = p.scheme ++ (p.authority ++ '/' :: p.path ++ marked '?' p.query ++
      marked '#' p.selector) := h.text.symm
  have hlen := scheme_length h.rule
  have hprint := wellFormed_printable h.rule
  rw [h.text] at hprint
  have hauth := parseAuthority_ok.mpr ⟨m.authority,h.reads.authority,rfl⟩
  have hpath : parsePath p.path = .ok (m.name,versionText m.version) := by
    refine parsePath_ok.mpr ⟨p.segments,p.version,m.version,?_,rfl⟩
    exact {
      text := rfl
      nonempty := h.rule.nonempty
      free := fun raw hraw =>
        ⟨free_of_class (segment_chars (h.rule.segments raw hraw)) (by decide),
          free_of_class (segment_chars (h.rule.segments raw hraw)) (by decide)⟩
      few := h.reads.few
      marker := fun v hv => free_of_class (version_chars (h.rule.version v hv)) (by decide)
      name := forall₂_weaken h.reads.name fun raw hraw _ hseg =>
        (parseSegment_ok (segment_chars (h.rule.segments raw hraw))).mpr hseg
      version := h.reads.version }
  have hsel := selectorMapM_ok.mpr ⟨m.selector,h.reads.selector,rfl⟩
  have hquery : (p.query.forM checkQuery : Except MurlSyntaxError Unit) = .ok () :=
    queryForM_ok.mpr fun q hq => (query_derives.mp (h.rule.query q hq)).2
  rw [parseMurl_eq,if_neg (Nat.not_lt.mpr h.size),if_neg (by rw [printable_any.mpr hprint]; decide)]
  have hslash : '/' ∉ p.authority := authority_no h.rule (by decide) (by decide)
  have hscheme : ¬Text.lowercase p.scheme ≠ scheme := not_not.mpr h.rule.scheme
  rw [htext,List.take_left' hlen,List.drop_left' hlen,if_neg hscheme]
  simp only [cutMark_eq.mpr ⟨rfl,wellFormed_fragment h.rule⟩,cutMark_eq.mpr ⟨rfl,wellFormed_mark h.rule⟩,
    parseRest,Text.splitOnce_append p.path hslash]
  simp only [Fallible.bind_ok,Fallible.pure_ok,hauth,hpath,hsel,hquery]
  refine ⟨_,rfl,_,rfl,_,rfl,(),trivial,?_⟩
  rw [rendered,h.reads.query]

theorem parseMurl_ok : parseMurl s = .ok r ↔ ∃ p m, Derived s p m ∧ r = rendered m := by
  constructor
  · exact derived_of_parse
  · rintro ⟨p,m,h,rfl⟩
    exact parse_of_derived h

theorem host_rendered (m : MurlSystem.Murl) : (rendered m).host = m.authority.toString := by
  rw [Murl.host,rendered]
  cases m.authority with
  | «local» => rfl
  | remote h o => cases o <;> rfl

theorem path_rendered (m : MurlSystem.Murl) :
    ("/".intercalate (m.name.map pctEncode)).toList ++ marked '@' (printedVersion m.version) =
      (printedParts m).path := by
  rw [String.toList_intercalate,List.map_map]
  rfl

theorem identity_rendered (hne : m.name ≠ []) : (rendered m).identity = m.identity := by
  apply String.toList_inj.mp
  rw [identity_toList hne,← path_rendered,Murl.identity,host_rendered]
  have hv : (rendered m).version = versionText m.version := rfl
  have hsegs : (rendered m).segments = m.name := rfl
  rw [hv,hsegs,versionText]
  cases printedVersion m.version with
  | none => simp [marked]
  | some v => simp [marked]

theorem canonical_rendered (hne : m.name ≠ []) : (rendered m).canonical = m.toString := by
  have hselector : (rendered m).selector.map (",".intercalate ·) = m.selectorDisplay := by
    rw [Murl.selectorDisplay,rendered]
    cases m.selector <;> rfl
  rw [Murl.canonical,MurlSystem.Murl.toString,identity_rendered hne,← hselector]
  cases (rendered m).selector <;> rfl

end Derivation

section Agreement

structure Agree (s : String) : Prop where
  accept : (∃ m, MurlSystem.Murl.parse s = .ok m) ↔ ∃ r, parseMurl s = .ok r
  print : ∀ m r, MurlSystem.Murl.parse s = .ok m → parseMurl s = .ok r →
    m.toString = r.canonical ∧ m.identity = r.identity

def isC1Control (c : Char) : Bool := 0x80 ≤ c.toNat && c.toNat ≤ 0x9f

structure InBounds (m : MurlSystem.Murl) : Prop where
  host : hostLength m.authority ≤ 253
  clean : ∀ seg ∈ m.name, ∀ c ∈ seg.toList, isC1Control c = false
  canonical : m.toString.utf8ByteSize ≤ 1024

variable {s : String} {p : Parts} {m : MurlSystem.Murl}

theorem isControl_eq (c : Char) : Text.isControl c = (refControl c || isC1Control c) := by
  rw [Bool.eq_iff_iff]
  simp only [Text.isControl,refControl,isC1Control,Bool.or_eq_true,Bool.and_eq_true,
    decide_eq_true_eq,beq_iff_eq]
  omega

theorem segments_loosen {raws : List (List Char)} {name : List String}
    (h : List.Forall₂ (SegmentReads Text.isControl) raws name) :
    List.Forall₂ (SegmentReads refControl) raws name ∧
      ∀ seg ∈ name, ∀ c ∈ seg.toList, isC1Control c = false := by
  induction h with
  | nil => exact ⟨.nil,by simp⟩
  | cons hseg _ ih =>
    have hclean : ∀ c ∈ _, refControl c = false ∧ isC1Control c = false := fun c hc => by
      have hcontrol := (hseg.clean c hc).1
      rwa [isControl_eq,Bool.or_eq_false_iff] at hcontrol
    exact ⟨.cons ⟨hseg.some,hseg.decoded,hseg.size,
      fun c hc => ⟨(hclean c hc).1,(hseg.clean c hc).2⟩,hseg.solid⟩ ih.1,
      List.forall_mem_cons.mpr ⟨fun c hc => (hclean c hc).2,ih.2⟩⟩

theorem segments_tighten {raws : List (List Char)} {name : List String}
    (h : List.Forall₂ (SegmentReads refControl) raws name)
    (hc1 : ∀ seg ∈ name, ∀ c ∈ seg.toList, isC1Control c = false) :
    List.Forall₂ (SegmentReads Text.isControl) raws name := by
  induction h with
  | nil => exact .nil
  | cons hseg _ ih =>
    obtain ⟨hhead,htail⟩ := List.forall_mem_cons.mp hc1
    refine .cons ⟨hseg.some,hseg.decoded,hseg.size,fun c hc => ⟨?_,(hseg.clean c hc).2⟩,hseg.solid⟩
      (ih htail)
    rw [isControl_eq,(hseg.clean c hc).1,hhead c hc]
    rfl

theorem derived_of_accepts (h : Accepts .exact s p m) : Derived s p m ∧ InBounds m := by
  obtain ⟨hname,hclean⟩ := segments_loosen h.reads.name
  exact ⟨⟨h.text,h.rule,⟨h.reads.authority,h.reads.few,hname,h.reads.version,h.reads.query,
    h.reads.selector⟩,h.size⟩,⟨h.host,hclean,h.canonical⟩⟩

theorem accepts_of_derived (h : Derived s p m) (hb : InBounds m) : Accepts .exact s p m where
  text := h.text
  rule := h.rule
  reads := ⟨h.reads.authority,h.reads.few,segments_tighten h.reads.name hb.clean,h.reads.version,
    h.reads.query,h.reads.selector⟩
  size := h.size
  canonical := hb.canonical
  host := hb.host

theorem inBounds_congr {n : MurlSystem.Murl} (hm : m.name ≠ []) (hn : n.name ≠ [])
    (h : rendered m = rendered n) (hb : InBounds m) : InBounds n := by
  have hname : m.name = n.name := congrArg Murl.segments h
  have hplace : (place m.authority).1 = (place n.authority).1 := congrArg Murl.authority h
  have hlength : ∀ a, hostLength a = (place a).1.length := fun a => by cases a <;> rfl
  refine ⟨?_,?_,?_⟩
  · rw [hlength,← hplace,← hlength]
    exact hb.host
  · rw [← hname]
    exact hb.clean
  · rw [← canonical_rendered hn,← h,canonical_rendered hm]
    exact hb.canonical

theorem name_of_derived (h : Derived s p m) : m.name ≠ [] := name_ne_nil h.rule h.reads

theorem parsers_agree (s : String) : Agree s ↔ ∀ p m, Derived s p m → InBounds m := by
  constructor
  · intro h p m hm
    obtain ⟨n,hn⟩ := h.accept.mpr ⟨_,parse_of_derived hm⟩
    obtain ⟨q,hq⟩ := parse_ok.mp hn
    obtain ⟨hderived,hbounds⟩ := derived_of_accepts hq
    have hsame : rendered n = rendered m := by
      have hparse := parse_of_derived hderived
      rw [parse_of_derived hm] at hparse
      exact (Except.ok.inj hparse).symm
    exact inBounds_congr (name_of_derived hderived) (name_of_derived hm) hsame hbounds
  · intro h
    refine ⟨⟨?_,?_⟩,?_⟩
    · rintro ⟨m,hm⟩
      obtain ⟨p,hp⟩ := parse_ok.mp hm
      exact ⟨_,parse_of_derived (derived_of_accepts hp).1⟩
    · rintro ⟨r,hr⟩
      obtain ⟨p,m,hm,-⟩ := parseMurl_ok.mp hr
      exact ⟨m,parse_ok.mpr ⟨p,accepts_of_derived hm (h p m hm)⟩⟩
    · intro m r hm hr
      obtain ⟨p,hp⟩ := parse_ok.mp hm
      have hderived := (derived_of_accepts hp).1
      rw [parse_of_derived hderived] at hr
      obtain rfl := Except.ok.inj hr
      have hne := name_of_derived hderived
      exact ⟨(canonical_rendered hne).symm,(identity_rendered hne).symm⟩

def c1Text : String := "murl://local/%C2%85"

theorem c1_control_divides : ¬∀ s, Agree s := by
  intro h
  have href : parseMurl c1Text =
      .ok ⟨"local",none,[String.singleton (Char.ofNat 0x85)],none,none,none⟩ := by decide +kernel
  obtain ⟨m,hm⟩ := (h c1Text).accept.mpr ⟨_,href⟩
  have hrefused : ∃ e, MurlSystem.Murl.parse c1Text = .error e :=
    ⟨.invalidSegment "`%C2%85` decodes to a control character",by decide +kernel⟩
  obtain ⟨e,he⟩ := hrefused
  rw [he] at hm
  cases hm

end Agreement

end MurlSystem.Reference
