import MurlSystem.Trusting.Revoked

namespace MurlSystem

open Syntax

section Probe

variable {a : String} {A : Authority} {p : Parts} {m : Murl}

theorem append_slash {l b f : List Char} {c : Char} (hx : c ≠ 'x')
    (h : l ++ ['/','x'] = b ++ c :: f) :
    (c = '/' ∧ f = ['x'] ∧ b = l) ∨ ∃ f', f = f' ++ ['/','x'] ∧ l = b ++ c :: f' := by
  rcases List.append_eq_append_iff.mp h with ⟨t,rfl,ht⟩ | ⟨t,rfl,ht⟩
  · cases t with
    | nil =>
      obtain ⟨rfl,rfl⟩ := List.cons.inj ht
      exact .inl ⟨rfl,rfl,List.append_nil l⟩
    | cons y t =>
      cases t with
      | nil => exact absurd (List.cons.inj (List.cons.inj ht).2).1.symm hx
      | cons z t => simp at ht
  · cases t with
    | nil =>
      obtain ⟨rfl,rfl⟩ := List.cons.inj ht
      exact .inl ⟨rfl,rfl,(List.append_nil b).symm⟩
    | cons y t =>
      obtain ⟨rfl,rfl⟩ := List.cons.inj ht
      exact .inr ⟨t,rfl,rfl⟩

theorem accepts_rest (h : Accepts .exact s!"murl://{a}" p m) :
    a.toList = p.authority ++ '/' :: p.path ++ marked '?' p.query ++ marked '#' p.selector := by
  have htext := h.text
  have hscheme := scheme_length h.rule
  have hname : (s!"murl://{a}").toList = "murl://".toList ++ a.toList := by simp [toString]
  rw [hname,Parts.text] at htext
  exact (List.append_inj htext hscheme).2.symm

def probed (a : String) : String := a ++ "/x"

theorem probe_toList (a : String) : (probed a).toList = a.toList ++ ['/','x'] := by
  rw [probed,String.toList_append]
  rfl

theorem probe_eq (a : String) : s!"murl://{a}/x" = s!"murl://{probed a}" := by
  simp [probed,toString,String.append_assoc]

theorem accepts_authority (h : Accepts .exact s!"murl://{a}" p m) :
    parseAuthority p.authority = .ok m.authority :=
  parseAuthority_ok.mpr ⟨h.reads.authority,h.host⟩

theorem slash_not_mem_authority {l : List Char} (h : parseAuthority l = .ok A) : '/' ∉ l := by
  have hderives := authority_derives (parseAuthority_ok.mp h).1
  rw [← Text.mem_lowercase (by decide)]
  exact free_of_class (authority_chars hderives) (by decide)

theorem authority_size {s : String} (h : AuthorityReads (Text.lowercase s.toList) A)
    (hhost : hostLength A ≤ maxAuthorityLen) : s.utf8ByteSize ≤ maxAuthorityLen + 6 := by
  have hascii : ∀ c ∈ s.toList, Text.isAscii c = true := by
    intro c hc
    have hmem : c.toLower ∈ Text.lowercase s.toList := List.mem_map_of_mem hc
    exact isPrintable_ascii (toLower_printable
      (authorityChar_printable (authority_chars (authority_derives h) _ hmem)))
  rw [Text.size_ascii hascii,← Text.length_lowercase]
  generalize Text.lowercase s.toList = l at h
  cases h with
  | reserved => decide
  | host _ ok free =>
    simp only [hostLength,String.length_ofList] at hhost
    omega
  | hostPort host digits ok free rule least most =>
    rw [port,Abnf.Rule.between,Abnf.derives_run] at rule
    have hshort : digits.length ≤ 5 := rule.2.2 5 rfl
    simp only [hostLength,String.length_ofList] at hhost
    simp only [List.length_append,List.length_cons]
    omega

theorem probe_size (a : String) : s!"murl://{a}/x".utf8ByteSize = a.utf8ByteSize + 9 := by
  have hscheme : "murl://".utf8ByteSize = 7 := rfl
  have hname : "/x".utf8ByteSize = 2 := rfl
  simp only [toString,String.utf8ByteSize_append,hscheme,hname]
  omega

theorem authority_accepts (h : parseAuthority a.toList = .ok A) :
    Accepts .exact s!"murl://{a}/x" ⟨"murl://".toList,a.toList,[['x']],none,none,none⟩
      ⟨A,["x"],.latest,none,none⟩ := by
  obtain ⟨hread,hhost⟩ := parseAuthority_ok.mp h
  have hprinted := authority_size (authority_reprints hread Text.lowercase_lowercase) hhost
  have hreads : Parts.Reads .exact Text.isControl
      ⟨"murl://".toList,a.toList,[['x']],none,none,none⟩ ⟨A,["x"],.latest,none,none⟩ :=
    { authority := hread
      few := (by decide : 1 ≤ maxSegments)
      name := .cons letter_reads .nil
      version := .absent
      query := rfl
      selector := .absent }
  exact {
    text := by simp [Parts.text,Parts.path,marked,toString]
    rule := reads_wellFormed rfl (List.cons_ne_nil _ _) (by rintro q ⟨⟩) hreads
    reads := hreads
    size := by
      rw [probe_size]
      have hsize := authority_size hread hhost
      simp only [maxMurlLen,maxAuthorityLen] at hsize ⊢
      omega
    canonical := by
      have htext := atAuthority_toString ⟨A,["x"],.latest,none,none⟩
      rw [Murl.atAuthority] at htext
      rw [htext,probe_size]
      simp only [maxMurlLen,maxAuthorityLen] at hprinted ⊢
      omega
    host := hhost }

end Probe

section Trailing

variable {a : String} {p : Parts} {m : Murl}

structure LeavesRoom (a : String) (m : Murl) : Prop where
  parsed : Murl.parse s!"murl://{a}" = .ok m
  size : a.utf8ByteSize + 9 ≤ maxMurlLen
  canonical : m.toString.utf8ByteSize + 2 ≤ maxMurlLen
  selector : m.selector = none
  rest : (m.query = none ∧ '@' ∉ a.toList ∧ m.name.length < maxSegments) ∨
    ∃ q, m.query = some q ∧ q.length + 2 ≤ 512

def NormalizesExactly (a : String) : Prop :=
  ∀ x, normalizeAuthority a = .ok x ↔ ∃ A, parseAuthority a.toList = .ok A ∧ A.toString = x

theorem slash_x_size : "/x".utf8ByteSize = 2 := rfl

theorem below_size {A : Authority} {name : List String} :
    (⟨A,name ++ ["x"],.latest,none,none⟩ : Murl).toString.utf8ByteSize =
      (⟨A,name,.latest,none,none⟩ : Murl).toString.utf8ByteSize + 2 := by
  have hx : encodeSegment "x" = "x" := by decide +kernel
  have hslash : "/".utf8ByteSize = 1 := rfl
  have hname : "x".utf8ByteSize = 1 := rfl
  simp only [Murl.toString,Murl.identity,Murl.selectorDisplay,Option.map_none,
    List.foldl_append,List.foldl_cons,List.foldl_nil,hx,String.utf8ByteSize_append,hslash,hname]

theorem asking_size {A : Authority} {name : List String} {v : VersionTag} {q : List Char} :
    (⟨A,name,v,none,some (String.ofList (q ++ ['/','x']))⟩ : Murl).toString.utf8ByteSize =
      (⟨A,name,v,none,some (String.ofList q)⟩ : Murl).toString.utf8ByteSize + 2 := by
  have hq : String.ofList (q ++ ['/','x']) = String.ofList q ++ "/x" := by simp
  rw [hq]
  simp only [Murl.toString,Murl.selectorDisplay,Option.map_none,String.utf8ByteSize_append,
    slash_x_size]
  cases v <;> simp only [Murl.identity] <;> omega

theorem intercalate_concat (c : Char) {ps : List (List Char)} (hne : ps ≠ []) (q : List Char) :
    [c].intercalate (ps ++ [q]) = [c].intercalate ps ++ c :: q := by
  obtain ⟨r,rest,rfl⟩ := List.exists_cons_of_ne_nil hne
  rw [List.cons_append,Abnf.intercalate_cons_eq,Abnf.intercalate_cons_eq]
  simp

theorem forall₂_concat {α β : Type} {R : α → β → Prop} {l : List α} {x : α} {bs : List β}
    (h : List.Forall₂ R (l ++ [x]) bs) : ∃ bs' b, bs = bs' ++ [b] ∧ List.Forall₂ R l bs' ∧ R x b := by
  induction l generalizing bs with
  | nil =>
    obtain ⟨b,rest,hb,hrest,rfl⟩ := List.forall₂_cons_left_iff.mp h
    obtain rfl := List.forall₂_nil_left_iff.mp hrest
    exact ⟨[],b,rfl,.nil,hb⟩
  | cons y l ih =>
    obtain ⟨b,rest,hb,hrest,rfl⟩ := List.forall₂_cons_left_iff.mp h
    obtain ⟨bs',b',rfl,hl,hx⟩ := ih hrest
    exact ⟨b :: bs',b',rfl,.cons hb hl,hx⟩

theorem letter_reads_only {seg : String} (h : SegmentReads Text.isControl ['x'] seg) : seg = "x" := by
  have hraw : ∀ c ∈ ['x'], isRawChar c = true := List.forall_mem_singleton.mpr (by decide)
  have hseg := (decodeSegment_ok hraw).mpr h
  have hx : decodeSegment ['x'] = .ok "x" := by decide +kernel
  exact Except.ok.inj (hseg.symm.trans hx)

def plainScheme : List Char := ['m','u','r','l',':','/','/']

theorem scheme_toList : "murl://".toList = plainScheme := rfl

def partsOf (authority : List Char) (segments : List (List Char))
    (version query : Option (List Char)) : Parts :=
  ⟨plainScheme,authority,segments,version,query,none⟩

theorem partsOf_text {s : String} {authority : List Char} {segments : List (List Char)}
    {version query : Option (List Char)} :
    (partsOf authority segments version query).text = s!"murl://{s}".toList ↔
      authority ++ '/' :: (['/'].intercalate segments ++ marked '@' version) ++ marked '?' query =
        s.toList := by
  simp only [partsOf,Parts.text,Parts.path,toString,String.toList_append,scheme_toList,marked,
    List.append_nil,List.append_cancel_left_eq]

variable {authority : List Char} {segments : List (List Char)} {version query : Option (List Char)}

theorem accepts_parts :
    Accepts .exact s!"murl://{a}" (partsOf authority segments version query) m ↔
      authority ++ '/' :: (['/'].intercalate segments ++ marked '@' version) ++ marked '?' query =
          a.toList ∧ segments ≠ [] ∧ (∀ q ∈ query, Syntax.query.Derives q) ∧
        (partsOf authority segments version query).Reads .exact Text.isControl m ∧
        a.utf8ByteSize + 7 ≤ maxMurlLen ∧ m.toString.utf8ByteSize ≤ maxMurlLen ∧
        hostLength m.authority ≤ maxAuthorityLen := by
  have hscheme : "murl://".utf8ByteSize = 7 := rfl
  have hsize : s!"murl://{a}".utf8ByteSize = a.utf8ByteSize + 7 := by
    simp only [toString,String.utf8ByteSize_append,hscheme]
    omega
  constructor
  · intro h
    have hfits := h.size
    rw [hsize] at hfits
    exact ⟨partsOf_text.mp h.text,h.rule.nonempty,h.rule.query,h.reads,hfits,h.canonical,h.host⟩
  · rintro ⟨htext,hne,hquery,hreads,hfits,hcanonical,hhost⟩
    exact {
      text := partsOf_text.mpr htext
      rule := reads_wellFormed rfl hne hquery hreads
      reads := hreads
      size := by rwa [hsize]
      canonical := hcanonical
      host := hhost }

theorem reads_below {A : Authority} {name : List String} :
    (partsOf authority (segments ++ [['x']]) none none).Reads .exact Text.isControl
        ⟨A,name ++ ["x"],.latest,none,none⟩ ↔
      (partsOf authority segments none none).Reads .exact Text.isControl
        ⟨A,name,.latest,none,none⟩ ∧ segments.length < maxSegments := by
  constructor
  · intro h
    obtain ⟨name',seg,heq,hname,-⟩ := forall₂_concat h.name
    obtain ⟨rfl,-⟩ := List.append_inj' heq rfl
    have hfew := h.few
    simp only [partsOf,List.length_append,List.length_singleton] at hfew
    refine ⟨⟨h.authority,?_,hname,.absent,rfl,.absent⟩,by omega⟩
    change segments.length ≤ maxSegments
    omega
  · rintro ⟨h,hfew⟩
    refine ⟨h.authority,?_,List.rel_append h.name (.cons letter_reads .nil),.absent,rfl,.absent⟩
    change (segments ++ [['x']]).length ≤ maxSegments
    rw [List.length_append,List.length_singleton]
    exact hfew

theorem reads_asking {A : Authority} {name : List String} {v : VersionTag} {q : List Char} :
    (partsOf authority segments version (some (q ++ ['/','x']))).Reads .exact Text.isControl
        ⟨A,name,v,none,some (String.ofList (q ++ ['/','x']))⟩ ↔
      (partsOf authority segments version (some q)).Reads .exact Text.isControl
        ⟨A,name,v,none,some (String.ofList q)⟩ :=
  ⟨fun h => ⟨h.authority,h.few,h.name,h.version,rfl,.absent⟩,
    fun h => ⟨h.authority,h.few,h.name,h.version,rfl,.absent⟩⟩

theorem query_slash {q : List Char} :
    Syntax.query.Derives (q ++ ['/','x']) ↔ Syntax.query.Derives q ∧ q.length + 2 ≤ 512 := by
  have hslash : isQueryChar '/' = true := by decide
  have hx : isQueryChar 'x' = true := by decide
  simp only [query_derives,List.forall_mem_append,List.forall_mem_cons,hslash,hx,
    List.length_append,List.length_cons,List.length_nil]
  constructor
  · rintro ⟨⟨hq,-⟩,hlen⟩
    exact ⟨⟨hq,by omega⟩,hlen⟩
  · rintro ⟨⟨hq,-⟩,hlen⟩
    exact ⟨⟨hq,by simp⟩,hlen⟩

theorem probe_text {l : List Char} : l ++ ['/','x'] = (probed a).toList ↔ l = a.toList := by
  rw [probe_toList]
  exact ⟨List.append_cancel_right,fun h => by rw [h]⟩

theorem probe_bytes (a : String) : (probed a).utf8ByteSize = a.utf8ByteSize + 2 := by
  rw [probed,String.utf8ByteSize_append,slash_x_size]

theorem accepts_below {A : Authority} {name : List String} (hne : segments ≠ []) :
    Accepts .exact s!"murl://{probed a}" (partsOf authority (segments ++ [['x']]) none none)
        ⟨A,name ++ ["x"],.latest,none,none⟩ ↔
      Accepts .exact s!"murl://{a}" (partsOf authority segments none none)
          ⟨A,name,.latest,none,none⟩ ∧ segments.length < maxSegments ∧
        a.utf8ByteSize + 9 ≤ maxMurlLen ∧
        (⟨A,name,.latest,none,none⟩ : Murl).toString.utf8ByteSize + 2 ≤ maxMurlLen := by
  have hlong : authority ++ '/' :: (['/'].intercalate (segments ++ [['x']]) ++ marked '@' none) ++
      marked '?' none = authority ++ '/' :: (['/'].intercalate segments ++ marked '@' none) ++
        marked '?' none ++ ['/','x'] := by
    rw [intercalate_concat '/' hne]
    simp [marked]
  rw [accepts_parts,accepts_parts,reads_below,below_size,probe_bytes,hlong,probe_text]
  simp only [ne_eq,List.append_eq_nil_iff,List.cons_ne_self,and_false,not_false_eq_true,hne]
  constructor
  · rintro ⟨h,-,hquery,⟨hreads,hfew⟩,hsize,hcanonical,hhost⟩
    exact ⟨⟨h,trivial,hquery,hreads,by omega,by omega,hhost⟩,hfew,by omega,hcanonical⟩
  · rintro ⟨⟨h,-,hquery,hreads,-,-,hhost⟩,hfew,hsize,hcanonical⟩
    exact ⟨h,trivial,hquery,⟨hreads,hfew⟩,by omega,hcanonical,hhost⟩

theorem accepts_asking {A : Authority} {name : List String} {v : VersionTag} {q : List Char} :
    Accepts .exact s!"murl://{probed a}"
        (partsOf authority segments version (some (q ++ ['/','x'])))
        ⟨A,name,v,none,some (String.ofList (q ++ ['/','x']))⟩ ↔
      Accepts .exact s!"murl://{a}" (partsOf authority segments version (some q))
          ⟨A,name,v,none,some (String.ofList q)⟩ ∧ q.length + 2 ≤ 512 ∧
        a.utf8ByteSize + 9 ≤ maxMurlLen ∧
        (⟨A,name,v,none,some (String.ofList q)⟩ : Murl).toString.utf8ByteSize + 2 ≤
          maxMurlLen := by
  have hlong : authority ++ '/' :: (['/'].intercalate segments ++ marked '@' version) ++
      marked '?' (some (q ++ ['/','x'])) = authority ++ '/' :: (['/'].intercalate segments ++
        marked '@' version) ++ marked '?' (some q) ++ ['/','x'] :=
    (List.append_assoc _ (marked '?' (some q)) _).symm
  rw [accepts_parts,accepts_parts,reads_asking,asking_size,probe_bytes,hlong,probe_text]
  simp only [Option.mem_def,Option.some.injEq,forall_eq',query_slash]
  constructor
  · rintro ⟨h,hne,⟨hquery,hfew⟩,hreads,hsize,hcanonical,hhost⟩
    exact ⟨⟨h,hne,hquery,hreads,by omega,by omega,hhost⟩,hfew,by omega,hcanonical⟩
  · rintro ⟨⟨h,hne,hquery,hreads,-,-,hhost⟩,hfew,hsize,hcanonical⟩
    exact ⟨h,hne,⟨hquery,hfew⟩,hreads,by omega,hcanonical,hhost⟩

theorem plain_at (h : Accepts .exact s!"murl://{a}" (partsOf authority segments version query) m) :
    '@' ∉ authority ++ '/' :: ['/'].intercalate segments := by
  have hauthority : '@' ∉ authority := authority_no h.rule (by decide) (by decide)
  have hpath : '@' ∉ ['/'].intercalate segments := path_at h.rule
  simp [hauthority,hpath]

theorem probe_scheme (h : Accepts .exact s!"murl://{a}" p m) : p.scheme = plainScheme := by
  have htext := h.text
  have hname : (s!"murl://{a}").toList = plainScheme ++ a.toList := by
    simp only [toString,String.toList_append,scheme_toList]
  rw [hname,Parts.text] at htext
  exact (List.append_inj htext (scheme_length h.rule)).1

theorem selector_slash (h : p.WellFormed .exact) : '/' ∉ marked '#' p.selector := by
  intro hmem
  obtain ⟨f,hf,hmem⟩ := mem_marked.mp hmem
  exact free_of_class (selector_chars (h.selector f hf)) (by decide)
    (hmem.resolve_left (by decide))

theorem append_marked {l b : List Char} {c : Char} {o : Option (List Char)} (hx : c ≠ 'x')
    (hslash : c ≠ '/') (h : l ++ ['/','x'] = b ++ marked c o) :
    o = none ∨ ∃ f, o = some (f ++ ['/','x']) ∧ l = b ++ marked c (some f) := by
  cases o with
  | none => exact .inl rfl
  | some g =>
    rcases append_slash hx h with ⟨hc,-,-⟩ | ⟨f,rfl,hl⟩
    · exact absurd hc hslash
    · exact .inr ⟨f,rfl,hl⟩

theorem probe_selector (h : Accepts .exact s!"murl://{probed a}" p m) : p.selector = none := by
  have hrest := accepts_rest h
  rw [probe_toList] at hrest
  rcases append_marked (by decide) (by decide) hrest with hnone | ⟨f,hf,-⟩
  · exact hnone
  · refine absurd ?_ (selector_slash h.rule)
    rw [hf]
    simp [marked]

theorem last_segment {init : List (List Char)} {s l : List Char} (hslash : '/' ∈ l)
    (hfree : '/' ∉ authority) (hs : '/' ∉ s)
    (h : l ++ ['/','x'] = authority ++ '/' :: ['/'].intercalate (init ++ [s])) :
    init ≠ [] ∧ s = ['x'] := by
  have hx : ∀ {b : List Char}, l ++ ['/','x'] = b ++ '/' :: s → s = ['x'] ∧ b = l := by
    intro b hb
    rcases append_slash (by decide) hb with ⟨-,hs',hl⟩ | ⟨f,rfl,-⟩
    · exact ⟨hs',hl⟩
    · simp at hs
  by_cases hne : init = []
  · subst hne
    rw [List.nil_append,List.intercalate_singleton] at h
    obtain ⟨-,rfl⟩ := hx h
    exact absurd hslash hfree
  · rw [intercalate_concat '/' hne,← List.cons_append,← List.append_assoc] at h
    exact ⟨hne,(hx h).1⟩

theorem probe_room {n : Murl} (h : Accepts .exact s!"murl://{probed a}" p n)
    (hslash : '/' ∈ a.toList) : ∃ m, LeavesRoom a m := by
  have hrest := accepts_rest h
  have hscheme := probe_scheme h
  have hselector := probe_selector h
  have hat := marked_no h.rule (c := '/') (by decide) (by decide)
  have hfree := authority_no h.rule (c := '/') (by decide) (by decide)
  have hsegments : ∀ s ∈ p.segments, '/' ∉ s := fun s hs =>
    free_of_class (segment_chars (h.rule.segments s hs)) (by decide)
  obtain ⟨scheme,authority,segments,version,query,selector⟩ := p
  obtain ⟨A,name,v,sel,qs⟩ := n
  obtain rfl : scheme = plainScheme := hscheme
  obtain rfl : selector = none := hselector
  obtain rfl : sel = none := by
    have hsel := h.reads.selector
    cases hsel
    rfl
  have hquery : qs = query.map String.ofList := h.reads.query
  rw [probe_toList,marked,List.append_nil] at hrest
  rcases append_marked (by decide) (by decide) hrest with rfl | ⟨q,rfl,-⟩
  · obtain rfl := hquery
    rw [marked,List.append_nil,Parts.path,← List.cons_append,← List.append_assoc] at hrest
    rcases append_marked (by decide) (by decide) hrest with rfl | ⟨w,rfl,-⟩
    · obtain rfl : v = .latest := by
        have hversion := h.reads.version
        cases hversion
        rfl
      obtain ⟨init,s,rfl⟩ := (List.eq_nil_or_concat' segments).resolve_left h.rule.nonempty
      obtain ⟨-,hs⟩ := List.forall_mem_append.mp hsegments
      have hlast : '/' ∉ s := hs s (List.mem_singleton.mpr rfl)
      obtain ⟨hne,rfl⟩ := last_segment hslash hfree hlast
        (by rw [marked,List.append_nil] at hrest; exact hrest)
      obtain ⟨name,seg,rfl,-,hseg⟩ := forall₂_concat h.reads.name
      obtain rfl := letter_reads_only hseg
      obtain ⟨haccepts,hfew,hsize,hcanonical⟩ := (accepts_below hne).mp h
      have hsame : init.length = name.length := haccepts.reads.name.length_eq
      have hplain := plain_at haccepts
      have htext := accepts_rest haccepts
      refine ⟨_,parse_ok.mpr ⟨_,haccepts⟩,hsize,hcanonical,rfl,.inl ⟨rfl,?_,by rwa [← hsame]⟩⟩
      rw [htext]
      simpa [partsOf,Parts.path,marked] using hplain
    · exact absurd (by simp [marked]) hat
  · obtain rfl := hquery
    obtain ⟨haccepts,hfew,hsize,hcanonical⟩ := accepts_asking.mp h
    exact ⟨_,parse_ok.mpr ⟨_,haccepts⟩,hsize,hcanonical,rfl,.inr ⟨_,rfl,by simpa using hfew⟩⟩

theorem leavesRoom_parses (h : LeavesRoom a m) : ∃ n, Murl.parse s!"murl://{a}/x" = .ok n := by
  obtain ⟨p,hp⟩ := parse_ok.mp h.parsed
  have hscheme := probe_scheme hp
  have htext := accepts_rest hp
  have hreads := hp.reads
  obtain ⟨-,hsize,hcanonical,hselector,hrest⟩ := h
  obtain ⟨scheme,authority,segments,version,query,selector⟩ := p
  obtain ⟨A,name,v,sel,qs⟩ := m
  obtain rfl : scheme = plainScheme := hscheme
  obtain rfl : sel = none := hselector
  obtain rfl : selector = none := by
    have hsel := hreads.selector
    cases hsel
    rfl
  have hquery : qs = query.map String.ofList := hreads.query
  rw [probe_eq]
  rcases hrest with ⟨hnone,hat,hfew⟩ | ⟨q,hq,hfew⟩
  · obtain rfl : qs = none := hnone
    obtain rfl := Option.map_eq_none_iff.mp hquery.symm
    obtain rfl : version = none := by
      cases version with
      | none => rfl
      | some w =>
        refine absurd ?_ hat
        rw [htext]
        simp [Parts.path,marked]
    obtain rfl : v = .latest := by
      have hversion := hreads.version
      cases hversion
      rfl
    have hsame : segments.length = name.length := hreads.name.length_eq
    exact ⟨_,parse_ok.mpr ⟨_,(accepts_below hp.rule.nonempty).mpr
      ⟨hp,by rwa [hsame],hsize,hcanonical⟩⟩⟩
  · obtain rfl : qs = some q := hq
    obtain ⟨l,rfl,rfl⟩ := Option.map_eq_some_iff.mp hquery.symm
    exact ⟨_,parse_ok.mpr ⟨_,accepts_asking.mpr ⟨hp,by simpa using hfew,hsize,hcanonical⟩⟩⟩

end Trailing

section Exact

variable {a : String}

theorem plain_exact (h : '/' ∉ a.toList) : NormalizesExactly a := by
  intro x
  rw [normalizeAuthority_ok]
  constructor
  · rintro ⟨m,hm,rfl⟩
    obtain ⟨p,hp⟩ := parse_ok.mp hm
    rw [probe_eq] at hp
    have hrest := accepts_rest hp
    rw [probe_toList,List.append_assoc,List.append_assoc,List.cons_append] at hrest
    refine ⟨m.authority,?_,rfl⟩
    rcases append_slash (by decide) hrest with ⟨-,-,hauthority⟩ | ⟨f,-,hl⟩
    · rw [← hauthority]
      exact accepts_authority hp
    · exact absurd (by rw [hl]; simp) h
  · rintro ⟨A,hA,rfl⟩
    exact ⟨_,parse_ok.mpr ⟨_,authority_accepts hA⟩,rfl⟩

theorem normalizeAuthority_exact_iff (a : String) :
    NormalizesExactly a ↔ ¬∃ m, LeavesRoom a m := by
  constructor
  · rintro hexact ⟨m,hroom⟩
    obtain ⟨n,hn⟩ := leavesRoom_parses hroom
    obtain ⟨p,hp⟩ := parse_ok.mp hroom.parsed
    obtain ⟨A,hA,-⟩ := (hexact _).mp (normalizeAuthority_ok.mpr ⟨n,hn,rfl⟩)
    refine slash_not_mem_authority hA ?_
    rw [accepts_rest hp]
    simp
  · intro hroom
    by_cases hslash : '/' ∈ a.toList
    · intro x
      rw [normalizeAuthority_ok]
      constructor
      · rintro ⟨n,hn,-⟩
        obtain ⟨p,hp⟩ := parse_ok.mp hn
        rw [probe_eq] at hp
        exact absurd (probe_room hp hslash) hroom
      · rintro ⟨A,hA,-⟩
        exact absurd hslash (slash_not_mem_authority hA)
    · exact plain_exact hslash

theorem path_pins_authority :
    ¬∀ a x, normalizeAuthority a = .ok x ↔ ∃ A, parseAuthority a.toList = .ok A ∧ A.toString = x := by
  intro h
  have haccepted : normalizeAuthority "example.com/team" = .ok "example.com" := by decide +kernel
  obtain ⟨A,hA,-⟩ := (h "example.com/team" "example.com").mp haccepted
  exact slash_not_mem_authority hA (by decide)

end Exact

end MurlSystem
