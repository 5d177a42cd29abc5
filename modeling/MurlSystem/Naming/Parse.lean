import MurlSystem.Naming.Items

namespace MurlSystem.Syntax

open Abnf

section Path

def markLast (mark : List Char) : List (List Char) → List (List Char)
  | [] => []
  | [s] => [s ++ mark]
  | s :: rest => s :: markLast mark rest

theorem markLast_cons (mark s : List Char) {rest : List (List Char)} (hne : rest ≠ []) :
    markLast mark (s :: rest) = s :: markLast mark rest := by
  rw [markLast]
  exact hne

theorem length_markLast (mark : List Char) (segs : List (List Char)) :
    (markLast mark segs).length = segs.length := by
  induction segs with
  | nil => rfl
  | cons s rest ih =>
    by_cases hrest : rest = []
    · rw [hrest]
      rfl
    · rw [markLast_cons mark s hrest,List.length_cons,ih,List.length_cons]

theorem markLast_eq_nil {mark : List Char} {segs : List (List Char)} :
    markLast mark segs = [] ↔ segs = [] := by
  rw [← List.length_eq_zero_iff,length_markLast,List.length_eq_zero_iff]

theorem intercalate_markLast (mark : List Char) {segs : List (List Char)} (hne : segs ≠ []) :
    ['/'].intercalate (markLast mark segs) = ['/'].intercalate segs ++ mark := by
  induction segs with
  | nil => exact absurd rfl hne
  | cons s rest ih =>
    cases rest with
    | nil => simp [markLast]
    | cons r rs =>
      have hrest := ih (by simp)
      obtain ⟨q,qs,hq⟩ := List.exists_cons_of_ne_nil fun hnil =>
        (List.cons_ne_nil r rs) (markLast_eq_nil.mp hnil)
      rw [hq] at hrest
      rw [markLast_cons mark s (by simp),hq,List.intercalate_cons_cons,hrest,
        List.intercalate_cons_cons]
      simp

theorem markLast_free {mark : List Char} {segs : List (List Char)} {c : Char} (hmark : c ∉ mark)
    (h : ∀ s ∈ segs, c ∉ s) : ∀ s ∈ markLast mark segs, c ∉ s := by
  induction segs with
  | nil => simp [markLast]
  | cons s rest ih =>
    by_cases hrest : rest = []
    · simpa [markLast,hmark,hrest] using h
    · rw [markLast_cons mark s hrest]
      exact List.forall_mem_cons.mpr ⟨h s (by simp),ih fun t ht => h t (by simp [ht])⟩

def VersionParses : Option (List Char) → VersionTag → Prop
  | none,v => v = .latest
  | some w,v => '@' ∉ w ∧ VersionTag.parse w = .ok v

theorem parseLastSegment_ok {raw : List Char} {seg : String} {v : VersionTag} :
    parseLastSegment raw = .ok (seg,v) ↔ ∃ base ver, raw = base ++ marked '@' ver ∧ '@' ∉ base ∧
      decodeSegment base = .ok seg ∧ VersionParses ver v := by
  unfold parseLastSegment
  cases hs : Text.splitOnce '@' raw with
  | none =>
    have hat := Text.splitOnce_eq_none.mp hs
    simp only [Fallible.bind_ok,Fallible.pure_ok,Prod.mk.injEq]
    constructor
    · rintro ⟨s,hseg,rfl,rfl⟩
      exact ⟨raw,none,by simp [marked],hat,hseg,rfl⟩
    · rintro ⟨base,ver,rfl,hbase,hseg,hver⟩
      cases ver with
      | some w => simp [marked] at hat
      | none => exact ⟨seg,by simpa [marked] using hseg,rfl,Eq.symm hver⟩
  | some q =>
    obtain ⟨base,ver⟩ := q
    obtain ⟨rfl,hbase⟩ := Text.splitOnce_eq_some.mp hs
    simp only [Fallible.bind_ok,Fallible.pure_ok,Fallible.ite_ok,Fallible.throw_ok,Prod.mk.injEq,
      false_and,exists_false,and_false,false_or,List.contains_iff_mem,List.isEmpty_iff]
    constructor
    · rintro ⟨hver,hne,w,hw,s,hseg,rfl,rfl⟩
      exact ⟨base,some ver,rfl,hbase,hseg,hver,hw⟩
    · rintro ⟨b,w,heq,hb,hseg,hver⟩
      cases w with
      | none =>
        rw [marked,List.append_nil] at heq
        rw [← heq] at hb
        simp at hb
      | some w =>
        have hsplit := Text.splitOnce_append w hb
        rw [show b ++ '@' :: w = base ++ '@' :: ver from heq.symm,hs] at hsplit
        obtain ⟨rfl,rfl⟩ := Prod.mk.inj (Option.some.inj hsplit)
        refine ⟨hver.1,fun hnil => ?_,v,hver.2,seg,hseg,rfl,rfl⟩
        rw [hnil] at hseg
        cases hseg

theorem parseSegments_cons (raw : List Char) {rest : List (List Char)} (hne : rest ≠ []) :
    parseSegments (raw :: rest) = do
      if raw.contains '@' then throw .misplacedVersionMarker
      let seg ← decodeSegment raw
      let (segs,version) ← parseSegments rest
      return (seg :: segs,version) := by
  rw [parseSegments]
  exact hne

theorem parseSegments_ok {raws : List (List Char)} {name : List String} {v : VersionTag} :
    parseSegments raws = .ok (name,v) ↔ ∃ segs ver, segs ≠ [] ∧
      raws = markLast (marked '@' ver) segs ∧ (∀ s ∈ segs, '@' ∉ s) ∧
      List.Forall₂ (fun raw seg => decodeSegment raw = .ok seg) segs name ∧ VersionParses ver v := by
  induction raws generalizing name v with
  | nil =>
    constructor
    · intro h
      cases h
    · rintro ⟨segs,ver,hne,hraws,-⟩
      exact absurd (markLast_eq_nil.mp hraws.symm) hne
  | cons raw rest ih =>
    by_cases hrest : rest = []
    · subst hrest
      rw [parseSegments]
      simp only [Fallible.bind_ok,Fallible.pure_ok,Prod.exists,Prod.mk.injEq,parseLastSegment_ok]
      constructor
      · rintro ⟨seg,w,⟨base,ver,rfl,hbase,hseg,hver⟩,rfl,rfl⟩
        exact ⟨[base],ver,by simp,rfl,by simpa using hbase,.cons hseg .nil,hver⟩
      · rintro ⟨segs,ver,hne,hraws,hfree,hname,hver⟩
        have hlen := length_markLast (marked '@' ver) segs
        rw [← hraws] at hlen
        obtain ⟨base,rfl⟩ := List.length_eq_one_iff.mp hlen.symm
        obtain ⟨seg,_,hseg,hnil,rfl⟩ := List.forall₂_cons_left_iff.mp hname
        obtain rfl := List.forall₂_nil_left_iff.mp hnil
        obtain ⟨rfl,-⟩ := List.cons.inj hraws
        exact ⟨seg,v,⟨base,ver,rfl,hfree base (by simp),hseg,hver⟩,rfl,rfl⟩
    · rw [parseSegments_cons raw hrest]
      simp only [Fallible.bind_ok,Fallible.pure_ok,Fallible.ite_ok,Fallible.throw_ok,Prod.exists,
        Prod.mk.injEq,false_and,exists_false,and_false,false_or,List.contains_iff_mem,ih]
      constructor
      · rintro ⟨hat,seg,hseg,names,w,⟨segs,ver,hne,rfl,hfree,hnames,hver⟩,rfl,rfl⟩
        exact ⟨raw :: segs,ver,by simp,(markLast_cons _ raw hne).symm,
          List.forall_mem_cons.mpr ⟨hat,hfree⟩,.cons hseg hnames,hver⟩
      · rintro ⟨segs,ver,hne,hraws,hfree,hname,hver⟩
        obtain ⟨s,segs,rfl⟩ := List.exists_cons_of_ne_nil hne
        have hsegs : segs ≠ [] := by
          rintro rfl
          exact hrest (List.cons.inj hraws).2
        rw [markLast_cons _ s hsegs] at hraws
        obtain ⟨rfl,rfl⟩ := List.cons.inj hraws
        obtain ⟨seg,names,hseg,hnames,rfl⟩ := List.forall₂_cons_left_iff.mp hname
        obtain ⟨hat,hfree⟩ := List.forall_mem_cons.mp hfree
        exact ⟨hat,seg,hseg,names,v,⟨segs,ver,hsegs,rfl,hfree,hnames,hver⟩,rfl,rfl⟩

end Path

section Cut

def cutMark (c : Char) (s : List Char) : List Char × Option (List Char) :=
  match Text.splitOnce c s with
  | some (a,b) => (a,some b)
  | none => (s,none)

theorem cutMark_eq {c : Char} {s a : List Char} {o : Option (List Char)} :
    cutMark c s = (a,o) ↔ s = a ++ marked c o ∧ c ∉ a := by
  unfold cutMark
  cases hs : Text.splitOnce c s with
  | none =>
    have hc := Text.splitOnce_eq_none.mp hs
    constructor
    · intro h
      obtain ⟨rfl,rfl⟩ := Prod.mk.inj h
      exact ⟨by simp [marked],hc⟩
    · rintro ⟨rfl,-⟩
      cases o with
      | none => simp [marked]
      | some b => simp [marked] at hc
  | some q =>
    obtain ⟨x,y⟩ := q
    obtain ⟨rfl,hx⟩ := Text.splitOnce_eq_some.mp hs
    constructor
    · intro h
      obtain ⟨rfl,rfl⟩ := Prod.mk.inj h
      exact ⟨rfl,hx⟩
    · rintro ⟨heq,ha⟩
      cases o with
      | none =>
        rw [marked,List.append_nil] at heq
        rw [← heq] at ha
        simp at ha
      | some b =>
        have hsplit := Text.splitOnce_append b ha
        rw [show a ++ c :: b = x ++ c :: y from heq.symm,hs] at hsplit
        obtain ⟨rfl,rfl⟩ := Prod.mk.inj (Option.some.inj hsplit)
        rfl

theorem marked_inj {c : Char} {a b : List Char} {o o' : Option (List Char)}
    (h : a ++ marked c o = b ++ marked c o') (ha : c ∉ a) (hb : c ∉ b) : a = b ∧ o = o' := by
  have hcut : cutMark c (a ++ marked c o) = (a,o) := cutMark_eq.mpr ⟨rfl,ha⟩
  rw [h,cutMark_eq.mpr ⟨rfl,hb⟩] at hcut
  obtain ⟨rfl,rfl⟩ := Prod.mk.inj hcut
  exact ⟨rfl,rfl⟩

def parseRest (rest : List Char) (query fragment : Option (List Char)) :
    Except MurlParseError Murl := do
  let some (authRaw,pathRaw) := Text.splitOnce '/' rest | throw .missingName
  let authority ← parseAuthority authRaw
  if pathRaw.isEmpty then throw .missingName
  let rawSegments := pathRaw.splitOn '/'
  if maxSegments < rawSegments.length then throw .tooManySegments
  let (name,version) ← parseSegments rawSegments
  let selector ← fragment.mapM parseSelector
  query.forM checkQuery
  let murl : Murl := ⟨authority,name,version,selector,query.map String.ofList⟩
  let canonicalLen := murl.toString.utf8ByteSize
  if maxMurlLen < canonicalLen then throw (.canonicalTooLong canonicalLen)
  return murl

theorem parse_eq (s : String) :
    Murl.parse s =
      if maxMurlLen < s.utf8ByteSize then .error .tooLong
      else
        match firstUnprintable (Text.bytes s) with
        | some i => .error (.invalidCharacter i)
        | none =>
          match stripScheme s.toList with
          | none => .error .missingScheme
          | some rest =>
            let (a,fragment) := cutMark '#' rest
            let (b,query) := cutMark '?' a
            parseRest b query fragment := by
  rw [Murl.parse]
  by_cases hlen : maxMurlLen < s.utf8ByteSize
  · simp only [if_pos hlen]
    rfl
  · simp only [if_neg hlen]
    cases firstUnprintable (Text.bytes s) with
    | some i => rfl
    | none =>
      cases stripScheme s.toList with
      | none => rfl
      | some rest => rfl

structure RestReads (rest : List Char) (query fragment : Option (List Char)) (p : Parts) (m : Murl) :
    Prop where
  text : rest = p.authority ++ '/' :: p.path
  slash : '/' ∉ p.authority
  authority : parseAuthority p.authority = .ok m.authority
  nonempty : p.segments ≠ []
  few : p.segments.length ≤ maxSegments
  free : ∀ s ∈ p.segments, '/' ∉ s ∧ '@' ∉ s
  marker : '/' ∉ marked '@' p.version
  name : List.Forall₂ (fun raw seg => decodeSegment raw = .ok seg) p.segments m.name
  version : VersionParses p.version m.version
  queryIs : p.query = query
  checked : ∀ q ∈ query, checkQuery q = .ok ()
  kept : m.query = query.map String.ofList
  selectorIs : p.selector = fragment
  selector : fragment.mapM parseSelector = .ok m.selector
  canonical : m.toString.utf8ByteSize ≤ maxMurlLen

theorem queryForM_ok {o : Option (List Char)} {u : Unit} :
    (o.forM checkQuery : Except MurlParseError Unit) = .ok u ↔ ∀ q ∈ o, checkQuery q = .ok () := by
  cases o with
  | none => simp [Option.forM]
  | some q => simp [Option.forM]

theorem splitOn_path {segs : List (List Char)} {mark : List Char} (hne : segs ≠ [])
    (hfree : ∀ s ∈ segs, '/' ∉ s) (hmark : '/' ∉ mark) :
    (['/'].intercalate segs ++ mark).splitOn '/' = markLast mark segs := by
  rw [← intercalate_markLast mark hne]
  exact List.splitOn_intercalate '/' (markLast_free hmark hfree) fun h => hne (markLast_eq_nil.mp h)

theorem markLast_marker {mark : List Char} {segs : List (List Char)} {c : Char} (hne : segs ≠ [])
    (h : ∀ s ∈ markLast mark segs, c ∉ s) : c ∉ mark ∧ ∀ s ∈ segs, c ∉ s := by
  induction segs with
  | nil => exact absurd rfl hne
  | cons s rest ih =>
    by_cases hrest : rest = []
    · subst hrest
      have hs := h (s ++ mark) (by simp [markLast])
      simp only [List.mem_append,not_or] at hs
      exact ⟨hs.2,by simpa using hs.1⟩
    · rw [markLast_cons mark s hrest,List.forall_mem_cons] at h
      obtain ⟨hmark,hfree⟩ := ih hrest h.2
      exact ⟨hmark,List.forall_mem_cons.mpr ⟨h.1,hfree⟩⟩

theorem decoded_ne_nil {segs : List (List Char)} {name : List String}
    (h : List.Forall₂ (fun raw seg => decodeSegment raw = .ok seg) segs name) :
    ∀ s ∈ segs, s ≠ [] := by
  induction h with
  | nil => simp
  | cons hseg _ ih =>
    refine List.forall_mem_cons.mpr ⟨?_,ih⟩
    rintro rfl
    cases hseg

theorem parseRest_ok (scheme : List Char) {rest : List Char} {query fragment : Option (List Char)}
    {m : Murl} :
    parseRest rest query fragment = .ok m ↔
      ∃ p : Parts, p.scheme = scheme ∧ RestReads rest query fragment p m := by
  constructor
  · intro h
    unfold parseRest at h
    cases hs : Text.splitOnce '/' rest with
    | none => simp [hs] at h
    | some q =>
      obtain ⟨auth,path⟩ := q
      obtain ⟨rfl,hslash⟩ := Text.splitOnce_eq_some.mp hs
      simp only [hs,Fallible.bind_ok,Fallible.ite_ok,Fallible.throw_ok,Fallible.pure_ok,false_and,
        exists_false,and_false,false_or,queryForM_ok,Nat.not_lt] at h
      obtain ⟨authority,hauth,-,hfew,⟨name,version⟩,hname,selector,hsel,u,hquery,hcanon,rfl⟩ := h
      obtain ⟨segs,ver,hne,hraws,hat,hsegs,hver⟩ := parseSegments_ok.mp hname
      have hnoslash : ∀ s ∈ markLast (marked '@' ver) segs, '/' ∉ s := by
        intro s hs
        rw [← hraws] at hs
        exact Text.sep_not_mem_splitOn hs
      obtain ⟨hmark,hfree⟩ := markLast_marker hne hnoslash
      have hpath : path = ['/'].intercalate segs ++ marked '@' ver := by
        rw [← intercalate_markLast _ hne,← hraws,List.intercalate_splitOn]
      refine ⟨⟨scheme,auth,segs,ver,query,fragment⟩,rfl,?_⟩
      exact {
        text := by rw [hpath]; rfl
        slash := hslash
        authority := hauth
        nonempty := hne
        few := by rwa [hraws,length_markLast] at hfew
        free := fun s hs => ⟨hfree s hs,hat s hs⟩
        marker := hmark
        name := hsegs
        version := hver
        queryIs := rfl
        checked := hquery
        kept := rfl
        selectorIs := rfl
        selector := hsel
        canonical := hcanon }
  · rintro ⟨p,-,h⟩
    have hraws : p.path.splitOn '/' = markLast (marked '@' p.version) p.segments :=
      splitOn_path h.nonempty (fun s hs => (h.free s hs).1) h.marker
    have hname := parseSegments_ok.mpr
      ⟨p.segments,p.version,h.nonempty,rfl,fun s hs => (h.free s hs).2,h.name,h.version⟩
    have hsome : p.path ≠ [] := by
      intro hnil
      obtain ⟨hjoin,-⟩ := List.append_eq_nil_iff.mp hnil
      exact Text.intercalate_ne_nil h.nonempty (decoded_ne_nil h.name) hjoin
    have hm : m = ⟨m.authority,m.name,m.version,m.selector,query.map String.ofList⟩ := by
      rw [← h.kept]
    unfold parseRest
    rw [h.text,Text.splitOnce_append p.path h.slash]
    simp only [Fallible.bind_ok,Fallible.ite_ok,Fallible.throw_ok,Fallible.pure_ok,false_and,
      exists_false,and_false,false_or,queryForM_ok,Nat.not_lt,hraws,length_markLast]
    refine ⟨m.authority,h.authority,by simpa using hsome,h.few,(m.name,m.version),hname,m.selector,
      h.selector,(),h.checked,?_,hm.symm⟩
    rw [← hm]
    exact h.canonical

end Cut

section Scheme

theorem isPrintable_ascii {c : Char} (h : isPrintable c = true) : Text.isAscii c = true := by
  simp only [isPrintable,Bool.and_eq_true,decide_eq_true_eq] at h
  simp only [Text.isAscii,decide_eq_true_eq]
  omega

theorem stripScheme_eq {s rest : List Char} :
    stripScheme s = some rest ↔
      ∃ scheme, s = scheme ++ rest ∧ Text.lowercase scheme = "murl://".toList := by
  unfold stripScheme
  constructor
  · intro h
    split at h
    · cases h
    · split at h
      · rename_i hlow
        obtain rfl := Option.some.inj h
        exact ⟨s.take 7,(List.take_append_drop 7 s).symm,hlow⟩
      · cases h
  · rintro ⟨scheme,rfl,hlow⟩
    have hlen : scheme.length = 7 := by
      rw [← Text.length_lowercase,hlow]
      rfl
    rw [if_neg (by simp [hlen]),List.take_left' hlen,if_pos hlow,List.drop_left' hlen]

theorem firstUnprintable_none {s : String} :
    firstUnprintable (Text.bytes s) = none ↔ ∀ c ∈ s.toList, isPrintable c = true := by
  have hbyte : ∀ c, Text.isAscii c = true →
      ((0x21 ≤ UInt8.ofNat c.toNat && UInt8.ofNat c.toNat ≤ 0x7e) = true ↔ isPrintable c = true) := by
    intro c hc
    have h128 : c.toNat < 128 := by simpa [Text.isAscii] using hc
    have hmod : c.toNat % 256 = c.toNat := Nat.mod_eq_of_lt (by omega)
    simp [isPrintable,UInt8.le_iff_toNat_le,hmod]
  rw [firstUnprintable,List.findIdx?_eq_none_iff,Text.bytes]
  simp only [List.mem_flatMap,forall_exists_index,and_imp,Bool.not_eq_false']
  constructor
  · intro h c hc
    by_cases hascii : Text.isAscii c = true
    · refine (hbyte c hascii).mp (h _ c hc ?_)
      rw [Text.encode_ascii hascii]
      exact List.mem_singleton.mpr rfl
    · have hwide := Text.encode_wide (by simpa using hascii)
      obtain ⟨b,hb⟩ := List.exists_mem_of_ne_nil _ (String.utf8EncodeChar_ne_nil (c := c))
      have hin := h b c hc hb
      simp only [Bool.and_eq_true,decide_eq_true_eq,UInt8.le_iff_toNat_le] at hin
      have hge := hwide b hb
      have hle : b.toNat ≤ 126 := hin.2
      omega
  · intro h b c hc hb
    have hascii := isPrintable_ascii (h c hc)
    rw [Text.encode_ascii hascii,List.mem_singleton] at hb
    rw [hb]
    exact (hbyte c hascii).mpr (h c hc)

end Scheme

structure Staged (s : String) (p : Parts) (m : Murl) : Prop where
  size : s.utf8ByteSize ≤ maxMurlLen
  printable : ∀ c ∈ s.toList, isPrintable c = true
  text : p.text = s.toList
  scheme : Text.lowercase p.scheme = "murl://".toList
  fragment : '#' ∉ p.authority ++ '/' :: p.path ++ marked '?' p.query
  mark : '?' ∉ p.authority ++ '/' :: p.path
  rest : RestReads (p.authority ++ '/' :: p.path) p.query p.selector p m

theorem parse_staged {s : String} {m : Murl} : Murl.parse s = .ok m ↔ ∃ p, Staged s p m := by
  rw [parse_eq,Fallible.guard_ok,Nat.not_lt]
  constructor
  · rintro ⟨hsize,h⟩
    cases hprint : firstUnprintable (Text.bytes s) with
    | some i => simp [hprint] at h
    | none =>
      cases hstrip : stripScheme s.toList with
      | none => simp [hprint,hstrip] at h
      | some rest =>
        obtain ⟨scheme,hs,hscheme⟩ := stripScheme_eq.mp hstrip
        rcases hf : cutMark '#' rest with ⟨a,fragment⟩
        rcases hq : cutMark '?' a with ⟨b,query⟩
        simp only [hprint,hstrip,hf,hq] at h
        obtain ⟨rfl,hnof⟩ := cutMark_eq.mp hf
        obtain ⟨rfl,hnoq⟩ := cutMark_eq.mp hq
        obtain ⟨p,rfl,hp⟩ := (parseRest_ok scheme).mp h
        obtain rfl := hp.queryIs
        obtain rfl := hp.selectorIs
        obtain rfl := hp.text
        exact ⟨p,hsize,firstUnprintable_none.mp hprint,hs.symm,hscheme,hnof,hnoq,hp⟩
  · rintro ⟨p,h⟩
    have hstrip : stripScheme s.toList =
        some (p.authority ++ '/' :: p.path ++ marked '?' p.query ++ marked '#' p.selector) :=
      stripScheme_eq.mpr ⟨p.scheme,h.text.symm,h.scheme⟩
    refine ⟨h.size,?_⟩
    simp only [firstUnprintable_none.mpr h.printable,hstrip,cutMark_eq.mpr ⟨rfl,h.fragment⟩,
      cutMark_eq.mpr ⟨rfl,h.mark⟩]
    exact (parseRest_ok p.scheme).mpr ⟨p,rfl,h.rest⟩

end MurlSystem.Syntax
