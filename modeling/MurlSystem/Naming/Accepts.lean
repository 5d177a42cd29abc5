import MurlSystem.Naming.Parse

namespace MurlSystem.Syntax

open Abnf

section Classes

def isAuthorityChar (c : Char) : Bool := isDashAlnum c || c == '.' || c == ':'

def isVersionChar (c : Char) : Bool := isLowerAlnum c || c == '.'

def isSelectorChar (c : Char) : Bool := isIdChar c || c == '=' || c == ','

theorem lowerAlnum_printable {c : Char} (h : isLowerAlnum c = true) : isPrintable c = true := by
  simp only [isLowerAlnum,Bool.or_eq_true,Bool.and_eq_true,decide_eq_true_eq] at h
  simp only [isPrintable,Bool.and_eq_true,decide_eq_true_eq]
  rcases h with h | h
  · have hlo : 97 ≤ c.toNat := UInt32.le_iff_toNat_le.mp h.1
    have hhi : c.toNat ≤ 122 := UInt32.le_iff_toNat_le.mp h.2
    omega
  · have hlo : 48 ≤ c.toNat := UInt32.le_iff_toNat_le.mp h.1
    have hhi : c.toNat ≤ 57 := UInt32.le_iff_toNat_le.mp h.2
    omega

theorem idChar_printable {c : Char} (h : isIdChar c = true) : isPrintable c = true := by
  simp only [isIdChar,Bool.or_eq_true,beq_iff_eq] at h
  rcases h with (h | rfl) | rfl
  · exact lowerAlnum_printable h
  · decide
  · decide

theorem dashAlnum_idChar {c : Char} (h : isDashAlnum c = true) : isIdChar c = true := by
  rw [isIdChar,Bool.or_eq_true]
  exact .inl h

theorem authorityChar_printable {c : Char} (h : isAuthorityChar c = true) : isPrintable c = true := by
  simp only [isAuthorityChar,Bool.or_eq_true,beq_iff_eq] at h
  rcases h with (h | rfl) | rfl
  · exact idChar_printable (dashAlnum_idChar h)
  · decide
  · decide

theorem versionChar_printable {c : Char} (h : isVersionChar c = true) : isPrintable c = true := by
  simp only [isVersionChar,Bool.or_eq_true,beq_iff_eq] at h
  rcases h with h | rfl
  · exact lowerAlnum_printable h
  · decide

theorem selectorChar_printable {c : Char} (h : isSelectorChar c = true) : isPrintable c = true := by
  simp only [isSelectorChar,Bool.or_eq_true,beq_iff_eq] at h
  rcases h with (h | rfl) | rfl
  · exact idChar_printable h
  · decide
  · decide

theorem rawChar_printable {c : Char} (h : isRawChar c = true) : isPrintable c = true := by
  simp only [isRawChar,isSegChar,Bool.or_eq_true,Bool.and_eq_true,beq_iff_eq] at h
  rcases h with h | rfl
  · exact h.1
  · decide

theorem queryChar_printable {c : Char} (h : isQueryChar c = true) : isPrintable c = true := by
  rw [isQueryChar,Bool.and_eq_true] at h
  exact h.1

theorem toLower_printable {c : Char} (h : isPrintable c.toLower = true) : isPrintable c = true := by
  by_cases hc : Text.isUpper c = true
  · simp only [Text.isUpper,Bool.and_eq_true,decide_eq_true_eq] at hc
    have hlo : 65 ≤ c.toNat := UInt32.le_iff_toNat_le.mp hc.1
    have hhi : c.toNat ≤ 90 := UInt32.le_iff_toNat_le.mp hc.2
    simp only [isPrintable,Bool.and_eq_true,decide_eq_true_eq]
    omega
  · rwa [Text.toLower_of_not_upper (by simpa using hc)] at h

theorem free_of_class {p : Char → Bool} {l : List Char} (h : ∀ c ∈ l, p c = true) {c : Char}
    (hc : p c = false) : c ∉ l := by
  intro hmem
  rw [h c hmem] at hc
  cases hc

theorem digit_lowerAlnum {c : Char} (h : isDigit c = true) : isLowerAlnum c = true := by
  rw [isLowerAlnum,Bool.or_eq_true]
  exact .inr h

theorem authority_chars {l : List Char} (h : authority.Derives l) :
    ∀ c ∈ l, isAuthorityChar c = true := by
  have hhost : ∀ {h : List Char}, host.Derives h → ∀ c ∈ h, isAuthorityChar c = true := by
    intro h hh c hc
    obtain ⟨ps,rfl,-,-,hps⟩ := derives_separated.mp hh
    rcases Text.mem_intercalate hc with rfl | ⟨p,hp,hc⟩
    · decide
    · have hrule := hps p hp
      rw [label,Rule.between,derives_run] at hrule
      simp [isAuthorityChar,hrule.1 c hc]
  rcases h with hlocal | ⟨h,rest,rfl,hh,hrest⟩
  · obtain rfl : l = localAuthority.toList := hlocal
    exact List.all_eq_true.mp (by decide)
  · refine List.forall_mem_append.mpr ⟨hhost hh,?_⟩
    rcases derives_opt.mp hrest with rfl | ⟨colon,p,rfl,hcolon,hp⟩
    · simp
    · obtain rfl : colon = [':'] := hcolon
      refine List.forall_mem_append.mpr ⟨List.forall_mem_singleton.mpr (by decide),fun c hc => ?_⟩
      simp [isAuthorityChar,isDashAlnum,digit_lowerAlnum (port_plain hp c hc)]

theorem version_chars {v : List Char} (h : (version .exact).Derives v) :
    ∀ c ∈ v, isVersionChar c = true := by
  rcases h with hlatest | hnums
  · obtain rfl : v = "latest".toList := hlatest
    exact List.all_eq_true.mp (by decide)
  · obtain ⟨ps,rfl,-,-,hps⟩ := derives_separated.mp hnums
    intro c hc
    rcases Text.mem_intercalate hc with rfl | ⟨p,hp,hc⟩
    · decide
    · simp [isVersionChar,digit_lowerAlnum ((vnum_derives.mp (hps p hp)).1 c hc)]

theorem item_chars {w : List Char} (h : (selItem .exact).Derives w) :
    ∀ c ∈ w, isSelectorChar c = true := by
  rcases h with rule | ⟨word,s,rfl,is,rule⟩ | ⟨word,s,rfl,is,rule⟩
  · intro c hc
    simp [isSelectorChar,resourceId_chars rule c hc]
  · obtain rfl : word = "role=".toList := is
    rw [role,ident_derives] at rule
    obtain ⟨c,cs,rfl,hc,hcs,-⟩ := rule
    have hword : ∀ c ∈ "role=".toList, isSelectorChar c = true := List.all_eq_true.mp (by decide)
    refine List.forall_mem_append.mpr ⟨hword,List.forall_mem_cons.mpr ⟨?_,fun d hd => ?_⟩⟩
    · simp [isSelectorChar,isIdChar,hc]
    · simp [isSelectorChar,dashAlnum_idChar (hcs d hd)]
  · obtain rfl : word = "tag=".toList := is
    rw [tag,Rule.between,derives_run] at rule
    have hword : ∀ c ∈ "tag=".toList, isSelectorChar c = true := List.all_eq_true.mp (by decide)
    refine List.forall_mem_append.mpr ⟨hword,fun d hd => ?_⟩
    simp [isSelectorChar,dashAlnum_idChar (rule.1 d hd)]

theorem selector_chars {f : List Char} (h : (selector .exact).Derives f) :
    ∀ c ∈ f, isSelectorChar c = true := by
  obtain ⟨ps,rfl,-,-,hps⟩ := derives_separated.mp h
  intro c hc
  rcases Text.mem_intercalate hc with rfl | ⟨p,hp,hc⟩
  · decide
  · exact item_chars (hps p hp) c hc

end Classes

section Rules

theorem host_derives {h : List Char} (ok : HostOk h) : host.Derives h := by
  refine derives_separated.mpr ⟨h.splitOn '.',(List.intercalate_splitOn '.').symm,
    List.splitOn_ne_nil '.' h,by simp,fun p hp => (ok p hp).rule⟩

theorem authority_derives {l : List Char} {a : Authority} (h : AuthorityReads l a) :
    authority.Derives l := by
  cases h with
  | reserved => exact .inl rfl
  | host _ ok => exact .inr ⟨l,[],(List.append_nil l).symm,host_derives ok,derives_opt.mpr (.inl rfl)⟩
  | hostPort h p ok free digits =>
    exact .inr ⟨h,':' :: p,rfl,host_derives ok,derives_opt.mpr (.inr ⟨[':'],p,rfl,rfl,digits⟩)⟩

theorem pieces_of_decodes {raw : List Char} {bytes : List UInt8} (h : Decodes raw bytes) :
    ∃ ws : List (List Char), raw = ws.flatten ∧
      ∀ x ∈ ws, (Rule.alt (.char isSegChar) pctEncoded).Derives x := by
  induction h with
  | done => exact ⟨[],rfl,by simp⟩
  | plain c rest bytes ok _ ih =>
    obtain ⟨ws,rfl,hws⟩ := ih
    exact ⟨[c] :: ws,rfl,List.forall_mem_cons.mpr ⟨.inl ⟨c,rfl,ok⟩,hws⟩⟩
  | escaped hi lo h l rest bytes high low _ ih =>
    obtain ⟨ws,rfl,hws⟩ := ih
    refine ⟨['%',hi,lo] :: ws,rfl,List.forall_mem_cons.mpr ⟨.inr ?_,hws⟩⟩
    exact ⟨['%'],[hi,lo],rfl,rfl,[hi],[lo],rfl,⟨hi,rfl,by simp [high]⟩,⟨lo,rfl,by simp [low]⟩⟩

theorem segment_derives {control : Char → Bool} {raw : List Char} {seg : String}
    (h : SegmentReads control raw seg) : segment.Derives raw := by
  obtain ⟨ws,rfl,hws⟩ := pieces_of_decodes h.decoded
  refine ⟨ws,rfl,?_,by simp,hws⟩
  apply List.length_pos_of_ne_nil
  rintro rfl
  exact h.some rfl

theorem segments_derive {control : Char → Bool} {raws : List (List Char)} {name : List String}
    (h : List.Forall₂ (SegmentReads control) raws name) : ∀ s ∈ raws, segment.Derives s := by
  induction h with
  | nil => simp
  | cons hseg _ ih => exact List.forall_mem_cons.mpr ⟨segment_derives hseg,ih⟩

theorem alnum_printable {c : Char} (h : isAlnum c = true) : isPrintable c = true := by
  rw [isAlnum,Bool.or_eq_true] at h
  rcases h with h | h
  · exact lowerAlnum_printable h
  · simp only [Bool.and_eq_true,decide_eq_true_eq] at h
    have hlo : 65 ≤ c.toNat := UInt32.le_iff_toNat_le.mp h.1
    have hhi : c.toNat ≤ 90 := UInt32.le_iff_toNat_le.mp h.2
    simp only [isPrintable,Bool.and_eq_true,decide_eq_true_eq]
    omega

theorem alnum_segChar {c : Char} (h : isAlnum c = true) : isSegChar c = true := by
  have hne : ∀ d, isAlnum d = false → c ≠ d := by
    rintro d hd rfl
    rw [h] at hd
    cases hd
  simp [isSegChar,alnum_printable h,hne '/' (by decide),hne '?' (by decide),hne '#' (by decide),
    hne '@' (by decide),hne '%' (by decide)]

theorem hexDig_alnum {c : Char} (h : (hexVal c).isSome = true) : isAlnum c = true := by
  unfold hexVal at h
  split at h
  · rename_i hd
    simp [isAlnum,digit_lowerAlnum hd]
  · split at h
    · rename_i hl
      simp only [Bool.and_eq_true,decide_eq_true_eq] at hl
      simp [isAlnum,isLowerAlnum,hl.1,Char.le_trans hl.2 (by decide : 'f' ≤ 'z')]
    · split at h
      · rename_i hu
        simp only [Bool.and_eq_true,decide_eq_true_eq] at hu
        simp [isAlnum,hu.1,Char.le_trans hu.2 (by decide : 'F' ≤ 'Z')]
      · cases h

theorem hexDig_raw {c : Char} (h : (hexVal c).isSome = true) : isRawChar c = true := by
  simp [isRawChar,alnum_segChar (hexDig_alnum h)]

theorem segment_chars {raw : List Char} (h : segment.Derives raw) : ∀ c ∈ raw, isRawChar c = true := by
  obtain ⟨ws,rfl,-,-,hws⟩ := h
  intro c hc
  obtain ⟨x,hx,hc⟩ := List.mem_flatten.mp hc
  rcases hws x hx with ⟨d,rfl,hd⟩ | ⟨_,_,rfl,hpct,_,_,rfl,⟨hi,rfl,hhi⟩,⟨lo,rfl,hlo⟩⟩
  · obtain rfl := List.mem_singleton.mp hc
    simp [isRawChar,hd]
  · obtain rfl : _ = ['%'] := hpct
    simp only [List.mem_append,List.mem_singleton] at hc
    rcases hc with rfl | rfl | rfl
    · decide
    · exact hexDig_raw hhi
    · exact hexDig_raw hlo

theorem version_derives {v : List Char} {t : VersionTag} (h : VersionReads .exact (some v) t) :
    (version .exact).Derives v := by
  cases h with
  | latest _ rule => exact .inl rule
  | pinned ps nonempty few each =>
    refine .inr (derives_separated.mpr ⟨ps,rfl,nonempty,?_,fun p hp => (each p hp).1⟩)
    rintro n ⟨⟩
    exact few

theorem item_derives {w : List Char} {item : SelectorItem} (h : ItemReads .exact w item) :
    (selItem .exact).Derives w := by
  cases h with
  | id _ rule => exact .inl rule
  | role word s is rule => exact .inr (.inl ⟨word,s,rfl,is,rule⟩)
  | tag word s is rule => exact .inr (.inr ⟨word,s,rfl,is,rule⟩)

theorem selector_derives {f : List Char} {o : Option (List SelectorItem)}
    (h : SelectorReads .exact (some f) o) : (selector .exact).Derives f := by
  cases h with
  | items ps items nonempty few each =>
    refine derives_separated.mpr ⟨ps,rfl,nonempty,?_,?_⟩
    · rintro n ⟨⟩
      exact few
    · clear nonempty few
      induction each with
      | nil => simp
      | cons hitem _ ih => exact List.forall_mem_cons.mpr ⟨item_derives hitem,ih⟩

end Rules

section Stages

theorem forall₂_weaken {α β : Type} {R S : α → β → Prop} {l : List α} {bs : List β}
    (h : List.Forall₂ R l bs) (himp : ∀ a ∈ l, ∀ b, R a b → S a b) : List.Forall₂ S l bs := by
  induction h with
  | nil => exact .nil
  | cons hab _ ih =>
    obtain ⟨ha,hl⟩ := List.forall_mem_cons.mp himp
    exact .cons (ha _ hab) (ih hl)

theorem versionParses_iff {o : Option (List Char)} {v : VersionTag} :
    VersionParses o v ↔ VersionReads .exact o v := by
  cases o with
  | none =>
    constructor
    · rintro rfl
      exact .absent
    · rintro ⟨⟩
      rfl
  | some w =>
    constructor
    · rintro ⟨-,h⟩
      exact versionParse_ok.mp h
    · intro h
      exact ⟨free_of_class (version_chars (version_derives h)) (by decide),versionParse_ok.mpr h⟩

theorem selectorParses_iff {o : Option (List Char)} {items : Option (List SelectorItem)} :
    (o.mapM parseSelector : Except MurlParseError _) = .ok items ↔ SelectorReads .exact o items := by
  cases o with
  | none =>
    rw [Option.mapM_none,Fallible.pure_ok]
    constructor
    · rintro rfl
      exact .absent
    · rintro ⟨⟩
      rfl
  | some f =>
    rw [Option.mapM_some,Fallible.fmap_ok]
    constructor
    · rintro ⟨items,h,rfl⟩
      exact parseSelector_ok.mp h
    · intro h
      cases h with
      | items ps items nonempty few each =>
        exact ⟨items,parseSelector_ok.mpr (.items ps items nonempty few each),rfl⟩

theorem checkQuery_ok {q : List Char} : checkQuery q = .ok () ↔ '#' ∉ q ∧ q.length ≤ 512 := by
  rw [checkQuery,Fallible.guard_ok]
  simp

theorem query_derives {q : List Char} :
    query.Derives q ↔ (∀ c ∈ q, isQueryChar c = true) ∧ q.length ≤ 512 := by
  rw [query,Rule.between,derives_run]
  simp

theorem segChar_raw {c : Char} (hp : isPrintable c = true) (hslash : c ≠ '/') (hquery : c ≠ '?')
    (hhash : c ≠ '#') (hat : c ≠ '@') : isRawChar c = true := by
  by_cases hpct : c = '%'
  · rw [hpct]
    decide
  · simp [isRawChar,isSegChar,hp,hslash,hquery,hhash,hat,hpct]

theorem mem_text {p : Parts} {c : Char} : c ∈ p.text ↔ c ∈ p.scheme ∨ c ∈ p.authority ∨ c = '/' ∨
    c ∈ p.path ∨ c ∈ marked '?' p.query ∨ c ∈ marked '#' p.selector := by
  simp [Parts.text]

theorem mem_marked {m c : Char} {o : Option (List Char)} :
    c ∈ marked m o ↔ ∃ s, o = some s ∧ (c = m ∨ c ∈ s) := by
  cases o with
  | none => simp [marked]
  | some s => simp [marked]

theorem mem_path {p : Parts} {c : Char} (h : c ∈ p.path) :
    c = '/' ∨ (∃ s ∈ p.segments, c ∈ s) ∨ c ∈ marked '@' p.version := by
  rcases List.mem_append.mp h with h | h
  · rcases Text.mem_intercalate h with h | h
    · exact .inl h
    · exact .inr (.inl h)
  · exact .inr (.inr h)

theorem mem_path_of_segment {p : Parts} {c : Char} {s : List Char} (hs : s ∈ p.segments)
    (hc : c ∈ s) : c ∈ p.path :=
  List.mem_append_left _ (Text.mem_intercalate_of_mem hs hc)

section Staged

variable {s : String} {p : Parts} {m : Murl}

theorem staged_segment (h : Staged s p m) {raw : List Char} (hraw : raw ∈ p.segments) :
    ∀ c ∈ raw, isRawChar c = true := by
  intro c hc
  have hpath := mem_path_of_segment hraw hc
  have hprint : isPrintable c = true := by
    apply h.printable
    rw [← h.text]
    exact mem_text.mpr (.inr (.inr (.inr (.inl hpath))))
  have hfree := h.rest.free raw hraw
  refine segChar_raw hprint ?_ ?_ ?_ ?_
  · rintro rfl
    exact hfree.1 hc
  · rintro rfl
    exact h.mark (by simp [hpath])
  · rintro rfl
    exact h.fragment (by simp [hpath])
  · rintro rfl
    exact hfree.2 hc

theorem staged_query (h : Staged s p m) {q : List Char} (hq : p.query = some q) : query.Derives q := by
  obtain ⟨-,hlen⟩ := checkQuery_ok.mp (h.rest.checked q hq)
  refine query_derives.mpr ⟨fun c hc => ?_,hlen⟩
  have hmem : c ∈ marked '?' p.query := mem_marked.mpr ⟨q,hq,.inr hc⟩
  have hprint : isPrintable c = true := by
    apply h.printable
    rw [← h.text]
    exact mem_text.mpr (.inr (.inr (.inr (.inr (.inl hmem)))))
  rw [isQueryChar,hprint]
  simp only [Bool.true_and,bne_iff_ne,ne_eq]
  rintro rfl
  exact h.fragment (by simp [hmem])

theorem staged_reads (h : Staged s p m) : p.Reads .exact Text.isControl m where
  authority := (parseAuthority_ok.mp h.rest.authority).1
  few := h.rest.few
  name := forall₂_weaken h.rest.name fun _ hraw _ hseg =>
    (decodeSegment_ok (staged_segment h hraw)).mp hseg
  version := versionParses_iff.mp h.rest.version
  query := h.rest.kept
  selector := selectorParses_iff.mp h.rest.selector

theorem reads_wellFormed {control : Char → Bool} (hscheme : Text.lowercase p.scheme = "murl://".toList)
    (hne : p.segments ≠ []) (hquery : ∀ q ∈ p.query, Syntax.query.Derives q)
    (hreads : p.Reads .exact control m) : p.WellFormed .exact where
  scheme := hscheme
  authority := authority_derives hreads.authority
  nonempty := hne
  segments := segments_derive hreads.name
  version := by
    intro v hv
    have hver := hreads.version
    rw [hv] at hver
    exact version_derives hver
  query := hquery
  selector := by
    intro f hf
    have hsel := hreads.selector
    rw [hf] at hsel
    exact selector_derives hsel

theorem staged_accepts (h : Staged s p m) : Accepts .exact s p m where
  text := h.text
  rule := reads_wellFormed h.scheme h.rest.nonempty (fun _ hq => staged_query h hq) (staged_reads h)
  reads := staged_reads h
  size := h.size
  canonical := h.rest.canonical
  host := (parseAuthority_ok.mp h.rest.authority).2

end Staged

section Accepted

variable {s : String} {p q : Parts} {m : Murl}

theorem wellFormed_printable (h : p.WellFormed .exact) : ∀ c ∈ p.text, isPrintable c = true := by
  intro c hc
  rcases mem_text.mp hc with hc | hc | rfl | hc | hc | hc
  · apply toLower_printable
    have hmem : c.toLower ∈ Text.lowercase p.scheme := List.mem_map_of_mem hc
    rw [h.scheme] at hmem
    exact List.all_eq_true.mp (by decide : "murl://".toList.all isPrintable = true) _ hmem
  · apply toLower_printable
    exact authorityChar_printable (authority_chars h.authority _ (List.mem_map_of_mem hc))
  · decide
  · rcases mem_path hc with rfl | ⟨raw,hraw,hc⟩ | hc
    · decide
    · exact rawChar_printable (segment_chars (h.segments raw hraw) c hc)
    · obtain ⟨v,hv,rfl | hc⟩ := mem_marked.mp hc
      · decide
      · exact versionChar_printable (version_chars (h.version v hv) c hc)
  · obtain ⟨q,hq,rfl | hc⟩ := mem_marked.mp hc
    · decide
    · exact queryChar_printable ((query_derives.mp (h.query q hq)).1 c hc)
  · obtain ⟨f,hf,rfl | hc⟩ := mem_marked.mp hc
    · decide
    · exact selectorChar_printable (selector_chars (h.selector f hf) c hc)

theorem authority_no {c : Char} (h : p.WellFormed .exact) (hl : Text.isLetter c = false)
    (hc : isAuthorityChar c = false) : c ∉ p.authority := by
  rw [← Text.mem_lowercase hl]
  exact free_of_class (authority_chars h.authority) hc

theorem marked_no {c : Char} (h : p.WellFormed .exact) (hat : c ≠ '@')
    (hc : isVersionChar c = false) : c ∉ marked '@' p.version := by
  intro hmem
  obtain ⟨v,hv,hmem⟩ := mem_marked.mp hmem
  exact free_of_class (version_chars (h.version v hv)) hc (hmem.resolve_left hat)

theorem path_no {c : Char} (h : p.WellFormed .exact) (hslash : c ≠ '/') (hat : c ≠ '@')
    (hv : isVersionChar c = false) (hs : isRawChar c = false) : c ∉ p.path := by
  intro hmem
  rcases mem_path hmem with hc | ⟨raw,hraw,hc⟩ | hc
  · exact hslash hc
  · exact free_of_class (segment_chars (h.segments raw hraw)) hs hc
  · exact marked_no h hat hv hc

theorem query_no (h : p.WellFormed .exact) : '#' ∉ marked '?' p.query := by
  intro hmem
  obtain ⟨q,hq,hmem⟩ := mem_marked.mp hmem
  have hchars := (query_derives.mp (h.query q hq)).1
  exact free_of_class hchars (by decide) (hmem.resolve_left (by decide))

theorem wellFormed_fragment (h : p.WellFormed .exact) :
    '#' ∉ p.authority ++ '/' :: p.path ++ marked '?' p.query := by
  have ha := authority_no h (c := '#') (by decide) (by decide)
  have hp := path_no h (c := '#') (by decide) (by decide) (by decide) (by decide)
  simp [ha,hp,query_no h]

theorem wellFormed_mark (h : p.WellFormed .exact) : '?' ∉ p.authority ++ '/' :: p.path := by
  have ha := authority_no h (c := '?') (by decide) (by decide)
  have hp := path_no h (c := '?') (by decide) (by decide) (by decide) (by decide)
  simp [ha,hp]

theorem accepts_staged (h : Accepts .exact s p m) : Staged s p m where
  size := h.size
  printable := by
    rw [← h.text]
    exact wellFormed_printable h.rule
  text := h.text
  scheme := h.rule.scheme
  fragment := wellFormed_fragment h.rule
  mark := wellFormed_mark h.rule
  rest := {
    text := rfl
    slash := authority_no h.rule (by decide) (by decide)
    authority := parseAuthority_ok.mpr ⟨h.reads.authority,h.host⟩
    nonempty := h.rule.nonempty
    few := h.reads.few
    free := fun raw hraw =>
      ⟨free_of_class (segment_chars (h.rule.segments raw hraw)) (by decide),
        free_of_class (segment_chars (h.rule.segments raw hraw)) (by decide)⟩
    marker := marked_no h.rule (by decide) (by decide)
    name := forall₂_weaken h.reads.name fun raw hraw _ hseg =>
      (decodeSegment_ok (segment_chars (h.rule.segments raw hraw))).mpr hseg
    version := versionParses_iff.mpr h.reads.version
    queryIs := rfl
    checked := fun q hq => by
      obtain ⟨hchars,hlen⟩ := query_derives.mp (h.rule.query q hq)
      exact checkQuery_ok.mpr ⟨free_of_class hchars (by decide),hlen⟩
    kept := h.reads.query
    selectorIs := rfl
    selector := selectorParses_iff.mpr h.reads.selector
    canonical := h.canonical }

theorem parse_ok {s : String} {m : Murl} : Murl.parse s = .ok m ↔ Accepted .exact s m := by
  rw [parse_staged]
  constructor
  · rintro ⟨p,h⟩
    exact ⟨p,staged_accepts h⟩
  · rintro ⟨p,h⟩
    exact ⟨p,accepts_staged h⟩

theorem scheme_length (h : p.WellFormed .exact) : p.scheme.length = 7 := by
  rw [← Text.length_lowercase,h.scheme]
  rfl

theorem path_at (h : p.WellFormed .exact) : '@' ∉ ['/'].intercalate p.segments := by
  intro hmem
  rcases Text.mem_intercalate hmem with hc | ⟨raw,hraw,hc⟩
  · exact absurd hc (by decide)
  · exact free_of_class (segment_chars (h.segments raw hraw)) (by decide) hc

theorem segments_split (h : p.WellFormed .exact) :
    (['/'].intercalate p.segments).splitOn '/' = p.segments :=
  List.splitOn_intercalate '/'
    (fun raw hraw => free_of_class (segment_chars (h.segments raw hraw)) (by decide)) h.nonempty

theorem wellFormed_unique (hp : p.WellFormed .exact) (hq : q.WellFormed .exact)
    (h : p.text = q.text) : p = q := by
  obtain ⟨hscheme,hrest⟩ := List.append_inj h (by rw [scheme_length hp,scheme_length hq])
  obtain ⟨hbody,hselector⟩ := marked_inj hrest (wellFormed_fragment hp) (wellFormed_fragment hq)
  obtain ⟨hplace,hquery⟩ := marked_inj hbody (wellFormed_mark hp) (wellFormed_mark hq)
  have hslash : p.authority = q.authority ∧ some p.path = some q.path :=
    marked_inj (c := '/') hplace (authority_no hp (by decide) (by decide))
      (authority_no hq (by decide) (by decide))
  obtain ⟨hauthority,hpath⟩ := hslash
  have hpath := Option.some.inj hpath
  obtain ⟨hname,hversion⟩ := marked_inj hpath (path_at hp) (path_at hq)
  have hsegments := segments_split hp
  rw [hname,segments_split hq] at hsegments
  obtain ⟨⟩ := p
  obtain ⟨⟩ := q
  simp_all

end Accepted

end Stages

end MurlSystem.Syntax
