import MurlSystem.Naming.Printing
import MurlSystem.Reference.Murl

namespace MurlSystem.Reference

open Abnf MurlSystem.Syntax

section Patterns

theorem isDashAlnum_eq : isDashAlnum = Syntax.isDashAlnum := rfl

theorem isIdChar_eq (c : Char) : isIdChar c = Syntax.isIdChar c := by
  simp only [isIdChar,Syntax.isIdChar,Bool.or_assoc]
  rw [Bool.or_comm (c == '_')]

theorem reResourceId_iff {s : List Char} : reResourceId s = true ↔ resourceId.Derives s := by
  rw [resourceId,ident_derives]
  cases s with
  | nil => simp [reResourceId]
  | cons c rest =>
    simp only [reResourceId,Bool.and_eq_true,decide_eq_true_eq,List.all_eq_true,isIdChar_eq]
    constructor
    · rintro ⟨⟨hc,hlen⟩,hall⟩
      exact ⟨c,rest,rfl,hc,hall,by omega⟩
    · rintro ⟨d,ds,heq,hc,hall,hlen⟩
      obtain ⟨rfl,rfl⟩ := List.cons.inj heq
      exact ⟨⟨hc,by omega⟩,hall⟩

theorem reRole_iff {s : List Char} : reRole s = true ↔ role.Derives s := by
  rw [role,ident_derives]
  cases s with
  | nil => simp [reRole]
  | cons c rest =>
    simp only [reRole,Bool.and_eq_true,decide_eq_true_eq,List.all_eq_true,isDashAlnum_eq]
    constructor
    · rintro ⟨⟨hc,hlen⟩,hall⟩
      exact ⟨c,rest,rfl,hc,hall,by omega⟩
    · rintro ⟨d,ds,heq,hc,hall,hlen⟩
      obtain ⟨rfl,rfl⟩ := List.cons.inj heq
      exact ⟨⟨hc,by omega⟩,hall⟩

theorem reTag_iff {s : List Char} : reTag s = true ↔ tag.Derives s := by
  rw [tag,Rule.between,derives_run]
  simp only [reTag,Bool.and_eq_true,decide_eq_true_eq,List.all_eq_true,isDashAlnum_eq]
  constructor
  · rintro ⟨⟨hleast,hmost⟩,hall⟩
    refine ⟨hall,hleast,?_⟩
    rintro n ⟨⟩
    exact hmost
  · rintro ⟨hall,hleast,hmost⟩
    exact ⟨⟨hleast,hmost 32 rfl⟩,hall⟩

theorem dashAlnum_edge {c : Char} : isLowerAlnum c = true ↔ Syntax.isDashAlnum c = true ∧ c ≠ '-' := by
  constructor
  · intro h
    refine ⟨by simp [Syntax.isDashAlnum,h],?_⟩
    rintro rfl
    exact absurd h (by decide)
  · rintro ⟨h,hne⟩
    simpa [Syntax.isDashAlnum,hne] using h

theorem reLabel_iff {l : List Char} : reLabel l = true ↔ LabelOk l := by
  have hlabel : label.Derives l ↔ (∀ c ∈ l, Syntax.isDashAlnum c = true) ∧ 1 ≤ l.length ∧
      l.length ≤ 63 := by
    rw [label,Rule.between,derives_run]
    simp
  constructor
  · intro h
    cases l with
    | nil => cases h
    | cons c rest =>
      rw [reLabel,Bool.and_eq_true] at h
      obtain ⟨hc,hrest⟩ := h
      obtain ⟨hcd,hcne⟩ := dashAlnum_edge.mp hc
      rcases List.eq_nil_or_concat rest with rfl | ⟨mid,d,rfl⟩
      · exact ⟨hlabel.mpr ⟨by simpa using hcd,by simp,by simp⟩,by simpa using hcne,
          by simpa using hcne⟩
      · simp only [List.concat_eq_append,List.getLast?_concat,List.dropLast_concat,
          Bool.and_eq_true,decide_eq_true_eq,List.all_eq_true,isDashAlnum_eq] at hrest
        obtain ⟨⟨hd,hlen⟩,hmid⟩ := hrest
        obtain ⟨hdd,hdne⟩ := dashAlnum_edge.mp hd
        refine ⟨hlabel.mpr ⟨?_,by simp,?_⟩,by simpa using hcne,?_⟩
        · simp only [List.concat_eq_append,List.forall_mem_cons,List.forall_mem_append]
          exact ⟨hcd,hmid,by simpa using hdd⟩
        · simp
          omega
        · rw [List.concat_eq_append,← List.cons_append,List.getLast?_concat]
          simpa using hdne
  · rintro ⟨hrule,hfirst,hlast⟩
    obtain ⟨hall,hleast,hmost⟩ := hlabel.mp hrule
    cases l with
    | nil => simp at hleast
    | cons c rest =>
      obtain ⟨hc,hrest⟩ := List.forall_mem_cons.mp hall
      have hcl := dashAlnum_edge.mpr ⟨hc,by simpa using hfirst⟩
      rw [reLabel,hcl,Bool.true_and]
      rcases List.eq_nil_or_concat rest with rfl | ⟨mid,d,rfl⟩
      · rfl
      · rw [List.concat_eq_append] at hrest hlast hmost ⊢
        rw [← List.cons_append,List.getLast?_concat] at hlast
        obtain ⟨hmid,hd⟩ := List.forall_mem_append.mp hrest
        have hdl := dashAlnum_edge.mpr ⟨by simpa using hd,by simpa using hlast⟩
        simp only [List.getLast?_concat,List.dropLast_concat,hdl,Bool.true_and,
          Bool.and_eq_true,decide_eq_true_eq,List.all_eq_true,isDashAlnum_eq]
        refine ⟨?_,hmid⟩
        simp at hmost
        omega

theorem reVnum_iff {p : List Char} : reVnum p = true ↔ vnum.Derives p ∧ NoLeadingZero p := by
  rw [vnum_derives]
  cases p with
  | nil => simp [reVnum]
  | cons c rest =>
    simp only [reVnum,Bool.or_eq_true,Bool.and_eq_true,decide_eq_true_eq,List.all_eq_true,
      beq_iff_eq,List.isEmpty_iff]
    constructor
    · rintro (⟨rfl,rfl⟩ | ⟨⟨hc,hlen⟩,hall⟩)
      · exact ⟨⟨List.forall_mem_singleton.mpr (by decide),by simp,by simp⟩,fun h => absurd h (by simp)⟩
      · have hlo : 49 ≤ c.toNat := UInt32.le_iff_toNat_le.mp hc.1
        refine ⟨⟨List.forall_mem_cons.mpr ⟨?_,hall⟩,by simp,by simp; omega⟩,fun _ hzero => ?_⟩
        · have hge : '0' ≤ c := UInt32.le_iff_toNat_le.mpr (by
            change 48 ≤ c.toNat
            omega)
          simp [isDigit,hge,hc.2]
        · obtain rfl : c = '0' := by simpa using hzero
          exact absurd hlo (by decide)
    · rintro ⟨⟨hall,-,hlen⟩,hzero⟩
      obtain ⟨hc,hrest⟩ := List.forall_mem_cons.mp hall
      by_cases h0 : c = '0'
      · subst h0
        left
        refine ⟨rfl,?_⟩
        by_contra hne
        have hpos := List.length_pos_of_ne_nil hne
        exact hzero (by simp; omega) rfl
      · right
        simp only [isDigit,Bool.and_eq_true,decide_eq_true_eq] at hc
        have hlo : 48 ≤ c.toNat := UInt32.le_iff_toNat_le.mp hc.1
        have hne : c.toNat ≠ 48 := fun h => h0 (Char.toNat_inj.mp h)
        have hge : '1' ≤ c := UInt32.le_iff_toNat_le.mpr (by
          change 49 ≤ c.toNat
          omega)
        exact ⟨⟨⟨hge,hc.2⟩,by simp at hlen; omega⟩,hrest⟩

end Patterns

section Authority

def place : Authority → String × Option Nat
  | .local => ("local",none)
  | .remote host port => (host,port)

theorem checkLabel_ok {l : List Char} : checkLabel l = .ok () ↔ LabelOk l := by
  have hlen : LabelOk l → l ≠ [] ∧ l.length ≤ 63 := by
    intro h
    have hrule := h.rule
    rw [label,Rule.between,derives_run] at hrule
    exact ⟨List.ne_nil_of_length_pos hrule.2.1,hrule.2.2 63 rfl⟩
  rw [checkLabel,Fallible.guard_ok,Fallible.guard_ok,Fallible.guard_ok]
  simp only [List.isEmpty_iff,Nat.not_lt,Bool.not_eq_true',Bool.not_eq_false,reLabel_iff,and_true]
  constructor
  · rintro ⟨-,-,h⟩
    exact h
  · intro h
    exact ⟨(hlen h).1,(hlen h).2,h⟩

theorem port_ok {p : List Char} :
    ¬(!(decide (1 ≤ p.length) && decide (p.length ≤ 5)) || !p.all isDigit) = true ↔
      port.Derives p := by
  rw [port,Rule.between,derives_run]
  simp only [Bool.or_eq_true,Bool.not_eq_true',Bool.and_eq_false_iff,decide_eq_false_iff_not,
    List.all_eq_false,not_or,not_exists,not_and,not_not]
  constructor
  · rintro ⟨⟨hleast,hmost⟩,hall⟩
    refine ⟨hall,hleast,?_⟩
    rintro n ⟨⟩
    exact hmost
  · rintro ⟨hall,hleast,hmost⟩
    exact ⟨⟨hleast,hmost 5 rfl⟩,hall⟩

theorem count_colon {a b : List Char} :
    (a ++ ':' :: b).count ':' ≤ 1 ↔ ':' ∉ a ∧ ':' ∉ b := by
  rw [List.count_append,List.count_cons_self,← List.count_eq_zero,← List.count_eq_zero]
  omega

theorem splitPort_ok {l host : List Char} {o : Option Nat} :
    splitPort l = .ok (host,o) ↔ (':' ∉ l ∧ host = l ∧ o = none) ∨
      ∃ p, l = host ++ ':' :: p ∧ ':' ∉ host ∧ port.Derives p ∧ 1 ≤ decimal p ∧
        decimal p ≤ 65535 ∧ o = some (decimal p) := by
  unfold splitPort
  cases hs : Text.rsplitOnce ':' l with
  | none =>
    have hno := Text.rsplitOnce_none.mp hs
    constructor
    · intro h
      obtain ⟨rfl,rfl⟩ := Prod.mk.inj (Except.ok.inj h)
      exact .inl ⟨hno,rfl,rfl⟩
    · rintro (⟨-,rfl,rfl⟩ | ⟨p,rfl,-⟩)
      · rfl
      · simp at hno
  | some q =>
    obtain ⟨a,b⟩ := q
    obtain ⟨rfl,hb⟩ := Text.rsplitOnce_some hs
    simp only [Fallible.guard_ok,Nat.not_lt,count_colon,port_ok,Except.ok.injEq,Prod.mk.injEq]
    constructor
    · rintro ⟨⟨ha,-⟩,hport,hrange,rfl,rfl⟩
      simp only [Bool.not_eq_true',Bool.and_eq_false_iff,decide_eq_false_iff_not,not_or,
        not_not] at hrange
      exact .inr ⟨b,rfl,ha,hport,hrange.1,hrange.2,rfl⟩
    · rintro (⟨hno,-⟩ | ⟨p,heq,hhost,hport,hleast,hmost,rfl⟩)
      · simp at hno
      · have hp : ':' ∉ p := free_of_class (port_plain hport) (by decide)
        have hsplit := Text.rsplitOnce_append host hp
        rw [← heq,hs] at hsplit
        obtain ⟨rfl,rfl⟩ := Prod.mk.inj (Option.some.inj hsplit)
        exact ⟨⟨hhost,hb⟩,hport,by simp [hleast,hmost],rfl,rfl⟩

theorem checkHost_ok {host : List Char} {port : Option Nat} {r : String × Option Nat} :
    checkHost host port = .ok r ↔ (host = localAuthority.toList ∧ port = none ∧ r = ("local",none)) ∨
      (host ≠ localAuthority.toList ∧ HostOk host ∧ r = (String.ofList host,port)) := by
  rw [checkHost,Fallible.ite_ok,Fallible.guard_ok,Fallible.guard_ok]
  simp only [Fallible.bind_ok,Fallible.forM_ok,Fallible.pure_ok,checkLabel_ok,Except.ok.injEq,
    List.isEmpty_iff,exists_const]
  constructor
  · rintro (⟨hl,hport,rfl⟩ | ⟨hl,-,hok,rfl⟩)
    · exact .inl ⟨hl,by simpa using hport,rfl⟩
    · exact .inr ⟨hl,hok,rfl⟩
  · rintro (⟨hl,rfl,rfl⟩ | ⟨hl,hok,rfl⟩)
    · exact .inl ⟨hl,by simp,rfl⟩
    · exact .inr ⟨hl,hostOk_nonempty hok,hok,rfl⟩

theorem parseAuthority_ok {raw : List Char} {r : String × Option Nat} :
    parseAuthority raw = .ok r ↔ ∃ a, AuthorityReads (Text.lowercase raw) a ∧ r = place a := by
  rw [parseAuthority,Fallible.guard_ok,Fallible.guard_ok,Fallible.guard_ok]
  simp only [Fallible.bind_ok,Prod.exists,splitPort_ok,checkHost_ok,List.isEmpty_iff,
    List.contains_iff_mem,Bool.or_eq_true,not_or,and_assoc]
  constructor
  · rintro ⟨-,-,-,-,host,o,⟨-,rfl,rfl⟩ | ⟨p,hl,-,hport,hleast,hmost,rfl⟩,hhost⟩
    · rcases hhost with ⟨hl,-,rfl⟩ | ⟨hl,hok,rfl⟩
      · exact ⟨.local,by rw [hl]; exact .reserved,rfl⟩
      · exact ⟨_,.host _ hok hl,rfl⟩
    · rcases hhost with ⟨-,hnone,-⟩ | ⟨hfree,hok,rfl⟩
      · cases hnone
      · rw [hl]
        exact ⟨_,.hostPort host p hok hfree hport hleast hmost,rfl⟩
  · rintro ⟨a,hread,rfl⟩
    obtain ⟨hne,hat,hopen,hclose⟩ := authority_free hread
    have hmem : ∀ {d : Char}, Text.isLetter d = false → d ∉ Text.lowercase raw → d ∉ raw :=
      fun hd hn hc => hn ((Text.mem_lowercase hd).mpr hc)
    refine ⟨fun hnil => hne (by rw [hnil]; rfl),hmem (by decide) hat,hmem (by decide) hopen,
      hmem (by decide) hclose,?_⟩
    generalize Text.lowercase raw = l at hread
    cases hread with
    | reserved => exact ⟨_,none,.inl ⟨by decide,rfl,rfl⟩,.inl ⟨rfl,rfl,rfl⟩⟩
    | host _ ok free =>
      exact ⟨_,none,.inl ⟨hostOk_free ok (by decide) (by decide),rfl,rfl⟩,.inr ⟨free,ok,rfl⟩⟩
    | hostPort h p ok free digits least most =>
      exact ⟨h,_,.inr ⟨p,rfl,hostOk_free ok (by decide) (by decide),digits,least,most,rfl⟩,
        .inr ⟨free,ok,rfl⟩⟩

end Authority

section Version

def versionText (v : VersionTag) : Option String := (printedVersion v).map String.ofList

theorem checkParts_ok {parts : List (List Char)} {u : Unit} :
    (parts.forM fun part => if !reVnum part then .error .versionComponent else .ok () :
        Except MurlSyntaxError Unit) = .ok u ↔ ∀ p ∈ parts, vnum.Derives p ∧ NoLeadingZero p := by
  rw [Fallible.forM_ok]
  simp only [Fallible.guard_ok,Bool.not_eq_true',Bool.not_eq_false,reVnum_iff,and_true]

theorem parseVersion_ok {raw : List Char} {o : Option String} :
    parseVersion raw = .ok o ↔ ∃ v, VersionReads .exact (some raw) v ∧ o = versionText v := by
  rw [parseVersion,Fallible.guard_ok,Fallible.ite_ok,Fallible.guard_ok]
  simp only [Fallible.bind_ok,checkParts_ok,Fallible.pure_ok,Except.ok.injEq,List.isEmpty_iff,
    Nat.not_lt,exists_const]
  constructor
  · rintro ⟨-,⟨rfl,rfl⟩ | ⟨-,hfew,heach,rfl⟩⟩
    · exact ⟨.latest,.latest _ rfl,rfl⟩
    · have hjoin : ['.'].intercalate (raw.splitOn '.') = raw := List.intercalate_splitOn '.'
      have hread : VersionReads .exact (some (['.'].intercalate (raw.splitOn '.'))) _ :=
        .pinned _ (List.splitOn_ne_nil '.' raw) hfew heach
      rw [hjoin] at hread
      exact ⟨_,hread,by rw [versionText,printedVersion_pinned heach,hjoin]; rfl⟩
  · rintro ⟨v,hread,rfl⟩
    have hok := versionParse_ok.mpr hread
    rw [VersionTag.parse,Fallible.ite_ok,Fallible.guard_ok,Fallible.guard_ok] at hok
    cases hread with
    | latest _ rule =>
      obtain rfl : raw = "latest".toList := rule
      exact ⟨by decide,.inl ⟨rfl,rfl⟩⟩
    | pinned ps nonempty few each =>
      have hparts : (['.'].intercalate ps).splitOn '.' = ps :=
        List.splitOn_intercalate '.' (fun p hp => vnum_free (each p hp).1 (by decide)) nonempty
      rcases hok with ⟨-,hlatest⟩ | ⟨hne,hsome,-⟩
      · cases hlatest
      · refine ⟨by simpa using hsome,.inr ⟨hne,?_⟩⟩
        rw [hparts,versionText,printedVersion_pinned each]
        exact ⟨few,each,rfl⟩

end Version

section Segments

def refControl (c : Char) : Bool := c.toNat < 0x20 || c.toNat == 0x7f

theorem hexDigitValue_eq : hexDigitValue = hexVal := rfl

theorem pctDecode_eq {whole raw : List Char} {bytes : List UInt8}
    (h : ∀ c ∈ raw, isRawChar c = true) :
    pctDecode raw = .ok bytes ↔ percentDecodeFrom whole raw = .ok bytes := by
  induction raw using percentDecodeFrom.induct generalizing bytes with
  | case1 => simp [pctDecode,percentDecodeFrom]
  | case2 hi lo rest x y hlo hhi ih =>
    have hrest : ∀ out, pctDecode rest = .ok out ↔ percentDecodeFrom whole rest = .ok out :=
      fun out => ih fun c hc => h c (by simp [hc])
    simp only [pctDecode,percentDecodeFrom,hexDigitValue_eq,hhi,hlo,Fallible.bind_ok,
      Fallible.pure_ok,hrest]
  | case3 hi lo rest hbad =>
    rw [pctDecode,percentDecodeFrom.eq_2,hexDigitValue_eq]
    split
    · rename_i hhi hlo
      exact absurd hlo (hbad _ _ hhi)
    · simp
  | case4 rest hshort =>
    rw [pctDecode.eq_3 _ hshort,percentDecodeFrom.eq_3 _ _ hshort]
    simp
  | case5 c rest hlong hc ih =>
    have hrest : ∀ out, pctDecode rest = .ok out ↔ percentDecodeFrom whole rest = .ok out :=
      fun out => ih fun c hc => h c (by simp [hc])
    have hprint := rawChar_printable (h c (by simp))
    have hrange : (decide (33 ≤ c.toNat) && decide (c.toNat ≤ 126)) = true := hprint
    rw [pctDecode.eq_4 _ _ hlong hc,percentDecodeFrom.eq_4 _ _ _ hlong hc,
      Text.encode_ascii (isPrintable_ascii hprint),if_pos hrange]
    simp only [Fallible.bind_ok,Fallible.pure_ok,hrest,List.singleton_append]

theorem pctDecode_ok {raw : List Char} {bytes : List UInt8} (h : ∀ c ∈ raw, isRawChar c = true) :
    pctDecode raw = .ok bytes ↔ Decodes raw bytes := by
  have heq : pctDecode raw = .ok bytes ↔ percentDecodeFrom raw raw = .ok bytes := pctDecode_eq h
  rw [heq,percentDecodeFrom_ok h]

theorem decodeUtf8_ok {b : List UInt8} {s : String} : decodeUtf8 b = .ok s ↔ Text.bytes s = b := by
  rw [← Text.fromUTF8_eq_some,decodeUtf8]
  cases String.fromUTF8? (ByteArray.mk b.toArray) <;> simp

theorem hasControl_iff {s : String} : hasControl s = false ↔ ∀ c ∈ s.toList, refControl c = false := by
  rw [hasControl,List.any_eq_false]
  simp only [Bool.not_eq_true]
  exact .rfl

theorem parseSegment_ok {raw : List Char} {seg : String} (h : ∀ c ∈ raw, isRawChar c = true) :
    parseSegment raw = .ok seg ↔ SegmentReads refControl raw seg := by
  have hsize : maxSegmentBytes < (Text.bytes seg).length ↔ ¬seg.utf8ByteSize ≤ maxSegmentBytes := by
    rw [Text.length_bytes,Nat.not_le]
  simp only [parseSegment,Fallible.bind_ok,Fallible.ite_ok,Fallible.throw_ok,false_and,
    exists_false,and_false,false_or,Fallible.pure_ok,pctDecode_ok h,decodeUtf8_ok,
    List.isEmpty_iff,Bool.or_eq_true,decide_eq_true_eq,not_or,List.contains_iff_mem,
    Bool.not_eq_true,hasControl_iff]
  constructor
  · rintro ⟨hne,_,hdec,hfits,s,rfl,hclean,⟨hslash,hback⟩,hdots,rfl⟩
    refine ⟨hne,hdec,not_not.mp fun hn => hfits (hsize.mpr hn),fun c hc => ⟨hclean c hc,?_,?_⟩,hdots⟩
    · rintro rfl
      exact hslash hc
    · rintro rfl
      exact hback hc
  · rintro ⟨hne,hdec,hfits,hclean,hdots⟩
    refine ⟨hne,_,hdec,fun hn => hsize.mp hn hfits,seg,rfl,fun c hc => (hclean c hc).1,⟨?_,?_⟩,
      hdots,rfl⟩
    · exact fun hc => (hclean '/' hc).2.1 rfl
    · exact fun hc => (hclean '\\' hc).2.2 rfl

end Segments

section Path

theorem parseMark_ok {path namePart : List Char} {o : Option String} :
    parseMark path = .ok (namePart,o) ↔ ∃ ver, path = namePart ++ marked '@' ver ∧ '@' ∉ namePart ∧
      (∀ v ∈ ver, '/' ∉ v) ∧ ∃ t, VersionReads .exact ver t ∧ o = versionText t := by
  unfold parseMark
  cases hs : Text.splitOnce '@' path with
  | none =>
    have hno := Text.splitOnce_eq_none.mp hs
    constructor
    · intro h
      obtain ⟨rfl,rfl⟩ := Prod.mk.inj (Except.ok.inj h)
      exact ⟨none,by simp [marked],hno,by simp,.latest,.absent,rfl⟩
    · rintro ⟨ver,rfl,-,-,t,hread,rfl⟩
      cases ver with
      | some v => simp [marked] at hno
      | none =>
        cases hread
        simp [marked,versionText,printedVersion]
  | some q =>
    obtain ⟨a,b⟩ := q
    obtain ⟨rfl,ha⟩ := Text.splitOnce_eq_some.mp hs
    simp only [Fallible.guard_ok,Fallible.bind_ok,Fallible.pure_ok,parseVersion_ok,Prod.mk.injEq,
      List.contains_iff_mem]
    constructor
    · rintro ⟨-,hslash,_,⟨t,hread,rfl⟩,rfl,rfl⟩
      refine ⟨some b,rfl,ha,?_,t,hread,rfl⟩
      rintro v ⟨⟩
      exact hslash
    · rintro ⟨ver,heq,hname,hslash,t,hread,rfl⟩
      obtain ⟨rfl,rfl⟩ : a = namePart ∧ some b = ver :=
        marked_inj (c := '@') (o := some b) heq ha hname
      have hat : '@' ∉ b := free_of_class (version_chars (version_derives hread)) (by decide)
      exact ⟨hat,hslash b rfl,_,⟨t,hread,rfl⟩,rfl,rfl⟩

end Path

section Selector

theorem checkItem_ok {item : List Char} : checkItem item = .ok () ↔ ∃ i, ItemReads .exact item i := by
  have hsome : ∀ i, ItemReads .exact item i → item ≠ [] := fun i h => (item_free h).1
  rw [checkItem,Fallible.guard_ok,List.isEmpty_iff]
  constructor
  · rintro ⟨-,h⟩
    cases hr : item.dropPrefix? "role=".toList with
    | some s =>
      obtain rfl := dropPrefix_iff.mp hr
      simp only [hr,Fallible.guard_ok,Bool.not_eq_true',Bool.not_eq_false,reRole_iff,and_true] at h
      exact ⟨_,.role _ s rfl h⟩
    | none =>
      cases ht : item.dropPrefix? "tag=".toList with
      | some s =>
        obtain rfl := dropPrefix_iff.mp ht
        simp only [hr,ht,Fallible.guard_ok,Bool.not_eq_true',Bool.not_eq_false,reTag_iff,
          and_true] at h
        exact ⟨_,.tag _ s rfl h⟩
      | none =>
        simp only [hr,ht,Fallible.guard_ok,Bool.not_eq_true',Bool.not_eq_false,reResourceId_iff,
          and_true] at h
        exact ⟨_,.id item h⟩
  · rintro ⟨i,hread⟩
    refine ⟨hsome i hread,?_⟩
    cases hread with
    | id _ rule =>
      have hfree : '=' ∉ item := resourceId_free rule (by decide)
      rw [dropPrefix_none (c := '=') (by decide) hfree,dropPrefix_none (c := '=') (by decide) hfree]
      exact if_neg (by simp [reResourceId_iff.mpr rule])
    | role word s is rule =>
      obtain rfl : word = "role=".toList := is
      rw [dropPrefix_iff.mpr rfl]
      exact if_neg (by simp [reRole_iff.mpr rule])
    | tag word s is rule =>
      obtain rfl : word = "tag=".toList := is
      have hrole : ("tag=".toList ++ s).dropPrefix? "role=".toList = none := rfl
      rw [hrole,dropPrefix_iff.mpr rfl]
      exact if_neg (by simp [reTag_iff.mpr rule])

theorem items_printed {ps : List (List Char)} {items : List SelectorItem}
    (h : List.Forall₂ (ItemReads .exact) ps items) :
    ps.map String.ofList = items.map SelectorItem.toString := by
  induction h with
  | nil => rfl
  | cons hitem _ ih =>
    rw [List.map_cons,List.map_cons,ih,← item_reprints hitem,String.ofList_toList]

theorem items_exist {ps : List (List Char)} (h : ∀ p ∈ ps, ∃ i, ItemReads .exact p i) :
    ∃ items, List.Forall₂ (ItemReads .exact) ps items := by
  induction ps with
  | nil => exact ⟨[],.nil⟩
  | cons p ps ih =>
    obtain ⟨⟨i,hi⟩,hps⟩ := List.forall_mem_cons.mp h
    obtain ⟨items,hitems⟩ := ih hps
    exact ⟨i :: items,.cons hi hitems⟩

theorem items_each {ps : List (List Char)} {items : List SelectorItem}
    (h : List.Forall₂ (ItemReads .exact) ps items) : ∀ p ∈ ps, ∃ i, ItemReads .exact p i := by
  intro p hp
  obtain ⟨item,-,hitem⟩ := Fallible.forall₂_mem h p hp
  exact ⟨item,hitem⟩

theorem parseSelector_ok {raw : List Char} {l : List String} :
    parseSelector raw = .ok l ↔ ∃ items, SelectorReads .exact (some raw) (some items) ∧
      l = items.map SelectorItem.toString := by
  rw [parseSelector,Fallible.guard_ok,Fallible.guard_ok]
  simp only [Fallible.bind_ok,Fallible.forM_ok,checkItem_ok,Fallible.pure_ok,List.isEmpty_iff,
    Nat.not_lt,exists_const]
  constructor
  · rintro ⟨-,hfew,heach,rfl⟩
    obtain ⟨items,hitems⟩ := items_exist heach
    have hjoin : [','].intercalate (raw.splitOn ',') = raw := List.intercalate_splitOn ','
    have hread : SelectorReads .exact (some ([','].intercalate (raw.splitOn ','))) (some items) :=
      .items _ items (List.splitOn_ne_nil ',' raw) hfew hitems
    rw [hjoin] at hread
    exact ⟨items,hread,items_printed hitems⟩
  · rintro ⟨items,hread,rfl⟩
    obtain ⟨hne,-⟩ := Fallible.guard_ok.mp (Syntax.parseSelector_ok.mpr hread)
    cases hread with
    | items ps _ nonempty few each =>
      have hparts : ([','].intercalate ps).splitOn ',' = ps :=
        List.splitOn_intercalate ',' (fun p hp => (items_free each p hp).2) nonempty
      rw [hparts]
      exact ⟨by simpa using hne,few,items_each each,items_printed each⟩

end Selector

end MurlSystem.Reference
