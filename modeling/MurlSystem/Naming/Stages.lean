import MurlSystem.Foundation.Fallible
import MurlSystem.Foundation.Split
import MurlSystem.Naming.Reading

namespace MurlSystem.Syntax

open Abnf

section Segments

def isRawChar (c : Char) : Bool := isSegChar c || c == '%'

theorem isSegChar_ascii {c : Char} (h : isSegChar c = true) : Text.isAscii c = true := by
  simp only [isSegChar,isPrintable,Bool.and_eq_true,decide_eq_true_eq] at h
  simp only [Text.isAscii,decide_eq_true_eq]
  omega

theorem percent_not_segChar : isSegChar '%' = false := by decide

theorem percentDecodeFrom_ok {whole raw : List Char} {bytes : List UInt8}
    (h : ∀ c ∈ raw, isRawChar c = true) :
    percentDecodeFrom whole raw = .ok bytes ↔ Decodes raw bytes := by
  induction raw using percentDecodeFrom.induct generalizing bytes with
  | case1 =>
    constructor
    · intro hd
      cases hd
      exact .done
    · rintro ⟨⟩
      rfl
  | case2 hi lo rest x y hlo hhi ih =>
    simp only [percentDecodeFrom,hhi,hlo,Fallible.bind_ok,Fallible.pure_ok]
    constructor
    · rintro ⟨tail,htail,rfl⟩
      exact .escaped hi lo x y rest tail hhi hlo
        ((ih fun c hc => h c (by simp [hc])).mp htail)
    · intro hd
      cases hd with
      | plain _ _ _ ok => rw [percent_not_segChar] at ok; cases ok
      | escaped _ _ _ _ _ tail high low next =>
        obtain rfl := Option.some.inj (hhi.symm.trans high)
        obtain rfl := Option.some.inj (hlo.symm.trans low)
        exact ⟨tail,(ih fun c hc => h c (by simp [hc])).mpr next,rfl⟩
  | case3 hi lo rest hbad =>
    constructor
    · intro hd
      rw [percentDecodeFrom.eq_2] at hd
      split at hd
      · rename_i hhi hlo
        exact absurd hlo (hbad _ _ hhi)
      · cases hd
    · intro hd
      cases hd with
      | plain _ _ _ ok => rw [percent_not_segChar] at ok; cases ok
      | escaped _ _ _ _ _ tail high low next => exact absurd low (hbad _ _ high)
  | case4 rest hshort =>
    constructor
    · intro hd
      rw [percentDecodeFrom.eq_3 _ _ hshort] at hd
      cases hd
    · intro hd
      cases hd with
      | plain _ _ _ ok => rw [percent_not_segChar] at ok; cases ok
      | escaped hi lo _ _ rest tail high low next => exact absurd rfl (hshort hi lo rest)
  | case5 c rest hlong hc ih =>
    have hraw : isSegChar c = true := by
      have hc' := h c (by simp)
      simp only [isRawChar,Bool.or_eq_true,beq_iff_eq] at hc'
      exact hc'.resolve_right hc
    rw [percentDecodeFrom.eq_4 _ _ _ hlong hc,Fallible.bind_ok]
    simp only [Text.encode_ascii (isSegChar_ascii hraw),Fallible.pure_ok]
    constructor
    · rintro ⟨tail,htail,rfl⟩
      exact .plain c rest tail hraw ((ih fun d hd => h d (by simp [hd])).mp htail)
    · intro hd
      cases hd with
      | plain _ _ tail _ next => exact ⟨tail,(ih fun d hd => h d (by simp [hd])).mpr next,rfl⟩
      | escaped => exact absurd rfl hc

theorem segmentChar_ok {raw : List Char} {c : Char} :
    segmentChar raw c = .ok () ↔ Text.isControl c = false ∧ c ≠ '/' ∧ c ≠ '\\' := by
  simp [segmentChar,Fallible.guard_ok,not_or]

theorem fromUtf8_eq_some {b : List UInt8} {s : String} :
    fromUtf8 b = some s ↔ Text.bytes s = b := Text.fromUTF8_eq_some

theorem decodeSegment_ok {raw : List Char} {seg : String} (h : ∀ c ∈ raw, isRawChar c = true) :
    decodeSegment raw = .ok seg ↔ SegmentReads Text.isControl raw seg := by
  have hdecode : ∀ bytes, percentDecode raw = .ok bytes ↔ Decodes raw bytes :=
    fun bytes => percentDecodeFrom_ok h
  have hsize : maxSegmentBytes < (Text.bytes seg).length ↔ ¬seg.utf8ByteSize ≤ maxSegmentBytes := by
    rw [Text.length_bytes,Nat.not_le]
  constructor
  · intro hd
    simp only [decodeSegment,Fallible.ite_ok,Fallible.bind_ok,hdecode,Fallible.throw_ok,
      reduceCtorEq,and_false,false_or,false_and,exists_false] at hd
    obtain ⟨hne,bytes,hbytes,hlong,hseg⟩ := hd
    cases hs : fromUtf8 bytes with
    | none => simp [hs] at hseg
    | some s =>
      simp only [hs,Fallible.bind_ok,Fallible.forM_ok,segmentChar_ok,Fallible.ite_ok,
        Fallible.throw_ok,false_and,exists_false,and_false,false_or,Fallible.pure_ok] at hseg
      obtain ⟨-,hclean,hsolid,rfl⟩ := hseg
      obtain rfl := fromUtf8_eq_some.mp hs
      exact ⟨by simpa using hne,hbytes,not_not.mp fun hn => hlong (hsize.mpr hn),hclean,
        by simpa [not_or] using hsolid⟩
  · rintro ⟨hne,hdec,hfits,hclean,hsolid⟩
    have hs : fromUtf8 (Text.bytes seg) = some seg := fromUtf8_eq_some.mpr rfl
    simp only [decodeSegment,Fallible.ite_ok,Fallible.bind_ok,hdecode,Fallible.throw_ok,
      reduceCtorEq,and_false,false_or,false_and,exists_false]
    refine ⟨by simpa using hne,Text.bytes seg,hdec,fun hn => hsize.mp hn hfits,?_⟩
    simp only [hs,Fallible.bind_ok,Fallible.forM_ok,segmentChar_ok,Fallible.ite_ok,
      Fallible.throw_ok,false_and,exists_false,and_false,false_or,Fallible.pure_ok]
    exact ⟨⟨⟩,hclean,by simpa [not_or] using hsolid,trivial⟩

end Segments

section Authority

theorem parsePort_ok {p : List Char} {n : Nat} :
    parsePort p = .ok n ↔ port.Derives p ∧ 1 ≤ decimal p ∧ decimal p ≤ 65535 ∧ decimal p = n := by
  have hport : port.Derives p ↔ (∀ c ∈ p, isDigit c = true) ∧ 1 ≤ p.length ∧ p.length ≤ 5 := by
    rw [port,Rule.between,derives_run]
    simp
  rw [hport,parsePort,Fallible.guard_ok,Fallible.guard_ok]
  simp only [Bool.or_eq_true,List.isEmpty_iff,decide_eq_true_eq,Bool.not_eq_true',
    List.all_eq_false,not_or,not_exists,not_and,Except.ok.injEq]
  have hlen : p ≠ [] ↔ 1 ≤ p.length := List.length_pos_iff.symm
  constructor
  · rintro ⟨⟨⟨hne,hfew⟩,hall⟩,⟨hzero,hbig⟩,rfl⟩
    refine ⟨⟨fun c hc => not_not.mp (hall c hc),hlen.mp hne,by omega⟩,by omega,by omega,rfl⟩
  · rintro ⟨⟨hall,hleast,hmost⟩,hzero,hbig,rfl⟩
    refine ⟨⟨⟨hlen.mpr hleast,by omega⟩,fun c hc hn => hn (hall c hc)⟩,⟨by omega,by omega⟩,rfl⟩

theorem checkLabel_ok {host l : List Char} : checkLabel host l = .ok () ↔ LabelOk l := by
  have hlabel : label.Derives l ↔ (∀ c ∈ l, isDashAlnum c = true) ∧ 1 ≤ l.length ∧ l.length ≤ 63 := by
    rw [label,Rule.between,derives_run]
    simp
  have hall : l.all (fun c => isLowerAlnum c || c == '-') = true ↔ ∀ c ∈ l, isDashAlnum c = true :=
    List.all_eq_true
  have hlen : l ≠ [] ↔ 1 ≤ l.length := List.length_pos_iff.symm
  rw [checkLabel,Fallible.guard_ok,Fallible.guard_ok,Fallible.guard_ok]
  simp only [Bool.or_eq_true,List.isEmpty_iff,decide_eq_true_eq,Bool.not_eq_true',not_or,
    Bool.not_eq_false,hall,beq_iff_eq,and_true]
  constructor
  · rintro ⟨⟨hne,hfew⟩,hchars,hfirst,hlast⟩
    exact ⟨hlabel.mpr ⟨hchars,hlen.mp hne,by omega⟩,hfirst,hlast⟩
  · rintro ⟨hrule,hfirst,hlast⟩
    obtain ⟨hchars,hleast,hmost⟩ := hlabel.mp hrule
    exact ⟨⟨hlen.mpr hleast,by omega⟩,hchars,hfirst,hlast⟩

theorem hostOk_chars {h : List Char} (ok : HostOk h) {c : Char} (hc : c ∈ h) :
    c = '.' ∨ isDashAlnum c = true := by
  have hjoin : ['.'].intercalate (h.splitOn '.') = h := List.intercalate_splitOn '.'
  rw [← hjoin] at hc
  rcases Text.mem_intercalate hc with hc | ⟨l,hl,hc⟩
  · exact .inl hc
  · have hrule := (ok l hl).rule
    rw [label,Rule.between,derives_run] at hrule
    exact .inr (hrule.1 c hc)

theorem hostOk_free {h : List Char} (ok : HostOk h) {c : Char} (hdot : c ≠ '.')
    (hc : isDashAlnum c = false) : c ∉ h := by
  intro hmem
  rcases hostOk_chars ok hmem with he | he
  · exact hdot he
  · rw [hc] at he
    cases he

theorem hostOk_nonempty {h : List Char} (ok : HostOk h) : h ≠ [] := by
  rintro rfl
  have hrule := (ok [] (by simp)).rule
  rw [label,Rule.between,derives_run] at hrule
  simp at hrule

theorem port_plain {p : List Char} (h : port.Derives p) : ∀ c ∈ p, isDigit c = true := by
  rw [port,Rule.between,derives_run] at h
  exact h.1

theorem digit_not_letter {c : Char} (h : isDigit c = true) : Text.isLetter c = false := by
  simp only [isDigit,Bool.and_eq_true,decide_eq_true_eq] at h
  have hhi : c.toNat ≤ 57 := UInt32.le_iff_toNat_le.mp h.2
  by_contra hl
  simp only [Bool.not_eq_false,Text.isLetter,Text.isUpper,Bool.or_eq_true,Bool.and_eq_true,
    decide_eq_true_eq] at hl
  rcases hl with hl | hl
  · have hlo : 97 ≤ c.toNat := UInt32.le_iff_toNat_le.mp hl.1
    omega
  · have hlo : 65 ≤ c.toNat := UInt32.le_iff_toNat_le.mp hl.1
    omega

theorem authority_free {l : List Char} {a : Authority} (h : AuthorityReads l a) :
    l ≠ [] ∧ '@' ∉ l ∧ '[' ∉ l ∧ ']' ∉ l := by
  have hhost : ∀ {h : List Char}, HostOk h → h ≠ [] ∧ '@' ∉ h ∧ '[' ∉ h ∧ ']' ∉ h := fun ok =>
    ⟨hostOk_nonempty ok,hostOk_free ok (by decide) (by decide),
      hostOk_free ok (by decide) (by decide),hostOk_free ok (by decide) (by decide)⟩
  cases h with
  | reserved => decide
  | host _ ok free => exact hhost ok
  | hostPort h p ok free digits =>
    have hfree : ∀ c : Char, isDigit c = false → c ∉ p := by
      intro c hc hmem
      rw [port_plain digits c hmem] at hc
      cases hc
    obtain ⟨hne,hat,hopen,hclose⟩ := hhost ok
    simp [hat,hopen,hclose,hfree '@' (by decide),hfree '[' (by decide),hfree ']' (by decide)]

def HostReads (raw : List Char) (port : Option Nat) (a : Authority) : Prop :=
  raw.length ≤ maxAuthorityLen ∧
    ((Text.lowercase raw = localAuthority.toList ∧ port = none ∧ a = .local) ∨
      (Text.lowercase raw ≠ localAuthority.toList ∧ HostOk (Text.lowercase raw) ∧
        a = .remote (String.ofList (Text.lowercase raw)) port))

theorem parseAuthority_cases {raw : List Char} {a : Authority} :
    parseAuthority raw = .ok a ↔ raw ≠ [] ∧ '@' ∉ raw ∧ '[' ∉ raw ∧ ']' ∉ raw ∧
      ((':' ∉ raw ∧ HostReads raw none a) ∨
        ∃ h p, raw = h ++ ':' :: p ∧ ':' ∉ h ∧ port.Derives p ∧ 1 ≤ decimal p ∧
          decimal p ≤ 65535 ∧ HostReads h (some (decimal p)) a) := by
  unfold parseAuthority
  cases hs : Text.splitOnce ':' raw with
  | none =>
    have hcolon := Text.splitOnce_eq_none.mp hs
    simp only [Fallible.bind_ok,Fallible.ite_ok,Fallible.throw_ok,false_and,exists_false,and_false,
      false_or,Fallible.pure_ok,Fallible.forM_ok,checkLabel_ok,Text.length_lowercase,
      exists_eq_left',exists_and_left,exists_const,List.isEmpty_iff,List.contains_iff_mem,
      Bool.or_eq_true,not_or,Nat.not_lt,and_assoc,Option.isSome_none]
    constructor
    · rintro ⟨hne,hat,hopen,hclose,hlen,hread⟩
      refine ⟨hne,hat,hopen,hclose,.inl ⟨hcolon,hlen,?_⟩⟩
      rcases hread with ⟨hl,-,rfl⟩ | ⟨hl,hok,rfl⟩
      · exact .inl ⟨hl,rfl,rfl⟩
      · exact .inr ⟨hl,hok,rfl⟩
    · rintro ⟨hne,hat,hopen,hclose,⟨-,hlen,hread⟩ | ⟨h,p,rfl,-⟩⟩
      · refine ⟨hne,hat,hopen,hclose,hlen,?_⟩
        rcases hread with ⟨hl,-,rfl⟩ | ⟨hl,hok,rfl⟩
        · exact .inl ⟨hl,by simp,rfl⟩
        · exact .inr ⟨hl,hok,rfl⟩
      · simp at hcolon
  | some q =>
    obtain ⟨h,p⟩ := q
    obtain ⟨rfl,hcolon⟩ := Text.splitOnce_eq_some.mp hs
    simp only [Fallible.bind_ok,Fallible.ite_ok,Fallible.throw_ok,false_and,exists_false,and_false,
      false_or,Fallible.pure_ok,Fallible.forM_ok,checkLabel_ok,Text.length_lowercase,parsePort_ok,
      exists_eq_left',exists_and_left,exists_const,List.isEmpty_iff,List.contains_iff_mem,
      Bool.or_eq_true,not_or,Nat.not_lt,and_assoc,Option.isSome_some]
    constructor
    · rintro ⟨hne,hat,hopen,hclose,hport,hleast,hmost,hlen,hread⟩
      refine ⟨hne,hat,hopen,hclose,.inr ⟨h,p,rfl,hcolon,hport,hleast,hmost,hlen,?_⟩⟩
      rcases hread with ⟨-,ht,-⟩ | ⟨hl,hok,rfl⟩
      · exact absurd trivial ht
      · exact .inr ⟨hl,hok,rfl⟩
    · rintro ⟨hne,hat,hopen,hclose,⟨hno,-⟩ | ⟨h',p',heq,hcolon',hport,hleast,hmost,hlen,hread⟩⟩
      · simp at hno
      · have hsplit := Text.splitOnce_append p' hcolon'
        rw [← heq,hs] at hsplit
        obtain ⟨rfl,rfl⟩ := Prod.mk.inj (Option.some.inj hsplit)
        refine ⟨hne,hat,hopen,hclose,hport,hleast,hmost,hlen,?_⟩
        rcases hread with ⟨-,hn,-⟩ | ⟨hl,hok,rfl⟩
        · cases hn
        · exact .inr ⟨hl,hok,rfl⟩

theorem parseAuthority_ok {raw : List Char} {a : Authority} :
    parseAuthority raw = .ok a ↔
      AuthorityReads (Text.lowercase raw) a ∧ hostLength a ≤ maxAuthorityLen := by
  rw [parseAuthority_cases]
  constructor
  · rintro ⟨-,-,-,-,⟨-,hlen,hread⟩ | ⟨h,p,rfl,-,hport,hleast,hmost,hlen,hread⟩⟩
    · rcases hread with ⟨hl,-,rfl⟩ | ⟨hl,hok,rfl⟩
      · exact ⟨by rw [hl]; exact .reserved,by decide⟩
      · exact ⟨.host _ hok hl,by simpa [hostLength,Text.length_lowercase] using hlen⟩
    · rcases hread with ⟨-,hn,-⟩ | ⟨hl,hok,rfl⟩
      · cases hn
      · have hp : Text.lowercase p = p :=
          (Text.lowercase_eq_plain fun c hc => digit_not_letter (port_plain hport c hc)).mpr rfl
        have hraw : Text.lowercase (h ++ ':' :: p) = Text.lowercase h ++ ':' :: p :=
          (Text.lowercase_eq_append_cons (by decide)).mpr ⟨h,p,rfl,rfl,hp⟩
        rw [hraw]
        exact ⟨.hostPort _ p hok hl hport hleast hmost,
          by simpa [hostLength,Text.length_lowercase] using hlen⟩
  · rintro ⟨hread,hlen⟩
    obtain ⟨hne,hat,hopen,hclose⟩ := authority_free hread
    have hmem : ∀ {d : Char}, Text.isLetter d = false → d ∉ Text.lowercase raw → d ∉ raw :=
      fun hd hn hc => hn ((Text.mem_lowercase hd).mpr hc)
    refine ⟨fun hnil => hne (by rw [hnil]; rfl),hmem (by decide) hat,hmem (by decide) hopen,
      hmem (by decide) hclose,?_⟩
    generalize hl : Text.lowercase raw = l at hread
    cases hread with
    | reserved =>
      refine .inl ⟨hmem (by decide) (by rw [hl]; decide),?_,.inl ⟨hl,rfl,rfl⟩⟩
      rw [← Text.length_lowercase,hl]
      decide
    | host _ ok free =>
      subst hl
      refine .inl ⟨hmem (by decide) (hostOk_free ok (by decide) (by decide)),?_,
        .inr ⟨free,ok,rfl⟩⟩
      simpa [hostLength,Text.length_lowercase] using hlen
    | hostPort h p ok free digits least most =>
      obtain ⟨h',p',rfl,rfl,hp⟩ := (Text.lowercase_eq_append_cons (by decide)).mp hl
      obtain rfl : p' = p :=
        (Text.lowercase_eq_plain fun c hc => digit_not_letter (port_plain digits c hc)).mp hp
      refine .inr ⟨h',p',rfl,?_,digits,least,most,?_,.inr ⟨free,ok,rfl⟩⟩
      · exact fun hc => hostOk_free ok (c := ':') (by decide) (by decide)
          ((Text.mem_lowercase (by decide)).mpr hc)
      · simpa [hostLength,Text.length_lowercase] using hlen

end Authority

end MurlSystem.Syntax
