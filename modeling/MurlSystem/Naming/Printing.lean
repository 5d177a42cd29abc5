import MurlSystem.Naming.Exact

namespace MurlSystem.Syntax

open Abnf

section Escape

theorem hexVal_hexDigit {n : Nat} (h : n < 16) : hexVal (hexDigit n) = some n := by
  have hall : ∀ n ∈ List.range 16, hexVal (hexDigit n) = some n := by decide
  exact hall n (List.mem_range.mpr h)

theorem unreserved_segChar {b : UInt8} (h : isUnreserved b = true) :
    isSegChar (Char.ofNat b.toNat) = true := by
  simp only [isUnreserved,Bool.or_eq_true,beq_iff_eq] at h
  rcases h with (((h | h) | h) | h) | h
  · exact alnum_segChar h
  · rw [h]
    decide
  · rw [h]
    decide
  · rw [h]
    decide
  · rw [h]
    decide

theorem byte_of_char {b : UInt8} : UInt8.ofNat (Char.ofNat b.toNat).toNat = b := by
  have hb : b.toNat < 256 := b.toNat_lt_size
  have hvalid : b.toNat.isValidChar := .inl (by omega)
  rw [Char.ofNat,dif_pos hvalid]
  exact UInt8.ofNat_toNat

def escapedByte (b : UInt8) : List Char :=
  if isUnreserved b then [Char.ofNat b.toNat]
  else ['%',hexDigit (b.toNat / 16),hexDigit (b.toNat % 16)]

theorem encodeSegment_toList (s : String) :
    (encodeSegment s).toList = (Text.bytes s).flatMap escapedByte := by
  rw [encodeSegment,percentEscape,String.toList_ofList]
  rfl

theorem decodes_kept {keep : UInt8 → Bool}
    (hkeep : ∀ b, keep b = true → isSegChar (Char.ofNat b.toNat) = true) (bytes : List UInt8) :
    Decodes (bytes.flatMap fun b => if keep b then [Char.ofNat b.toNat]
      else ['%',hexDigit (b.toNat / 16),hexDigit (b.toNat % 16)]) bytes := by
  induction bytes with
  | nil => exact .done
  | cons b bytes ih =>
    rw [List.flatMap_cons]
    by_cases hb : keep b = true
    · have hplain := Decodes.plain _ _ _ (hkeep b hb) ih
      rw [byte_of_char] at hplain
      rw [if_pos hb]
      exact hplain
    · have hlt : b.toNat < 256 := b.toNat_lt_size
      have hpct := Decodes.escaped _ _ _ _ _ _ (hexVal_hexDigit (n := b.toNat / 16) (by omega))
        (hexVal_hexDigit (n := b.toNat % 16) (by omega)) ih
      rw [show 16 * (b.toNat / 16) + b.toNat % 16 = b.toNat by omega,UInt8.ofNat_toNat] at hpct
      rw [if_neg hb]
      exact hpct

theorem decodes_escaped (bytes : List UInt8) : Decodes (bytes.flatMap escapedByte) bytes :=
  decodes_kept (fun _ hb => unreserved_segChar hb) bytes

theorem decodes_nil {bytes : List UInt8} (h : Decodes [] bytes) : bytes = [] := by
  cases h
  rfl

theorem escaped_ne_nil {bytes : List UInt8} (h : bytes ≠ []) : bytes.flatMap escapedByte ≠ [] := by
  intro hnil
  have hdec := decodes_escaped bytes
  rw [hnil] at hdec
  exact h (decodes_nil hdec)

theorem decodes_ne_nil {raw : List Char} {bytes : List UInt8} (h : Decodes raw bytes)
    (hne : raw ≠ []) : bytes ≠ [] := by
  cases h with
  | done => exact absurd rfl hne
  | plain => simp
  | escaped => simp

theorem segment_reencodes {control : Char → Bool} {raw : List Char} {seg : String}
    (h : SegmentReads control raw seg) : SegmentReads control (encodeSegment seg).toList seg where
  some := by
    rw [encodeSegment_toList]
    exact escaped_ne_nil (decodes_ne_nil h.decoded h.some)
  decoded := by
    rw [encodeSegment_toList]
    exact decodes_escaped (Text.bytes seg)
  size := h.size
  clean := h.clean
  solid := h.solid

theorem segments_reencode {control : Char → Bool} {raws : List (List Char)} {name : List String}
    (h : List.Forall₂ (SegmentReads control) raws name) :
    List.Forall₂ (SegmentReads control) (name.map fun seg => (encodeSegment seg).toList) name := by
  induction h with
  | nil => exact .nil
  | cons hseg _ ih => exact .cons (segment_reencodes hseg) ih

end Escape

section Components

theorem port_toDigits {n : Nat} (h : n ≤ 65535) : port.Derives (Nat.toDigits 10 n) := by
  have hplain := Numeral.plain_toDigits n
  rw [port,Rule.between,derives_run]
  refine ⟨hplain.digits,List.length_pos_of_ne_nil hplain.some,?_⟩
  rintro k ⟨⟩
  exact Numeral.length_le_of_lt (by decide) (by omega)

theorem authority_reprints {l : List Char} {a : Authority} (h : AuthorityReads l a)
    (hlow : Text.lowercase l = l) : AuthorityReads (Text.lowercase a.toString.toList) a := by
  cases h with
  | reserved => exact .reserved
  | host _ ok free =>
    have htext : (Authority.remote (String.ofList l) none).toString.toList = l := by
      simp [Authority.toString]
    rw [htext,hlow]
    exact .host l ok free
  | hostPort h p ok free digits least most =>
    have htext : (Authority.remote (String.ofList h) (some (decimal p))).toString.toList =
        h ++ ':' :: Nat.toDigits 10 (decimal p) := by
      simp [Authority.toString,toString]
    have hh : Text.lowercase h = h := by
      rw [Text.lowercase_append] at hlow
      exact (List.append_inj hlow Text.length_lowercase).1
    have hdigits := port_toDigits most
    have hp : Text.lowercase (Nat.toDigits 10 (decimal p)) = Nat.toDigits 10 (decimal p) :=
      (Text.lowercase_eq_plain fun c hc => digit_not_letter (port_plain hdigits c hc)).mpr rfl
    have hvalue : decimal (Nat.toDigits 10 (decimal p)) = decimal p := Numeral.value_toDigits _
    rw [htext,(Text.lowercase_eq_append_cons (by decide)).mpr ⟨h,_,rfl,hh,hp⟩]
    have hread := AuthorityReads.hostPort h _ ok free hdigits (by rwa [hvalue]) (by rwa [hvalue])
    rwa [hvalue] at hread

def printedVersion : VersionTag → Option (List Char)
  | .latest => none
  | .pinned v => some (VersionTag.toString (.pinned v)).toList

theorem printedVersion_pinned {ps : List (List Char)}
    (each : ∀ p ∈ ps, vnum.Derives p ∧ NoLeadingZero p) :
    printedVersion (.pinned (ps.map decimal)) = some (['.'].intercalate ps) := by
  have hsame : ∀ p ∈ ps, Nat.toDigits 10 (decimal p) = p := by
    intro p hp
    obtain ⟨hrule,hlead⟩ := each p hp
    obtain ⟨hdigits,hpos,-⟩ := vnum_derives.mp hrule
    exact Numeral.toDigits_value ⟨hdigits,List.ne_nil_of_length_pos hpos,hlead⟩
  have hmap : (ps.map decimal).map (fun n => (s!"{n}").toList) = ps := by
    rw [List.map_map]
    refine (List.map_congr_left fun p hp => ?_).trans (List.map_id ps)
    simpa [toString] using hsame p hp
  rw [printedVersion,VersionTag.toString,String.toList_intercalate,List.map_map]
  exact congrArg (fun l => some (['.'].intercalate l)) hmap

theorem version_reprints {o : Option (List Char)} {v : VersionTag} (h : VersionReads .exact o v) :
    VersionReads .exact (printedVersion v) v := by
  cases h with
  | absent => exact .absent
  | latest => exact .absent
  | pinned ps nonempty few each =>
    rw [printedVersion_pinned each]
    exact .pinned ps nonempty few each

theorem item_reprints {w : List Char} {item : SelectorItem} (h : ItemReads .exact w item) :
    item.toString.toList = w := by
  cases h with
  | id _ rule => simp [SelectorItem.toString]
  | role word s is rule =>
    obtain rfl : word = "role=".toList := is
    simp [SelectorItem.toString,toString]
  | tag word s is rule =>
    obtain rfl : word = "tag=".toList := is
    simp [SelectorItem.toString,toString]

def printedSelector (m : Murl) : Option (List Char) := m.selectorDisplay.map String.toList

theorem selector_reprints {o : Option (List Char)} {m : Murl}
    (h : SelectorReads .exact o m.selector) : printedSelector m = o := by
  generalize hs : m.selector = items at h
  rw [printedSelector,Murl.selectorDisplay,hs]
  cases h with
  | absent => rfl
  | items ps items nonempty few each =>
    have hmap : items.map (fun item => item.toString.toList) = ps := by
      clear * - each
      induction each with
      | nil => rfl
      | cons hitem _ ih => rw [List.map_cons,ih,item_reprints hitem]
    simp only [Option.map_some,String.toList_intercalate,List.map_map]
    exact congrArg (fun l => some ([','].intercalate l)) hmap

end Components

section Printed

variable {s : String} {p : Parts} {m : Murl}

def printedParts (m : Murl) : Parts :=
  ⟨"murl://".toList,m.authority.toString.toList,m.name.map fun seg => (encodeSegment seg).toList,
    printedVersion m.version,m.query.map String.toList,printedSelector m⟩

theorem printed_segments (m : Murl) :
    (printedParts m).segments = m.name.map fun seg => (encodeSegment seg).toList := rfl

theorem printed_query (m : Murl) : (printedParts m).query = m.query.map String.toList := rfl

theorem printed_selector (m : Murl) : (printedParts m).selector = printedSelector m := rfl

theorem slashed_toList (name : List String) (init : String) :
    (name.foldl (fun s seg => s ++ "/" ++ encodeSegment seg) init).toList =
      init.toList ++ (name.map fun seg => '/' :: (encodeSegment seg).toList).flatten := by
  induction name generalizing init with
  | nil => simp
  | cons seg name ih =>
    rw [List.foldl_cons,ih]
    simp

theorem slash_intercalate {segs : List (List Char)} (hne : segs ≠ []) :
    '/' :: ['/'].intercalate segs = (segs.map fun s => '/' :: s).flatten := by
  obtain ⟨s,rest,rfl⟩ := List.exists_cons_of_ne_nil hne
  rw [intercalate_cons_eq]
  simp

def slashed (name : List String) : List Char :=
  (name.map fun seg => '/' :: (encodeSegment seg).toList).flatten

theorem identity_parts (m : Murl) : m.identity.toList =
    "murl://".toList ++ ((m.authority.toString.toList ++ slashed m.name) ++
      marked '@' (printedVersion m.version)) := by
  rw [Murl.identity,slashed]
  cases hv : m.version with
  | latest => simp [slashed_toList,printedVersion,marked,toString]
  | pinned v => simp [slashed_toList,printedVersion,marked,toString]

theorem identity_toList (hne : m.name ≠ []) :
    m.identity.toList = "murl://".toList ++ (m.authority.toString.toList ++
      '/' :: (printedParts m).path) := by
  have hsegs : (m.name.map fun seg => (encodeSegment seg).toList) ≠ [] := by simpa using hne
  have hslash := slash_intercalate hsegs
  rw [List.map_map] at hslash
  have hpath : '/' :: (printedParts m).path =
      slashed m.name ++ marked '@' (printedVersion m.version) := by
    rw [Parts.path,← List.cons_append]
    exact congrArg (· ++ _) hslash
  rw [identity_parts,hpath,List.append_assoc]

theorem toString_toList (hne : m.name ≠ []) : (printedParts m).text = m.toString.toList := by
  have hid := identity_toList hne
  rw [Murl.toString,Parts.text]
  have hscheme : (printedParts m).scheme ++ ((printedParts m).authority ++ '/' :: (printedParts m).path) =
      m.identity.toList := hid.symm
  have hq : marked '?' (printedParts m).query = marked '?' (m.query.map String.toList) := rfl
  have hs : marked '#' (printedParts m).selector = marked '#' (m.selectorDisplay.map String.toList) := rfl
  rw [hq,hs,List.append_assoc (_ ++ _),← List.append_assoc,hscheme]
  cases m.query with
  | none =>
    cases m.selectorDisplay with
    | none => simp [marked]
    | some f => simp [marked]
  | some q =>
    cases m.selectorDisplay with
    | none => simp [marked]
    | some f => simp [marked]

theorem printed_reads (h : p.Reads .exact Text.isControl m) :
    (printedParts m).Reads .exact Text.isControl m where
  authority := authority_reprints h.authority Text.lowercase_lowercase
  few := by
    have hlen := h.name.length_eq
    have hfew := h.few
    rw [printed_segments,List.length_map]
    omega
  name := segments_reencode h.name
  version := version_reprints h.version
  query := by
    rw [printed_query,Option.map_map]
    cases m.query <;> simp
  selector := by
    have hsel := selector_reprints h.selector
    rw [printed_selector,hsel]
    exact h.selector

theorem name_ne_nil {control : Char → Bool} (hw : p.WellFormed .exact) (h : p.Reads .exact control m) :
    m.name ≠ [] := by
  intro hnil
  have hlen := h.name.length_eq
  rw [hnil] at hlen
  exact hw.nonempty (List.length_eq_zero_iff.mp hlen)

theorem printed_scheme (m : Murl) : Text.lowercase (printedParts m).scheme = "murl://".toList := by
  have hscheme : Text.lowercase "murl://".toList = "murl://".toList := by decide
  exact hscheme

theorem printed_wellFormed (h : Accepts .exact s p m) : (printedParts m).WellFormed .exact := by
  have hne := name_ne_nil h.rule h.reads
  refine reads_wellFormed (printed_scheme m) (by simpa [printed_segments] using hne) ?_
    (printed_reads h.reads)
  have hq : (printedParts m).query = p.query := by
    rw [printed_query,h.reads.query,Option.map_map]
    cases p.query <;> simp
  rw [hq]
  exact h.rule.query

theorem printed_accepts (h : Accepts .exact s p m) : Accepts .exact m.toString (printedParts m) m where
  text := toString_toList (name_ne_nil h.rule h.reads)
  rule := printed_wellFormed h
  reads := printed_reads h.reads
  size := h.canonical
  canonical := h.canonical
  host := h.host

def bare (m : Murl) : Murl := ⟨m.authority,m.name,m.version,none,none⟩

theorem bare_reads (h : p.Reads .exact Text.isControl m) :
    (printedParts (bare m)).Reads .exact Text.isControl (bare m) where
  authority := (printed_reads h).authority
  few := (printed_reads h).few
  name := (printed_reads h).name
  version := (printed_reads h).version
  query := rfl
  selector := .absent

theorem size_le_of_prefix {a b : String} {t : List Char} (h : b.toList = a.toList ++ t) :
    a.utf8ByteSize ≤ b.utf8ByteSize := by
  have hb : b = a ++ String.ofList t := by
    apply String.toList_inj.mp
    rw [h]
    simp
  rw [hb,String.utf8ByteSize_append]
  exact Nat.le_add_right _ _

theorem identity_size (hne : m.name ≠ []) : m.identity.utf8ByteSize ≤ m.toString.utf8ByteSize := by
  have htext := toString_toList hne
  have hid := identity_toList hne
  refine size_le_of_prefix
    (t := marked '?' (printedParts m).query ++ marked '#' (printedParts m).selector) ?_
  have hhead : "murl://".toList = (printedParts m).scheme := rfl
  have hauth : m.authority.toString.toList = (printedParts m).authority := rfl
  rw [← htext,hid,Parts.text,hhead,hauth]
  simp

theorem identity_fits (h : Accepts .exact s p m) : m.identity.utf8ByteSize ≤ maxMurlLen :=
  Nat.le_trans (identity_size (name_ne_nil h.rule h.reads)) h.canonical

theorem bare_accepts (h : Accepts .exact s p m) :
    Accepts .exact m.identity (printedParts (bare m)) (bare m) where
  text := by
    have hne := name_ne_nil h.rule h.reads
    exact toString_toList (m := bare m) hne
  rule := by
    have hne := name_ne_nil h.rule h.reads
    refine reads_wellFormed (printed_scheme _) (by simpa [printed_segments,bare] using hne) ?_
      (bare_reads h.reads)
    rintro q ⟨⟩
  reads := bare_reads h.reads
  size := identity_fits h
  canonical := by
    have hfits := identity_fits h
    exact hfits
  host := h.host

theorem parse_toString (h : Murl.parse s = .ok m) : Murl.parse m.toString = .ok m := by
  obtain ⟨p,hp⟩ := parse_ok.mp h
  exact parse_ok.mpr ⟨_,printed_accepts hp⟩

theorem parse_identity (h : Murl.parse s = .ok m) : Murl.parse m.identity = .ok (bare m) := by
  obtain ⟨p,hp⟩ := parse_ok.mp h
  exact parse_ok.mpr ⟨_,bare_accepts hp⟩

theorem identity_le (h : Murl.parse s = .ok m) :
    m.toString.utf8ByteSize ≤ maxMurlLen ∧ m.identity.utf8ByteSize ≤ maxMurlLen := by
  obtain ⟨p,hp⟩ := parse_ok.mp h
  exact ⟨hp.canonical,identity_fits hp⟩

theorem identity_congr {m n : Murl}
    (h : (m.authority,m.name,m.version) = (n.authority,n.name,n.version)) :
    m.identity = n.identity := by
  obtain ⟨ha,hn,hv⟩ : m.authority = n.authority ∧ m.name = n.name ∧ m.version = n.version := by
    simpa using h
  rw [Murl.identity,Murl.identity,ha,hn,hv]

theorem identity_same {t : String} {n : Murl} (h : Murl.parse s = .ok m) (hn : Murl.parse t = .ok n)
    (heq : m.identity = n.identity) :
    m.authority = n.authority ∧ m.name = n.name ∧ m.version = n.version := by
  have hother := parse_identity hn
  rw [← heq,parse_identity h] at hother
  obtain ⟨ha,hname,hv,-⟩ := Murl.mk.inj (Except.ok.inj hother)
  exact ⟨ha,hname,hv⟩

theorem murl_round_trip (s : String) (m : Murl) (h : Murl.parse s = .ok m) :
    Murl.parse m.toString = .ok m ∧
      (∃ n, Murl.parse m.identity = .ok n ∧ n.authority = m.authority ∧ n.name = m.name ∧
        n.version = m.version ∧ n.selector = none ∧ n.query = none) ∧
      ((Murl.parse m.toString).map Murl.toString = .ok m.toString ∧
        (Murl.parse m.identity).map Murl.toString = .ok m.identity ∧
        (Murl.parse m.identity).map Murl.identity = .ok m.identity) ∧
      m.toString.utf8ByteSize ≤ 1024 ∧ m.identity.utf8ByteSize ≤ 1024 ∧
      ∀ t n, Murl.parse t = .ok n →
        (m.identity = n.identity ↔
          (m.authority,m.name,m.version) = (n.authority,n.name,n.version)) := by
  have hprint := parse_toString h
  have hid := parse_identity h
  obtain ⟨hsize,hidsize⟩ := identity_le h
  refine ⟨hprint,⟨bare m,hid,rfl,rfl,rfl,rfl,rfl⟩,⟨?_,?_,?_⟩,hsize,hidsize,?_⟩
  · rw [hprint]
    rfl
  · rw [hid]
    rfl
  · rw [hid]
    rfl
  · intro t n hn
    constructor
    · intro heq
      obtain ⟨ha,hname,hv⟩ := identity_same h hn heq
      rw [ha,hname,hv]
    · exact identity_congr

theorem murl_round_trip_pinned :
    Murl.parse "MURL://Docs.Example:0443/a%20b/%63/d@1.4?x#ops,role=dev,tag=t-1" =
        .ok ⟨.remote "docs.example" (some 443),["a b","c","d"],.pinned [1,4],
          some [.id "ops",.role "dev",.tag "t-1"],some "x"⟩ ∧
      Murl.parse "murl://docs.example:443/a%20b/c/d@1.4?x#ops,role=dev,tag=t-1" =
        .ok ⟨.remote "docs.example" (some 443),["a b","c","d"],.pinned [1,4],
          some [.id "ops",.role "dev",.tag "t-1"],some "x"⟩ := by
  have hparse : Murl.parse "MURL://Docs.Example:0443/a%20b/%63/d@1.4?x#ops,role=dev,tag=t-1" =
      .ok ⟨.remote "docs.example" (some 443),["a b","c","d"],.pinned [1,4],
        some [.id "ops",.role "dev",.tag "t-1"],some "x"⟩ := by decide +kernel
  refine ⟨hparse,?_⟩
  have hprint := (murl_round_trip _ _ hparse).1
  have htext : (⟨.remote "docs.example" (some 443),["a b","c","d"],.pinned [1,4],
      some [.id "ops",.role "dev",.tag "t-1"],some "x"⟩ : Murl).toString =
        "murl://docs.example:443/a%20b/c/d@1.4?x#ops,role=dev,tag=t-1" := by decide +kernel
  rwa [htext] at hprint

end Printed

section Unique

variable {s : String} {m p : Murl} {raw : List Char} {a : List UInt8}

theorem decodes_chars (h : Decodes raw a) : ∀ c ∈ raw, isRawChar c = true := by
  induction h with
  | done => simp
  | plain c rest bytes ok _ ih =>
    exact List.forall_mem_cons.mpr ⟨by rw [isRawChar,ok,Bool.true_or],ih⟩
  | escaped hi lo h l rest bytes high low _ ih =>
    refine List.forall_mem_cons.mpr ⟨by decide,List.forall_mem_cons.mpr ⟨hexDig_raw ?_,
      List.forall_mem_cons.mpr ⟨hexDig_raw ?_,ih⟩⟩⟩
    · rw [high]
      rfl
    · rw [low]
      rfl

theorem encodeSegment_chars (seg : String) : ∀ c ∈ (encodeSegment seg).toList, isRawChar c = true := by
  rw [encodeSegment_toList]
  exact decodes_chars (decodes_escaped (Text.bytes seg))

theorem percentEscape_injective {keep : UInt8 → Bool}
    (hkeep : ∀ b, keep b = true → isSegChar (Char.ofNat b.toNat) = true) :
    Function.Injective fun seg => (percentEscape keep seg).toList := by
  have hread : ∀ seg, percentDecodeFrom [] (percentEscape keep seg).toList = .ok (Text.bytes seg) := by
    intro seg
    have hdecodes := decodes_kept hkeep (Text.bytes seg)
    rw [percentEscape,String.toList_ofList]
    exact (percentDecodeFrom_ok (decodes_chars hdecodes)).mpr hdecodes
  intro x y h
  have hx := hread x
  dsimp only at h
  rw [h,hread y] at hx
  exact (Text.bytes_injective (Except.ok.inj hx)).symm

theorem encodeSegment_injective : Function.Injective fun seg => (encodeSegment seg).toList :=
  percentEscape_injective fun _ hb => unreserved_segChar hb

theorem slashed_chars {c : Char} {name : List String} (h : c ∈ slashed name) :
    c = '/' ∨ isRawChar c = true := by
  obtain ⟨l,hl,hc⟩ := List.mem_flatten.mp h
  obtain ⟨seg,-,rfl⟩ := List.mem_map.mp hl
  rcases List.mem_cons.mp hc with rfl | hc
  · exact .inl rfl
  · exact .inr (encodeSegment_chars seg c hc)

theorem splitOn_joined {c : Char} {l : List Char} {ls : List (List Char)} (hl : c ∉ l)
    (hls : ∀ x ∈ ls, c ∉ x) : (l ++ (ls.map fun x => c :: x).flatten).splitOn c = l :: ls := by
  rw [← intercalate_cons_eq]
  exact List.splitOn_intercalate c (List.forall_mem_cons.mpr ⟨hl,hls⟩) (List.cons_ne_nil _ _)

theorem splitOn_slashed {l : List Char} (h : '/' ∉ l) (name : List String) :
    (l ++ slashed name).splitOn '/' = l :: name.map fun seg => (encodeSegment seg).toList := by
  have hfree : ∀ raw ∈ name.map fun seg => (encodeSegment seg).toList, '/' ∉ raw := by
    intro raw hraw hslash
    obtain ⟨seg,-,rfl⟩ := List.mem_map.mp hraw
    exact absurd (encodeSegment_chars seg '/' hslash) (by decide)
  have hjoined := splitOn_joined h hfree
  rwa [List.map_map] at hjoined

theorem parsed_authority_free (h : Murl.parse s = .ok p) {c : Char} (hc : Text.isLetter c = false)
    (hno : isAuthorityChar c = false) : c ∉ p.authority.toString.toList := by
  obtain ⟨parts,hp⟩ := parse_ok.mp h
  have hread := authority_reprints hp.reads.authority Text.lowercase_lowercase
  intro hmem
  rw [← Text.mem_lowercase hc] at hmem
  rw [authority_chars (authority_derives hread) c hmem] at hno
  cases hno

theorem identity_unique (h : Murl.parse s = .ok p) (hm : m.authority = .local)
    (hid : p.identity = m.identity) : p.authority = .local ∧ p.name = m.name ∧
      printedVersion p.version = printedVersion m.version := by
  obtain ⟨parts,hp⟩ := parse_ok.mp h
  have hread := authority_reprints hp.reads.authority Text.lowercase_lowercase
  have hslashed (name : List String) : '@' ∉ slashed name := by
    intro hmem
    rcases slashed_chars hmem with he | hraw
    · exact absurd he (by decide)
    · exact absurd hraw (by decide)
  have hlist := congrArg String.toList hid
  rw [identity_parts,identity_parts,List.append_cancel_left_eq,hm] at hlist
  obtain ⟨hpath,hversion⟩ := marked_inj hlist
    (List.not_mem_append (parsed_authority_free h (by decide) (by decide)) (hslashed p.name))
    (List.not_mem_append (by decide) (hslashed m.name))
  have hsplit := congrArg (List.splitOn '/') hpath
  have hlocal : '/' ∉ Authority.local.toString.toList := by decide
  rw [splitOn_slashed (parsed_authority_free h (by decide) (by decide)),splitOn_slashed hlocal] at hsplit
  obtain ⟨hauth,hname⟩ := List.cons.inj hsplit
  refine ⟨?_,encodeSegment_injective.list_map hname,hversion⟩
  rw [hauth] at hread
  generalize hword : Text.lowercase Authority.local.toString.toList = word at hread
  generalize p.authority = auth at hread ⊢
  cases hread with
  | reserved => rfl
  | host _ ok free => exact absurd hword.symm free
  | hostPort host port =>
    have hcolon : ':' ∈ Text.lowercase Authority.local.toString.toList := by
      rw [hword]
      simp
    exact absurd hcolon (by decide)

end Unique

end MurlSystem.Syntax
