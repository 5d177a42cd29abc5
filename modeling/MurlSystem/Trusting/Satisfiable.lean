import MurlSystem.Bundling.RoundTrip
import MurlSystem.Resolution.Pins
import MurlSystem.Resolution.Sequence

namespace MurlSystem

open ValidationReport

-- The standard engine: it writes canonical text, and reads nothing else.
structure StandardBase64 (crates : Crates) : Prop where
  encodes : ∀ b, crates.base64Encode b = String.ofList (Base64.encode b)
  decodes : ∀ s b, crates.base64Decode s = .ok b ↔ Base64.decode s.toList = some b

def Satisfiable (crates : Crates) (pin : String) : Prop :=
  ∃ digest : Bytes, digest.length = 32 ∧ pin = "sha256-" ++ crates.base64Encode digest ∧
    ∀ b, checkIntegrity crates b pin = .ok () ↔ crates.sha256 b = digest

def WholeDigest (pin : String) : Prop :=
  ∃ digits last, pin.toList = "sha256-".toList ++ (digits ++ [last,'=']) ∧ digits.length = 42 ∧
    '=' ∉ digits ∧ last ∈ "AEIMQUYcgkosw048".toList

section Shape

theorem alphabet_iff (c : Char) :
    (isAlnum c || c == '+' || c == '/') = true ↔ ∃ i < 64, c = Base64.sextet i := by
  constructor
  · intro h
    have hsome : (Base64.value c).isSome = true := by
      simp only [isAlnum,isLowerAlnum,Bool.or_eq_true,Bool.and_eq_true,decide_eq_true_eq,
        beq_iff_eq] at h
      simp only [Base64.value,Bool.and_eq_true,decide_eq_true_eq,beq_iff_eq]
      rcases h with (((hlower | hdigit) | hupper) | rfl) | rfl
      · grind
      · grind
      · grind
      · rfl
      · rfl
    obtain ⟨i,hi⟩ := Option.isSome_iff_exists.mp hsome
    exact ⟨i,Base64.value_iff.mp hi⟩
  · rintro ⟨i,hi,rfl⟩
    have hall : ∀ i < 64, (isAlnum (Base64.sextet i) || Base64.sextet i == '+' ||
        Base64.sextet i == '/') = true := by decide
    exact hall i hi

theorem isValidIntegrity_iff {s : String} : isValidIntegrity s = true ↔
    ∃ b64, s.toList = "sha256-".toList ++ b64 ∧ b64.length = 44 ∧
      ∀ c ∈ b64, c = '=' ∨ ∃ i < 64, c = Base64.sextet i := by
  unfold isValidIntegrity
  constructor
  · intro h
    split at h
    · next b64 hdrop =>
      simp only [Bool.and_eq_true,beq_iff_eq,List.all_eq_true] at h
      refine ⟨b64,?_,h.1,?_⟩
      · obtain ⟨p,hp,hpre⟩ := List.dropPrefix?_eq_some_iff.mp hdrop
        rw [hp,eq_of_beq hpre]
      · intro c hc
        rcases Bool.or_eq_true_iff.mp (h.2 c hc) with halpha | hpad
        · exact .inr ((alphabet_iff c).mp halpha)
        · exact .inl (eq_of_beq hpad)
    · cases h
  · rintro ⟨b64,hs,hlen,hchars⟩
    have hdrop : s.toList.dropPrefix? "sha256-".toList = some b64 :=
      List.dropPrefix?_eq_some_iff.mpr ⟨"sha256-".toList,hs,by simp⟩
    rw [hdrop]
    simp only [Bool.and_eq_true,beq_iff_eq,List.all_eq_true]
    refine ⟨hlen,?_⟩
    intro c hc
    rcases hchars c hc with rfl | hi
    · simp
    · rw [(alphabet_iff c).mpr hi]
      rfl

theorem last_iff {c : Char} :
    c ∈ "AEIMQUYcgkosw048".toList ↔ ∃ k < 16, c = Base64.sextet (k * 4) := by
  have hlist : "AEIMQUYcgkosw048".toList =
      (List.range 16).map fun k => Base64.sextet (k * 4) := by decide
  rw [hlist,List.mem_map]
  constructor
  · rintro ⟨k,hk,rfl⟩
    exact ⟨k,List.mem_range.mp hk,rfl⟩
  · rintro ⟨k,hk,rfl⟩
    exact ⟨k,List.mem_range.mpr hk,rfl⟩

end Shape

section Pins

variable {crates : Crates} {pin : String}

theorem integrity_ok (base64 : StandardBase64 crates) {b64 : List Char}
    (hpin : pin.toList = "sha256-".toList ++ b64) (b : Bytes) :
    checkIntegrity crates b pin = .ok () ↔ Base64.encode (crates.sha256 b) = b64 := by
  have hdrop : pin.toList.dropPrefix? "sha256-".toList = some b64 :=
    List.dropPrefix?_eq_some_iff.mpr ⟨"sha256-".toList,hpin,by simp⟩
  have hread : ∀ bytes, crates.base64Decode (String.ofList b64) = .ok bytes ↔
      b64 = Base64.encode bytes := by
    intro bytes
    rw [base64.decodes,String.toList_ofList,Base64.decode_iff]
  unfold checkIntegrity
  rw [hdrop]
  cases hdec : crates.base64Decode (String.ofList b64) with
  | error e =>
    simp only [hdec]
    constructor
    · intro h
      cases h
    · intro h
      rw [(hread _).mpr h.symm] at hdec
      cases hdec
  | ok expected =>
    obtain rfl := (hread expected).mp hdec
    simp only [hdec]
    constructor
    · intro h
      split at h
      · cases h
      · next heq =>
        have hsame : expected = crates.sha256 b := by simpa using heq
        rw [hsame]
    · intro h
      have heq : expected = crates.sha256 b := by
        have hback := congrArg Base64.decode h
        rw [Base64.decode_encode,Base64.decode_encode] at hback
        exact (Option.some_inj.mp hback).symm
      simp [heq]

theorem satisfiable_iff (base64 : StandardBase64 crates) :
    Satisfiable crates pin ↔
    ∃ digest : Bytes, digest.length = 32 ∧ pin.toList = "sha256-".toList ++ Base64.encode digest := by
  constructor
  · rintro ⟨digest,hlen,hpin,-⟩
    refine ⟨digest,hlen,?_⟩
    rw [hpin,String.toList_append,base64.encodes,@String.toList_ofList (Base64.encode digest)]
  · rintro ⟨digest,hlen,hpin⟩
    refine ⟨digest,hlen,?_,?_⟩
    · rw [← String.toList_inj,hpin,String.toList_append,base64.encodes,
        @String.toList_ofList (Base64.encode digest)]
    · intro b
      rw [integrity_ok base64 hpin]
      constructor
      · intro h
        have hback := congrArg Base64.decode h
        rw [Base64.decode_encode,Base64.decode_encode] at hback
        exact Option.some_inj.mp hback
      · rintro rfl
        rfl

theorem satisfiable_whole (base64 : StandardBase64 crates) (accepted : isValidIntegrity pin = true) :
    Satisfiable crates pin ↔ WholeDigest pin := by
  obtain ⟨b64,hs,hlen,hchars⟩ := isValidIntegrity_iff.mp accepted
  have hspelled := @Base64.encodes_iff 10 b64
  rw [satisfiable_iff base64]
  constructor
  · rintro ⟨digest,hdigest,hpin⟩
    have hb64 : Base64.encode digest = b64 := List.append_cancel_left (hpin.symm.trans hs)
    obtain ⟨digits,last,hn,hb,hdigits,hlast⟩ := hspelled.mp ⟨digest,hdigest,hb64⟩
    refine ⟨digits,last,by rw [hs,hb],hn,?_,last_iff.mpr hlast⟩
    intro hpad
    obtain ⟨i,hi,heq⟩ := hdigits '=' hpad
    exact Base64.sextet_pad i hi heq.symm
  · rintro ⟨digits,last,hpin,hn,hpad,hlast⟩
    have hb64 : b64 = digits ++ [last,'='] := List.append_cancel_left (hs.symm.trans hpin)
    have hdigits : ∀ c ∈ digits, ∃ i < 64, c = Base64.sextet i := by
      intro c hc
      rcases hchars c (by rw [hb64]; exact List.mem_append_left _ hc) with rfl | hi
      · exact absurd hc hpad
      · exact hi
    obtain ⟨digest,hdigest,hencode⟩ :=
      hspelled.mpr ⟨digits,last,hn,hb64,hdigits,last_iff.mp hlast⟩
    exact ⟨digest,hdigest,by rw [hs,hencode]⟩

theorem makeIntegrity_toList (base64 : StandardBase64 crates) (b : Bytes) :
    (makeIntegrity crates b).toList = "sha256-".toList ++ Base64.encode (crates.sha256 b) := by
  have happ : makeIntegrity crates b = "sha256-" ++ crates.base64Encode (crates.sha256 b) := rfl
  rw [happ,String.toList_append,base64.encodes,@String.toList_ofList (Base64.encode _)]

theorem makeIntegrity_valid (base64 : StandardBase64 crates)
    (sha256 : ∀ b, (crates.sha256 b).length = 32) (b : Bytes) :
    isValidIntegrity (makeIntegrity crates b) = true := by
  refine isValidIntegrity_iff.mpr ⟨_,makeIntegrity_toList base64 b,?_,?_⟩
  · rw [Base64.length_encode,sha256]
  · intro c hc
    exact Base64.encode_chars hc

variable {m : Manifest} {r : ResourceDoc}

theorem validate_integrity (h : (m.validate crates).errors = []) (hr : r ∈ m.doc.resources)
    (hpin : r.integrity = some pin) : isValidIntegrity pin = true := by
  obtain ⟨i,hi⟩ := List.mem_iff_getElem?.mp hr
  have hat := validate_at h hi
  simp only [validateResource,append_errors,List.append_eq_nil_iff,hpin,forOption,
    when_errors_nil] at hat
  by_contra hbad
  have hflag : (!isValidIntegrity pin) = true := by simpa using hbad
  have hnone := hat.2 hflag
  simp at hnone

theorem when_warn_errors (c : Bool) (path message : String) :
    (when c (ValidationReport.warn path message)).errors = [] := by
  cases c <;> rfl

theorem target_unobjected (p : String → String) (earlier : List ResourceDoc) (r : ResourceDoc)
    (integrity : Option String) :
    (validateResourceTarget crates p earlier { r with integrity := integrity }).errors =
      (validateResourceTarget crates p earlier r).errors := by
  have hreaches : reachesTarget { r with integrity := integrity } = reachesTarget r := rfl
  simp only [validateResourceTarget,append_errors,hreaches]
  cases reachesTarget r with
  | none => rfl
  | some kind => simp only [forOption,append_errors,when_warn_errors]

theorem integrity_unobjected (hpin : isValidIntegrity pin = true) (all earlier : List ResourceDoc)
    (r : ResourceDoc) : (validateResource crates all earlier { r with integrity := some pin }).errors =
      (validateResource crates all earlier { r with integrity := none }).errors := by
  simp only [validateResource,append_errors,target_unobjected,forOption,hpin]
  rfl

theorem pin_satisfiable_iff (base64 : StandardBase64 crates)
    (sha256 : ∀ b, (crates.sha256 b).length = 32) :
    (∀ (m : Manifest) (r : ResourceDoc) (pin : String), (m.validate crates).errors = [] →
      r ∈ m.doc.resources → r.integrity = some pin →
      (Satisfiable crates pin ↔ WholeDigest pin) ∧
      ((∃ b, checkIntegrity crates b pin = .ok ()) → WholeDigest pin)) ∧
    (∀ (b : Bytes) (all earlier : List ResourceDoc) (r : ResourceDoc),
      (validateResource crates all earlier
        { r with integrity := some (makeIntegrity crates b) }).errors =
      (validateResource crates all earlier { r with integrity := none }).errors) := by
  refine ⟨?_,fun b all earlier r => integrity_unobjected (makeIntegrity_valid base64 sha256 b) ..⟩
  intro m r pin hvalid hr hpin
  have hwhole := satisfiable_whole base64 (validate_integrity hvalid hr hpin)
  refine ⟨hwhole,?_⟩
  rintro ⟨b,hb⟩
  refine hwhole.mp ((satisfiable_iff base64).mpr ⟨crates.sha256 b,sha256 b,?_⟩)
  obtain ⟨b64,hs,-,-⟩ := isValidIntegrity_iff.mp (validate_integrity hvalid hr hpin)
  rw [hs,(integrity_ok base64 hs b).mp hb]

end Pins

section Pages

def pinningCrates : Crates :=
  { bundlingCrates with sha256 := fun b => if b == [] then emptyDigest else slimDigest }

def teamPage (pin : String) : Manifest :=
  ⟨manifestValue "a" [resourceValue "team" "murl" "murl://example.com/team" (some pin)],
    ⟨"0.1",none,"a",none,none,none,none,[pinned pin],[],none⟩⟩
where
  pinned (pin : String) : ResourceDoc :=
    ⟨"team","murl","murl://example.com/team",none,none,false,100,[],[],some pin,none⟩

def hollowPin : String := "sha256-47DEQpj8HBSa+/TImW+5JCeuQeRkm5NMpJWZG3hSuFU="

def padPin : String := "sha256-============================================"

theorem pinningCrates_base64 : StandardBase64 pinningCrates := by
  refine ⟨fun b => rfl,?_⟩
  intro s b
  cases h : Base64.decode s.toList <;> simp [pinningCrates,bundlingCrates,Serde.tokenising,h]

theorem pinningCrates_sha256 (b : Bytes) : (pinningCrates.sha256 b).length = 32 := by
  change (if b == [] then emptyDigest else slimDigest).length = 32
  split <;> rfl

theorem padPin_read : ManifestDoc.fromValue (teamPage padPin).raw =
    .ok (teamPage padPin).doc := rfl

theorem hollowPin_satisfiable : WholeDigest hollowPin ∧
    checkIntegrity pinningCrates [] hollowPin = .ok () := by
  have hvalid : ((teamPage hollowPin).validate pinningCrates).errors = [] := by decide +kernel
  have hmem : teamPage.pinned hollowPin ∈ (teamPage hollowPin).doc.resources :=
    List.mem_singleton.mpr rfl
  have hcheck : checkIntegrity pinningCrates [] hollowPin = .ok () := by decide +kernel
  have hpins := (pin_satisfiable_iff pinningCrates_base64 pinningCrates_sha256).1 _ _ hollowPin
    hvalid hmem rfl
  exact ⟨hpins.2 ⟨[],hcheck⟩,hcheck⟩

theorem padPin_accepted : ¬∀ (m : Manifest) (r : ResourceDoc) (pin : String),
    ManifestDoc.fromValue m.raw = .ok m.doc → (m.validate pinningCrates).errors = [] →
    r ∈ m.doc.resources → r.integrity = some pin → Satisfiable pinningCrates pin := by
  intro hall
  have hvalid : ((teamPage padPin).validate pinningCrates).errors = [] := by decide +kernel
  obtain ⟨digest,hlen,hpin,-⟩ := hall (teamPage padPin) _ padPin padPin_read hvalid
    (List.mem_singleton.mpr rfl) rfl
  have hdecode : Base64.decode "============================================".toList = none := by
    decide +kernel
  have hchars : Base64.encode digest = "============================================".toList := by
    have hlist := congrArg String.toList hpin
    rw [pinningCrates_base64.encodes,String.toList_append,
      @String.toList_ofList (Base64.encode digest)] at hlist
    have happ : padPin.toList =
        "sha256-".toList ++ "============================================".toList := by
      decide +kernel
    exact (List.append_cancel_left (happ.symm.trans hlist)).symm
  rw [← hchars,Base64.decode_encode] at hdecode
  cases hdecode

end Pages

end MurlSystem
