import MurlSystem.Reference.Signable

namespace MurlSystem.Reference

open Rfc8259

section Accepted

variable {crates : Crates} {f64 : List Char → Option String} {maxBytes : Nat} {b out : Bytes}

structure Accepted (f64 : List Char → Option String) (members : List (List Nat × Raw)) : Prop where
  nesting : Serde.depth (.object members) ≤ Serde.maxNesting
  scalar : ∀ s ∈ memberStrings members, s.any isSurrogate = false
  shown : ∀ w ∈ memberTexts members, (Serde.number f64 w).isSome = true
  distinct : ∀ ks ∈ names (.object members), ks.Nodup
  whole : ∀ w ∈ memberTexts (outside members), Serde.Whole w

theorem noDupMap_distinct {members : List (List Nat × Raw)} {ms : List (String × Value)}
    (hms : Serde.treeMembers f64 members = some ms)
    (hs : ∀ s ∈ memberStrings members, Serde.Sized s) :
    (∃ res, noDupMap [] ms = .ok res) ↔ ∀ ks ∈ names (.object members), ks.Nodup := by
  have hmap : (∃ res, noDupMap [] ms = .ok res) ↔ _ := Serde.noDupMap_iff (by simp)
  rw [List.map_nil,List.nil_append,Serde.treeMembers_nodup hms (Serde.memberStrings_keys hs),
    Serde.noDupMembers_iff hms hs,and_comm] at hmap
  rw [names,List.forall_mem_cons]
  exact hmap

theorem signedBytes_iff (serde : Serde.Tokenises crates f64) :
    (∃ out, signedBytes crates maxBytes b = .ok out) ↔ b.length ≤ maxBytes ∧
      ∃ members, Serde.document b = some (.object members) ∧ Accepted f64 members := by
  simp only [signedBytes_ok serde]
  constructor
  · rintro ⟨out,hlen,members,ms,res,hdoc,hdepth,hms,hres,hout⟩
    have hs := document_sized hdoc
    obtain ⟨hscalar,hshown⟩ := (Serde.treeMembers_iff members).mp ⟨ms,hms⟩
    exact ⟨hlen,members,hdoc,hdepth,hscalar,hshown,(noDupMap_distinct hms hs).mp ⟨res,hres⟩,
      (canonical_outside hms (Serde.memberStrings_keys hs) hres).mp ⟨out,hout⟩⟩
  · rintro ⟨hlen,members,hdoc,hdepth,hscalar,hshown,hdistinct,hwhole⟩
    have hs := document_sized hdoc
    obtain ⟨ms,hms⟩ := (Serde.treeMembers_iff members).mpr ⟨hscalar,hshown⟩
    obtain ⟨res,hres⟩ := (noDupMap_distinct hms hs).mpr hdistinct
    obtain ⟨out,hout⟩ := (canonical_outside hms (Serde.memberStrings_keys hs) hres).mpr hwhole
    exact ⟨out,hlen,members,ms,res,hdoc,hdepth,hms,hres,hout⟩

end Accepted

section Implied

variable {f64 : List Char → Option String} {py : Interpreter} {members : List (List Nat × Raw)}

def Bounded (f64 : List Char → Option String) : Prop :=
  ∀ w, numberRule.Derives w → (Serde.integerOf w).isSome → 640 ≤ digitCount w → f64 w = none

theorem digitCount_eq {w ds : List Char} (hds : Numeral.Plain ds) (h : w = ds ∨ w = '-' :: ds) :
    digitCount w = ds.length := by
  rcases h with rfl | rfl
  · rw [digitCount]
    rintro rest rfl
    exact absurd (hds.digits '-' (by simp)) (by decide)
  · rfl

theorem shown_converts (long : Bounded f64) {w : List Char} (hw : numberRule.Derives w)
    (h : (Serde.number f64 w).isSome = true) : Converts py w := by
  intro hint n hn
  have hlimit := py.converts n hn
  by_contra hmore
  have hnone := long w hw hint (by omega)
  obtain ⟨i,hi⟩ := Option.isSome_iff_exists.mp hint
  obtain ⟨ds,hds,hform,hvalue⟩ := Serde.integerOf_numeral hw hi
  rw [digitCount_eq hds hform] at hmore
  simp only [Serde.number,hi,hnone] at h
  split at h
  · rename_i hzero
    rw [hzero] at hform
    have hlen : ds.length ≤ 2 := by
      rcases hform with hform | hform
      · rw [← hform]
        decide
      · have hlen := congrArg List.length hform
        simp only [List.length_cons] at hlen
        have htwo : "-0".toList.length = 2 := by decide
        omega
    omega
  · split at h
    · rename_i hrange
      have hshort := Serde.numeral_short hds (by omega)
      omega
    · simp at h

theorem outside_depth (members : List (List Nat × Raw)) :
    Serde.depthMembers (outside members) ≤ Serde.depthMembers members := by
  induction members with
  | nil => exact Nat.le_refl _
  | cons m rest ih =>
    obtain ⟨k,raw⟩ := m
    rw [outside] at ih ⊢
    rw [List.filter_cons,Serde.depthMembers]
    split
    · rw [Serde.depthMembers]
      exact max_le_max_left _ ih
    · exact le_max_of_le_right ih

theorem accepted_signable (long : Bounded f64) (hw : ∃ w, Writes (.object members) w)
    (h : Accepted f64 members) : Signable py members where
  nesting := Nat.le_trans h.nesting py.scans
  distinct := h.distinct
  converts := by
    obtain ⟨w,hw⟩ := hw
    intro t ht
    exact shown_converts long (writes_texts hw t ht) (h.shown t ht)
  nests := by
    have hdepth := outside_depth members
    simp only [frames]
    have hframes := memberFrames_depth (outside members)
    have hnesting := h.nesting
    have hwrites := py.writes
    rw [Serde.depth] at hnesting
    omega
  range := by
    intro w hw
    obtain ⟨-,i,hi,hlo,hhi⟩ := h.whole w hw
    exact ⟨i,hi,hlo,by rw [intMax]; omega⟩
  scalar := fun s hs => h.scalar s (memberStrings_filter hs)

theorem accepted_shared (h : Accepted f64 members) : Shared f64 members :=
  ⟨h.nesting,h.scalar,h.shown,fun w hw => (h.whole w hw).1⟩

theorem shared_accepted (h : Signable py members) (hs : Shared f64 members) :
    Accepted f64 members where
  nesting := hs.nesting
  scalar := hs.scalar
  shown := hs.shown
  distinct := h.distinct
  whole := by
    intro w hw
    obtain ⟨i,hi,hlo,hhi⟩ := h.range w hw
    exact ⟨hs.unsigned w hw,i,hi,hlo,by rw [intMax] at hhi; omega⟩

end Implied

section Agreement

theorem same_bytes {crates : Crates} {f64 : List Char → Option String} {py : Interpreter}
    {maxBytes : Nat} {b out out' : Bytes} (serde : Serde.Tokenises crates f64)
    (hrust : signedBytes crates maxBytes b = .ok out)
    (hpython : referenceBytes py maxBytes b = some out') : out = out' := by
  obtain ⟨-,members,ms,res,hdoc,-,hms,hres,hout⟩ := (signedBytes_ok serde).mp hrust
  obtain ⟨-,members',js,points,hdoc',-,hjs,hnodup,hwrite,-,rfl⟩ := referenceBytes_some.mp hpython
  obtain rfl : members = members' := by
    cases hdoc.symm.trans hdoc'
    rfl
  obtain ⟨text,htext,rfl⟩ := Fallible.map_ok.mp hout
  have hs := document_sized hdoc
  have hms' := treeMembers_outside hms (Serde.memberStrings_keys hs)
  obtain ⟨vs,hvs,hperm⟩ := Serde.noDupMap_perm hres
  rw [List.nil_append] at hperm
  have hkeys : ((js.filter fun m => m.1 != literal "signature").map Prod.fst).Nodup := by
    rw [← scanMembers_keys hjs] at hnodup
    exact hnodup.sublist (List.filter_sublist.map Prod.fst)
  have hasc := (Serde.noDupMap_ascending .nil hres).filter fun m => m.1 != "signature"
  obtain ⟨n,hn⟩ : ∃ n, py.frames = n + 1 := ⟨py.frames - 1,by
    have hwrites := py.writes
    omega⟩
  have halike : List.Forall₂ (AlikeMember n) _ _ :=
    members_alike (fun s hmem => hs s (memberStrings_filter hmem)) hms' (noDup_outside hvs)
      (scanMembers_filter (· != literal "signature") hjs)
  have hdict := alike_dict hasc (hperm.filter _) halike hkeys
  rw [hn] at hwrite
  rw [hdict text points htext hwrite]
  have hchars : (Serde.points text).map Char.ofNat = text.toList := by
    rw [Serde.points,List.map_map]
    exact (List.map_congr_left fun c _ => Char.ofNat_toNat c).trans (List.map_id _)
  rw [hchars,String.ofList_toList]

theorem signed_alike (crates : Crates) (f64 : List Char → Option String) (py : Interpreter)
    (serde : Serde.Tokenises crates f64) (long : Bounded f64) (maxBytes : Nat) (b : Bytes) :
    (signedBytes crates maxBytes b).toOption = referenceBytes py maxBytes b ↔
      ∀ members, Serde.document b = some (.object members) → b.length ≤ maxBytes →
        Signable py members → Shared f64 members := by
  constructor
  · intro hagree members hdoc hlen hsign
    obtain ⟨out,hout⟩ := referenceBytes_iff.mpr ⟨hlen,members,hdoc,hsign⟩
    rw [← hagree,toOption_some] at hout
    obtain ⟨-,members',hdoc',haccepted⟩ := (signedBytes_iff serde).mp ⟨out,hout⟩
    cases hdoc.symm.trans hdoc'
    exact accepted_shared haccepted
  · intro h
    cases hrust : (signedBytes crates maxBytes b).toOption with
    | some out =>
      rw [toOption_some] at hrust
      obtain ⟨hlen,members,hdoc,haccepted⟩ := (signedBytes_iff serde).mp ⟨out,hrust⟩
      have hsign : Signable py members := accepted_signable long (document_writes hdoc) haccepted
      obtain ⟨out',hout'⟩ := referenceBytes_iff.mpr ⟨hlen,members,hdoc,hsign⟩
      rw [same_bytes serde hrust hout',hout']
    | none =>
      cases hpython : referenceBytes py maxBytes b with
      | none => rfl
      | some out =>
        obtain ⟨hlen,members,hdoc,hsign⟩ := referenceBytes_iff.mp ⟨out,hpython⟩
        have haccepted := shared_accepted hsign (h members hdoc hlen hsign)
        obtain ⟨out',hout'⟩ := (signedBytes_iff serde).mpr ⟨hlen,members,hdoc,haccepted⟩
        rw [toOption_some.mpr hout'] at hrust
        cases hrust

end Agreement

section MinusZero

def cpython : Interpreter where
  scanDepth := 990
  frames := 990
  maxStrDigits := some 4300
  scans := by decide
  writes := by decide
  converts := by simp

def finite (w : List Char) : Option String :=
  if w.length ≤ 300 then some (String.ofList w) else none

def zeroMembers (minus : List Char) : List (List Nat × Raw) :=
  [(literal "a",.number (minus ++ ['0']))]

def zeroText (minus : List Char) : String :=
  String.ofList ('{' :: '"' :: 'a' :: '"' :: ':' :: (minus ++ ['0'] ++ ['}']))

theorem zero_document {minus : List Char} (h : numberRule.Derives (minus ++ ['0'])) :
    Serde.document (Text.bytes (zeroText minus)) = some (.object (zeroMembers minus)) := by
  apply Serde.document_bytes
  have hfield : MemberText [] (literal "a",.number (minus ++ ['0']))
      ('"' :: ('a' :: '"' :: ':' :: (minus ++ ['0']))) :=
    ⟨literal "a",['a'],minus ++ ['0'],rfl,.plain 'a' [] [] (by decide) (by decide) (by decide) .nil,
      .number _ h,rfl⟩
  have hwrites := writes_object blank_nil blank_nil blank_nil (.cons hfield .nil)
  simpa [zeroText,zeroMembers] using hwrites

theorem zero_rule : numberRule.Derives ([] ++ ['0']) := number_int 0

theorem minus_zero_rule : numberRule.Derives (['-'] ++ ['0']) :=
  number_cases.mpr ⟨['0'],.inr rfl,unsigned_integer (integer_plain (Numeral.plain_toDigits 0))⟩

theorem minus_zero_signable : Signable cpython (zeroMembers ['-']) where
  nesting := by decide
  distinct := by decide
  converts := by
    simp [zeroMembers,memberTexts,texts,Converts,cpython,digitCount]
  nests := by decide
  range := by
    rw [show memberTexts (outside (zeroMembers ['-'])) = ["-0".toList] from rfl,
      List.forall_mem_singleton]
    exact ⟨0,rfl,by decide,by decide⟩
  scalar := by decide

theorem finite_bounded : Bounded finite := by
  intro w hw hint hlong
  have hlen : ¬w.length ≤ 300 := by
    have hcount : digitCount w ≤ w.length := by
      rw [digitCount.eq_def]
      split <;> simp
    omega
  rw [finite,if_neg hlen]

theorem minus_zero_divides : (∃ out, referenceBytes cpython 262144 (Text.bytes (zeroText ['-'])) =
    some out) ∧ (signedBytes (Serde.tokenising finite Serde.bareCrates) 262144
      (Text.bytes (zeroText ['-']))).toOption = none := by
  have hdoc := zero_document minus_zero_rule
  have hlen : (Text.bytes (zeroText ['-'])).length ≤ 262144 := by decide
  refine ⟨referenceBytes_iff.mpr ⟨hlen,_,hdoc,minus_zero_signable⟩,?_⟩
  rw [Option.eq_none_iff_forall_not_mem]
  intro out hout
  have serde := Serde.tokenising_tokenises finite Serde.bareCrates
  obtain ⟨-,members,hdoc',haccepted⟩ := (signedBytes_iff serde).mp ⟨out,toOption_some.mp hout⟩
  cases hdoc.symm.trans hdoc'
  exact (haccepted.whole "-0".toList (by decide)).1 rfl

theorem signed_alike_zero : (signedBytes (Serde.tokenising finite Serde.bareCrates) 262144
    (Text.bytes (zeroText []))).toOption =
      referenceBytes cpython 262144 (Text.bytes (zeroText [])) := by
  have serde := Serde.tokenising_tokenises finite Serde.bareCrates
  refine (signed_alike _ finite cpython serde finite_bounded 262144 _).mpr ?_
  intro members hdoc _ _
  cases (zero_document zero_rule).symm.trans hdoc
  exact ⟨by decide,by decide,by decide,by decide⟩

end MinusZero

end MurlSystem.Reference
