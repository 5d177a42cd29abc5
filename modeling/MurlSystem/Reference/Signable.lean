import MurlSystem.Reference.Signing

namespace MurlSystem.Reference

open Rfc8259

section Surrogates

variable {py : Interpreter} {u : Nat}

theorem surrogate_char (hu : isSurrogate u = true) (c : Char) : u ≠ c.toNat := by
  rintro rfl
  rw [scalar_not_surrogate] at hu
  cases hu

theorem mem_intercalate (hu : isSurrogate u = true) {parts : List (List Nat)} :
    u ∈ [','.toNat].intercalate parts ↔ ∃ p ∈ parts, u ∈ p := by
  constructor
  · intro h
    rcases Text.mem_intercalate h with h | h
    · exact absurd h (surrogate_char hu ',')
    · exact h
  · rintro ⟨p,hp,h⟩
    exact Text.mem_intercalate_of_mem hp h

theorem mem_literal (hu : isSurrogate u = true) (s : String) : u ∉ literal s := fun h => by
  rw [literal_not_surrogate h] at hu
  cases hu

theorem mem_member (hu : isSurrogate u = true) {n : Nat} {m : List Nat × Json} {p : List Nat}
    (h : writeMember n (write n) m = .ok p) : ∃ v, write n m.2 = .ok v ∧
      (u ∈ p ↔ u ∈ m.1 ∨ u ∈ v) := by
  obtain ⟨-,v,hv,rfl⟩ := writeMember_ok.mp h
  refine ⟨v,hv,?_⟩
  simp only [List.mem_append,List.mem_cons,mem_flatMap_escape hu,surrogate_char hu,
    List.not_mem_nil,false_or,or_false]

mutual

theorem write_surrogates : ∀ {raw : Raw} {j : Json} {n : Nat} {out : List Nat},
    isSurrogate u = true → scan py raw = .ok j → write n j = .ok out →
      (u ∈ out ↔ ∃ s ∈ strings raw, u ∈ s)
  | raw,j,0,out,_,_,hout => by simp [write] at hout
  | .null,j,n + 1,out,hu,hj,hout => by
    obtain rfl := Except.ok.inj hj
    obtain rfl := Except.ok.inj hout
    simp [strings,mem_literal hu]
  | .bool b,j,n + 1,out,hu,hj,hout => by
    obtain rfl := Except.ok.inj hj
    cases b <;> (obtain rfl := Except.ok.inj hout; simp [strings,mem_literal hu])
  | .number w,j,n + 1,out,hu,hj,hout => by
    rcases parseNumber_ok hj with ⟨i,-,rfl⟩ | ⟨-,rfl⟩
    · rw [write] at hout
      split at hout
      · obtain rfl := Except.ok.inj hout
        simp [strings,mem_literal hu]
      · cases hout
    · cases hout
  | .string k,j,n + 1,out,hu,hj,hout => by
    obtain rfl := Except.ok.inj hj
    obtain ⟨-,rfl⟩ := writeString_ok.mp hout
    simp only [List.mem_cons,List.mem_append,List.not_mem_nil,or_false,surrogate_char hu,false_or,
      mem_flatMap_escape hu,strings,exists_eq_left]
  | .array items,j,n + 1,out,hu,hj,hout => by
    simp only [scan,Fallible.bind_ok,Fallible.pure_ok] at hj
    obtain ⟨js,hjs,rfl⟩ := hj
    obtain ⟨parts,hparts,rfl⟩ := write_list.mp hout
    simp only [List.mem_cons,List.mem_append,List.not_mem_nil,or_false,surrogate_char hu,false_or,
      mem_intercalate hu,strings]
    exact writeItems_surrogates hu hjs (Fallible.mapM_ok.mp hparts)
  | .object members,j,n + 1,out,hu,hj,hout => by
    obtain ⟨js,hjs,-,rfl⟩ := scan_object.mp hj
    obtain ⟨parts,hparts,rfl⟩ := write_dict.mp hout
    obtain ⟨parts',hparts',hperm⟩ :=
      List.perm_comp_forall₂ (sortedMembers_perm js).symm (Fallible.mapM_ok.mp hparts)
    have hmem : (∃ p ∈ parts, u ∈ p) ↔ ∃ p ∈ parts', u ∈ p := by
      simp only [hperm.mem_iff]
    simp only [List.mem_cons,List.mem_append,List.not_mem_nil,or_false,surrogate_char hu,false_or,
      mem_intercalate hu,strings]
    exact hmem.trans (writeMembers_surrogates hu hjs hparts')

theorem writeItems_surrogates : ∀ {items : List Raw} {js : List Json} {n : Nat}
    {parts : List (List Nat)}, isSurrogate u = true → scanItems py items = .ok js →
      List.Forall₂ (fun j p => write n j = .ok p) js parts →
        ((∃ p ∈ parts, u ∈ p) ↔ ∃ s ∈ itemStrings items, u ∈ s)
  | [],js,n,parts,_,hjs,hparts => by
    obtain rfl : [] = js := by simpa [scanItems] using hjs
    cases hparts
    simp [itemStrings]
  | raw :: rest,js,n,parts,hu,hjs,hparts => by
    obtain ⟨j,hj,js',hjs',rfl⟩ := scanItems_cons.mp hjs
    obtain ⟨p,parts',hp,hparts',rfl⟩ := List.forall₂_cons_left_iff.mp hparts
    have hhead := write_surrogates hu hj hp
    have htail := writeItems_surrogates hu hjs' hparts'
    simp only [List.mem_cons,itemStrings,List.mem_append,or_and_right,exists_or,exists_eq_left]
    exact or_congr hhead htail

theorem writeMembers_surrogates : ∀ {members : List (List Nat × Raw)}
    {js : List (List Nat × Json)} {n : Nat} {parts : List (List Nat)}, isSurrogate u = true →
      scanMembers py members = .ok js →
        List.Forall₂ (fun m p => writeMember n (write n) m = .ok p) js parts →
          ((∃ p ∈ parts, u ∈ p) ↔ ∃ s ∈ memberStrings members, u ∈ s)
  | [],js,n,parts,_,hjs,hparts => by
    obtain rfl : [] = js := by simpa [scanMembers] using hjs
    cases hparts
    simp [memberStrings]
  | (k,raw) :: rest,js,n,parts,hu,hjs,hparts => by
    obtain ⟨j,hj,js',hjs',rfl⟩ := scanMembers_cons.mp hjs
    obtain ⟨p,parts',hp,hparts',rfl⟩ := List.forall₂_cons_left_iff.mp hparts
    obtain ⟨v,hv,hmem⟩ := mem_member hu hp
    have hhead := write_surrogates hu hj hv
    have htail := writeMembers_surrogates hu hjs' hparts'
    simp only [memberStrings,List.mem_cons,List.mem_append,or_and_right,
      exists_or,exists_eq_left]
    rw [hmem,htail,hhead,or_assoc]

end

end Surrogates

section Pipelines

def signedBytes (crates : Crates) (maxBytes : Nat) (b : Bytes) : Except Error Bytes :=
  if maxBytes < b.length then
    .error (.limitExceeded s!"manifest is {b.length} bytes, limit is {maxBytes}")
  else
    match fromSliceStrict crates b with
    | .error e => .error (.manifest s!"invalid JSON: {e}")
    | .ok raw => signableBytes raw

def referenceBytes (py : Interpreter) (maxBytes : Nat) (b : Bytes) : Option Bytes := do
  let document ← (parseManifest py maxBytes b).toOption
  (signingBytes py document).toOption

def outside (members : List (List Nat × Raw)) : List (List Nat × Raw) :=
  members.filter fun m => m.1 != literal "signature"

structure Signable (py : Interpreter) (members : List (List Nat × Raw)) : Prop where
  nesting : Serde.depth (.object members) ≤ py.scanDepth
  distinct : ∀ ks ∈ names (.object members), ks.Nodup
  converts : ∀ w ∈ memberTexts members, Converts py w
  nests : frames (.object (outside members)) ≤ py.frames
  range : ∀ w ∈ memberTexts (outside members), InRange w
  scalar : ∀ s ∈ memberStrings (outside members), s.any isSurrogate = false

structure Shared (f64 : List Char → Option String) (members : List (List Nat × Raw)) : Prop where
  nesting : Serde.depth (.object members) ≤ Serde.maxNesting
  scalar : ∀ s ∈ memberStrings members, s.any isSurrogate = false
  shown : ∀ w ∈ memberTexts members, (Serde.number f64 w).isSome = true
  unsigned : ∀ w ∈ memberTexts (outside members), w ≠ "-0".toList

end Pipelines

section Reference

variable {py : Interpreter} {maxBytes : Nat} {b out : Bytes}

theorem toOption_some {ε α : Type} {x : Except ε α} {a : α} :
    x.toOption = some a ↔ x = .ok a := by
  cases x <;> simp [Except.toOption]

theorem scan_dict {raw : Raw} {js : List (List Nat × Json)} (h : scan py raw = .ok (.dict js)) :
    ∃ members, raw = .object members := by
  cases raw with
  | null => cases h
  | bool b => cases h
  | number w =>
    rcases parseNumber_ok h with ⟨i,-,hj⟩ | ⟨-,hj⟩
    · cases hj
    · cases hj
  | string k => cases h
  | array items =>
    simp only [scan,Fallible.bind_ok,Fallible.pure_ok] at h
    obtain ⟨_,_,hj⟩ := h
    cases hj
  | object members => exact ⟨members,rfl⟩

theorem parseManifest_ok {js : List (List Nat × Json)} :
    parseManifest py maxBytes b = .ok js ↔ b.length ≤ maxBytes ∧
      ∃ members, Serde.document b = some (.object members) ∧
        Serde.depth (.object members) ≤ py.scanDepth ∧
        scan py (.object members) = .ok (.dict js) := by
  rw [parseManifest]
  simp only [Serde.document,Option.bind_eq_bind]
  split
  · rename_i hlen
    simp only [reduceCtorEq,false_iff,not_and]
    omega
  rename_i hlen
  rw [and_iff_right (Nat.not_lt.mp hlen)]
  split
  · rename_i hnone
    simp [hnone]
  rename_i text htext
  rw [htext,Option.bind_some]
  split
  · rename_i hnone
    simp [hnone]
  rename_i raw hraw
  rw [hraw]
  simp only [Option.some.injEq]
  split
  · rename_i hdepth
    simp only [reduceCtorEq,false_iff,not_exists,not_and]
    rintro members rfl hle
    omega
  rename_i hdepth
  split
  · rename_i hscan
    simp only [reduceCtorEq,false_iff,not_exists,not_and]
    rintro members rfl - hok
    rw [hscan] at hok
    cases hok
  · rename_i js' hscan
    obtain ⟨members,rfl⟩ := scan_dict hscan
    simp only [Except.ok.injEq]
    constructor
    · rintro rfl
      exact ⟨members,rfl,Nat.not_lt.mp hdepth,hscan⟩
    · rintro ⟨members',heq,-,hok⟩
      rw [← heq,hscan] at hok
      cases hok
      rfl
  · rename_i j hnot hscan
    simp only [reduceCtorEq,false_iff,not_exists,not_and]
    rintro members rfl - hok
    rw [hscan] at hok
    exact hnot js (Except.ok.inj hok)

theorem encode_ok {points : List Nat} : encode points = .ok out ↔
    points.any isSurrogate = false ∧ out = Text.bytes (String.ofList (points.map Char.ofNat)) := by
  rw [encode]
  split
  · rename_i h
    simp [h]
  · rename_i h
    simp [Bool.not_eq_true _ ▸ h,eq_comm]

theorem referenceBytes_some : referenceBytes py maxBytes b = some out ↔ b.length ≤ maxBytes ∧
    ∃ members js points, Serde.document b = some (.object members) ∧
      Serde.depth (.object members) ≤ py.scanDepth ∧ scanMembers py members = .ok js ∧
      (members.map Prod.fst).Nodup ∧
      write py.frames (.dict (js.filter fun m => m.1 != literal "signature")) = .ok points ∧
      points.any isSurrogate = false ∧
      out = Text.bytes (String.ofList (points.map Char.ofNat)) := by
  simp only [referenceBytes,Option.bind_eq_bind,Option.bind_eq_some_iff,toOption_some,
    parseManifest_ok,signingBytes,canonicalBytes,Fallible.bind_ok,encode_ok,scan_object]
  constructor
  · rintro ⟨js,⟨hlen,members,hdoc,hdepth,js',hjs,hnodup,heq⟩,points,hwrite,hscalar,rfl⟩
    cases heq
    exact ⟨hlen,members,js,points,hdoc,hdepth,hjs,hnodup,hwrite,hscalar,rfl⟩
  · rintro ⟨hlen,members,js,points,hdoc,hdepth,hjs,hnodup,hwrite,hscalar,rfl⟩
    exact ⟨js,⟨hlen,members,hdoc,hdepth,js,hjs,hnodup,rfl⟩,points,hwrite,hscalar,rfl⟩

theorem outside_scan {members : List (List Nat × Raw)} {js : List (List Nat × Json)}
    (hjs : scanMembers py members = .ok js) (hnodup : (members.map Prod.fst).Nodup) :
    scan py (.object (outside members)) =
      .ok (.dict (js.filter fun m => m.1 != literal "signature")) := by
  have hsub : ((outside members).map Prod.fst).Nodup :=
    hnodup.sublist (List.filter_sublist.map Prod.fst)
  exact scan_object.mpr ⟨_,scanMembers_filter (· != literal "signature") hjs,hsub,rfl⟩

theorem points_scalar_iff {raw : Raw} {j : Json} {n : Nat} {points : List Nat}
    (hj : scan py raw = .ok j) (hout : write n j = .ok points) :
    points.any isSurrogate = false ↔ ∀ s ∈ strings raw, s.any isSurrogate = false := by
  simp only [List.any_eq_false]
  constructor
  · intro h s hs u hu hsur
    exact h u ((write_surrogates hsur hj hout).mpr ⟨s,hs,hu⟩) hsur
  · intro h u hu hsur
    obtain ⟨s,hs,hus⟩ := (write_surrogates hsur hj hout).mp hu
    exact h s hs u hus hsur

theorem referenceBytes_iff : (∃ out, referenceBytes py maxBytes b = some out) ↔
    b.length ≤ maxBytes ∧ ∃ members, Serde.document b = some (.object members) ∧
      Signable py members := by
  simp only [referenceBytes_some]
  constructor
  · rintro ⟨out,hlen,members,js,points,hdoc,hdepth,hjs,hnodup,hwrite,hscalar,-⟩
    have hout := outside_scan hjs hnodup
    obtain ⟨hframes,hrange⟩ := (write_iff hout).mp ⟨points,hwrite⟩
    obtain ⟨hnames,htexts⟩ := (scanMembers_iff members).mp ⟨js,hjs⟩
    exact ⟨hlen,members,hdoc,hdepth,List.forall_mem_cons.mpr ⟨hnodup,hnames⟩,htexts,hframes,hrange,
      (points_scalar_iff hout hwrite).mp hscalar⟩
  · rintro ⟨hlen,members,hdoc,hdepth,hdistinct,htexts,hframes,hrange,hscalar⟩
    obtain ⟨hnodup,hnames⟩ := List.forall_mem_cons.mp hdistinct
    obtain ⟨js,hjs⟩ := (scanMembers_iff members).mpr ⟨hnames,htexts⟩
    have hout := outside_scan hjs hnodup
    obtain ⟨points,hwrite⟩ := (write_iff hout).mpr ⟨hframes,hrange⟩
    exact ⟨_,hlen,members,js,points,hdoc,hdepth,hjs,hnodup,hwrite,
      (points_scalar_iff hout hwrite).mpr hscalar,rfl⟩

end Reference

section Rust

variable {crates : Crates} {f64 : List Char → Option String} {maxBytes : Nat} {b out : Bytes}

theorem document_writes {raw : Raw} (h : Serde.document b = some raw) : ∃ w, Writes raw w := by
  simp only [Serde.document,Option.bind_eq_bind,Option.bind_eq_some_iff] at h
  obtain ⟨text,-,hread⟩ := h
  obtain ⟨_,w,_,-,-,hw,-⟩ := read_sound hread
  exact ⟨w,hw⟩

theorem document_sized {members : List (List Nat × Raw)}
    (h : Serde.document b = some (.object members)) :
    ∀ s ∈ memberStrings members, Serde.Sized s := by
  obtain ⟨w,hw⟩ := document_writes h
  exact writes_lt hw

theorem object_tokens {raw : Raw} {ms : List (String × Value)}
    (h : Serde.tree f64 raw = some (.object ms)) :
    ∃ members, raw = .object members ∧ Serde.treeMembers f64 members = some ms := by
  cases raw with
  | null => cases h
  | bool b => cases h
  | number w =>
    obtain ⟨_,_,heq⟩ := Option.map_eq_some_iff.mp h
    cases heq
  | string k =>
    obtain ⟨_,_,heq⟩ := Option.map_eq_some_iff.mp h
    cases heq
  | array items =>
    obtain ⟨_,_,heq⟩ := Option.map_eq_some_iff.mp h
    cases heq
  | object members =>
    obtain ⟨ms',hms,heq⟩ := Option.map_eq_some_iff.mp h
    cases heq
    exact ⟨members,rfl,hms⟩

theorem noDup_object {t : Value} {res : List (String × Value)} (h : noDup t = .ok (.object res)) :
    ∃ ms, t = .object ms ∧ noDupMap [] ms = .ok res := by
  cases t with
  | null => simp [noDup] at h
  | bool b => simp [noDup] at h
  | number n => simp [noDup] at h
  | string s => simp [noDup] at h
  | array items =>
    simp only [noDup,Fallible.bind_ok,Fallible.pure_ok] at h
    obtain ⟨_,_,heq⟩ := h
    cases heq
  | object ms =>
    simp only [noDup,Fallible.bind_ok,Fallible.pure_ok] at h
    obtain ⟨res',hres,heq⟩ := h
    cases heq
    exact ⟨ms,rfl,hres⟩

theorem readTokens_object {ms : List (String × Value)} :
    Serde.readTokens f64 b = some (.object ms) ↔ ∃ members,
      Serde.document b = some (.object members) ∧
      Serde.depth (.object members) ≤ Serde.maxNesting ∧
      Serde.treeMembers f64 members = some ms := by
  simp only [Serde.readTokens,Option.bind_eq_bind,Option.bind_eq_some_iff]
  constructor
  · rintro ⟨raw,hdoc,h⟩
    split at h
    · cases h
    · rename_i hdepth
      obtain ⟨members,rfl,hms⟩ := object_tokens h
      exact ⟨members,hdoc,Nat.not_lt.mp hdepth,hms⟩
  · rintro ⟨members,hdoc,hdepth,hms⟩
    refine ⟨_,hdoc,?_⟩
    rw [if_neg (Nat.not_lt.mpr hdepth),Serde.tree,hms]
    rfl

theorem signableBytes_ok {raw : Value} : signableBytes raw = .ok out ↔
    ∃ res, raw = .object res ∧
      canonicalJsonBytes (.object (res.filter fun (k,_) => k != "signature")) = .ok out := by
  cases raw <;> simp [signableBytes]

theorem signedBytes_ok (serde : Serde.Tokenises crates f64) :
    signedBytes crates maxBytes b = .ok out ↔ b.length ≤ maxBytes ∧
      ∃ members ms res, Serde.document b = some (.object members) ∧
        Serde.depth (.object members) ≤ Serde.maxNesting ∧
        Serde.treeMembers f64 members = some ms ∧ noDupMap [] ms = .ok res ∧
        canonicalJsonBytes (.object (res.filter fun (k,_) => k != "signature")) = .ok out := by
  rw [signedBytes]
  split
  · rename_i hlen
    simp only [reduceCtorEq,false_iff,not_and]
    omega
  rename_i hlen
  rw [and_iff_right (Nat.not_lt.mp hlen)]
  have hstrict : ∀ raw, fromSliceStrict crates b = .ok raw ↔
      ∃ tokens, Serde.readTokens f64 b = some tokens ∧ noDup tokens = .ok raw := by
    intro raw
    simp only [fromSliceStrict,Fallible.bind_ok,serde b]
  constructor
  · intro h
    split at h
    · cases h
    · rename_i raw hraw
      obtain ⟨res,rfl,hout⟩ := signableBytes_ok.mp h
      obtain ⟨tokens,htokens,hdup⟩ := (hstrict _).mp hraw
      obtain ⟨ms,rfl,hres⟩ := noDup_object hdup
      obtain ⟨members,hdoc,hdepth,hms⟩ := readTokens_object.mp htokens
      exact ⟨members,ms,res,hdoc,hdepth,hms,hres,hout⟩
  · rintro ⟨members,ms,res,hdoc,hdepth,hms,hres,hout⟩
    have hdup : noDup (.object ms) = .ok (.object res) := by
      rw [noDup,hres]
      rfl
    have hraw := (hstrict _).mpr ⟨_,readTokens_object.mpr ⟨members,hdoc,hdepth,hms⟩,hdup⟩
    rw [hraw]
    exact signableBytes_ok.mpr ⟨res,rfl,hout⟩

theorem signature_key (k : String) : (Serde.points k != literal "signature") = (k != "signature") := by
  by_cases hk : k = "signature"
  · subst hk
    simp [literal,Serde.points]
  · have hne : Serde.points k ≠ literal "signature" := fun h => hk (Serde.points_injective h)
    rw [bne_iff_ne.mpr hne,bne_iff_ne.mpr hk]

theorem treeMembers_outside {members : List (List Nat × Raw)} {ms : List (String × Value)}
    (h : Serde.treeMembers f64 members = some ms) (hs : ∀ m ∈ members, Serde.Sized m.1) :
    Serde.treeMembers f64 (outside members) = some (ms.filter fun (k,_) => k != "signature") := by
  induction members generalizing ms with
  | nil =>
    obtain rfl := Option.some.inj h
    rfl
  | cons m rest ih =>
    obtain ⟨k,raw⟩ := m
    obtain ⟨s,v,ms',hk,hv,hms,rfl⟩ := Serde.treeMembers_cons h
    obtain ⟨hkey,hrest⟩ := List.forall_mem_cons.mp hs
    have hsame : (k != literal "signature") = (s != "signature") := by
      rw [← Serde.points_of_scalar hk hkey,signature_key]
    have htail := ih hms hrest
    rw [outside] at htail ⊢
    by_cases hs : (s != "signature") = true
    · rw [hs] at hsame
      simp only [List.filter_cons,hs,hsame,if_true]
      simp [Serde.treeMembers,hk,hv,htail]
    · rw [Bool.not_eq_true] at hs
      rw [hs] at hsame
      simp only [List.filter_cons,hs,hsame]
      exact htail

theorem noDup_outside {ms vs : List (String × Value)}
    (h : List.Forall₂ (fun m v => m.1 = v.1 ∧ noDup m.2 = .ok v.2) ms vs) :
    List.Forall₂ (fun m v => m.1 = v.1 ∧ noDup m.2 = .ok v.2)
      (ms.filter fun (k,_) => k != "signature") (vs.filter fun (k,_) => k != "signature") := by
  induction h with
  | nil => exact .nil
  | @cons m v ms vs hmv _ ih =>
    obtain ⟨k,t⟩ := m
    obtain ⟨k',v⟩ := v
    obtain ⟨rfl,hv⟩ := hmv
    by_cases hs : (k != "signature") = true
    · simp only [List.filter_cons,hs,if_true]
      exact .cons ⟨rfl,hv⟩ ih
    · simp only [List.filter_cons,hs]
      exact ih

theorem outside_numbers {members : List (List Nat × Raw)} {ms res : List (String × Value)}
    (hms : Serde.treeMembers f64 members = some ms) (hs : ∀ m ∈ members, Serde.Sized m.1)
    (hres : noDupMap [] ms = .ok res) (n : Number) :
    n ∈ Serde.numbersMembers (res.filter fun (k,_) => k != "signature") ↔
      ∃ w ∈ memberTexts (outside members), Serde.number f64 w = some n := by
  obtain ⟨vs,hvs,hperm⟩ := Serde.noDupMap_perm hres
  rw [List.nil_append] at hperm
  rw [← Serde.treeMembers_numbers (treeMembers_outside hms hs) n,
    ← Serde.noDupMembers_numbers (noDup_outside hvs) n,Serde.numbersMembers_eq,
    Serde.numbersMembers_eq,((hperm.filter _).flatMap_right _).mem_iff]

theorem canonical_outside {members : List (List Nat × Raw)} {ms res : List (String × Value)}
    (hms : Serde.treeMembers f64 members = some ms) (hs : ∀ m ∈ members, Serde.Sized m.1)
    (hres : noDupMap [] ms = .ok res) :
    (∃ out, canonicalJsonBytes (.object (res.filter fun (k,_) => k != "signature")) = .ok out) ↔
      ∀ w ∈ memberTexts (outside members), Serde.Whole w := by
  have htree := (Serde.treeMembers_iff _).mp ⟨_,treeMembers_outside hms hs⟩
  rw [Serde.canonicalJsonBytes_iff]
  constructor
  · intro h w hw
    obtain ⟨n,hn⟩ := Option.isSome_iff_exists.mp (htree.2 w hw)
    exact (Serde.number_integral hn).mp (h n ((outside_numbers hms hs hres n).mpr ⟨w,hw,hn⟩))
  · intro h n hn
    obtain ⟨w,hw,hnum⟩ := (outside_numbers hms hs hres n).mp hn
    exact (Serde.number_integral hnum).mpr (h w hw)

end Rust

end MurlSystem.Reference
