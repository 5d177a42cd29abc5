import MurlSystem.Canonical.Injective
import MurlSystem.Core.Trust
import MurlSystem.Foundation.Base64

namespace MurlSystem

open Fallible

structure Keypair where
  publicKey : Bytes
  sign : Bytes → Bytes

def Keypair.publicKeyB64 (crates : Crates) (keypair : Keypair) : String :=
  crates.base64Encode keypair.publicKey

def Keypair.keyId (crates : Crates) (keypair : Keypair) : String :=
  keyIdFor crates keypair.publicKey

def putMember (k : String) (v : Value) (members : List (String × Value)) :
    List (String × Value) := insertMember k v (members.filter fun m => m.1 != k)

def signatureBlock (crates : Crates) (keypair : Keypair) (bytes : Bytes) :
    List (String × Value) :=
  [("alg",.string "ed25519"),("keyId",.string (keypair.keyId crates)),
    ("publicKey",.string (keypair.publicKeyB64 crates)),
    ("sig",.string (crates.base64Encode (keypair.sign bytes)))]

def signManifest (crates : Crates) (raw : Value) (keypair : Keypair) : Except Error Value := do
  let bytes ← signableBytes raw
  match raw with
  | .object members =>
    return .object (putMember "signature" (.object (signatureBlock crates keypair bytes)) members)
  | _ => throw (.manifest "manifest must be a JSON object")

def HasCanonicalForm (v : Value) : Prop := ∃ bytes, canonicalJsonBytes v = .ok bytes

-- What is relied on of base64 and of a key's signatures.
structure Signs (crates : Crates) (keypair : Keypair) : Prop where
  publicKey : keypair.publicKey.length = 32
  signature : ∀ m, (keypair.sign m).length = 64
  point : crates.verifyingKey keypair.publicKey = .ok ()
  accepts : ∀ m, crates.ed25519Verify keypair.publicKey m (keypair.sign m) = true
  decodes : ∀ b, crates.base64Decode (crates.base64Encode b) = .ok b

def outsideSignature (members : List (String × Value)) : List (String × Value) :=
  members.filter fun m => m.1 != "signature"

section Members

variable {k : String} {v : Value} {members : List (String × Value)}

theorem filter_insertMember {p : String × Value → Bool} (h : p (k,v) = false) :
    (insertMember k v members).filter p = members.filter p := by
  induction members with
  | nil => simp [insertMember,h]
  | cons m rest ih =>
    obtain ⟨k',v'⟩ := m
    rw [insertMember]
    split
    · rw [List.filter_cons_of_neg (by simp [h])]
    · rw [List.filter_cons,List.filter_cons,ih]

theorem lookup_insertMember (h : ∀ m ∈ members, m.1 ≠ k) :
    (insertMember k v members).lookup k = some v := by
  induction members with
  | nil => simp [insertMember]
  | cons m rest ih =>
    obtain ⟨k',v'⟩ := m
    obtain ⟨hm,hrest⟩ := List.forall_mem_cons.mp h
    rw [insertMember]
    split
    · simp
    · have hne : (k == k') = false := beq_eq_false_iff_ne.mpr (Ne.symm hm)
      rw [List.lookup_cons,hne]
      exact ih hrest

theorem outsideSignature_put (members : List (String × Value)) (v : Value) :
    outsideSignature (putMember "signature" v members) = outsideSignature members := by
  unfold outsideSignature putMember
  rw [filter_insertMember (by simp),List.filter_filter]
  simp

theorem lookup_put (members : List (String × Value)) (k : String) (v : Value) :
    (putMember k v members).lookup k = some v := by
  refine lookup_insertMember fun m hm => ?_
  exact bne_iff_ne.mp (List.mem_filter.mp hm).2

theorem signableBytes_object (members : List (String × Value)) :
    signableBytes (.object members) =
      (canonicalJsonBytes (.object (outsideSignature members))).mapError Error.validation := rfl

end Members

section Signing

variable {crates : Crates} {keypair : Keypair} {raw : Value} {bytes : Bytes}
  {members : List (String × Value)}

theorem signable_of_canonical (h : HasCanonicalForm (.object members)) :
    ∃ bytes, signableBytes (.object members) = .ok bytes := by
  have hint := (Serde.canonicalJsonBytes_iff _).mp h
  obtain ⟨bytes,hbytes⟩ := (Serde.canonicalJsonBytes_iff (.object (outsideSignature members))).mpr
    (by
      intro n hn
      rw [Serde.numbers,Serde.numbersMembers_eq] at hn
      obtain ⟨m,hm,hn⟩ := List.mem_flatMap.mp hn
      refine hint n ?_
      rw [Serde.numbers,Serde.numbersMembers_eq]
      exact List.mem_flatMap.mpr ⟨m,(List.mem_filter.mp hm).1,hn⟩)
  exact ⟨bytes,by rw [signableBytes_object,hbytes]; rfl⟩

theorem signableBytes_put (members : List (String × Value)) (v : Value) :
    signableBytes (.object (putMember "signature" v members)) =
      signableBytes (.object members) := by
  rw [signableBytes_object,signableBytes_object,outsideSignature_put]

theorem putMember_put (k : String) (v v' : Value) (members : List (String × Value)) :
    putMember k v (putMember k v' members) = putMember k v members := by
  rw [putMember,putMember,filter_insertMember (by simp),List.filter_filter]
  simp [putMember]

theorem signManifest_object (crates : Crates) (keypair : Keypair)
    (h : signableBytes (.object members) = .ok bytes) :
    signManifest crates (.object members) keypair = .ok (.object (putMember "signature"
      (.object (signatureBlock crates keypair bytes)) members)) := by
  rw [signManifest,h]
  rfl

theorem signManifest_put (crates : Crates) (keypair : Keypair) (members : List (String × Value))
    (v : Value) : signManifest crates (.object (putMember "signature" v members)) keypair =
      signManifest crates (.object members) keypair := by
  simp only [signManifest,signableBytes_put,putMember_put]

theorem checkSignature_block (h : Signs crates keypair) (hbytes : signableBytes raw = .ok bytes) :
    checkSignature crates raw (signatureBlock crates keypair bytes) =
      .ok ⟨keypair.keyId crates,keypair.publicKeyB64 crates⟩ := by
  have halg : signatureField (signatureBlock crates keypair bytes) "alg" = .ok "ed25519" := by
    simp [signatureField,signatureBlock,Value.asStr]
  have hid : signatureField (signatureBlock crates keypair bytes) "keyId" =
      .ok (keypair.keyId crates) := by
    simp [signatureField,signatureBlock,List.lookup_cons,Value.asStr]
  have hkey : signatureField (signatureBlock crates keypair bytes) "publicKey" =
      .ok (keypair.publicKeyB64 crates) := by
    simp [signatureField,signatureBlock,List.lookup_cons,Value.asStr]
  have hsig : signatureField (signatureBlock crates keypair bytes) "sig" =
      .ok (crates.base64Encode (keypair.sign bytes)) := by
    simp [signatureField,signatureBlock,List.lookup_cons,Value.asStr]
  have hverify := h.accepts bytes
  simp only [checkSignature,bind_ok,ite_ok,throw_ok,mapError_ok,pure_ok,false_and,exists_false,
    and_false,false_or,bne_iff_ne,ne_eq,Decidable.not_not,Bool.not_eq_true',Bool.not_eq_false]
  refine ⟨_,halg,rfl,_,hid,_,hkey,_,hsig,_,h.decodes _,h.publicKey,rfl,_,h.decodes _,?_⟩
  exact ⟨h.signature bytes,(),h.point,bytes,hbytes,hverify,rfl⟩

theorem signManifest_verifies (h : Signs crates keypair)
    (hbytes : signableBytes (.object members) = .ok bytes) :
    ∃ signed, signManifest crates (.object members) keypair = .ok signed ∧
      verifyManifest crates signed =
        .ok (some ⟨keypair.keyId crates,keypair.publicKeyB64 crates⟩) := by
  refine ⟨_,signManifest_object crates keypair hbytes,?_⟩
  rw [verifyManifest,lookup_put]
  simp only [checkSignature_block h ((signableBytes_put members _).trans hbytes)]
  rfl

theorem signableBytes_eq_iff {members' : List (String × Value)}
    (hbytes : signableBytes (.object members) = .ok bytes)
    (h : members.Pairwise fun a b => a.1 < b.1) (h' : members'.Pairwise fun a b => a.1 < b.1) :
    signableBytes (.object members') = .ok bytes ↔
      ∀ k, k ≠ "signature" → members'.lookup k = members.lookup k := by
  rw [signableBytes_object,mapError_ok] at hbytes ⊢
  have hout : ∀ (ms : List (String × Value)) k, (outsideSignature ms).lookup k =
      if (k != "signature") = true then ms.lookup k else none := fun ms k =>
    Serde.lookup_filter (p := (· != "signature")) ms k
  constructor
  · intro hbytes' k hk
    have hsame := Value.object.inj (Serde.canonicalJsonBytes_injective hbytes' hbytes)
    have hlookup := congrArg (List.lookup k) hsame
    rwa [hout,hout,if_pos (bne_iff_ne.mpr hk),if_pos (bne_iff_ne.mpr hk)] at hlookup
  · intro hsame
    have hkept : outsideSignature members' = outsideSignature members := by
      refine Serde.ascending_ext (h'.filter _) (h.filter _) fun k => ?_
      rw [hout,hout]
      split
      · rename_i hk
        exact hsame k (bne_iff_ne.mp hk)
      · rfl
    rw [hkept,hbytes]

end Signing

theorem sign_verify_consistent (crates : Crates) :
    (∀ keypair, Signs crates keypair → ∀ members, HasCanonicalForm (.object members) →
      ∃ signed, signManifest crates (.object members) keypair = .ok signed ∧
        verifyManifest crates signed =
          .ok (some ⟨keypair.keyId crates,keypair.publicKeyB64 crates⟩) ∧
        signableBytes signed = signableBytes (.object members) ∧
        ∀ keypair', Signs crates keypair' →
          ∃ resigned, signManifest crates signed keypair' = .ok resigned ∧
            verifyManifest crates resigned =
              .ok (some ⟨keypair'.keyId crates,keypair'.publicKeyB64 crates⟩)) ∧
    (∀ members signature, signableBytes (.object (putMember "signature" signature members)) =
      signableBytes (.object members)) ∧
    ∀ members members', HasCanonicalForm (.object members) → Serde.Ascending (.object members) →
      Serde.Ascending (.object members') →
        (signableBytes (.object members') = signableBytes (.object members) ↔
          ∀ k, k ≠ "signature" → members'.lookup k = members.lookup k) := by
  refine ⟨?_,signableBytes_put,?_⟩
  · intro keypair h members hcanonical
    obtain ⟨bytes,hbytes⟩ := signable_of_canonical hcanonical
    obtain ⟨signed,hsigned,hverify⟩ := signManifest_verifies h hbytes
    obtain rfl := Except.ok.inj ((signManifest_object crates keypair hbytes).symm.trans hsigned)
    refine ⟨_,hsigned,hverify,signableBytes_put members _,?_⟩
    intro keypair' h'
    rw [signManifest_put]
    exact signManifest_verifies h' hbytes
  · intro members members' hcanonical hordered hordered'
    obtain ⟨bytes,hbytes⟩ := signable_of_canonical hcanonical
    rw [hbytes]
    exact signableBytes_eq_iff hbytes (hordered _ List.mem_cons_self)
      (hordered' _ List.mem_cons_self)

section Samples

def sampleMembers (name : String) : List (String × Value) :=
  [("murlVersion",.string "0.1"),("name",.string name)]

def sampleBytes : Bytes := Text.bytes "\x7b\"murlVersion\":\"0.1\",\"name\":\"T\"\x7d"

def pageBytes : Bytes := Text.bytes "\x7b\"murlVersion\":\"0.1\",\"name\":\"P\",\"resources\":[\x7b\"id\":\"a\",\"kind\":\"https\",\"target\":\"https://e.com\"\x7d]\x7d"

def sampleKey (publicKey : Bytes) (signatures : List (Bytes × Bytes)) : Keypair :=
  ⟨publicKey,fun m => (signatures.lookup m).getD (List.replicate 64 0)⟩

def firstKey : Keypair := sampleKey
  [215,90,152,1,130,177,10,183,213,75,254,211,201,100,7,58,14,225,114,243,218,166,35,37,175,2,
    26,104,247,7,81,26]
  [(sampleBytes,[111,100,125,166,70,138,64,27,5,167,33,77,149,65,101,100,151,253,119,236,7,70,
      207,195,193,85,133,88,129,174,137,72,110,238,37,22,214,16,180,157,132,132,34,106,16,232,
      51,100,62,78,145,137,28,172,116,57,194,120,42,104,77,247,174,12]),
    (pageBytes,[162,88,224,116,1,15,156,203,252,23,25,201,143,124,23,251,116,82,137,216,213,2,
      124,51,59,217,124,112,178,252,85,47,193,252,196,253,133,65,202,93,116,164,80,177,5,213,
      166,97,186,20,202,128,123,95,252,29,176,25,198,123,128,78,213,11])]

def secondKey : Keypair := sampleKey
  [61,64,23,195,232,67,137,90,146,183,10,167,77,27,126,188,156,152,44,207,46,196,150,140,192,
    205,85,241,42,244,102,12]
  [(sampleBytes,[100,97,13,37,113,188,107,144,204,221,64,93,70,5,106,55,21,71,88,243,135,53,58,
      252,140,143,8,106,21,254,17,146,124,231,158,76,224,114,96,0,204,126,107,209,181,12,1,217,
      70,188,202,235,203,236,192,231,169,122,178,205,127,7,149,8]),
    (pageBytes,[142,22,27,176,209,172,64,31,143,66,104,74,120,241,35,108,177,237,37,56,191,34,
      122,38,155,219,68,7,171,168,9,34,62,142,208,171,156,163,114,96,33,227,44,234,77,106,99,
      224,103,125,193,184,231,120,156,254,111,68,82,225,195,188,46,11])]

def signingCrates : Crates :=
  { Serde.bareCrates with
    sha256 := fun b =>
      if b == firstKey.publicKey then
        [33,254,49,223,161,84,162,97,98,107,248,84,4,111,210,39,27,123,237,75,106,190,69,170,88,
          135,126,244,127,151,33,185]
      else if b == secondKey.publicKey then
        [57,247,19,208,166,68,37,63,4,82,148,33,185,245,27,155,8,151,157,8,41,89,89,196,243,153,14,
          230,23,245,19,159]
      else []
    base64Encode := fun b => String.ofList (Base64.encode b)
    base64Decode := fun s =>
      match Base64.decode s.toList with
      | some b => .ok b
      | none => .error "Invalid padding"
    verifyingKey := fun _ => .ok ()
    ed25519Verify := fun pk m s =>
      if pk == firstKey.publicKey then s == firstKey.sign m
      else pk == secondKey.publicKey && s == secondKey.sign m }

theorem signingCrates_decodes (b : Bytes) :
    signingCrates.base64Decode (signingCrates.base64Encode b) = .ok b := by
  have hread := Base64.decode_encode b
  simp only [signingCrates,String.toList_ofList,hread]

theorem sampleKey_length {publicKey : Bytes} {signatures : List (Bytes × Bytes)}
    (h : ∀ s ∈ signatures, s.2.length = 64) (m : Bytes) :
    ((sampleKey publicKey signatures).sign m).length = 64 := by
  change ((signatures.lookup m).getD (List.replicate 64 0)).length = 64
  cases hlookup : signatures.lookup m with
  | none => rfl
  | some s =>
    obtain ⟨before,after,hall,-⟩ := List.lookup_eq_some_iff.mp hlookup
    exact h (m,s) (by rw [hall]; simp)

theorem firstKey_signs : Signs signingCrates firstKey where
  publicKey := rfl
  signature := sampleKey_length (by decide)
  point := rfl
  accepts m := by simp [signingCrates]
  decodes := signingCrates_decodes

theorem secondKey_signs : Signs signingCrates secondKey where
  publicKey := rfl
  signature := sampleKey_length (by decide)
  point := rfl
  accepts m := by
    have hne : secondKey.publicKey ≠ firstKey.publicKey := by decide
    simp [signingCrates,hne]
  decodes := signingCrates_decodes

theorem sampleMembers_canonical (name : String) : HasCanonicalForm (.object (sampleMembers name)) :=
  (Serde.canonicalJsonBytes_iff _).mpr (by simp [Serde.Integral,sampleMembers,Serde.numbers,
    Serde.numbersMembers])

theorem sampleMembers_ascending (name : String) :
    Serde.Ascending (.object (sampleMembers name)) := by
  intro ms hms
  obtain rfl : ms = sampleMembers name := by
    simpa [Serde.objects,Serde.objectsMembers,sampleMembers] using hms
  have hascending : ["murlVersion","name"].Pairwise (· < ·) := by decide
  exact List.pairwise_map.mp hascending

theorem sample_signed_twice :
    (∃ signed, signManifest signingCrates (.object (sampleMembers "T")) firstKey = .ok signed ∧
      verifyManifest signingCrates signed = .ok (some ⟨"ed25519:21fe31dfa154a261",
        "11qYAYKxCrfVS/7TyWQHOg7hcvPapiMlrwIaaPcHURo="⟩) ∧
      ∃ resigned, signManifest signingCrates signed secondKey = .ok resigned ∧
        verifyManifest signingCrates resigned = .ok (some ⟨"ed25519:39f713d0a644253f",
          "PUAXw+hDiVqStwqnTRt+vJyYLM8uxJaMwM1V8Sr0Zgw="⟩)) ∧
    signableBytes (.object (sampleMembers "U")) ≠ signableBytes (.object (sampleMembers "T")) := by
  have hall := sign_verify_consistent signingCrates
  constructor
  · obtain ⟨signed,hsigned,hverify,-,hagain⟩ :=
      hall.1 firstKey firstKey_signs _ (sampleMembers_canonical "T")
    obtain ⟨resigned,hresigned,hverify'⟩ := hagain secondKey secondKey_signs
    exact ⟨signed,hsigned,hverify,resigned,hresigned,hverify'⟩
  · intro heq
    have hsame := (hall.2.2 _ _ (sampleMembers_canonical "T") (sampleMembers_ascending "T")
      (sampleMembers_ascending "U")).mp heq "name" (by decide)
    simp [sampleMembers,List.lookup_cons] at hsame

end Samples

end MurlSystem
