import MurlSystem.Caching.Torn
import MurlSystem.Trusting.Stamped

namespace MurlSystem

open Fallible

abbrev DiskFiles : Type := String → Except String Bytes

structure KeyFile where
  alg : String
  keyId : String
  publicKey : String
  secretKey : String
deriving DecidableEq, Repr

def keyFileMembers : List String := ["alg","keyId","publicKey","secretKey"]

def KeyFile.fromValue (v : Value) : Except String KeyFile := do
  uniqueFields keyFileMembers v
  let field ← structFields keyFileMembers v
  let alg ← requiredField field readString "alg"
  let keyId ← requiredField field readString "keyId"
  let publicKey ← requiredField field readString "publicKey"
  let secretKey ← requiredField field readString "secretKey"
  return ⟨alg,keyId,publicKey,secretKey⟩

def KeyFile.fromSlice (crates : Crates) (b : Bytes) : Except String KeyFile := do
  let v ← crates.serdeJson b
  KeyFile.fromValue v

-- `signingKey` is the key of a 32-byte seed, and `stops` what a write that fails says and leaves
-- in the file.
structure Signer where
  crates : Crates
  limits : Limits
  signingKey : Bytes → Keypair
  defaultKeyFile : String
  stops : String → Bytes → Option (String × Except String Bytes)

section Command

variable (app : Signer)

def Keypair.load (path : String) (files : DiskFiles) : Except Error Keypair := do
  let data ← (files path).mapError fun e => .trust s!"cannot read key file {path}: {e}"
  let file ← (KeyFile.fromSlice app.crates data).mapError fun e => .trust s!"malformed key file: {e}"
  if file.alg != "ed25519" then throw (.trust s!"unsupported key algorithm `{file.alg}`")
  let secret ← (app.crates.base64Decode file.secretKey).mapError
    fun e => .trust s!"bad secretKey encoding: {e}"
  if secret.length != 32 then throw (.trust "secretKey must be 32 bytes")
  return app.signingKey secret

def Signer.keyPath (key : Option String) : String := key.getD app.defaultKeyFile

def Signer.output (file : String) (key : Option String) (files : DiskFiles) :
    Except Error Bytes := do
  let keypair ← Keypair.load app (app.keyPath key) files
  let bytes ← (files file).mapError fun e => .notFound s!"cannot read {file}: {e}"
  let manifest ← Manifest.fromSlice app.crates bytes app.limits
  if !(manifest.validate app.crates).errors.isEmpty then
    throw (.validation s!"{file} is invalid; fix it before signing")
  let value ← signManifest app.crates manifest.raw keypair
  return Text.bytes (pretty 0 value ++ "\n")

def Signer.sign (file : String) (key : Option String) (files : DiskFiles) :
    Except Error Nat × DiskFiles :=
  match app.output file key files with
  | .error e => (.error e,files)
  | .ok out =>
    match app.stops file out with
    | some (why,left) => (.error (.io why),Function.update files file left)
    | none => (.ok 0,Function.update files file (.ok out))

end Command

section Size

variable {crates : Crates} {keypair : Keypair} {members : List (String × Value)}

def signedSize (members : List (String × Value)) : Nat :=
  membersSize 1 (outsideSignature members) + 4 * (outsideSignature members).length + 252 + 3

theorem textSize_keyId {pk : Bytes} (hash : (crates.sha256 pk).length = 32) :
    textSize (keyIdFor crates pk) = 26 := by
  have hall : ∀ n < 16, charSize (Nat.digitChar n) = 1 := by decide
  have hone : ∀ c ∈ (sha256Hex crates pk).toList.take 16, charSize c = 1 := by
    intro c hc
    obtain ⟨n,hn,rfl⟩ := sha256Hex_digits (List.mem_of_mem_take hc)
    exact hall n hn
  have hlead : ("ed25519:".toList.map charSize).sum = 8 := rfl
  rw [textSize,keyIdFor_toList,List.map_append,List.sum_append,hlead,List.map_congr_left hone,
    List.map_const',List.sum_replicate,List.length_take,sha256Hex_length,hash]
  rfl

theorem shownSize_block (base64 : ∀ b, crates.base64Encode b = String.ofList (Base64.encode b))
    (hash : (crates.sha256 keypair.publicKey).length = 32) (h : Signs crates keypair)
    (bytes : Bytes) : shownSize 1 (.object (signatureBlock crates keypair bytes)) = 235 := by
  have halg : textSize "alg" = 5 := rfl
  have hname : textSize "ed25519" = 9 := rfl
  have hkeyId : textSize "keyId" = 7 := rfl
  have hpublicKey : textSize "publicKey" = 11 := rfl
  have hsig : textSize "sig" = 5 := rfl
  have hid : textSize (keypair.keyId crates) = 26 := textSize_keyId hash
  have hkey : textSize (keypair.publicKeyB64 crates) = 46 := by
    rw [Keypair.publicKeyB64,base64,textSize_base64,h.publicKey]
  have hsigned : textSize (crates.base64Encode (keypair.sign bytes)) = 90 := by
    rw [base64,textSize_base64,h.signature]
  simp only [shownSize,signatureBlock,membersSize,framedSize,List.length_cons,List.length_nil,halg,
    hname,hkeyId,hpublicKey,hsig,hid,hkey,hsigned]
  rfl

theorem size_signed (base64 : ∀ b, crates.base64Encode b = String.ofList (Base64.encode b))
    (hash : (crates.sha256 keypair.publicKey).length = 32) (h : Signs crates keypair)
    (bytes : Bytes) : (Text.bytes (pretty 0 (.object (putMember "signature"
      (.object (signatureBlock crates keypair bytes)) members)) ++ "\n")).length =
        signedSize members := by
  have hline : "\n".utf8ByteSize = 1 := rfl
  have hname : textSize "signature" = 11 := rfl
  have hcount := (put_perm "signature" (.object (signatureBlock crates keypair bytes)) members).length_eq
  rw [List.length_cons] at hcount
  rw [Text.length_bytes,String.utf8ByteSize_append,size_pretty,hline,shownSize,framedSize,
    if_neg (by omega),Nat.zero_add,membersSize_put,hcount,shownSize_block base64 hash h,hname,signedSize,
    outsideSignature]
  omega

end Size

section Usable

variable {app : Signer} {f64 : List Char → Option String} {keypair : Keypair} {old new : Bytes}
  {file : String} {key : Option String} {files files' : DiskFiles} {code : Nat}

def Usable (app : Signer) (keypair : Keypair) (old new : Bytes) : Prop :=
  ∃ m m' members members', Manifest.fromSlice app.crates old app.limits = .ok m ∧
    Manifest.fromSlice app.crates new app.limits = .ok m' ∧
    (m'.validate app.crates).errors = [] ∧ m.raw = .object members ∧ m'.raw = .object members' ∧
    outsideSignature members' = outsideSignature members ∧
    verifyManifest app.crates m'.raw =
      .ok (some ⟨keypair.keyId app.crates,keypair.publicKeyB64 app.crates⟩)

def Fits (app : Signer) (old : Bytes) : Prop :=
  ∀ m members, Manifest.fromSlice app.crates old app.limits = .ok m → m.raw = .object members →
    signedSize members ≤ app.limits.maxManifestBytes

-- What the command relies on: standard base64, 32-byte digests, and keys that sign.
structure SignerCrates (app : Signer) (f64 : List Char → Option String) : Prop where
  serde : Serde.Tokenises app.crates f64
  base64 : ∀ b, app.crates.base64Encode b = String.ofList (Base64.encode b)
  digest : ∀ b, (app.crates.sha256 b).length = 32
  keys : ∀ seed, seed.length = 32 → Signs app.crates (app.signingKey seed)

theorem load_signs (hcrates : SignerCrates app f64) {path : String}
    (h : Keypair.load app path files = .ok keypair) : Signs app.crates keypair := by
  simp only [Keypair.load,bind_ok,ite_ok,throw_ok,mapError_ok,pure_ok,false_and,exists_false,
    and_false,false_or,bne_iff_ne,ne_eq,Decidable.not_not] at h
  obtain ⟨data,-,keyFile,-,-,secret,-,hlength,rfl⟩ := h
  exact hcrates.keys secret hlength

theorem output_iff {out : Bytes} : app.output file key files = .ok out ↔
    ∃ keypair old m members bytes,
      Keypair.load app (app.keyPath key) files = .ok keypair ∧ files file = .ok old ∧
      Manifest.fromSlice app.crates old app.limits = .ok m ∧
      (m.validate app.crates).errors = [] ∧ m.raw = .object members ∧
      signableBytes (.object members) = .ok bytes ∧
      out = Text.bytes (pretty 0 (.object (putMember "signature"
        (.object (signatureBlock app.crates keypair bytes)) members)) ++ "\n") := by
  simp only [Signer.output,bind_ok,ite_ok,throw_ok,mapError_ok,pure_ok,false_and,exists_false,
    and_false,false_or,Bool.not_eq_true',Bool.not_eq_false,List.isEmpty_iff]
  constructor
  swap
  · rintro ⟨keypair,old,m,members,bytes,hload,hold,hm,hvalid,hmembers,hbytes,rfl⟩
    refine ⟨keypair,hload,old,hold,m,hm,hvalid,_,?_,rfl⟩
    rw [hmembers]
    exact signManifest_object app.crates keypair hbytes
  intro h
  obtain ⟨keypair,hload,old,hold,m,hm,hvalid,signed,hsigned,rfl⟩ := h
  obtain ⟨-,-,hobject,-⟩ := Manifest.fromSlice_iff.mp hm
  obtain ⟨members,hmembers⟩ := Value.isObject_iff.mp hobject
  rw [hmembers] at hsigned
  obtain ⟨bytes,hbytes⟩ : ∃ bytes, signableBytes (.object members) = .ok bytes := by
    simp only [signManifest,bind_ok] at hsigned
    obtain ⟨bytes,hbytes,-⟩ := hsigned
    exact ⟨bytes,hbytes⟩
  obtain rfl := Except.ok.inj ((signManifest_object app.crates keypair hbytes).symm.trans hsigned)
  exact ⟨keypair,old,m,members,bytes,hload,hold,hm,hvalid,hmembers,hbytes,rfl⟩

theorem block_fromValue (crates : Crates) (keypair : Keypair) (bytes : Bytes) :
    SignatureBlock.fromValue (.object (signatureBlock crates keypair bytes)) =
      .ok ⟨"ed25519",keypair.keyId crates,keypair.publicKeyB64 crates,
        crates.base64Encode (keypair.sign bytes)⟩ := rfl

theorem block_kept {crates : Crates} {bytes : Bytes} :
    Serde.Kept 126 (.object (signatureBlock crates keypair bytes)) := by
  refine .object 125 _ ?_ ?_
  · simp only [signatureBlock,List.forall_mem_cons]
    exact ⟨.string _ _,.string _ _,.string _ _,.string _ _,by simp⟩
  · have hascending : ["alg","keyId","publicKey","sig"].Pairwise (· < ·) := by decide
    exact List.pairwise_map.mp hascending

theorem written_usable (hcrates : SignerCrates app f64) (hsigns : Signs app.crates keypair)
    {m : Manifest} {members : List (String × Value)} {bytes : Bytes}
    (hm : Manifest.fromSlice app.crates old app.limits = .ok m)
    (hvalid : (m.validate app.crates).errors = []) (hmembers : m.raw = .object members)
    (hbytes : signableBytes (.object members) = .ok bytes)
    (hsize : signedSize members ≤ app.limits.maxManifestBytes) :
    Usable app keypair old (Text.bytes (pretty 0 (.object (putMember "signature"
      (.object (signatureBlock app.crates keypair bytes)) members)) ++ "\n")) := by
  obtain ⟨-,hstrict,-,hdoc⟩ := Manifest.fromSlice_iff.mp hm
  rw [hmembers] at hstrict hdoc
  have hkept := put_kept (k := "signature") (Serde.fromSliceStrict_kept hcrates.serde hstrict)
    (@block_kept keypair app.crates bytes)
  have hnumbers : Serde.Integral m.raw := by
    simp only [Manifest.validate,ValidationReport.append_errors,List.append_eq_nil_iff] at hvalid
    exact (Serde.walkNumbers_iff _ _).mp hvalid.2
  rw [hmembers] at hnumbers
  have hint := put_integral (k := "signature") hnumbers
    (v := .object (signatureBlock app.crates keypair bytes)) (by
      simp [Serde.Integral,Serde.numbers,Serde.numbersMembers,signatureBlock])
  have hdigest := hcrates.digest keypair.publicKey
  have hread := pretty_strict hcrates.serde hkept hint
  have hdoc' := fromValue_put hdoc (block_fromValue app.crates keypair bytes)
  obtain ⟨signed,hsigned,hverify⟩ := signManifest_verifies hsigns hbytes
  obtain rfl := Except.ok.inj ((signManifest_object app.crates keypair hbytes).symm.trans hsigned)
  refine ⟨m,⟨_,_⟩,members,_,hm,?_,validate_put hvalid hint (signatureShape_valid hsigns hdigest bytes),
    hmembers,rfl,outsideSignature_put members _,hverify⟩
  refine Manifest.fromSlice_iff.mpr ⟨?_,hread,rfl,hdoc'⟩
  rwa [size_signed hcrates.base64 hdigest hsigns]

theorem usable_fits (hcrates : SignerCrates app f64) (hsigns : Signs app.crates keypair)
    {members : List (String × Value)} {bytes : Bytes}
    (h : Usable app keypair old (Text.bytes (pretty 0 (.object (putMember "signature"
      (.object (signatureBlock app.crates keypair bytes)) members)) ++ "\n"))) :
    signedSize members ≤ app.limits.maxManifestBytes := by
  obtain ⟨m,m',members₁,members',-,hm',-⟩ := h
  rw [← size_signed hcrates.base64 (hcrates.digest _) hsigns bytes]
  exact (Manifest.fromSlice_iff.mp hm').1

theorem sign_ok : app.sign file key files = (.ok code,files') ↔
    ∃ out, app.output file key files = .ok out ∧ app.stops file out = none ∧ code = 0 ∧
      files' = Function.update files file (.ok out) := by
  unfold Signer.sign
  cases hout : app.output file key files with
  | error e => simp
  | ok out =>
    cases hstop : app.stops file out with
    | none =>
      simp only [hstop,Prod.mk.injEq,Except.ok.injEq]
      constructor
      · rintro ⟨rfl,rfl⟩
        exact ⟨out,rfl,hstop,rfl,rfl⟩
      · rintro ⟨_,rfl,-,rfl,rfl⟩
        exact ⟨rfl,rfl⟩
    | some stop => simp [hstop]

end Usable

theorem sign_usable_iff (app : Signer) (f64 : List Char → Option String)
    (hcrates : SignerCrates app f64) (file : String) (key : Option String)
    (files files' : DiskFiles) (code : Nat) (h : app.sign file key files = (.ok code,files')) :
    ∃ keypair old new, Keypair.load app (app.keyPath key) files = .ok keypair ∧
      files file = .ok old ∧ files' file = .ok new ∧
        (Usable app keypair old new ↔ Fits app old) := by
  obtain ⟨out,hout,-,-,rfl⟩ := sign_ok.mp h
  obtain ⟨keypair,old,m,members,bytes,hload,hold,hm,hvalid,hmembers,hbytes,hwritten⟩ :=
    output_iff.mp hout
  have hsigns := load_signs hcrates hload
  refine ⟨keypair,old,out,hload,hold,Function.update_self _ _ _,?_⟩
  subst hwritten
  constructor
  · intro husable m₁ members₁ hm₁ hmembers₁
    obtain rfl := Except.ok.inj (hm.symm.trans hm₁)
    obtain rfl := Value.object.inj (hmembers.symm.trans hmembers₁)
    exact usable_fits hcrates hsigns husable
  · intro hfits
    exact written_usable hcrates hsigns hm hvalid hmembers hbytes (hfits m members hm hmembers)

section Samples

def sealCrates : Crates := Serde.tokenising Serde.shown
  { signingCrates with
    sha256 := fun b =>
      if b == firstKey.publicKey then signingCrates.sha256 b else List.replicate 32 0 }

def sealSeed : Bytes :=
  [157,97,177,157,239,253,90,96,186,132,74,244,146,236,44,196,68,73,197,105,123,50,105,25,112,59,
    172,3,28,174,127,96]

def sealKey : Value := .object
  [("alg",.string "ed25519"),("keyId",.string "ed25519:21fe31dfa154a261"),
    ("publicKey",.string "11qYAYKxCrfVS/7TyWQHOg7hcvPapiMlrwIaaPcHURo="),
    ("secretKey",.string (sealCrates.base64Encode sealSeed))]

def pageMembers (pad : Option String) : List (String × Value) :=
  [("murlVersion",.string "0.1"),("name",.string "P")] ++ optionalMember "pad" pad ++
    [("resources",.array [.object [("id",.string "a"),("kind",.string "https"),
      ("target",.string "https://e.com")]])]

def pageFile (pad : Option String) : Bytes := Text.bytes (pretty 0 (.object (pageMembers pad)) ++ "\n")

def pageDoc : ManifestDoc := ⟨"0.1",none,"P",none,none,none,none,
  [⟨"a","https","https://e.com",none,none,false,100,[],[],none,none⟩],[],none⟩

def sealSigner : Signer where
  crates := sealCrates
  limits := {}
  signingKey := fun _ => firstKey
  defaultKeyFile := "/keys/key.json"
  stops := fun _ _ => none

def sealFiles (pad : Option String) : DiskFiles := fun path =>
  if path = "/keys/key.json" then .ok (Text.bytes (pretty 0 sealKey ++ ""))
  else if path = "p.murl.json" then .ok (pageFile pad)
  else .error "No such file or directory (os error 2)"

theorem firstKey_seals : Signs sealCrates firstKey :=
  ⟨firstKey_signs.publicKey,firstKey_signs.signature,firstKey_signs.point,firstKey_signs.accepts,
    firstKey_signs.decodes⟩

theorem sealCrates_serde : Serde.Tokenises sealCrates Serde.shown := Serde.tokenising_tokenises _ _

theorem sealSigner_crates : SignerCrates sealSigner Serde.shown where
  serde := sealCrates_serde
  base64 := fun _ => rfl
  digest := by
    intro b
    change (if b == firstKey.publicKey then signingCrates.sha256 b else List.replicate 32 0).length = 32
    split
    · rename_i hb
      rw [eq_of_beq hb]
      rfl
    · rfl
  keys := fun _ _ => firstKey_seals

theorem page_kept (pad : Option String) :
    Serde.Kept Serde.maxNesting (.object (pageMembers pad)) := by
  have hresource : Serde.Kept 126 (.array [.object [("id",.string "a"),("kind",.string "https"),
      ("target",.string "https://e.com")]]) := by
    refine .array 125 _ (List.forall_mem_singleton.mpr (.object 124 _ ?_ ?_))
    · simp only [List.forall_mem_cons]
      exact ⟨.string _ _,.string _ _,.string _ _,by simp⟩
    · have hascending : ["id","kind","target"].Pairwise (· < ·) := by decide
      exact List.pairwise_map.mp hascending
  cases pad with
  | none =>
    refine .object 126 _ ?_ ?_
    · simp only [pageMembers,optionalMember,List.append_nil,List.cons_append,List.nil_append,
        List.forall_mem_cons]
      exact ⟨.string _ _,.string _ _,hresource,by simp⟩
    · have hascending : ["murlVersion","name","resources"].Pairwise (· < ·) := by decide
      exact List.pairwise_map.mp hascending
  | some pad =>
    refine .object 126 _ ?_ ?_
    · simp only [pageMembers,optionalMember,List.cons_append,List.nil_append,List.forall_mem_cons]
      exact ⟨.string _ _,.string _ _,.string _ _,hresource,by simp⟩
    · have hascending : ["murlVersion","name","pad","resources"].Pairwise (· < ·) := by decide
      exact List.pairwise_map.mp hascending

theorem page_integral (pad : Option String) : Serde.Integral (.object (pageMembers pad)) := by
  cases pad <;> simp [Serde.Integral,pageMembers,optionalMember,Serde.numbers,Serde.numbersMembers,
    Serde.numbersItems]

theorem page_doc (pad : Option String) :
    ManifestDoc.fromValue (.object (pageMembers pad)) = .ok pageDoc := by
  cases pad <;> rfl

theorem page_valid (pad : Option String) :
    ((⟨.object (pageMembers pad),pageDoc⟩ : Manifest).validate sealCrates).errors = [] := by
  have hhead : (validateHeader pageDoc ++ validateResources sealCrates pageDoc.resources).errors =
      [] := by decide +kernel
  simp only [Manifest.validate,ValidationReport.append_errors,List.append_eq_nil_iff] at hhead ⊢
  refine ⟨⟨⟨⟨⟨hhead,?_⟩,?_⟩,rfl⟩,unknownMembers_errors _⟩,
    (Serde.walkNumbers_iff _ _).mpr (page_integral pad)⟩
  · decide +kernel
  · decide +kernel

theorem page_outside (pad : Option String) :
    outsideSignature (pageMembers pad) = pageMembers pad := by
  cases pad <;> rfl

theorem page_size (pad : Option String) : signedSize (pageMembers pad) =
    (pageFile pad).length + 252 := by
  have hline : "\n".utf8ByteSize = 1 := rfl
  have hcount : (pageMembers pad).length ≠ 0 := by simp [pageMembers]
  rw [pageFile,Text.length_bytes,String.utf8ByteSize_append,size_pretty,hline,shownSize,framedSize,
    if_neg hcount,Nat.zero_add,signedSize,page_outside]
  omega

theorem padded_size (n : Nat) :
    signedSize (pageMembers (some (String.ofList (List.replicate n 'x')))) = n + 413 := by
  have hpad : textSize "pad" = 5 := rfl
  have hplain : signedSize (pageMembers none) = 400 := by decide +kernel
  rw [signedSize,page_outside] at hplain ⊢
  simp only [pageMembers,optionalMember,List.cons_append,List.nil_append,membersSize,
    List.length_cons,List.length_nil] at hplain ⊢
  have hshown : shownSize 1 (.string (String.ofList (List.replicate n 'x'))) = n + 2 := size_plain n
  rw [hshown,hpad]
  omega

theorem keyFile_fields (alg keyId publicKey secretKey : String) :
    KeyFile.fromValue (.object [("alg",.string alg),("keyId",.string keyId),
      ("publicKey",.string publicKey),("secretKey",.string secretKey)]) =
        .ok ⟨alg,keyId,publicKey,secretKey⟩ := by
  simp only [KeyFile.fromValue,bind_ok,pure_ok]
  exact ⟨_,rfl,_,rfl,alg,rfl,keyId,rfl,publicKey,rfl,secretKey,rfl,rfl⟩

theorem sealKey_loads (pad : Option String) :
    Keypair.load sealSigner "/keys/key.json" (sealFiles pad) = .ok firstKey := by
  have hkept : Serde.Kept Serde.maxNesting sealKey := by
    refine .object 126 _ ?_ ?_
    · simp only [List.forall_mem_cons]
      exact ⟨.string _ _,.string _ _,.string _ _,.string _ _,by simp⟩
    · have hascending : ["alg","keyId","publicKey","secretKey"].Pairwise (· < ·) := by decide
      exact List.pairwise_map.mp hascending
  have hint : Serde.Integral sealKey := by
    simp [Serde.Integral,sealKey,Serde.numbers,Serde.numbersMembers]
  have htokens := (sealCrates_serde _ _).mpr
    (@pretty_tokens Serde.shown sealKey "" Rfc8259.blank_nil (Serde.kept_token hkept) hint)
  have hread : KeyFile.fromSlice sealCrates (Text.bytes (pretty 0 sealKey ++ "")) =
      .ok ⟨"ed25519","ed25519:21fe31dfa154a261","11qYAYKxCrfVS/7TyWQHOg7hcvPapiMlrwIaaPcHURo=",
        sealCrates.base64Encode sealSeed⟩ := by
    rw [KeyFile.fromSlice,bind_ok]
    exact ⟨sealKey,htokens,keyFile_fields _ _ _ _⟩
  simp only [Keypair.load,bind_ok,ite_ok,throw_ok,mapError_ok,pure_ok,false_and,exists_false,
    and_false,false_or,bne_iff_ne,ne_eq,Decidable.not_not]
  exact ⟨_,rfl,_,hread,rfl,sealSeed,firstKey_seals.decodes _,rfl,rfl⟩

theorem page_read {pad : Option String} (h : (pageFile pad).length ≤ 262144) :
    Manifest.fromSlice sealCrates (pageFile pad) {} = .ok ⟨.object (pageMembers pad),pageDoc⟩ := by
  refine Manifest.fromSlice_iff.mpr ⟨h,?_,rfl,page_doc pad⟩
  exact pretty_strict sealCrates_serde (page_kept pad) (page_integral pad)

theorem page_written {pad : Option String} (h : (pageFile pad).length ≤ 262144) : ∃ bytes,
    signableBytes (.object (pageMembers pad)) = .ok bytes ∧
      ∃ out, out = Text.bytes (pretty 0 (.object (putMember "signature"
        (.object (signatureBlock sealCrates firstKey bytes)) (pageMembers pad))) ++ "\n") ∧
      sealSigner.sign "p.murl.json" none (sealFiles pad) =
        (.ok 0,Function.update (sealFiles pad) "p.murl.json" (.ok out)) := by
  obtain ⟨bytes,hbytes⟩ := signable_of_canonical
    ((Serde.canonicalJsonBytes_iff _).mpr (page_integral pad))
  refine ⟨bytes,hbytes,_,rfl,sign_ok.mpr ⟨_,output_iff.mpr ?_,rfl,rfl,rfl⟩⟩
  exact ⟨firstKey,pageFile pad,_,_,bytes,sealKey_loads pad,rfl,page_read h,page_valid pad,rfl,hbytes,rfl⟩

theorem page_sealed : ∃ keypair old new files',
    sealSigner.sign "p.murl.json" none (sealFiles none) = (.ok 0,files') ∧
    sealFiles none "p.murl.json" = .ok old ∧ files' "p.murl.json" = .ok new ∧
    keypair.keyId sealCrates = "ed25519:21fe31dfa154a261" ∧ Usable sealSigner keypair old new := by
  have hshort : (pageFile none).length ≤ 262144 := by
    have hsize := page_size none
    have hsigned : signedSize (pageMembers none) = 400 := by decide +kernel
    omega
  obtain ⟨bytes,-,out,-,hsign⟩ := page_written hshort
  obtain ⟨keypair,old,new,hload,hold,hnew,husable⟩ :=
    sign_usable_iff sealSigner Serde.shown sealSigner_crates _ _ _ _ _ hsign
  refine ⟨keypair,old,new,_,hsign,hold,hnew,?_,husable.mpr ?_⟩
  · obtain rfl := Except.ok.inj ((sealKey_loads none).symm.trans hload)
    decide +kernel
  · intro m members hm hmembers
    obtain rfl : pageFile none = old := Except.ok.inj hold
    obtain rfl := Except.ok.inj ((page_read hshort).symm.trans hm)
    obtain rfl := Value.object.inj hmembers
    have hsigned : signedSize (pageMembers none) = 400 := by decide +kernel
    rw [hsigned]
    decide

theorem full_page_lost : ¬∀ (app : Signer) (f64 : List Char → Option String), SignerCrates app f64 →
    ∀ file key files files' code, app.sign file key files = (.ok code,files') →
      ∀ keypair old new, Keypair.load app (app.keyPath key) files = .ok keypair →
        files file = .ok old → files' file = .ok new → Usable app keypair old new := by
  intro h
  have hsize := page_size (some (String.ofList (List.replicate 261983 'x')))
  rw [padded_size] at hsize
  obtain ⟨bytes,hbytes,out,hout,hsign⟩ := @page_written (some (String.ofList (List.replicate 261983 'x')))
    (by omega)
  have husable := h sealSigner Serde.shown sealSigner_crates _ _ _ _ _ hsign firstKey _ out
    (sealKey_loads _) rfl (Function.update_self _ _ _)
  rw [hout] at husable
  have hfits := usable_fits sealSigner_crates firstKey_seals husable
  rw [padded_size] at hfits
  exact absurd hfits (by decide)

end Samples

end MurlSystem
