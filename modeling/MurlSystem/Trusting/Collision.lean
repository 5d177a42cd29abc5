import MurlSystem.Resolution.Gauntlet
import MurlSystem.Trusting.Held

namespace MurlSystem

open Program

section Keys

variable (crates : Crates)

def signatureKey (raw : Value) : Option Bytes := do
  let members ← raw.asObject
  let block ← (members.lookup "signature").bind Value.asObject
  let b64 ← (block.lookup "publicKey").bind Value.asStr
  (crates.base64Decode b64).toOption

def consultedAuthority : Option Murl → String
  | some m => m.authority.toString
  | none => ""

def TrustStore.keysOf (store : TrustStore) (authority : String) : List PinnedKey :=
  match normalizeAuthority authority with
  | .ok normal => (store.authorities.lookup normal).getD []
  | .error _ => []

variable {crates} {raw : Value} {pk : Bytes}

theorem CheckedSignature.signatureKey {v : VerifiedSignature}
    (h : CheckedSignature crates raw v) :
    ∃ pk, signatureKey crates raw = some pk ∧ keyIdFor crates pk = v.keyId := by
  obtain ⟨members,block,sigB64,pk,sig,bytes,rfl,hblock,-,-,hfield,-,hdecoded,-,hid,-⟩ := h.block
  refine ⟨pk,?_,hid⟩
  unfold signatureField at hfield
  split at hfield
  · rename_i b64 hb64
    obtain rfl := Except.ok.inj hfield
    simp [MurlSystem.signatureKey,Value.asObject,hblock,hb64,hdecoded,Except.toOption]
  · cases hfield

theorem signatureKey_verified {v : Option VerifiedSignature}
    (h : signatureKey crates raw = some pk) (hv : verifyManifest crates raw = .ok v) :
    ∃ w, v = some w ∧ keyIdFor crates pk = w.keyId := by
  cases v with
  | some w =>
    obtain ⟨pk',hpk',hid⟩ := (verifyManifest_signed hv).signatureKey
    obtain rfl := Option.some.inj (h.symm.trans hpk')
    exact ⟨w,rfl,hid⟩
  | none =>
    obtain ⟨members,hraw,h⟩ := Option.bind_eq_some_iff.mp h
    obtain ⟨block,hblock,-⟩ := Option.bind_eq_some_iff.mp h
    obtain ⟨signature,hsignature,hobject⟩ := Option.bind_eq_some_iff.mp hblock
    unfold verifyManifest at hv
    cases raw with
    | object members' =>
      obtain rfl := Option.some.inj hraw
      cases signature with
      | object block' =>
        simp only [hsignature,Fallible.map_ok] at hv
        obtain ⟨w,-,⟨⟩⟩ := hv
      | _ => cases hobject
    | _ => cases hraw

theorem isTrusted_keysOf {store : TrustStore} {authority keyId : String} :
    store.isTrusted authority keyId = true ↔ ∃ key ∈ store.keysOf authority, key.keyId = keyId := by
  rw [isTrusted_eq,TrustStore.keysOf]
  cases normalizeAuthority authority with
  | error e => simp
  | ok normal => simp [TrustStore.pins,PinnedKey.names]

theorem Held.keysOf {doc : TrustDoc} (h : Held crates doc) (authority : String) :
    ((doc.store.keysOf authority).map PinnedKey.keyId).Nodup ∧
      ∀ key ∈ doc.store.keysOf authority, VerifiedKey crates key := by
  rw [TrustStore.keysOf]
  cases normalizeAuthority authority with
  | error e => simp
  | ok normal =>
    dsimp only
    cases hlookup : doc.store.authorities.lookup normal with
    | none => simp
    | some keys =>
      obtain ⟨before,after,hentries,-⟩ := List.lookup_eq_some_iff.mp hlookup
      have hlisted := h (normal,keys) (by rw [hentries]; simp)
      exact ⟨hlisted.distinct,hlisted.each⟩

end Keys

section Trusted

variable (env : Env) (murl : Option Murl) (origin : Origin) (raw : Value)

def assignedTrust : Except Error TrustStatus :=
  (verifyManifest env.crates raw).map (trustOf env murl origin)

def TrustIsPinned : Prop :=
  ∀ keyId, assignedTrust env murl origin raw = .ok (.signedTrusted keyId) →
    ∃ pk, signatureKey env.crates raw = some pk ∧
      ∃ key ∈ env.trustStore.keysOf (consultedAuthority murl),
        env.crates.base64Decode key.publicKey = .ok pk

def NoCollision : Prop :=
  ∀ pk, signatureKey env.crates raw = some pk →
    ∀ key ∈ env.trustStore.keysOf (consultedAuthority murl), ∀ pk',
      env.crates.base64Decode key.publicKey = .ok pk' →
        keyIdFor env.crates pk' = keyIdFor env.crates pk → pk' = pk

variable {env} {murl} {origin} {raw} {doc : TrustDoc}

theorem trustOf_pinned {w : VerifiedSignature} (hremote : origin.isRemote = true) :
    (∃ keyId, trustOf env murl origin (some w) = .signedTrusted keyId) ↔
      env.trustStore.isTrusted (consultedAuthority murl) w.keyId = true := by
  cases origin with
  | localStore path => cases hremote
  | localFile path => cases hremote
  | remote url fromCache =>
    cases murl <;> simp only [trustOf,consultedAuthority] <;> split <;> simp_all

theorem trustIsPinned_of_noCollision (held : Held env.crates doc)
    (hstore : env.trustStore = doc.store) (hfree : NoCollision env murl raw) :
    TrustIsPinned env murl origin raw := by
  intro keyId htrusted
  obtain ⟨v,hv,htrusted⟩ := Fallible.map_ok.mp htrusted
  obtain ⟨hremote,w,rfl,-,-⟩ := trustOf_trusted htrusted
  obtain ⟨key,hkey,hmatch⟩ := isTrusted_keysOf.mp ((trustOf_pinned hremote).mp ⟨keyId,htrusted⟩)
  obtain ⟨pk,hsigned,hid⟩ := (verifyManifest_signed hv).signatureKey
  have hverified := (held.keysOf (consultedAuthority murl)).2 key (by rw [← hstore]; exact hkey)
  obtain ⟨pk',hpk',-,-,hkeyId⟩ := hverified
  obtain rfl := hfree pk hsigned key hkey pk' hpk' (hkeyId.trans (hmatch.trans hid.symm))
  exact ⟨pk',hsigned,key,hkey,hpk'⟩

theorem noCollision_of_trustIsPinned (held : Held env.crates doc)
    (hstore : env.trustStore = doc.store) (hremote : origin.isRemote = true)
    {v : Option VerifiedSignature} (hv : verifyManifest env.crates raw = .ok v)
    (hpinned : TrustIsPinned env murl origin raw) : NoCollision env murl raw := by
  intro pk hsigned key hkey pk' hdecoded hid
  obtain ⟨hdistinct,hkeys⟩ := held.keysOf (consultedAuthority murl)
  rw [← hstore] at hdistinct hkeys
  obtain ⟨w,rfl,hw⟩ := signatureKey_verified hsigned hv
  obtain ⟨pk₀,hpk₀,-,-,hkeyId⟩ := hkeys key hkey
  obtain rfl := Except.ok.inj (hdecoded.symm.trans hpk₀)
  have hmatch : key.keyId = w.keyId := hkeyId.symm.trans (hid.trans hw)
  obtain ⟨keyId,htrusted⟩ := (trustOf_pinned hremote).mpr (isTrusted_keysOf.mpr ⟨key,hkey,hmatch⟩)
  obtain ⟨pk₁,hpk₁,key',hkey',hdecoded'⟩ := hpinned keyId
    (Fallible.map_ok.mpr ⟨_,hv,htrusted⟩)
  obtain rfl := Option.some.inj (hsigned.symm.trans hpk₁)
  obtain ⟨pk₂,hpk₂,-,-,hkeyId'⟩ := hkeys key' hkey'
  obtain rfl := Except.ok.inj (hdecoded'.symm.trans hpk₂)
  have hsame : key = key' := List.inj_on_of_nodup_map hdistinct hkey hkey'
    (by rw [← hkeyId,← hkeyId',hid])
  subst hsame
  exact Except.ok.inj (hdecoded.symm.trans hdecoded')

theorem trusted_key_iff (env : Env) (calls : List TrustCall) (doc : TrustDoc)
    (h : performAll env.crates calls = .ok doc) (store : env.trustStore = doc.store) :
    (∀ murl origin raw, TrustIsPinned env murl origin raw ↔
      (origin.isRemote = true → (∃ v, verifyManifest env.crates raw = .ok v) →
        NoCollision env murl raw)) ∧
    ∀ cache ref, wp (resolveRef env ref)
      (fun res r => List.Forall₂ (fun call node =>
        assignedTrust env call.murl node.origin node.manifest.raw = .ok node.trust) r.calls res.nodes)
      (fun _ _ => True) (Run.start cache) := by
  have held := performAll_held h
  constructor
  · intro murl origin raw
    constructor
    · rintro hpinned hremote ⟨v,hv⟩
      exact noCollision_of_trustIsPinned held store hremote hv hpinned
    · intro hfree keyId htrusted
      obtain ⟨v,hv,htrust⟩ := Fallible.map_ok.mp htrusted
      obtain ⟨hremote,-⟩ := trustOf_trusted htrust
      exact trustIsPinned_of_noCollision held store (hfree hremote ⟨v,hv⟩) keyId htrusted
  · intro cache ref
    refine wp_mono (resolveRef_gauntlet env cache ref).1 ?_ (fun _ _ h => h)
    intro res r hnodes
    refine hnodes.imp fun call node hnode => ?_
    obtain ⟨v,hv,htrust⟩ := hnode.verified
    rw [htrust]
    exact Fallible.map_ok.mpr ⟨v,hv,rfl⟩

end Trusted

section Samples

variable {crates : Crates} {keypair pinned : Keypair}

def pinCall (crates : Crates) (keypair : Keypair) : TrustCall :=
  .add "a.com" (keypair.publicKeyB64 crates) 1000

def pinnedStore (crates : Crates) (keypair : Keypair) : TrustDoc :=
  (TrustEdit.add "a.com" ⟨keypair.keyId crates,keypair.publicKeyB64 crates,some 1000⟩).apply .empty

def pinnedEnv (crates : Crates) (keypair : Keypair) : Env :=
  { siteEnv crates [] with trustStore := (pinnedStore crates keypair).store }

def pinnedMurl : Murl := ⟨.remote "a.com" none,["p"],.latest,none,none⟩

def pinnedOrigin : Origin := .remote "https://a.com/.well-known/murl/p.murl.json" false

theorem pinnedStore_performed (h : Signs crates keypair) :
    performAll crates [pinCall crates keypair] = .ok (pinnedStore crates keypair) := by
  have hcheck : (pinCall crates keypair).check crates = .ok (.add "a.com"
      ⟨keypair.keyId crates,keypair.publicKeyB64 crates,some 1000⟩) :=
    check_add.mpr ⟨"a.com",keypair.publicKey,by decide +kernel,h.decodes _,h.publicKey,h.point,rfl⟩
  exact Fallible.bind_ok.mpr ⟨_,perform_ok.mpr ⟨_,hcheck,rfl⟩,rfl⟩

theorem keysOf_pinned (crates : Crates) (keypair : Keypair) :
    (pinnedStore crates keypair).store.keysOf "a.com" =
      [⟨keypair.keyId crates,keypair.publicKeyB64 crates,some 1000⟩] := by
  have hnormal : normalizeAuthority "a.com" = .ok "a.com" := by decide +kernel
  rw [TrustStore.keysOf,hnormal]
  rfl

theorem signed_sample (h : Signs crates keypair) : ∃ raw,
    verifyManifest crates raw =
      .ok (some ⟨keypair.keyId crates,keypair.publicKeyB64 crates⟩) ∧
    signatureKey crates raw = some keypair.publicKey := by
  obtain ⟨bytes,hbytes⟩ := signable_of_canonical (sampleMembers_canonical "T")
  refine ⟨.object (putMember "signature" (.object (signatureBlock crates keypair bytes))
    (sampleMembers "T")),?_,?_⟩
  · obtain ⟨signed,hsigned,hverify⟩ := signManifest_verifies h hbytes
    obtain rfl := Except.ok.inj ((signManifest_object crates keypair hbytes).symm.trans hsigned)
    exact hverify
  · have hdecoded : crates.base64Decode (keypair.publicKeyB64 crates) = .ok keypair.publicKey :=
      h.decodes _
    simp [signatureKey,Value.asObject,lookup_put,signatureBlock,List.lookup_cons,Value.asStr,
      hdecoded,Except.toOption]

theorem sample_trusted (hpinned : pinned.keyId crates = keypair.keyId crates) {raw : Value}
    (hverify : verifyManifest crates raw =
      .ok (some ⟨keypair.keyId crates,keypair.publicKeyB64 crates⟩)) :
    assignedTrust (pinnedEnv crates pinned) (some pinnedMurl) pinnedOrigin raw =
      .ok (.signedTrusted (keypair.keyId crates)) := by
  have htrusted : (pinnedStore crates pinned).store.isTrusted "a.com" (keypair.keyId crates) =
      true := by
    rw [isTrusted_keysOf,keysOf_pinned]
    exact ⟨_,List.mem_singleton.mpr rfl,hpinned⟩
  exact Fallible.map_ok.mpr ⟨_,hverify,if_pos htrusted⟩

theorem first_key_pinned : ∃ raw,
    assignedTrust (pinnedEnv signingCrates firstKey) (some pinnedMurl) pinnedOrigin raw =
      .ok (.signedTrusted "ed25519:21fe31dfa154a261") ∧
    TrustIsPinned (pinnedEnv signingCrates firstKey) (some pinnedMurl) pinnedOrigin raw := by
  obtain ⟨raw,hverify,hkey⟩ := signed_sample firstKey_signs
  have hsame : firstKey.keyId signingCrates = firstKey.keyId signingCrates := rfl
  have htrust := sample_trusted hsame hverify
  have hid : firstKey.keyId signingCrates = "ed25519:21fe31dfa154a261" := by decide +kernel
  refine ⟨raw,by rw [htrust,hid],?_⟩
  refine ((trusted_key_iff (pinnedEnv signingCrates firstKey) _ _
    (pinnedStore_performed firstKey_signs) rfl).1 _ _ raw).mpr ?_
  intro _ _ pk hpk key hmem pk' hdecoded _
  obtain rfl := Option.some.inj (hkey.symm.trans hpk)
  obtain rfl : key = ⟨firstKey.keyId signingCrates,firstKey.publicKeyB64 signingCrates,some 1000⟩ :=
    List.mem_singleton.mp ((keysOf_pinned signingCrates firstKey) ▸ hmem)
  exact Except.ok.inj (hdecoded.symm.trans (signingCrates_decodes _))

def collidingCrates : Crates := { signingCrates with sha256 := fun _ => List.replicate 32 0 }

theorem firstKey_collides : Signs collidingCrates firstKey :=
  ⟨firstKey_signs.publicKey,firstKey_signs.signature,firstKey_signs.point,firstKey_signs.accepts,
    firstKey_signs.decodes⟩

theorem secondKey_collides : Signs collidingCrates secondKey :=
  ⟨secondKey_signs.publicKey,secondKey_signs.signature,secondKey_signs.point,
    secondKey_signs.accepts,secondKey_signs.decodes⟩

theorem colliding_key_trusted :
    ¬∀ (env : Env) (calls : List TrustCall) (doc : TrustDoc),
      performAll env.crates calls = .ok doc → env.trustStore = doc.store →
        ∀ murl origin raw, TrustIsPinned env murl origin raw := by
  intro h
  obtain ⟨raw,hverify,hkey⟩ := signed_sample secondKey_collides
  have hid : firstKey.keyId collidingCrates = secondKey.keyId collidingCrates := rfl
  obtain ⟨pk,hpk,key,hmem,hdecoded⟩ := h (pinnedEnv collidingCrates firstKey) _ _
    (pinnedStore_performed firstKey_collides) rfl (some pinnedMurl) pinnedOrigin raw _
    (sample_trusted hid hverify)
  obtain rfl := Option.some.inj (hkey.symm.trans hpk)
  obtain rfl : key =
      ⟨firstKey.keyId collidingCrates,firstKey.publicKeyB64 collidingCrates,some 1000⟩ :=
    List.mem_singleton.mp ((keysOf_pinned collidingCrates firstKey) ▸ hmem)
  have hsame := Except.ok.inj ((firstKey_collides.decodes _).symm.trans hdecoded)
  exact absurd hsame (by decide)

end Samples

end MurlSystem
