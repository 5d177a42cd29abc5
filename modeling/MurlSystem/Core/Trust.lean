import MurlSystem.Core.Error
import MurlSystem.Core.Json

namespace MurlSystem

inductive TrustStatus where
  | local
  | unsignedRemote
  | signedUnknownKey (keyId : String)
  | signedTrusted (keyId : String)
deriving DecidableEq, Repr

def TrustStatus.isTrusted : TrustStatus → Bool
  | .local | .signedTrusted _ => true
  | .unsignedRemote | .signedUnknownKey _ => false

def TrustStatus.toString : TrustStatus → String
  | .local => "LOCAL"
  | .unsignedRemote => "UNSIGNED"
  | .signedUnknownKey keyId => s!"SIGNED (unknown key {keyId})"
  | .signedTrusted keyId => s!"TRUSTED (key {keyId})"

def hexByte (b : UInt8) : List Char :=
  [Nat.digitChar (b.toNat / 16),Nat.digitChar (b.toNat % 16)]

def sha256Hex (crates : Crates) (b : Bytes) : String :=
  String.ofList ((crates.sha256 b).flatMap hexByte)

def keyIdFor (crates : Crates) (publicKey : Bytes) : String :=
  let hex := String.ofList ((sha256Hex crates publicKey).toList.take 16)
  s!"ed25519:{hex}"

structure VerifiedSignature where
  keyId : String
  publicKeyB64 : String
deriving DecidableEq, Repr

def signableBytes (raw : Value) : Except Error Bytes :=
  match raw with
  | .object members =>
    (canonicalJsonBytes (.object (members.filter fun (k,_) => k != "signature"))).mapError
      Error.validation
  | _ => .error (.manifest "manifest must be a JSON object")

def signatureField (block : List (String × Value)) (name : String) : Except Error String :=
  match (block.lookup name).bind Value.asStr with
  | some s => .ok s
  | none => .error (.trust s!"signature.{name} missing or not a string")

def checkSignature (crates : Crates) (raw : Value) (block : List (String × Value)) :
    Except Error VerifiedSignature := do
  let alg ← signatureField block "alg"
  if alg != "ed25519" then throw (.trust s!"unsupported signature algorithm `{alg}`")
  let keyId ← signatureField block "keyId"
  let publicKeyB64 ← signatureField block "publicKey"
  let sigB64 ← signatureField block "sig"
  let pk ← (crates.base64Decode publicKeyB64).mapError
    fun e => .trust s!"bad publicKey encoding: {e}"
  if pk.length != 32 then throw (.trust "publicKey must be 32 bytes")
  if keyIdFor crates pk != keyId then throw (.trust "keyId does not match publicKey")
  let sig ← (crates.base64Decode sigB64).mapError fun e => .trust s!"bad sig encoding: {e}"
  if sig.length != 64 then throw (.trust "sig must be 64 bytes")
  (crates.verifyingKey pk).mapError fun e => .trust s!"invalid public key: {e}"
  let bytes ← signableBytes raw
  if !crates.ed25519Verify pk bytes sig then
    throw (.trust "signature verification failed (manifest was modified after signing, or the signature is forged)")
  return ⟨keyId,publicKeyB64⟩

def verifyManifest (crates : Crates) (raw : Value) : Except Error (Option VerifiedSignature) :=
  match raw with
  | .object members =>
    match members.lookup "signature" with
    | none => .ok none
    | some (.object block) => (checkSignature crates raw block).map some
    | some _ => .error (.trust "signature must be an object")
  | _ => .error (.manifest "manifest must be a JSON object")

structure PinnedKey where
  keyId : String
  publicKey : String
  addedAt : Option Nat
deriving DecidableEq, Repr

structure TrustStore where
  authorities : List (String × List PinnedKey)
deriving Repr

def normalizeAuthority (authority : String) : Except Error String :=
  match Murl.parse s!"murl://{authority}/x" with
  | .ok m => .ok m.authority.toString
  | .error e => .error (.trust s!"invalid authority `{authority}`: {e.toString}")

def TrustStore.isTrusted (store : TrustStore) (authority keyId : String) : Bool :=
  match normalizeAuthority authority with
  | .error _ => false
  | .ok authority =>
    match store.authorities.lookup authority with
    | some keys => keys.any fun k => k.keyId == keyId
    | none => false

def checkIntegrity (crates : Crates) (b : Bytes) (integrity : String) : Except Error Unit :=
  match integrity.toList.dropPrefix? "sha256-".toList with
  | none => .error (.trust s!"unsupported integrity algorithm in `{integrity}`")
  | some expectedB64 =>
    match crates.base64Decode (String.ofList expectedB64) with
    | .error e => .error (.trust s!"bad integrity encoding: {e}")
    | .ok expected =>
      if expected != crates.sha256 b then
        .error (.trust "integrity mismatch: nested manifest does not match its pin")
      else .ok ()

end MurlSystem
