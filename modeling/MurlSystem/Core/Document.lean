import MurlSystem.Core.Error
import MurlSystem.Core.Json

namespace MurlSystem

structure ResourceDoc where
  id : String
  kind : String
  target : String
  label : Option String
  role : Option String
  required : Bool
  order : Int
  dependsOn : List String
  tags : List String
  integrity : Option String
  «meta» : Option Value

structure RelationDoc where
  source : String
  rel : String
  dest : String
deriving DecidableEq, Repr

structure SignatureBlock where
  alg : String
  keyId : String
  publicKey : String
  sig : String
deriving DecidableEq, Repr

structure ManifestDoc where
  murlVersion : String
  id : Option String
  name : String
  description : Option String
  version : Option String
  notBefore : Option String
  expires : Option String
  resources : List ResourceDoc
  relations : List RelationDoc
  signature : Option SignatureBlock

structure Manifest where
  raw : Value
  doc : ManifestDoc

section Deserialize

def structFields (names : List String) (v : Value) :
    Except String (String → Option Value) :=
  match v with
  | .object members => .ok fun name => members.lookup name
  | .array items =>
    if names.length < items.length then .error s!"invalid length {items.length}"
    else .ok fun name => (names.zip items).lookup name
  | _ => .error "invalid type, expected a struct"

variable {α : Type}

def requiredField (field : String → Option Value) (read : Value → Except String α) (name : String) :
    Except String α :=
  match field name with
  | some v => read v
  | none => .error s!"missing field `{name}`"

def defaultedField (field : String → Option Value) (read : Value → Except String α) (missing : α)
    (name : String) : Except String α :=
  match field name with
  | some v => read v
  | none => .ok missing

def readString : Value → Except String String
  | .string s => .ok s
  | _ => .error "invalid type, expected a string"

def readBool : Value → Except String Bool
  | .bool b => .ok b
  | _ => .error "invalid type, expected a boolean"

def readI64 : Value → Except String Int
  | .number n =>
    match n.asI64 with
    | some i => .ok i
    | none => .error "invalid value, expected i64"
  | _ => .error "invalid type, expected i64"

def readOption (read : Value → Except String α) : Value → Except String (Option α)
  | .null => .ok none
  | v => (read v).map some

def readSeq (read : Value → Except String α) : Value → Except String (List α)
  | .array items => items.mapM read
  | _ => .error "invalid type, expected a sequence"

def resourceMembers : List String :=
  ["id","kind","target","label","role","required","order","dependsOn","tags","integrity","meta"]

def relationMembers : List String := ["from","rel","to"]

def signatureMembers : List String := ["alg","keyId","publicKey","sig"]

def manifestMembers : List String :=
  ["murlVersion","id","name","description","version","notBefore","expires","resources",
   "relations","signature"]

def defaultOrder : Int := 100

def ResourceDoc.fromValue (v : Value) : Except String ResourceDoc := do
  let field ← structFields resourceMembers v
  let id ← requiredField field readString "id"
  let kind ← requiredField field readString "kind"
  let target ← requiredField field readString "target"
  let label ← defaultedField field (readOption readString) none "label"
  let role ← defaultedField field (readOption readString) none "role"
  let req ← defaultedField field readBool false "required"
  let order ← defaultedField field readI64 defaultOrder "order"
  let dependsOn ← defaultedField field (readSeq readString) [] "dependsOn"
  let tags ← defaultedField field (readSeq readString) [] "tags"
  let integrity ← defaultedField field (readOption readString) none "integrity"
  let extra ← defaultedField field (readOption .ok) none "meta"
  return ⟨id,kind,target,label,role,req,order,dependsOn,tags,integrity,extra⟩

def RelationDoc.fromValue (v : Value) : Except String RelationDoc := do
  let field ← structFields relationMembers v
  let source ← requiredField field readString "from"
  let rel ← requiredField field readString "rel"
  let dest ← requiredField field readString "to"
  return ⟨source,rel,dest⟩

def SignatureBlock.fromValue (v : Value) : Except String SignatureBlock := do
  let field ← structFields signatureMembers v
  let alg ← requiredField field readString "alg"
  let keyId ← requiredField field readString "keyId"
  let publicKey ← requiredField field readString "publicKey"
  let sig ← requiredField field readString "sig"
  return ⟨alg,keyId,publicKey,sig⟩

def ManifestDoc.fromValue (v : Value) : Except String ManifestDoc := do
  let field ← structFields manifestMembers v
  let murlVersion ← requiredField field readString "murlVersion"
  let id ← defaultedField field (readOption readString) none "id"
  let name ← requiredField field readString "name"
  let description ← defaultedField field (readOption readString) none "description"
  let version ← defaultedField field (readOption readString) none "version"
  let notBefore ← defaultedField field (readOption readString) none "notBefore"
  let expires ← defaultedField field (readOption readString) none "expires"
  let resources ← requiredField field (readSeq ResourceDoc.fromValue) "resources"
  let relations ← defaultedField field (readSeq RelationDoc.fromValue) [] "relations"
  let signature ← defaultedField field (readOption SignatureBlock.fromValue) none "signature"
  return ⟨murlVersion,id,name,description,version,notBefore,expires,resources,relations,signature⟩

end Deserialize

def Manifest.fromSlice (crates : Crates) (bytes : Bytes) (limits : Limits) :
    Except Error Manifest :=
  if limits.maxManifestBytes < bytes.length then
    .error (.limitExceeded
      s!"manifest is {bytes.length} bytes, limit is {limits.maxManifestBytes}")
  else
    match fromSliceStrict crates bytes with
    | .error e => .error (.manifest s!"invalid JSON: {e}")
    | .ok raw =>
      if !raw.isObject then .error (.manifest "top-level JSON value must be an object")
      else
        match ManifestDoc.fromValue raw with
        | .error e => .error (.manifest s!"schema mismatch: {e}")
        | .ok doc => .ok ⟨raw,doc⟩

theorem Manifest.fromSlice_iff {m : Manifest} {crates : Crates} {limits : Limits} {b : Bytes} :
    Manifest.fromSlice crates b limits = .ok m ↔ b.length ≤ limits.maxManifestBytes ∧
      fromSliceStrict crates b = .ok m.raw ∧ m.raw.isObject = true ∧
        ManifestDoc.fromValue m.raw = .ok m.doc := by
  obtain ⟨raw,doc⟩ := m
  unfold Manifest.fromSlice
  by_cases hsize : limits.maxManifestBytes < b.length
  · simp only [hsize,if_true,reduceCtorEq,false_iff]
    exact fun h => absurd h.1 (Nat.not_le.mpr hsize)
  · cases hread : fromSliceStrict crates b with
    | error e => simp [hsize]
    | ok v =>
      by_cases hobject : v.isObject = true
      · cases hdoc : ManifestDoc.fromValue v with
        | error e =>
          simp only [hsize,if_false,hobject,hdoc,Bool.not_true,Bool.false_eq_true,reduceCtorEq,
            false_iff]
          rintro ⟨-,hv,-,hdoc'⟩
          obtain rfl := Except.ok.inj hv
          rw [hdoc] at hdoc'
          cases hdoc'
        | ok d =>
          simp only [hsize,if_false,hobject,hdoc,Bool.not_true,Bool.false_eq_true,Except.ok.injEq,
            Manifest.mk.injEq]
          constructor
          · rintro ⟨rfl,rfl⟩
            exact ⟨Nat.not_lt.mp hsize,rfl,hobject,hdoc⟩
          · rintro ⟨-,rfl,-,hdoc'⟩
            exact ⟨rfl,Except.ok.inj (hdoc.symm.trans hdoc')⟩
      · simp only [hsize,if_false,hobject,Bool.not_false,if_true,reduceCtorEq,false_iff]
        rintro ⟨-,hv,hobject',-⟩
        obtain rfl := Except.ok.inj hv
        exact hobject hobject'

theorem Value.isObject_iff {v : Value} : v.isObject = true ↔ ∃ members, v = .object members := by
  cases v <;> simp [Value.isObject,Value.asObject]

end MurlSystem
