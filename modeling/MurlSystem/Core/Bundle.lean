import MurlSystem.Core.Resolver

namespace MurlSystem

section PrettyFormatter

def indentation (depth : Nat) : String := "\n" ++ String.ofList (List.replicate (2 * depth) ' ')

def prettySeq («open» close : String) (depth : Nat) (parts : List String) : String :=
  «open» ++ ",".intercalate (parts.map fun part => indentation (depth + 1) ++ part) ++
    (if parts.isEmpty then "" else indentation depth) ++ close

mutual

def pretty (depth : Nat) : Value → String
  | .null => "null"
  | .bool true => "true"
  | .bool false => "false"
  | .number n => n.toString
  | .string s => writeString s
  | .array items => prettySeq "[" "]" depth (prettyItems (depth + 1) items)
  | .object members => prettySeq "\x7b" "\x7d" depth (prettyMembers (depth + 1) members)

def prettyItems (depth : Nat) : List Value → List String
  | [] => []
  | v :: rest => pretty depth v :: prettyItems depth rest

def prettyMembers (depth : Nat) : List (String × Value) → List String
  | [] => []
  | (k,v) :: rest => (writeString k ++ ": " ++ pretty depth v) :: prettyMembers depth rest

end

end PrettyFormatter

def makeIntegrity (crates : Crates) (b : Bytes) : String :=
  s!"sha256-{crates.base64Encode (crates.sha256 b)}"

def bundleVersion : String := "0.2"

def maxBundleEntries : Nat := 64

structure BundleEntry where
  identity : Option String
  name : String
  integrity : String
  bytes : String
deriving DecidableEq, Repr

structure Bundle where
  bundleVersion : String
  root : Option String
  entries : List BundleEntry
deriving DecidableEq, Repr

section Serialize

def optionalMember (name : String) (o : Option String) : List (String × Value) :=
  match o with
  | some s => [(name,.string s)]
  | none => []

def BundleEntry.toValue (e : BundleEntry) : Value :=
  .object (optionalMember "identity" e.identity ++
    [("name",.string e.name),("integrity",.string e.integrity),("bytes",.string e.bytes)])

def Bundle.toValue (b : Bundle) : Value :=
  .object (("bundleVersion",.string b.bundleVersion) :: (optionalMember "root" b.root ++
    [("entries",.array (b.entries.map BundleEntry.toValue))]))

def Bundle.toJsonBytes (b : Bundle) : Bytes := Text.bytes (pretty 0 b.toValue ++ "\n")

def BundleEntry.fromValue (v : Value) : Except String BundleEntry := do
  let field ← structFields ["identity","name","integrity","bytes"] v
  let identity ← defaultedField field (readOption readString) none "identity"
  let name ← requiredField field readString "name"
  let integrity ← requiredField field readString "integrity"
  let bytes ← requiredField field readString "bytes"
  return ⟨identity,name,integrity,bytes⟩

def Bundle.fromValue (v : Value) : Except String Bundle := do
  let field ← structFields ["bundleVersion","root","entries"] v
  let version ← requiredField field readString "bundleVersion"
  let root ← defaultedField field (readOption readString) none "root"
  let entries ← requiredField field (readSeq BundleEntry.fromValue) "entries"
  return ⟨version,root,entries⟩

end Serialize

section Bundling

variable (crates : Crates) (limits : Limits)

def Bundle.fromResolution (resolution : Resolution) : Except Error Bundle :=
  if maxBundleEntries < resolution.nodes.length then
    .error (.limitExceeded s!"resolution has {resolution.nodes.length} manifests, bundle limit is {maxBundleEntries}")
  else
    .ok
      { bundleVersion := MurlSystem.bundleVersion
        root := resolution.nodes.head?.bind ResolvedNode.identity
        entries := resolution.nodes.map fun node =>
          ⟨node.identity,node.manifest.doc.name,makeIntegrity crates node.rawBytes,
            crates.base64Encode node.rawBytes⟩ }

def BundleEntry.decode (e : BundleEntry) : Except Error Bytes := do
  let raw ← (crates.base64Decode e.bytes).mapError
    fun err => .manifest s!"bundle entry `{e.name}`: bad base64: {err}"
  if limits.maxManifestBytes < raw.length then
    throw (.limitExceeded s!"bundle entry `{e.name}` is {raw.length} bytes, limit is {limits.maxManifestBytes}")
  return raw

def checkEntry (i : Nat) (e : BundleEntry) : Except Error Unit := do
  let raw ← e.decode crates limits
  (checkIntegrity crates raw e.integrity).mapError
    fun err => .trust s!"bundle entry {i} (`{e.name}`): {err.toString}"
  let manifest ← Manifest.fromSlice crates raw limits
  (manifest.validate crates).intoResult

def checkIdentity (i : Nat) (seen : List String) (identity : String) : Except Error Unit := do
  let parsed ← (Murl.parse identity).mapError Error.parse
  if parsed.identity != identity then
    throw (.validation s!"bundle entry {i} identity `{identity}` is not canonical")
  if seen.contains identity then
    throw (.validation s!"bundle contains duplicate identity `{identity}`")

def checkEntries (i : Nat) (seen : List String) : List BundleEntry → Except Error Unit
  | [] => .ok ()
  | e :: rest => do
    checkEntry crates limits i e
    match e.identity with
    | some identity => do
      checkIdentity i seen identity
      checkEntries (i + 1) (identity :: seen) rest
    | none => checkEntries (i + 1) seen rest

def bundleCap : Nat := min (limits.maxManifestBytes * min maxBundleEntries 8) u64Max

def checkRoot (b : Bundle) : Except Error Unit :=
  match b.root with
  | none => .ok ()
  | some root =>
    if b.entries.any fun e => e.identity == some root then .ok ()
    else .error (.validation s!"bundle root `{root}` is not among its entries")

def Bundle.fromSlice (bytes : Bytes) : Except Error Bundle := do
  if bundleCap limits < bytes.length then
    throw (.limitExceeded s!"bundle is {bytes.length} bytes, limit is {bundleCap limits}")
  let value ← (fromSliceStrict crates bytes).mapError fun e => .manifest s!"invalid bundle JSON: {e}"
  let bundle ← (Bundle.fromValue value).mapError fun e => .manifest s!"bundle schema mismatch: {e}"
  if bundle.bundleVersion != MurlSystem.bundleVersion then
    throw (.validation s!"unsupported bundle version `{bundle.bundleVersion}` (expected `{MurlSystem.bundleVersion}`)")
  if bundle.entries.isEmpty then throw (.validation "bundle carries no manifests")
  if maxBundleEntries < bundle.entries.length then
    throw (.limitExceeded s!"bundle carries {bundle.entries.length} manifests, limit is {maxBundleEntries}")
  checkEntries crates limits 0 [] bundle.entries
  checkRoot bundle
  return bundle

end Bundling

end MurlSystem
