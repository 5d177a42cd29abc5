import MurlSystem.Core.Bundle
import MurlSystem.Foundation.FileTree

namespace MurlSystem

abbrev Store : Type := FileTree.Tree String Bytes

abbrev Volume : Type := FileTree.Volume String Bytes

structure App where
  crates : Crates
  limits : Limits
  fold : String → String
  files : String → Except String Bytes

-- A command ends with an error of its own, or with a panic.
inductive Stop where
  | failed (e : Error)
  | panicked
deriving DecidableEq, Repr

section Store

def Murl.storeKey (fold : String → String) (murl : Murl) : List String :=
  let suffix := match murl.version with
    | .latest => ""
    | .pinned _ => "@" ++ murl.version.toString
  let last := sanitizeComponent (murl.name.getLastD "") ++ suffix ++ ".murl.json"
  (murl.name.dropLast.map sanitizeComponent ++ [last]).map fold

theorem storeKey_ne_nil (m : Murl) (fold : String → String) : m.storeKey fold ≠ [] := by
  simp [Murl.storeKey]

def App.held (app : App) (store : Store) (murl : Murl) : Option Bytes :=
  FileTree.stored store (murl.storeKey app.fold)

def App.add (app : App) (vol : Volume) (murl : Murl) (bytes : Bytes) (store : Store) :
    Except Stop Unit × Store :=
  match FileTree.install vol (murl.storeKey app.fold) bytes store with
  | (.ok _,store) => (.ok (),store)
  | (.error why,store) => (.error (.failed (.io why)),store)

end Store

section LocalNames

def prefixBytes : Nat → List Char → Option (List Char)
  | 0,_ => some []
  | _ + 1,[] => none
  | n + 1,c :: cs => if c.utf8Size ≤ n + 1 then (prefixBytes (n + 1 - c.utf8Size) cs).map (c :: ·) else none

def hasMurlScheme (name : String) : Except Stop Bool :=
  if name.utf8ByteSize < 5 then .ok false
  else
    match prefixBytes 5 name.toList with
    | some head => .ok (Text.lowercase head == "murl:".toList)
    | none => .error .panicked

def parseNameWith (notLocal : String → String) (carries : String) (name : String) :
    Except Stop Murl := do
  let whole ← hasMurlScheme name
  let murl ← (Murl.parse (if whole then name else s!"murl://local/{name}")).mapError
    fun e => .failed (.parse e)
  if !murl.authority.isLocal then throw (.failed (.validation (notLocal name)))
  if murl.selector.isSome || murl.query.isSome then throw (.failed (.validation carries))
  return murl

def parseLocalName (name : String) : Except Stop Murl :=
  parseNameWith
    (fun name => s!"`{name}` is not a local name; the name store only holds murl://local/... entries")
    "a stored name cannot carry a selector or query" name

def localName (name : String) : Except Stop Murl :=
  parseNameWith
    (fun name => s!"`{name}` is not a local name; imports always install under murl://local/...")
    "an installed name cannot carry a selector or query" name

end LocalNames

section Add

variable (app : App) (vol : Volume)

def checkDeclared (murl : Murl) (doc : ManifestDoc) : Except Stop Unit :=
  match doc.id with
  | none => .ok ()
  | some declared => do
    let declared ← (Murl.parse declared).mapError fun e => .failed (.parse e)
    let nameMatches := declared.authority == murl.authority && declared.name == murl.name
    if !nameMatches || versionConflicts declared.version murl.version then
      throw (.failed (.validation s!"manifest declares id `{declared.identity}` but is being installed as `{murl.identity}`; align them first"))

def checkAdd (name file : String) : Except Stop (Murl × Bytes) := do
  let murl ← parseLocalName name
  let bytes ← (app.files file).mapError
    fun e => .failed (.notFound s!"cannot read {file}: {e}")
  let manifest ← (Manifest.fromSlice app.crates bytes app.limits).mapError .failed
  if !(manifest.validate app.crates).errors.isEmpty then
    throw (.failed (.validation s!"{file} is not a valid manifest; fix it (see `murl validate`) before installing"))
  checkDeclared murl manifest.doc
  return (murl,bytes)

def nameAdd (name file : String) (store : Store) : Except Stop Murl × Store :=
  match checkAdd app name file with
  | .error stop => (.error stop,store)
  | .ok (murl,bytes) =>
    match app.add vol murl bytes store with
    | (.ok _,store) => (.ok murl,store)
    | (.error stop,store) => (.error stop,store)

end Add

section Import

variable (app : App) (vol : Volume)

def isRootEntry (bundle : Bundle) (i : Nat) (e : BundleEntry) : Bool :=
  match bundle.root with
  | some root => e.identity == some root
  | none => i == 0

def homeOf (bundle : Bundle) (asName : Option String) (i : Nat) (e : BundleEntry) :
    Except Stop Murl :=
  match isRootEntry bundle i e,asName,e.identity with
  | true,some name,_ => localName name
  | _,_,some identity => do
    let parsed ← (Murl.parse identity).mapError fun e => .failed (.parse e)
    return ⟨.local,parsed.name,parsed.version,none,none⟩
  | isRoot,_,none =>
    let hint := if isRoot then ", or import with --as" else ""
    .error (.failed (.validation s!"bundle entry {i} (`{e.name}`) has no identity; re-export it under a name{hint}"))

def checkHome (e : BundleEntry) (home : Murl) (doc : ManifestDoc) : Except Stop Unit :=
  match doc.id with
  | none => .ok ()
  | some declared => do
    let declared ← (Murl.parse declared).mapError fun e => .failed (.parse e)
    if !(declared.authority == home.authority && declared.name == home.name) then
      throw (.failed (.validation s!"bundle entry `{e.name}` declares id `{declared.identity}`, which cannot resolve as `{home.identity}`. Re-export it from a local name, or ask the publisher for a manifest whose id matches where you can install it."))

def checkClaimed (claimed : List (String × String)) (e : BundleEntry) (home : Murl) :
    Except Stop Unit :=
  match claimed.lookup home.identity with
  | none => .ok ()
  | some previous =>
    let holder := e.identity.getD e.name
    .error (.failed (.validation s!"bundle entries `{previous}` and `{holder}` both install as `{home.identity}`; refusing an import where one would silently overwrite the other"))

def planEntries (bundle : Bundle) (asName : Option String) (i : Nat)
    (claimed : List (String × String)) : List BundleEntry → Except Stop (List (Murl × Bytes))
  | [] => .ok []
  | e :: rest => do
    let home ← homeOf bundle asName i e
    let bytes ← (e.decode app.crates app.limits).mapError .failed
    let manifest ← (Manifest.fromSlice app.crates bytes app.limits).mapError .failed
    checkHome e home manifest.doc
    checkClaimed claimed e home
    let plan ← planEntries bundle asName (i + 1) ((home.identity,e.identity.getD e.name) :: claimed)
      rest
    return (home,bytes) :: plan

def checkVacant (store : Store) (item : Murl × Bytes) : Except Stop Unit :=
  if FileTree.exist store (item.1.storeKey app.fold) then
    .error (.failed (.validation s!"{item.1.identity} already exists in the local store (pass --force to overwrite)"))
  else .ok ()

def placements (plan : List (Murl × Bytes)) : List (List String × Bytes) :=
  plan.map fun item => (item.1.storeKey app.fold,item.2)

def importBundle (bundle : Bundle) (asName : Option String) (force : Bool) (store : Store) :
    Except Stop (List String) × Store :=
  match planEntries app bundle asName 0 [] bundle.entries with
  | .error stop => (.error stop,store)
  | .ok plan =>
    match if force then .ok () else plan.forM (checkVacant app store) with
    | .error stop => (.error stop,store)
    | .ok _ =>
      match FileTree.installAll vol (placements app plan) store with
      | (.ok _,store) => (.ok (plan.map fun item => item.1.identity),store)
      | (.error why,store) => (.error (.failed (.io why)),store)

def importFile (file : String) (asName : Option String) (force : Bool) (store : Store) :
    Except Stop (List String) × Store :=
  match app.files file with
  | .error e => (.error (.failed (.notFound s!"cannot read {file}: {e}")),store)
  | .ok bytes =>
    match Bundle.fromSlice app.crates app.limits bytes with
    | .error e => (.error (.failed e),store)
    | .ok bundle => importBundle app vol bundle asName force store

end Import

end MurlSystem
