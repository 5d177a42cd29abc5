import MurlSystem.Core.Error
import MurlSystem.Core.Json
import MurlSystem.Foundation.Path

namespace MurlSystem

def wellKnownUrl (murl : Murl) : Option String :=
  match murl.authority with
  | .local => none
  | .remote host port =>
    let scheme := if murl.authority.isLoopback then "http" else "https"
    let hostport := match port with
      | some p => s!"{host}:{p}"
      | none => host
    let path := murl.name.foldl (fun s seg => s ++ "/" ++ encodeSegment seg) ""
    let suffix := match murl.version with
      | .latest => ""
      | .pinned _ => "@" ++ murl.version.toString
    some s!"{scheme}://{hostport}/.well-known/murl{path}{suffix}.murl.json"

inductive FileRead where
  | bytes (b : Bytes)
  | notFound
  | failed (why : String)
deriving DecidableEq, Repr

-- A file that is not there means the defaults; one that cannot be read or understood is an error.
def loadFile {α : Type} (parse : Bytes → Except String α) (missing : α)
    (malformed : String → Error) : FileRead → Except Error α
  | .notFound => .ok missing
  | .failed why => .error (.io why)
  | .bytes b => (parse b).mapError malformed

structure LocalStore where
  os : Path.Platform
  root : String
  files : String → FileRead

def isStoreChar (b : UInt8) : Bool :=
  let c := Char.ofNat b.toNat
  isAlnum c || c == '.' || c == '_' || c == '-'

def sanitizeComponent (seg : String) : String := percentEscape isStoreChar seg

def LocalStore.manifestPath (store : LocalStore) (murl : Murl) : String :=
  let suffix := match murl.version with
    | .latest => ""
    | .pinned _ => "@" ++ murl.version.toString
  let last := sanitizeComponent (murl.name.getLastD "") ++ suffix ++ ".murl.json"
  let dirs := murl.name.dropLast.map sanitizeComponent
  String.ofList ((dirs ++ [last]).foldl (fun path comp => Path.push store.os path comp.toList)
    store.root.toList)

def LocalStore.load (store : LocalStore) (murl : Murl) : Except Error (Bytes × String) :=
  let path := store.manifestPath murl
  match store.files path with
  | .bytes b => .ok (b,path)
  | .notFound =>
    .error (.notFound s!"`{murl.identity}` is not in the local name store (expected {path}); add it with `murl name add`")
  | .failed why => .error (.io why)

theorem wellKnownUrl_isSome (murl : Murl) (h : murl.authority.isLocal = false) :
    ∃ url, wellKnownUrl murl = some url := by
  cases ha : murl.authority with
  | «local» => simp [ha,Authority.isLocal] at h
  | remote host port => exact ⟨_,by rw [wellKnownUrl,ha]⟩

end MurlSystem
