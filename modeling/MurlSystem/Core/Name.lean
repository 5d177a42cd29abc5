import MurlSystem.Core.Grammar

namespace MurlSystem

def maxMurlLen : Nat := 1024
def maxSegments : Nat := 8
def maxSegmentBytes : Nat := 64
def maxAuthorityLen : Nat := 253
def maxSelectorItems : Nat := 8
def localAuthority : String := "local"

inductive MurlParseError where
  | tooLong
  | canonicalTooLong (n : Nat)
  | invalidCharacter (offset : Nat)
  | missingScheme
  | missingAuthority
  | userinfoForbidden
  | ipv6NotSupported
  | invalidAuthority (why : String)
  | invalidPort (port : String)
  | missingName
  | emptySegment
  | tooManySegments
  | segmentTooLong
  | invalidSegment (why : String)
  | invalidPercentEncoding (why : String)
  | misplacedVersionMarker
  | invalidVersion (why : String)
  | invalidSelector (why : String)
  | invalidQuery (why : String)
deriving DecidableEq, Repr

def MurlParseError.toString : MurlParseError → String
  | .tooLong => s!"mURL exceeds maximum length of {maxMurlLen} bytes"
  | .canonicalTooLong n =>
    s!"mURL is {n} bytes in canonical form, over the {maxMurlLen}-byte maximum (percent-encoding expands characters outside the unreserved set)"
  | .invalidCharacter i =>
    s!"mURL contains a non-printable or non-ASCII byte at offset {i}; non-ASCII must be percent-encoded"
  | .missingScheme => "mURL must start with the scheme `murl://`"
  | .missingAuthority => "mURL has an empty authority"
  | .userinfoForbidden => "userinfo (`user@host`) is forbidden in mURL authorities"
  | .ipv6NotSupported => "IPv6 literals are not supported in mURL v0.1"
  | .invalidAuthority w => s!"invalid authority: {w}"
  | .invalidPort p => s!"invalid port: {p}"
  | .missingName => "mURL is missing a name (expected `murl://authority/name`)"
  | .emptySegment => "name contains an empty segment"
  | .tooManySegments => s!"name has more than {maxSegments} segments"
  | .segmentTooLong => s!"name segment exceeds {maxSegmentBytes} bytes after decoding"
  | .invalidSegment w => s!"invalid name segment: {w}"
  | .invalidPercentEncoding w => s!"invalid percent-encoding: {w}"
  | .misplacedVersionMarker =>
    "`@` may appear only once, as a version marker on the final name segment"
  | .invalidVersion w => s!"invalid version tag: {w}"
  | .invalidSelector w => s!"invalid selector: {w}"
  | .invalidQuery w => s!"invalid query: {w}"

inductive Authority where
  | local
  | remote (host : String) (port : Option Nat)
deriving DecidableEq, Repr

def Authority.isLocal : Authority → Bool
  | .local => true
  | .remote _ _ => false

def Authority.isLoopback : Authority → Bool
  | .local => false
  | .remote host _ =>
    host == "localhost" || host == "127.0.0.1" || ".localhost".toList.isSuffixOf host.toList

def Authority.toString : Authority → String
  | .local => localAuthority
  | .remote host (some p) => s!"{host}:{p}"
  | .remote host none => host

inductive VersionTag where
  | latest
  | pinned (parts : List Nat)
deriving DecidableEq, Repr

def decimal (s : List Char) : Nat :=
  s.foldl (fun n c => 10 * n + (c.toNat - '0'.toNat)) 0

def VersionTag.component (s p : List Char) : Except MurlParseError Nat :=
  if p.isEmpty || 5 < p.length || !p.all isDigit then
    .error (.invalidVersion s!"`{String.ofList s}`: components must be 1-5 digit integers")
  else if 1 < p.length && p.head? == some '0' then
    .error (.invalidVersion s!"`{String.ofList s}`: no leading zeros")
  else .ok (decimal p)

def VersionTag.parse (s : List Char) : Except MurlParseError VersionTag :=
  if s = "latest".toList then .ok .latest
  else if s.isEmpty then .error (.invalidVersion "empty version")
  else
    let parts := s.splitOn '.'
    if 3 < parts.length then
      .error (.invalidVersion s!"`{String.ofList s}`: at most 3 dotted components")
    else do
      let nums ← parts.mapM (VersionTag.component s)
      return .pinned nums

def VersionTag.toString : VersionTag → String
  | .latest => "latest"
  | .pinned v => ".".intercalate (v.map (fun n => s!"{n}"))

inductive SelectorItem where
  | id (s : String)
  | role (s : String)
  | tag (s : String)
deriving DecidableEq, Repr

def SelectorItem.toString : SelectorItem → String
  | .id s => s
  | .role s => s!"role={s}"
  | .tag s => s!"tag={s}"

structure Murl where
  authority : Authority
  name : List String
  version : VersionTag
  selector : Option (List SelectorItem)
  query : Option String
deriving DecidableEq, Repr

def hexDigit (n : Nat) : Char :=
  if n < 10 then Char.ofNat ('0'.toNat + n) else Char.ofNat ('A'.toNat + (n - 10))

def isUnreserved (b : UInt8) : Bool :=
  let c := Char.ofNat b.toNat
  isAlnum c || c == '-' || c == '.' || c == '_' || c == '~'

def percentEscape (keep : UInt8 → Bool) (s : String) : String :=
  String.ofList ((Text.bytes s).flatMap fun b =>
    if keep b then [Char.ofNat b.toNat]
    else ['%',hexDigit (b.toNat / 16),hexDigit (b.toNat % 16)])

def encodeSegment (s : String) : String := percentEscape isUnreserved s

def Murl.identity (m : Murl) : String :=
  let path := m.name.foldl (fun s seg => s ++ "/" ++ encodeSegment seg)
    s!"murl://{m.authority.toString}"
  match m.version with
  | .pinned _ => path ++ "@" ++ m.version.toString
  | .latest => path

def Murl.selectorDisplay (m : Murl) : Option String :=
  m.selector.map fun items => ",".intercalate (items.map SelectorItem.toString)

def Murl.toString (m : Murl) : String :=
  let s := match m.query with
    | some q => m.identity ++ "?" ++ q
    | none => m.identity
  match m.selectorDisplay with
  | some sel => s ++ "#" ++ sel
  | none => s

def hexVal (c : Char) : Option Nat :=
  if isDigit c then some (c.toNat - '0'.toNat)
  else if 'a' ≤ c && c ≤ 'f' then some (c.toNat - 'a'.toNat + 10)
  else if 'A' ≤ c && c ≤ 'F' then some (c.toNat - 'A'.toNat + 10)
  else none

def percentDecodeFrom (whole : List Char) : List Char → Except MurlParseError (List UInt8)
  | [] => .ok []
  | '%' :: hi :: lo :: rest =>
    match hexVal hi,hexVal lo with
    | some h,some l => do
      let tail ← percentDecodeFrom whole rest
      return UInt8.ofNat (16 * h + l) :: tail
    | _,_ => .error (.invalidPercentEncoding s!"bad hex digits in `{String.ofList whole}`")
  | '%' :: _ =>
    .error (.invalidPercentEncoding s!"truncated escape in `{String.ofList whole}`")
  | c :: rest => do
    let tail ← percentDecodeFrom whole rest
    return String.utf8EncodeChar c ++ tail

def percentDecode (s : List Char) : Except MurlParseError (List UInt8) :=
  percentDecodeFrom s s

def fromUtf8 (b : List UInt8) : Option String :=
  String.fromUTF8? (ByteArray.mk b.toArray)

def segmentChar (raw : List Char) (c : Char) : Except MurlParseError Unit :=
  if Text.isControl c then
    .error (.invalidSegment s!"`{String.ofList raw}` decodes to a control character")
  else if c == '/' || c == '\\' then
    .error (.invalidSegment s!"`{String.ofList raw}` decodes to a path separator")
  else .ok ()

def decodeSegment (raw : List Char) : Except MurlParseError String :=
  if raw.isEmpty then .error .emptySegment
  else do
    let bytes ← percentDecode raw
    if maxSegmentBytes < bytes.length then throw .segmentTooLong
    match fromUtf8 bytes with
    | none => throw (.invalidSegment s!"`{String.ofList raw}` is not valid UTF-8")
    | some s => do
      s.toList.forM (segmentChar raw)
      if s = "." || s = ".." then throw (.invalidSegment "dot segments are forbidden")
      return s

def parseSelectorItem (part : List Char) : Except MurlParseError SelectorItem :=
  let text := String.ofList part
  match part.dropPrefix? "role=".toList with
  | some role =>
    if isValidRole (String.ofList role) then .ok (.role (String.ofList role))
    else .error (.invalidSelector s!"`{text}`: roles are [a-z0-9][a-z0-9-]\x7b0,31\x7d")
  | none =>
    match part.dropPrefix? "tag=".toList with
    | some tag =>
      if isValidTag (String.ofList tag) then .ok (.tag (String.ofList tag))
      else .error (.invalidSelector s!"`{text}`: tags are [a-z0-9-]\x7b1,32\x7d")
    | none =>
      if isValidResourceId text then .ok (.id text)
      else .error (.invalidSelector s!"`{text}`: resource ids are [a-z0-9][a-z0-9_-]\x7b0,63\x7d")

def parseSelector (f : List Char) : Except MurlParseError (List SelectorItem) :=
  if f.isEmpty then .error (.invalidSelector "empty fragment")
  else
    let parts := f.splitOn ','
    if maxSelectorItems < parts.length then
      .error (.invalidSelector s!"at most {maxSelectorItems} comma-separated items")
    else parts.mapM parseSelectorItem

def parsePort (p : List Char) : Except MurlParseError Nat :=
  if p.isEmpty || 5 < p.length || !p.all isDigit then .error (.invalidPort (String.ofList p))
  else if decimal p = 0 || 65535 < decimal p then .error (.invalidPort (String.ofList p))
  else .ok (decimal p)

def checkLabel (host label : List Char) : Except MurlParseError Unit :=
  if label.isEmpty || 63 < label.length then
    .error (.invalidAuthority s!"bad label in `{String.ofList host}`")
  else if !label.all (fun c => isLowerAlnum c || c == '-') then
    .error (.invalidAuthority
      s!"label `{String.ofList label}` has characters outside [a-z0-9-] (IDN hosts must be punycoded)")
  else if label.head? == some '-' || label.getLast? == some '-' then
    .error (.invalidAuthority s!"label `{String.ofList label}` starts or ends with '-'")
  else .ok ()

def parseAuthority (raw : List Char) : Except MurlParseError Authority := do
  if raw.isEmpty then throw .missingAuthority
  if raw.contains '@' then throw .userinfoForbidden
  if raw.contains '[' || raw.contains ']' then throw .ipv6NotSupported
  let (hostRaw,port) ← match Text.splitOnce ':' raw with
    | some (h,p) => do
      let port ← parsePort p
      pure (h,some port)
    | none => pure (raw,none)
  let host := Text.lowercase hostRaw
  if maxAuthorityLen < host.length then throw (.invalidAuthority "host too long")
  if host = localAuthority.toList then
    if port.isSome then throw (.invalidAuthority "the `local` authority takes no port")
    return .local
  (host.splitOn '.').forM (checkLabel host)
  return .remote (String.ofList host) port

def stripScheme (s : List Char) : Option (List Char) :=
  if s.length < 7 then none
  else if Text.lowercase (s.take 7) = "murl://".toList then some (s.drop 7)
  else none

def parseLastSegment (raw : List Char) : Except MurlParseError (String × VersionTag) :=
  match Text.splitOnce '@' raw with
  | some (base,ver) => do
    if ver.contains '@' then throw .misplacedVersionMarker
    if base.isEmpty then throw .emptySegment
    let version ← VersionTag.parse ver
    let seg ← decodeSegment base
    return (seg,version)
  | none => do
    let seg ← decodeSegment raw
    return (seg,.latest)

def parseSegments : List (List Char) → Except MurlParseError (List String × VersionTag)
  | [] => .error .missingName
  | [raw] => do
    let (seg,version) ← parseLastSegment raw
    return ([seg],version)
  | raw :: rest => do
    if raw.contains '@' then throw .misplacedVersionMarker
    let seg ← decodeSegment raw
    let (segs,version) ← parseSegments rest
    return (seg :: segs,version)

def checkQuery (q : List Char) : Except MurlParseError Unit :=
  if q.contains '#' || 512 < q.length then .error (.invalidQuery (String.ofList q)) else .ok ()

def firstUnprintable (b : List UInt8) : Option Nat :=
  b.findIdx? fun x => !(0x21 ≤ x && x ≤ 0x7e)

def Murl.parse (input : String) : Except MurlParseError Murl := do
  if maxMurlLen < input.utf8ByteSize then throw .tooLong
  match firstUnprintable (Text.bytes input) with
  | some i => throw (.invalidCharacter i)
  | none => pure ()
  let some rest := stripScheme input.toList | throw .missingScheme
  let (rest,fragment) := match Text.splitOnce '#' rest with
    | some (r,f) => (r,some f)
    | none => (rest,none)
  let (rest,query) := match Text.splitOnce '?' rest with
    | some (r,q) => (r,some q)
    | none => (rest,none)
  let some (authRaw,pathRaw) := Text.splitOnce '/' rest | throw .missingName
  let authority ← parseAuthority authRaw
  if pathRaw.isEmpty then throw .missingName
  let rawSegments := pathRaw.splitOn '/'
  if maxSegments < rawSegments.length then throw .tooManySegments
  let (name,version) ← parseSegments rawSegments
  let selector ← fragment.mapM parseSelector
  query.forM checkQuery
  let murl : Murl := ⟨authority,name,version,selector,query.map String.ofList⟩
  let canonicalLen := murl.toString.utf8ByteSize
  if maxMurlLen < canonicalLen then throw (.canonicalTooLong canonicalLen)
  return murl

example : (Murl.parse "MURL://Example.com:8443/a%20b/p@1.4#docs,role=ops").map Murl.toString =
    .ok "murl://example.com:8443/a%20b/p@1.4#docs,role=ops" := by decide +kernel

end MurlSystem
