import MurlSystem.Core.Name

namespace MurlSystem.Reference

inductive MurlSyntaxError where
  | tooLong
  | character
  | scheme
  | slash
  | emptyAuthority
  | userinfo
  | ipv6
  | colons
  | port
  | portRange
  | localPort
  | emptyHost
  | emptyLabel
  | longLabel
  | label
  | marks
  | markSegment
  | segments
  | emptySegment
  | truncatedEscape
  | malformedEscape
  | segChar
  | longSegment
  | utf8
  | control
  | separator
  | dots
  | emptyVersion
  | versionParts
  | versionComponent
  | emptySelector
  | selectorItems
  | emptyItem
  | role
  | tag
  | resourceId
  | query
deriving DecidableEq, Repr

def maxMurlBytes : Nat := 1024
def maxNameSegments : Nat := 8
def maxSegmentBytes : Nat := 64
def maxQueryChars : Nat := 512
def maxSelectorItems : Nat := 8
def scheme : List Char := "murl://".toList

def isDashAlnum (c : Char) : Bool := isLowerAlnum c || c == '-'

def isIdChar (c : Char) : Bool := isLowerAlnum c || c == '_' || c == '-'

def reResourceId : List Char → Bool
  | [] => false
  | c :: rest => isLowerAlnum c && decide (rest.length ≤ 63) && rest.all isIdChar

def reRole : List Char → Bool
  | [] => false
  | c :: rest => isLowerAlnum c && decide (rest.length ≤ 31) && rest.all isDashAlnum

def reTag (s : List Char) : Bool :=
  decide (1 ≤ s.length) && decide (s.length ≤ 32) && s.all isDashAlnum

def reLabel : List Char → Bool
  | [] => false
  | c :: rest =>
    isLowerAlnum c &&
      match rest.getLast? with
      | none => true
      | some d => isLowerAlnum d && decide (rest.dropLast.length ≤ 61) && rest.dropLast.all isDashAlnum

def reVnum : List Char → Bool
  | [] => false
  | c :: rest =>
    (c == '0' && rest.isEmpty) ||
      (('1' ≤ c && c ≤ '9') && decide (rest.length ≤ 4) && rest.all isDigit)

def isUnreserved (c : Char) : Bool :=
  isAlnum c || c == '-' || c == '.' || c == '_' || c == '~'

def hexUpper (n : Nat) : Char :=
  if n < 10 then Char.ofNat ('0'.toNat + n) else Char.ofNat ('A'.toNat + (n - 10))

def pctEncode (segment : String) : String :=
  String.ofList ((Text.bytes segment).flatMap fun byte =>
    let char := Char.ofNat byte.toNat
    if isUnreserved char then [char]
    else ['%',hexUpper (byte.toNat / 16),hexUpper (byte.toNat % 16)])

def hexDigitValue (c : Char) : Option Nat :=
  if isDigit c then some (c.toNat - '0'.toNat)
  else if 'a' ≤ c && c ≤ 'f' then some (c.toNat - 'a'.toNat + 10)
  else if 'A' ≤ c && c ≤ 'F' then some (c.toNat - 'A'.toNat + 10)
  else none

def pctDecode : List Char → Except MurlSyntaxError (List UInt8)
  | [] => .ok []
  | '%' :: hi :: lo :: rest =>
    match hexDigitValue hi,hexDigitValue lo with
    | some h,some l => do
      let out ← pctDecode rest
      return UInt8.ofNat (16 * h + l) :: out
    | _,_ => .error .malformedEscape
  | '%' :: _ => .error .truncatedEscape
  | c :: rest =>
    if 0x21 ≤ c.toNat && c.toNat ≤ 0x7e then do
      let out ← pctDecode rest
      return UInt8.ofNat c.toNat :: out
    else .error .segChar

def hasControl (text : String) : Bool :=
  text.toList.any fun c => c.toNat < 0x20 || c.toNat == 0x7f

structure Murl where
  authority : String
  port : Option Nat
  segments : List String
  version : Option String
  query : Option String
  selector : Option (List String)
deriving DecidableEq, Repr

def Murl.host (m : Murl) : String :=
  match m.port with
  | none => m.authority
  | some p => s!"{m.authority}:{p}"

def Murl.identity (m : Murl) : String :=
  let out := "murl://" ++ m.host ++ "/" ++ "/".intercalate (m.segments.map pctEncode)
  match m.version with
  | some v => out ++ "@" ++ v
  | none => out

def Murl.canonical (m : Murl) : String :=
  let out := m.identity
  let out := match m.query with
    | some q => out ++ "?" ++ q
    | none => out
  match m.selector with
  | some items => out ++ "#" ++ ",".intercalate items
  | none => out

def checkLabel (label : List Char) : Except MurlSyntaxError Unit :=
  if label.isEmpty then .error .emptyLabel
  else if 63 < label.length then .error .longLabel
  else if !reLabel label then .error .label
  else .ok ()

def splitPort (lowered : List Char) : Except MurlSyntaxError (List Char × Option Nat) :=
  match Text.rsplitOnce ':' lowered with
  | none => .ok (lowered,none)
  | some (host,portRaw) =>
    if 1 < lowered.count ':' then .error .colons
    else if !(decide (1 ≤ portRaw.length) && decide (portRaw.length ≤ 5)) || !portRaw.all isDigit then
      .error .port
    else if !(decide (1 ≤ decimal portRaw) && decide (decimal portRaw ≤ 65535)) then
      .error .portRange
    else .ok (host,some (decimal portRaw))

def checkHost (host : List Char) (port : Option Nat) :
    Except MurlSyntaxError (String × Option Nat) :=
  if host = "local".toList then
    if port.isSome then .error .localPort else .ok ("local",none)
  else if host.isEmpty then .error .emptyHost
  else do
    (host.splitOn '.').forM checkLabel
    return (String.ofList host,port)

def parseAuthority (raw : List Char) : Except MurlSyntaxError (String × Option Nat) :=
  if raw.isEmpty then .error .emptyAuthority
  else if raw.contains '@' then .error .userinfo
  else if raw.contains '[' || raw.contains ']' then .error .ipv6
  else do
    let (host,port) ← splitPort (Text.lowercase raw)
    checkHost host port

def parseVersion (raw : List Char) : Except MurlSyntaxError (Option String) :=
  if raw.isEmpty then .error .emptyVersion
  else if raw = "latest".toList then .ok none
  else
    let parts := raw.splitOn '.'
    if 3 < parts.length then .error .versionParts
    else do
      parts.forM fun part => if !reVnum part then .error .versionComponent else .ok ()
      return some (String.ofList raw)

def decodeUtf8 (b : List UInt8) : Except MurlSyntaxError String :=
  match String.fromUTF8? (ByteArray.mk b.toArray) with
  | some s => .ok s
  | none => .error .utf8

def parseSegment (raw : List Char) : Except MurlSyntaxError String := do
  if raw.isEmpty then throw .emptySegment
  let bytes ← pctDecode raw
  if maxSegmentBytes < bytes.length then throw .longSegment
  let decoded ← decodeUtf8 bytes
  if hasControl decoded then throw .control
  if decoded.toList.contains '/' || decoded.toList.contains '\\' then throw .separator
  if decoded = "." || decoded = ".." then throw .dots
  return decoded

def parseMark (path : List Char) : Except MurlSyntaxError (List Char × Option String) :=
  match Text.splitOnce '@' path with
  | none => .ok (path,none)
  | some (namePart,versionRaw) =>
    if versionRaw.contains '@' then .error .marks
    else if versionRaw.contains '/' then .error .markSegment
    else do
      let version ← parseVersion versionRaw
      return (namePart,version)

def parsePath (path : List Char) : Except MurlSyntaxError (List String × Option String) := do
  let (path,version) ← parseMark path
  let rawSegments := path.splitOn '/'
  if !(decide (1 ≤ rawSegments.length) && decide (rawSegments.length ≤ maxNameSegments)) then
    throw .segments
  let segments ← rawSegments.mapM parseSegment
  return (segments,version)

def checkItem (item : List Char) : Except MurlSyntaxError Unit :=
  if item.isEmpty then .error .emptyItem
  else
    match item.dropPrefix? "role=".toList with
    | some role => if !reRole role then .error .role else .ok ()
    | none =>
      match item.dropPrefix? "tag=".toList with
      | some tag => if !reTag tag then .error .tag else .ok ()
      | none => if !reResourceId item then .error .resourceId else .ok ()

def parseSelector (raw : List Char) : Except MurlSyntaxError (List String) :=
  if raw.isEmpty then .error .emptySelector
  else
    let items := raw.splitOn ','
    if maxSelectorItems < items.length then .error .selectorItems
    else do
      items.forM checkItem
      return items.map String.ofList

def checkQuery (query : List Char) : Except MurlSyntaxError Unit :=
  if maxQueryChars < query.length then .error .query else .ok ()

def parseMurl (text : String) : Except MurlSyntaxError Murl := do
  if maxMurlBytes < text.utf8ByteSize then throw .tooLong
  if text.toList.any fun c => !(0x21 ≤ c.toNat && c.toNat ≤ 0x7e) then throw .character
  if Text.lowercase (text.toList.take 7) ≠ scheme then throw .scheme
  let rest := text.toList.drop 7
  let (rest,selectorRaw) := match Text.splitOnce '#' rest with
    | some (r,s) => (r,some s)
    | none => (rest,none)
  let (rest,query) := match Text.splitOnce '?' rest with
    | some (r,q) => (r,some q)
    | none => (rest,none)
  let some (authorityRaw,path) := Text.splitOnce '/' rest | throw .slash
  let (authority,port) ← parseAuthority authorityRaw
  let (segments,version) ← parsePath path
  let selector ← selectorRaw.mapM parseSelector
  query.forM checkQuery
  return ⟨authority,port,segments,version,query.map String.ofList,selector⟩

example : (parseMurl "MURL://Example.com:8443/a%20b/p@1.4#docs,role=ops").map Murl.canonical =
    .ok "murl://example.com:8443/a%20b/p@1.4#docs,role=ops" := by decide +kernel

end MurlSystem.Reference
