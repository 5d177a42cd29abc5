import MurlSystem.Core.Kind
import MurlSystem.Core.Json
import MurlSystem.Core.Name

namespace MurlSystem

def isHostChar (c : Char) : Bool := isAlnum c || c == '.' || c == '-'

def isAuthorityEnd (c : Char) : Bool := c == '/' || c == '?' || c == '#'

def authorityOf (rest : List Char) : List Char :=
  rest.takeWhile fun c => !isAuthorityEnd c

def validateHostport (hostport : List Char) : Except String Unit := do
  if hostport.isEmpty then throw "empty host"
  let (host,port) := match Text.rsplitOnce ':' hostport with
    | some (h,p) => (h,some p)
    | none => (hostport,none)
  match port with
  | some port =>
    if port.isEmpty || 5 < port.length || !port.all isDigit || decimal port < 1 ||
        65535 < decimal port then
      throw s!"invalid port `{String.ofList port}`"
  | none => pure ()
  if host.isEmpty || 253 < (Text.bytes (String.ofList host)).length then
    throw "host must be 1..=253 characters"
  if host.head? == some '-' then
    throw "host must not start with `-` (it would look like an option)"
  if !host.all isHostChar then
    throw "host must match [A-Za-z0-9.-]+ (IDN hosts must be punycoded)"

def validateSshUser (user : List Char) : Except String Unit := do
  if user.isEmpty || 64 < (Text.bytes (String.ofList user)).length then
    throw "username must be 1..=64 characters"
  if !user.all (fun c => isAlnum c || c == '.' || c == '_' || c == '-') then
    throw "username must match [A-Za-z0-9._-]+"
  if user.head? == some '-' then
    throw "username must not start with `-` (it would look like an option)"

def validateSshTarget (target : List Char) : Except String Unit := do
  let some rest := target.dropPrefix? "ssh://".toList | throw "must start with ssh://"
  let authority := authorityOf rest
  if authority.isEmpty then throw "empty host"
  match Text.splitOnce '@' authority with
  | some (u,h) => do
    if h.contains '@' then throw "at most one `@` is allowed"
    validateSshUser u
    validateHostport h
  | none => validateHostport authority

def validateRemoteDesktopTarget (target : List Char) : Except String Unit := do
  let rest? := (target.dropPrefix? "rdp://".toList).or (target.dropPrefix? "vnc://".toList)
  let some rest := rest? | throw "must start with rdp:// or vnc://"
  let authority := authorityOf rest
  if authority.contains '@' then
    throw "userinfo is not allowed in remote-desktop targets"
  validateHostport authority

def checkCoordinate (crates : Crates) (n : List Char) (bound : Option (String × Rat)) :
    Except String Unit :=
  match crates.parseF64 (String.ofList n) with
  | none => .error s!"coordinate `{String.ofList n}` is not a number"
  | some (.special _) => .error s!"coordinate `{String.ofList n}` is not finite"
  | some (.finite q text) =>
    match bound with
    | some (name,max) =>
      if q < -max ∨ max < q then .error s!"{name} {text} is outside -{max}..={max}" else .ok ()
    | none => .ok ()

def checkCoordinates (crates : Crates) (numbers : List (List Char)) : Except String Unit :=
  (numbers.zip [some ("latitude",90),some ("longitude",180),none]).forM
    fun (n,bound) => checkCoordinate crates n bound

def checkGeoParam (param : List Char) : Except String Unit :=
  if param.isEmpty then .error "empty `;` parameter"
  else if !param.all (fun c => isAlnum c || ['=','.','-','_','%'].contains c) then
    .error s!"parameter `{String.ofList param}` has invalid characters"
  else .ok ()

def validateGeoTarget (crates : Crates) (target : List Char) : Except String Unit := do
  let some rest := target.dropPrefix? "geo:".toList | throw "must start with geo:"
  let parts := rest.splitOn ';'
  let numbers := (parts.headD []).splitOn ','
  if numbers.length < 2 || 3 < numbers.length then throw "expected `lat,lon` or `lat,lon,alt`"
  checkCoordinates crates numbers
  parts.tail.forM checkGeoParam

def checkAddress (address : List Char) : Except String Unit :=
  match Text.splitOnce '@' address with
  | none => .error s!"`{String.ofList address}` is not an addr-spec"
  | some (localPart,domain) =>
    if localPart.isEmpty || domain.isEmpty || domain.contains '@' then
      .error s!"`{String.ofList address}` is not an addr-spec"
    else if !domain.all isHostChar then
      .error s!"domain in `{String.ofList address}` has invalid characters"
    else .ok ()

def allowedHeaders : List String := ["subject","body","cc","to"]

def checkHeader (pair : List Char) : Except String Unit :=
  let permitted := ", ".intercalate allowedHeaders
  match Text.splitOnce '=' pair with
  | none => .error s!"header `{String.ofList pair}` must be name=value"
  | some (name,_) =>
    if !allowedHeaders.contains (String.ofList (Text.lowercase name)) then
      .error s!"header `{String.ofList name}` is not allowed (permitted: {permitted})"
    else .ok ()

def validateMailtoTarget (target : List Char) : Except String Unit := do
  let some rest := target.dropPrefix? "mailto:".toList | throw "must start with mailto:"
  let (addresses,query) := match Text.splitOnce '?' rest with
    | some (a,q) => (a,some q)
    | none => (rest,none)
  if addresses.isEmpty then throw "at least one address is required"
  (addresses.splitOn ',').forM checkAddress
  match query with
  | some q => (q.splitOn '&').forM checkHeader
  | none => pure ()

def webScheme (target : List Char) : Option (List Char × Bool) :=
  match target.dropPrefix? "https://".toList with
  | some r => some (r,false)
  | none => (target.dropPrefix? "http://".toList).map fun r => (r,true)

def validateWebTarget (target : List Char) : Except String Unit := do
  let some (rest,plainHttp) := webScheme target
    | throw "must start with https:// (http:// is allowed for loopback hosts only)"
  let authority := authorityOf rest
  if authority.isEmpty then throw "empty host"
  if authority.contains '@' then
    throw "userinfo in web targets is forbidden (phishing vector)"
  let host := Text.lowercase (authority.takeWhile (fun c => c != ':'))
  if host.isEmpty then throw "empty host"
  if target.contains ' ' then throw "must not contain spaces (percent-encode them)"
  if plainHttp then
    let loopback := host == "localhost".toList || host == "127.0.0.1".toList ||
      ".localhost".toList.isSuffixOf host
    if !loopback then
      throw s!"plain http:// is only allowed for loopback hosts, not `{String.ofList host}`"

def isNetworkPath : List Char → Bool
  | a :: b :: _ => isSeparator a && isSeparator b
  | _ => false

def isAsciiLetter (c : Char) : Bool := ('a' ≤ c && c ≤ 'z') || ('A' ≤ c && c ≤ 'Z')

def startsWithDrive : List Char → Bool
  | d :: ':' :: _ => isAsciiLetter d
  | _ => false

def stripSeparator (rest : List Char) : List Char :=
  match rest.getLast? with
  | some c => if isSeparator c then rest.dropLast else rest
  | none => rest

def checkHomeSegments (target : List Char) : Except String Unit :=
  match target.dropPrefix? "~/".toList with
  | none => .ok ()
  | some rest =>
    if rest.isEmpty then .ok ()
    else
      let segments := (stripSeparator rest).splitOnP isSeparator
      if segments.any List.isEmpty then
        .error "empty segments are forbidden in `~/` path targets"
      else if segments.any startsWithDrive then
        .error "drive letters (`Z:`) are forbidden inside `~/` path targets"
      else .ok ()

def pathBody (target : List Char) : Except String (List Char) :=
  match target with
  | '~' :: '/' :: rest => .ok rest
  | '/' :: rest => .ok rest
  | d :: ':' :: s :: rest =>
    if isAsciiLetter d && isSeparator s then .ok rest
    else .error "must be an absolute path (or start with ~/)"
  | _ => .error "must be an absolute path (or start with ~/)"

def isDotSegment (seg : List Char) : Bool := seg == ['.','.'] || seg == ['.']

def validatePathTarget (target : List Char) : Except String Unit := do
  if isNetworkPath target then throw "network (UNC) paths are forbidden in path targets"
  checkHomeSegments target
  if target = ['~'] then return ()
  let body ← pathBody target
  if (body.splitOnP isSeparator).any isDotSegment then
    throw "dot segments are forbidden in path targets"

def validateCustomTarget (target : List Char) : Except String Unit :=
  if target.head? == some '-' then
    .error "must not start with `-` (it would read as an option to the handler)"
  else if isNetworkPath target then
    .error "network (UNC) paths are forbidden in custom targets"
  else .ok ()

def validateTarget (crates : Crates) (kind : Kind) (target : String) : Except String Unit :=
  match kind with
  | .https => validateWebTarget target.toList
  | .file | .dir | .terminal => validatePathTarget target.toList
  | .murl =>
    match Murl.parse target with
    | .ok _ => .ok ()
    | .error e => .error s!"not a valid mURL: {e.toString}"
  | .ssh => validateSshTarget target.toList
  | .remoteDesktop => validateRemoteDesktopTarget target.toList
  | .geo => validateGeoTarget crates target.toList
  | .mailto => validateMailtoTarget target.toList
  | .custom _ => validateCustomTarget target.toList

end MurlSystem
