import MurlSystem.Core.Target

namespace MurlSystem.Playground

def isWindowsPath : List Char → Bool
  | d :: ':' :: s :: _ => isAsciiLetter d && isSeparator s
  | _ => false

def looksLikeFile (line : List Char) : Bool :=
  if line.getLast?.any isSeparator then false
  else
    let last := ((line.splitOnP isSeparator).getLast?).getD []
    match Text.rsplitOnce '.' last with
    | some (stem,extension) => !stem.isEmpty && !extension.isEmpty
    | none => false

def isHostLabel (label : List Char) : Bool :=
  !label.isEmpty && label.all (fun c => isAlnum c || c == '-') && label.head? != some '-' &&
  label.getLast? != some '-'

def looksLikeHostname (line : List Char) : Bool :=
  let host := line.takeWhile fun c => !isAuthorityEnd c
  let host := host.takeWhile fun c => c != ':'
  if host.isEmpty || !host.contains '.' then false else (host.splitOn '.').all isHostLabel

def check (crates : Crates) (kind : Kind) (target : List Char) : Except String (Kind × String) := do
  validateTarget crates kind (String.ofList target)
  return (kind,String.ofList target)

def startsWith (line : List Char) (word : String) : Bool := word.toList.isPrefixOf line

def trimWww : List Char → List Char
  | 'w' :: 'w' :: 'w' :: '.' :: rest => trimWww rest
  | line => line

def guessKind (line : List Char) : Option Kind :=
  let lower := Text.lowercase line
  if startsWith lower "https://" || startsWith lower "http://" then some .https
  else if startsWith lower "murl://" then some .murl
  else if startsWith lower "ssh://" then some .ssh
  else if startsWith lower "rdp://" || startsWith lower "vnc://" then some .remoteDesktop
  else if startsWith lower "mailto:" then some .mailto
  else if startsWith lower "geo:" then some .geo
  else if startsWith line "/" || startsWith line "~" || isWindowsPath line then
    some (if looksLikeFile line then .file else .dir)
  else none

def kindWord (line : List Char) : Option (Kind × List Char) :=
  if line.any Text.isWhitespace then
    let head := line.takeWhile fun c => !Text.isWhitespace c
    let rest := (line.dropWhile fun c => !Text.isWhitespace c).drop 1
    match Kind.parse (String.ofList (Text.trim Text.isWhitespace head)) with
    | .ok kind => some (kind,Text.trim Text.isWhitespace rest)
    | .error _ => none
  else none

def interpret (crates : Crates) (line : List Char) : Except String (Kind × String) :=
  match kindWord line with
  | some (kind,target) => check crates kind target
  | none =>
    match guessKind line with
    | some kind => check crates kind line
    | none =>
      if looksLikeHostname (Text.lowercase line) then
        check crates .https ("https://".toList ++ trimWww line)
      else .error "not recognised — use a URL, an absolute or ~ path, or prefix the line with a kind such as `terminal ~/projects/x`"

def targetsOf (crates : Crates) (lines : List String) : List (Kind × String) :=
  lines.filterMap fun raw =>
    let line := Text.trim Text.isWhitespace raw.toList
    if line.isEmpty || line.head? == some '#' then none
    else (interpret crates line).toOption

end MurlSystem.Playground
