import MurlSystem.Core.Grammar

namespace MurlSystem

inductive Kind where
  | https
  | file
  | dir
  | murl
  | terminal
  | ssh
  | remoteDesktop
  | geo
  | mailto
  | custom (name : String)
deriving DecidableEq, Repr

def maxCustomName : Nat := 32

def Kind.parseCustom (name : String) : Except String Kind :=
  if name.isEmpty || maxCustomName < name.utf8ByteSize then
    .error s!"custom kind name `{name}` has invalid length"
  else if !matchesIdent maxCustomName isLowerAlnum
      (fun c => isLowerAlnum c || c == '-' || c == '_') name then
    .error s!"custom kind name `{name}` must match [a-z0-9][a-z0-9_-]*"
  else .ok (.custom name)

def Kind.parse (s : String) : Except String Kind :=
  match s with
  | "https" => .ok .https
  | "file" => .ok .file
  | "dir" => .ok .dir
  | "murl" => .ok .murl
  | "terminal" => .ok .terminal
  | "ssh" => .ok .ssh
  | "remote-desktop" => .ok .remoteDesktop
  | "geo" => .ok .geo
  | "mailto" => .ok .mailto
  | other =>
    match other.toList.dropPrefix? "custom:".toList with
    | some name => Kind.parseCustom (String.ofList name)
    | none =>
      .error s!"unknown kind `{other}` (known: https, file, dir, murl, terminal, ssh, remote-desktop, geo, mailto, custom:<name>)"

def Kind.isFilesystem : Kind → Bool
  | .file | .dir | .terminal => true
  | _ => false

def Kind.toString : Kind → String
  | .https => "https"
  | .file => "file"
  | .dir => "dir"
  | .murl => "murl"
  | .terminal => "terminal"
  | .ssh => "ssh"
  | .remoteDesktop => "remote-desktop"
  | .geo => "geo"
  | .mailto => "mailto"
  | .custom name => s!"custom:{name}"

theorem Kind.parse_parsed {s : String} {k : Kind} (h : Kind.parse s = .ok k) : k.toString = s := by
  unfold Kind.parse at h
  split at h
  case h_10 =>
    split at h
    · rename_i name hname
      unfold Kind.parseCustom at h
      split at h
      · cases h
      · split at h
        · cases h
        · cases h
          obtain ⟨p,hs,hp⟩ := List.dropPrefix?_eq_some_iff.mp hname
          obtain rfl := eq_of_beq hp
          change "custom:" ++ String.ofList name = _
          rw [← String.toList_inj,hs]
          simp
    · cases h
  all_goals
    cases h
    rfl

def executableExtensions : List String :=
  ["desktop","exe","bat","cmd","com","scr","msi","ps1","vbs","vbe","js","jse","wsf",
   "wsh","hta","sh","run","appimage","jar","lnk","url","reg","app"]

def isSeparator (c : Char) : Bool := c == '/' || c == '\\'

def isDotOrSpace (c : Char) : Bool := c == '.' || c == ' '

def hasExecutableExtension (target : String) : Bool :=
  let lower := Text.lowercase target.toList
  let name := (lower.splitOnP isSeparator).getLastD lower
  let name := Text.trimEnd isDotOrSpace name
  match Text.rsplitOnce '.' name with
  | some (_,ext) => executableExtensions.contains (String.ofList ext)
  | none => false

example : hasExecutableExtension "C:\\tools\\setup.exe. . " = true := by decide +kernel

end MurlSystem
