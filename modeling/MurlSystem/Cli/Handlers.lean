import MurlSystem.Canonical.Lossless
import MurlSystem.Dispatch.Chosen

namespace MurlSystem

open OpenerConfig

structure HandlersFile where
  openArgv : Option (List String) := none
  terminal : Option (List String) := none
  ssh : Option (List String) := none
  remoteDesktop : Option (List String) := none
  custom : List (String × List String) := []
deriving DecidableEq, Repr

def platformOpen (os : String) : List String :=
  match os with
  | "macos" => ["open"]
  | "windows" => ["explorer.exe"]
  | _ => ["xdg-open"]

def HandlersFile.toOpener (file : HandlersFile) (os : String) (homeDir : Option (List Char)) :
    OpenerConfig :=
  ⟨file.openArgv.getD (platformOpen os),file.terminal,file.ssh,file.remoteDesktop,file.custom,
    homeDir⟩

inductive HandlerCmd where
  | setTerminal (argv : List String)
  | setSsh (argv : List String)
  | setRemoteDesktop (argv : List String)
  | register (kind : String) (argv : List String)
  | remove (kind : String)

def validateArgv (argv : List String) : Except Error Unit :=
  if (argv.headD "").toList.all Text.isWhitespace then
    .error (.validation "handler argv must start with a program")
  else .ok ()

def customName (kind : String) : String :=
  match kind.toList.dropPrefix? "custom:".toList with
  | some name => String.ofList name
  | none => kind

def others (name : String) (custom : List (String × List String)) : List (String × List String) :=
  custom.filter fun e => e.1 != name

def HandlersFile.apply (file : HandlersFile) : HandlerCmd → Except Error HandlersFile
  | .setTerminal argv => do
    validateArgv argv
    return { file with terminal := some argv }
  | .setSsh argv => do
    validateArgv argv
    return { file with ssh := some argv }
  | .setRemoteDesktop argv => do
    validateArgv argv
    return { file with remoteDesktop := some argv }
  | .register kind argv => do
    validateArgv argv
    let name := customName kind
    let _ ← (Kind.parse ("custom:" ++ name)).mapError Error.validation
    return { file with custom := (name,argv) :: others name file.custom }
  | .remove kind =>
    let name := customName kind
    if (file.custom.lookup name).isSome then .ok { file with custom := others name file.custom }
    else .error (.notFound s!"no handler registered for custom:{name}")

-- What the commands leave in the file; only `openArgv` is edited by hand.
inductive Configured : HandlersFile → Prop where
  | initial (openArgv : Option (List String)) : Configured { openArgv := openArgv }
  | command {file file' : HandlersFile} {cmd : HandlerCmd} (h : Configured file)
      (hok : file.apply cmd = .ok file') : Configured file'

theorem target_never_chooses (crates : Crates) (os : Path.Platform) (opener : OpenerConfig)
    {name : String} {kind : Kind} (hname : Kind.parse name = .ok kind) :
    ProgramFixed crates os opener kind ↔ ProgramPlain opener kind :=
  ⟨plain_of_programFixed hname,programFixed_of_plain crates⟩

section Registered

def slotText : String := "\x7btarget\x7d"

def sshHandler : HandlersFile := { ssh := some ["x-terminal-emulator","-e","ssh",slotText] }

def selfHandler : HandlersFile := { ssh := some [slotText] }

def bareFile : HandlersFile := {}

theorem emulator_fixed : Configured sshHandler ∧
    ProgramFixed Serde.bareCrates .posix (sshHandler.toOpener "linux" none) .ssh := by
  constructor
  · have hset : bareFile.apply (.setSsh ["x-terminal-emulator","-e","ssh",slotText]) =
        .ok sshHandler := by decide +kernel
    exact .command (.initial none) hset
  · have hssh : Kind.parse "ssh" = .ok .ssh := rfl
    refine (target_never_chooses Serde.bareCrates .posix (sshHandler.toOpener "linux" none)
      hssh).mpr ?_
    intro program rest ht
    cases ht
    decide +kernel

theorem target_chosen_as_program : bareFile.apply (.setSsh [slotText]) = .ok selfHandler ∧
    Configured selfHandler ∧
    Passes Serde.bareCrates .ssh "ssh://a" ∧ Passes Serde.bareCrates .ssh "ssh://ab" ∧
    LaunchedWith .posix (selfHandler.toOpener "linux" none) (plannedFor .ssh "ssh://a")
      ["ssh://a"] ∧
    LaunchedWith .posix (selfHandler.toOpener "linux" none) (plannedFor .ssh "ssh://ab")
      ["ssh://ab"] ∧
    ¬ProgramFixed Serde.bareCrates .posix (selfHandler.toOpener "linux" none) .ssh := by
  have hset : bareFile.apply (.setSsh [slotText]) = .ok selfHandler := by decide +kernel
  have hssh : Kind.parse "ssh" = .ok .ssh := rfl
  have hpass : Passes Serde.bareCrates .ssh "ssh://a" := (passes_iff hssh).mpr ⟨rfl,rfl,rfl⟩
  have hpass' : Passes Serde.bareCrates .ssh "ssh://ab" := (passes_iff hssh).mpr ⟨rfl,rfl,rfl⟩
  have hrun : LaunchedWith .posix (selfHandler.toOpener "linux" none) (plannedFor .ssh "ssh://a")
      ["ssh://a"] := launchedWith_iff.mpr ⟨_,rfl,by decide +kernel,by unfold Blank; decide +kernel⟩
  have hrun' : LaunchedWith .posix (selfHandler.toOpener "linux" none)
      (plannedFor .ssh "ssh://ab") ["ssh://ab"] :=
    launchedWith_iff.mpr ⟨_,rfl,by decide +kernel,by unfold Blank; decide +kernel⟩
  refine ⟨hset,.command (.initial none) hset,hpass,hpass',hrun,hrun',?_⟩
  intro hfixed
  have hsame := (hfixed _ _ _ _ rfl rfl hpass hpass' hrun hrun').program
  exact absurd hsame (by decide)

end Registered

end MurlSystem
