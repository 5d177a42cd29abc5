import Mathlib.Data.String.Basic
import Mathlib.Logic.Function.Basic
import MurlSystem.Caching.Torn
import MurlSystem.Cli.Handlers
import MurlSystem.Foundation.Component
import MurlSystem.Foundation.OrderedMap

namespace MurlSystem

section Text

def argvValue (argv : List String) : Value := .array (argv.map Value.string)

def optionArgv : Option (List String) → Value
  | none => .null
  | some argv => argvValue argv

def HandlersFile.members (file : HandlersFile) : List (String × Value) :=
  [("open",optionArgv file.openArgv),("terminal",optionArgv file.terminal),
    ("ssh",optionArgv file.ssh),("remoteDesktop",optionArgv file.remoteDesktop),
    ("custom",.object ((OrderedMap.ofList file.custom).map fun e => (e.1,argvValue e.2)))]

def HandlersFile.toValue (file : HandlersFile) : Value := .object file.members

def HandlersFile.toBytes (file : HandlersFile) : Bytes := Text.bytes (pretty 0 file.toValue)

def handlersMembers : List String := ["open","terminal","ssh","remoteDesktop","custom"]

def readArgv : Value → Except String (List String) := readSeq readString

def readCustomEntry (custom : List (String × List String)) (member : String × Value) :
    Except String (List (String × List String)) := do
  let argv ← readArgv member.2
  return OrderedMap.insert member.1 argv custom

def readCustom : Value → Except String (List (String × List String))
  | .object members => members.foldlM readCustomEntry []
  | _ => .error "invalid type, expected a map"

def HandlersFile.fromValue (v : Value) : Except String HandlersFile := do
  uniqueFields handlersMembers v
  let field ← structFields handlersMembers v
  let openArgv ← defaultedField field (readOption readArgv) none "open"
  let terminal ← defaultedField field (readOption readArgv) none "terminal"
  let ssh ← defaultedField field (readOption readArgv) none "ssh"
  let remoteDesktop ← defaultedField field (readOption readArgv) none "remoteDesktop"
  let custom ← defaultedField field readCustom [] "custom"
  return ⟨openArgv,terminal,ssh,remoteDesktop,custom⟩

def HandlersFile.fromSlice (crates : Crates) (b : Bytes) : Except String HandlersFile := do
  let v ← crates.serdeJson b
  HandlersFile.fromValue v

end Text

section Disk

variable (crates : Crates) (path : String)

def malformedHandlers (why : String) : Error := .manifest s!"malformed {path}: {why}"

def HandlersFile.load : FileRead → Except Error HandlersFile :=
  loadFile (HandlersFile.fromSlice crates) {} (malformedHandlers path)

-- `none` is a file that is not there.
def readDisk (fault : Option String) (disk : Option Bytes) : FileRead :=
  match fault,disk with
  | some why,_ => .failed why
  | none,none => .notFound
  | none,some b => .bytes b

-- A short write leaves out at least the last byte.
inductive SaveStop where
  | createDir (why : String)
  | openFile (why : String)
  | short (missing : Nat) (why : String)

def HandlersFile.save (file : HandlersFile) (stop : Option SaveStop) (disk : Option Bytes) :
    Except Error Unit × Option Bytes :=
  match stop with
  | none => (.ok (),some file.toBytes)
  | some (.createDir why) | some (.openFile why) => (.error (.io why),disk)
  | some (.short missing why) =>
    (.error (.io why),some (file.toBytes.take (file.toBytes.length - (missing + 1))))

def HandlerCmd.check : HandlerCmd → Except Error Unit
  | .setTerminal argv | .setSsh argv | .setRemoteDesktop argv => validateArgv argv
  | .register kind argv => do
    validateArgv argv
    let _ ← (Kind.parse ("custom:" ++ customName kind)).mapError Error.validation
    return ()
  | .remove _ => .ok ()

def HandlerCmd.run (cmd : HandlerCmd) (fault : Option String) (stop : Option SaveStop)
    (disk : Option Bytes) : Except Error Unit × Option Bytes :=
  match cmd.check with
  | .error e => (.error e,disk)
  | .ok () =>
    match HandlersFile.load crates path (readDisk fault disk) with
    | .error e => (.error e,disk)
    | .ok file =>
      match file.apply cmd with
      | .error e => (.error e,disk)
      | .ok file' => file'.save stop disk

end Disk

section View

structure Handlers where
  openArgv : Option (List String)
  terminal : Option (List String)
  ssh : Option (List String)
  remoteDesktop : Option (List String)
  custom : String → Option (List String)

def HandlersFile.view (file : HandlersFile) : Handlers :=
  ⟨file.openArgv,file.terminal,file.ssh,file.remoteDesktop,fun name => file.custom.lookup name⟩

variable {file : HandlersFile} {crates : Crates} {f64 : List Char → Option String}

theorem readArgv_argvValue (argv : List String) : readArgv (argvValue argv) = .ok argv := by
  refine Fallible.mapM_ok.mpr (List.forall₂_map_left_iff.mpr ?_)
  exact List.forall₂_same.mpr fun _ _ => rfl

theorem readOption_optionArgv (argv : Option (List String)) :
    readOption readArgv (optionArgv argv) = .ok argv := by
  cases argv with
  | none => rfl
  | some argv =>
    have hread := readArgv_argvValue argv
    change (readArgv (argvValue argv)).map some = _
    rw [hread]
    rfl

theorem readCustom_members {entries done : List (String × List String)}
    (h : OrderedMap.Ascending (done ++ entries)) :
    (entries.map fun e => (e.1,argvValue e.2)).foldlM readCustomEntry done =
      .ok (done ++ entries) := by
  induction entries generalizing done with
  | nil => simp [pure,Except.pure]
  | cons e rest ih =>
    have hlast : ∀ x ∈ done, x.1 < e.1 := fun x hx =>
      (List.pairwise_append.mp h).2.2 x hx e List.mem_cons_self
    have hone : readCustomEntry done (e.1,argvValue e.2) = .ok (done ++ [e]) := by
      rw [readCustomEntry,readArgv_argvValue]
      change Except.ok (OrderedMap.insert e.1 e.2 done) = _
      rw [OrderedMap.insert_last hlast]
    have hmore : OrderedMap.Ascending ((done ++ [e]) ++ rest) := by
      rwa [List.append_assoc]
    rw [List.map_cons,List.foldlM_cons,hone]
    change (rest.map _).foldlM readCustomEntry (done ++ [e]) = _
    rw [ih hmore,List.append_assoc]
    rfl

theorem fromValue_toValue (file : HandlersFile) : HandlersFile.fromValue file.toValue =
    .ok { file with custom := OrderedMap.ofList file.custom } := by
  have hcustom : readCustom (.object ((OrderedMap.ofList file.custom).map
      fun e => (e.1,argvValue e.2))) = .ok (OrderedMap.ofList file.custom) := by
    exact readCustom_members (OrderedMap.ascending_ofList file.custom)
  simp only [HandlersFile.fromValue,Fallible.bind_ok,Fallible.pure_ok]
  exact ⟨_,rfl,_,rfl,file.openArgv,readOption_optionArgv _,file.terminal,readOption_optionArgv _,
    file.ssh,readOption_optionArgv _,file.remoteDesktop,readOption_optionArgv _,_,hcustom,rfl⟩

theorem HandlersFile.token (file : HandlersFile) :
    Serde.Token Serde.maxNesting file.toValue := by
  have hargv : ∀ argv d, Serde.Token (d + 1) (argvValue argv) := by
    intro argv d
    refine .array d _ fun v hv => ?_
    obtain ⟨s,-,rfl⟩ := List.mem_map.mp hv
    exact .string d s
  have hoption : ∀ argv d, Serde.Token (d + 1) (optionArgv argv) := by
    intro argv d
    cases argv with
    | none => exact .null _
    | some argv => exact hargv argv d
  refine .object 126 _ fun m hm => ?_
  simp only [HandlersFile.members,List.mem_cons,List.not_mem_nil,or_false] at hm
  rcases hm with rfl | rfl | rfl | rfl | rfl
  · exact hoption _ 125
  · exact hoption _ 125
  · exact hoption _ 125
  · exact hoption _ 125
  · refine .object 125 _ fun m hm => ?_
    obtain ⟨e,-,rfl⟩ := List.mem_map.mp hm
    exact hargv e.2 124

theorem numbers_argv (argv : List String) : Serde.numbers (argvValue argv) = [] := by
  change Serde.numbersItems (argv.map Value.string) = []
  induction argv with
  | nil => rfl
  | cons s rest ih => exact ih

theorem numbers_option (argv : Option (List String)) : Serde.numbers (optionArgv argv) = [] := by
  cases argv with
  | none => rfl
  | some argv => exact numbers_argv argv

theorem numbers_entries (entries : List (String × List String)) :
    Serde.numbersMembers (entries.map fun e => (e.1,argvValue e.2)) = [] := by
  induction entries with
  | nil => rfl
  | cons e rest ih =>
    rw [List.map_cons,Serde.numbersMembers,numbers_argv,ih]
    rfl

theorem HandlersFile.numbers (file : HandlersFile) : Serde.numbers file.toValue = [] := by
  simp [HandlersFile.toValue,HandlersFile.members,Serde.numbers,Serde.numbersMembers,
    numbers_option,numbers_entries]

theorem HandlersFile.reads (serde : Serde.Tokenises crates f64) (file : HandlersFile) :
    HandlersFile.fromSlice crates file.toBytes =
      .ok { file with custom := OrderedMap.ofList file.custom } := by
  have htext : pretty 0 file.toValue ++ "" = pretty 0 file.toValue := String.append_empty
  have hread := @pretty_tokens f64 _ "" Rfc8259.blank_nil file.token
    (by simp [Serde.Integral,HandlersFile.numbers])
  rw [htext] at hread
  rw [HandlersFile.fromSlice,Fallible.bind_ok]
  exact ⟨file.toValue,(serde _ _).mpr hread,fromValue_toValue file⟩

theorem HandlersFile.writes (file : HandlersFile) :
    Rfc8259.Writes (Serde.written file.toValue) (pretty 0 file.toValue).toList :=
  pretty_writes file.toValue 0 (by simp [HandlersFile.numbers])

theorem HandlersFile.cut (serde : Serde.Tokenises crates f64) (file : HandlersFile) {n : Nat}
    (h : n < file.toBytes.length) : ∃ why, HandlersFile.fromSlice crates (file.toBytes.take n) =
      .error why := by
  cases hread : HandlersFile.fromSlice crates (file.toBytes.take n) with
  | error why => exact ⟨why,rfl⟩
  | ok file' =>
    obtain ⟨v,hv,-⟩ := Fallible.bind_ok.mp hread
    have hwhole := congrArg List.length (pretty_whole file.writes ((serde _ _).mp hv))
    rw [List.length_take] at hwhole
    change min n file.toBytes.length = file.toBytes.length at hwhole
    omega

end View

section Kept

variable {crates : Crates} {path : String} {f64 : List Char → Option String}

def SaveStop.why : SaveStop → String
  | .createDir why | .openFile why | .short _ why => why

end Kept

section Launching

variable {file file' : HandlersFile} {os : String} {homeDir : Option (List Char)}

def plainCrates : Crates := Serde.tokenising Serde.shown Serde.bareCrates

end Launching

end MurlSystem
