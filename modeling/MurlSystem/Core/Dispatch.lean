import MurlSystem.Core.Resolver

namespace MurlSystem

open Program

structure OpenerConfig where
  openArgv : List String
  terminalArgv : Option (List String) := none
  sshArgv : Option (List String) := none
  remoteDesktopArgv : Option (List String) := none
  custom : List (String × List String) := []
  homeDir : Option (List Char) := none
deriving Repr

def pushSegment (os : Path.Platform) (target : String) (path segment : List Char) :
    Except String (List Char) :=
  if segment.isEmpty then
    .error s!"`{target}` has an empty path segment; it would escape the home directory"
  else if isDotSegment segment then .error s!"`{target}` contains a dot segment"
  else if !Path.plainName os segment then
    .error s!"`{target}` has a segment that is not a plain name; it would escape the home directory"
  else .ok (Path.push os path segment)

def stripSlash (rest : List Char) : List Char := (rest.dropSuffix? ['/']).getD rest

def OpenerConfig.expandPath (opener : OpenerConfig) (os : Path.Platform) (target : String) :
    Except String (List Char) :=
  match target.toList with
  | '~' :: rest =>
    match opener.homeDir with
    | none => .error "no home directory available for ~ expansion"
    | some home =>
      match rest with
      | [] => .ok home
      | '/' :: rest =>
        if (stripSlash rest).isEmpty then .ok home
        else ((stripSlash rest).splitOn '/').foldlM (pushSegment os target) home
      | _ => .error s!"`{target}` is not a `~` or `~/…` path"
  | path => .ok path

inductive Approval where
  | approved
  | denied (reason : String)
  | skipped (reason : String)
deriving DecidableEq, Repr

inductive OutcomeStatus where
  | opened
  | skipped
  | denied
  | failed
  | unavailable
deriving DecidableEq, Repr

structure ResourceOutcome where
  id : String
  label : String
  kind : String
  tier : Tier
  status : OutcomeStatus
  detail : Option String
deriving DecidableEq, Repr

inductive AggregateStatus where
  | success
  | partialSuccess
  | failed
  | denied
deriving DecidableEq, Repr

structure ExecutionReport where
  outcomes : List ResourceOutcome
  aggregate : AggregateStatus
deriving Repr

inductive Effect where
  | pathExists (path : List Char)
  | sleepMs (ms : Nat)
  | launch (argv : List String) (cwd : Option (List Char))
deriving DecidableEq, Repr

-- The launcher is the outside world: it answers each call from everything asked of it so far,
-- and every call carries the position in the plan of the resource it was made for.
structure Event where
  index : Nat
  effect : Effect
deriving DecidableEq, Repr

structure Launcher where
  launch : List Event → List String → Option (List Char) → Except Error Unit
  pathExists : List Event → List Char → Bool

abbrev DispatchM := EStateM Error (List Event)

def perform (index : Nat) (effect : Effect) : DispatchM Unit :=
  modify fun events => events ++ [⟨index,effect⟩]

def openWith (opener : OpenerConfig) (target : String) : List String :=
  if opener.openArgv.isEmpty then [] else opener.openArgv ++ [target]

def targetSlot : List Char := "\x7btarget\x7d".toList

def substitutePart (target : String) (part : String) : String :=
  String.ofList (Text.replace targetSlot target.toList part.toList)

def mentionsTarget (part : String) : Bool := Text.contains targetSlot part.toList

def substitute (template : List String) (target : String) : List String :=
  if template.isEmpty then []
  else template.map (substitutePart target) ++
    (if template.any mentionsTarget then [] else [target])

abbrev Status := OutcomeStatus × Option String

section Dispatch

variable (os : Path.Platform) (opener : OpenerConfig) (launcher : Launcher) (index : Nat)

def launch (argv : List String) (cwd : Option (List Char)) : DispatchM Status := do
  if (argv.headD "").toList.all Text.isWhitespace then
    return (.failed,some "handler is configured with an empty program; refusing to launch")
  else
    let events ← get
    perform index (.launch argv cwd)
    match launcher.launch events argv cwd with
    | .ok _ => return (.opened,none)
    | .error e => return (.failed,some e.toString)

def dispatchPath (target : String) (openPath : List Char → DispatchM Status) :
    DispatchM Status :=
  match opener.expandPath os target with
  | .error e => return (.failed,some e)
  | .ok path => do
    let events ← get
    perform index (.pathExists path)
    if launcher.pathExists events path then openPath path
    else return (.unavailable,some s!"{String.ofList path} does not exist")

def dispatchTemplate (template : Option (List String)) (missing target : String) :
    DispatchM Status :=
  match template with
  | none => return (.failed,some missing)
  | some template => launch launcher index (substitute template target) none

def dispatchOne (pr : PlannedResource) : DispatchM Status :=
  let target := pr.resource.target
  match pr.kind with
  | .https | .geo | .mailto => launch launcher index (openWith opener target) none
  | .file | .dir =>
    dispatchPath os opener launcher index target fun path =>
      launch launcher index (openWith opener (String.ofList path)) none
  | .terminal =>
    dispatchPath os opener launcher index target fun path =>
      match opener.terminalArgv with
      | none =>
        return (.failed,some "no terminal handler configured (murl handler set-terminal)")
      | some template =>
        launch launcher index (substitute template (String.ofList path)) (some path)
  | .ssh =>
    dispatchTemplate launcher index opener.sshArgv
      "no ssh handler configured (murl handler set-ssh)" target
  | .remoteDesktop =>
    dispatchTemplate launcher index opener.remoteDesktopArgv
      "no remote-desktop handler configured (murl handler set-remote-desktop)" target
  | .murl => return (.skipped,some "container resource")
  | .custom name =>
    dispatchTemplate launcher index (opener.custom.lookup name)
      s!"no handler registered for kind custom:{name} (murl handler register)" target

def stagger (limits : Limits) (launchedAny : Bool) : DispatchM Unit :=
  if launchedAny && 0 < limits.dispatchStaggerMs then
    perform index (.sleepMs limits.dispatchStaggerMs)
  else pure ()

def executeOne (limits : Limits) (launchedAny : Bool) (pr : PlannedResource) :
    Approval → DispatchM Status
  | .denied reason => return (.denied,some reason)
  | .skipped reason => return (.skipped,some reason)
  | .approved => do
    stagger index limits launchedAny
    dispatchOne os opener launcher index pr

end Dispatch

section Execute

variable (os : Path.Platform) (opener : OpenerConfig) (launcher : Launcher)

def outcomeOf (pr : PlannedResource) (status : Status) : ResourceOutcome :=
  ⟨pr.resource.id,pr.displayLabel,pr.kind.toString,pr.tier,status.1,status.2⟩

def executeFrom (limits : Limits) (index : Nat) (launchedAny : Bool) :
    List (PlannedResource × Approval) → DispatchM (List ResourceOutcome)
  | [] => return []
  | (pr,approval) :: rest => do
    let status ← executeOne os opener launcher index limits launchedAny pr approval
    let outcomes ← executeFrom limits (index + 1)
      (launchedAny || (approval == .approved && status.1 == .opened)) rest
    return outcomeOf pr status :: outcomes

def OutcomeStatus.isBad (s : OutcomeStatus) : Bool := s == .failed || s == .unavailable

def aggregate (resolution : Resolution) (outcomes : List ResourceOutcome) : AggregateStatus :=
  let statuses := outcomes.map ResourceOutcome.status
  let anyOpened := statuses.any (· == .opened)
  let anyBad := statuses.any OutcomeStatus.isBad
  let anyDenied := statuses.any (· == .denied)
  let requiredMissed := (resolution.resources.zip statuses).any fun (pr,s) =>
    pr.resource.required && (s.isBad || s == .denied)
  if requiredMissed then .failed
  else if anyOpened && !anyBad && !anyDenied then .success
  else if anyOpened then .partialSuccess
  else if anyBad then .failed
  else if anyDenied then .denied
  else .success

def execute (resolution : Resolution) (approvals : List Approval) (limits : Limits) :
    DispatchM ExecutionReport := do
  if approvals.length != resolution.resources.length then
    throw (.dispatch s!"approvals ({approvals.length}) do not match planned resources ({resolution.resources.length})")
  else
    let outcomes ← executeFrom os opener launcher limits 0 false (resolution.resources.zip approvals)
    return ⟨outcomes,aggregate resolution outcomes⟩

end Execute

end MurlSystem
