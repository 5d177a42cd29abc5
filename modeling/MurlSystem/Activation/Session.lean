import MurlSystem.Consent.Gate
import MurlSystem.Foundation.Transition

namespace MurlSystem

open Program

inductive Mode where
  | auto
  | require
  | never
deriving DecidableEq, Repr

def Mode.fromFlags (require never : Bool) : Mode :=
  match require,never with
  | true,_ => .require
  | false,true => .never
  | false,false => .auto

structure Invocation where
  mode : Mode
  target : String
  offline : Bool := false
  refresh : Bool := false
  opts : OpenOptions := {}
deriving DecidableEq, Repr

inductive Outcome where
  | handled (exit : Nat)
  | fallBack
  | refused (why : String)
deriving DecidableEq, Repr

def refuseOrFallBack (mode : Mode) (why : String) : Outcome :=
  match mode with
  | .require =>
    .refused s!"dispatch error: --daemon was requested but the daemon could not be used: {why}"
  | .auto | .never => .fallBack

def inexpressibleFlag (inv : Invocation) : Option String :=
  if inv.offline then some "--offline"
  else if inv.refresh then some "--refresh"
  else if !inv.opts.skip.isEmpty then some "--skip"
  else if inv.opts.yes then some "--yes"
  else if inv.opts.allowSensitive then some "--allow-sensitive"
  else if inv.opts.allowDangerous then some "--allow-dangerous"
  else none

def sliceTo : Nat → List Char → Option (List Char)
  | 0,_ => some []
  | _ + 1,[] => none
  | n + 1,c :: cs =>
    if c.utf8Size ≤ n + 1 then (sliceTo (n + 1 - c.utf8Size) cs).map (c :: ·) else none
termination_by _ cs => cs.length

-- `none` is the panic of slicing a target inside a character.
def namesMurl (target : String) : Option Bool :=
  if target.utf8ByteSize < 5 then some false
  else (sliceTo 5 target.toList).map fun head => Text.lowercase head == "murl:".toList

inductive Route where
  | settled (outcome : Outcome)
  | panics
  | daemon
deriving DecidableEq, Repr

def route (inv : Invocation) : Route :=
  if inv.mode = .never then .settled .fallBack
  else
    match namesMurl inv.target with
    | none => .panics
    | some false =>
      .settled (refuseOrFallBack inv.mode "target is a file path, not an mURL")
    | some true =>
      match inexpressibleFlag inv with
      | some flag => .settled (refuseOrFallBack inv.mode
          s!"{flag} cannot be expressed in the daemon protocol")
      | none => .daemon

inductive Response where
  | plan
  | consent (granted denied : List String)
  | outcome (aggregate : AggregateStatus)
  | error (stage message : String)
deriving DecidableEq, Repr

def exitCodeFor : AggregateStatus → Nat
  | .success => 0
  | .partialSuccess => 3
  | .denied => 4
  | .failed => 1

def readResponses (exit : Nat) : List Response → Outcome
  | [] => .handled exit
  | .error stage message :: _ => .refused s!"resolution error: daemon ({stage}): {message}"
  | .outcome aggregate :: rest => readResponses (exitCodeFor aggregate) rest
  | .plan :: rest | .consent _ _ :: rest => readResponses exit rest

def readTimeout : Nat := 120

def dialogTimeout : Nat := 180

structure Party where
  env : Env
  policy : Policy
  desktop : Desktop

structure Setting where
  inv : Invocation
  ref : TargetRef
  cli : Party
  daemon : Party
  socket : String
  window : Option Nat

inductive Client where
  | start
  | probing
  | connecting
  | writing
  | reading (got : List Response)
  | returned (outcome : Outcome)
  | opened
  | died
deriving DecidableEq, Repr

inductive Daemon where
  | listening
  | reading
  | resolving (m : Murl)
  | asking (plan : Resolution) (slots : List (Option Approval))
  | executing (plan : Resolution) (approvals : List Approval)
  | replying (responses : List Response)
  | closed

-- How much of the request line the socket holds: nothing, a part that is no request, everything
-- but the newline, or the whole line.
inductive Wire where
  | empty
  | torn
  | unended
  | line
deriving DecidableEq, Repr

def Wire.rank : Wire → Nat
  | .empty => 0
  | .torn => 1
  | .unended => 2
  | .line => 3

structure Session where
  client : Client := .start
  daemon : Daemon := .listening
  connected : Bool := false
  wire : Wire := .empty
  ended : Bool := false
  inbox : List Response := []
  scrap : Bool := false
  idle : Nat := 0
  elapsed : Nat := 0
  launched : Option (List Event) := none
  inProcess : Option (List Event) := none

def Session.ready (s : Session) : Bool := s.wire == .line || (s.wire == .unended && s.ended)

def Party.plan (party : Party) (ref : TargetRef) (cache : Cache) : Except Error Resolution :=
  match resolveRef party.env ref (Run.start cache) with
  | .ok res _ => .ok (res.applyPolicy party.policy)
  | .error e _ => .error e

def Party.dispatch (party : Party) (plan : Resolution) (approvals : List Approval) :
    EStateM.Result Error (List Event) ExecutionReport :=
  execute party.desktop.os party.desktop.opener party.desktop.launcher plan approvals
    party.desktop.limits []

section Client

inductive ClientStep where
  | tryOpen
  | probe (usable : Bool)
  | connect
  | connectFails (why : String)
  | write (wire : Wire)
  | writeFails (why : String)
  | sent (shut : Bool)
  | readLine
  | readMalformed
  | readScrap
  | readFails (why : String)
  | readTimesOut
  | readEnd
  | openInProcess (cache : Cache) (terminal : Terminal)

def Session.settle (s : Session) (outcome : Outcome) : Session :=
  { s with client := .returned outcome, ended := true }

def Session.unusable (s : Session) (setting : Setting) (why : String) : Session :=
  s.settle (refuseOrFallBack setting.inv.mode why)

def openInProcess (setting : Setting) (cache : Cache) (terminal : Terminal) (s : Session) :
    Session :=
  match setting.cli.plan setting.ref cache with
  | .error e => { s with client := .returned (.refused e.toString) }
  | .ok plan =>
    match Cli.decide plan setting.inv.opts terminal with
    | none => { s with client := .died }
    | some approvals =>
      match setting.cli.dispatch plan approvals with
      | .ok _ events => { s with client := .opened, inProcess := some events }
      | .error e _ => { s with client := .returned (.refused e.toString) }

def clientStep (setting : Setting) (s : Session) : ClientStep → Option Session
  | .tryOpen =>
    if s.client = .start then
      match route setting.inv with
      | .settled outcome => some { s with client := .returned outcome }
      | .panics => some { s with client := .died }
      | .daemon => some { s with client := .probing }
    else none
  | .probe usable =>
    if s.client = .probing then
      if usable then some { s with client := .connecting }
      else some (s.unusable setting s!"no usable daemon at {setting.socket}")
    else none
  | .connect =>
    if s.client = .connecting then some { s with client := .writing, connected := true } else none
  | .connectFails why =>
    if s.client = .connecting then some (s.unusable setting why) else none
  | .write wire =>
    if s.client = .writing ∧ s.wire.rank < wire.rank then some { s with wire := wire } else none
  | .writeFails why =>
    if s.client = .writing then some (s.unusable setting s!"i/o: {why}") else none
  | .sent shut =>
    if s.client = .writing ∧ s.wire = .line then
      some { s with client := .reading [], ended := shut, idle := 0 }
    else none
  | .readLine =>
    match s.client,s.inbox with
    | .reading got,response :: rest =>
      some { s with client := .reading (got ++ [response]), inbox := rest, idle := 0 }
    | _,_ => none
  | .readMalformed =>
    match s.client,s.inbox with
    | .reading _,_ :: _ => some (s.unusable setting "protocol: bad response")
    | _,_ => none
  | .readScrap =>
    match s.client,s.inbox with
    | .reading _,[] =>
      if s.scrap then some (s.unusable setting "protocol: bad response") else none
    | _,_ => none
  | .readFails why =>
    match s.client with
    | .reading _ => some (s.unusable setting s!"i/o: {why}")
    | _ => none
  | .readTimesOut =>
    match s.client,s.inbox with
    | .reading _,[] =>
      if readTimeout ≤ s.idle then
        some (s.unusable setting "i/o: Resource temporarily unavailable (os error 11)")
      else none
    | _,_ => none
  | .readEnd =>
    match s.client,s.inbox,s.daemon with
    | .reading got,[],.closed =>
      if s.scrap then none
      else if got.isEmpty then
        some (s.unusable setting "protocol: daemon closed without replying")
      else some (s.settle (readResponses 0 got))
    | _,_,_ => none
  | .openInProcess cache terminal =>
    if s.client = .returned .fallBack then some (openInProcess setting cache terminal s) else none

end Client

section Daemon

inductive DaemonStep where
  | accept
  | readRequest
  | readTorn
  | readNothing
  | readFails
  | resolve (cache : Cache)
  | answer (granted : List Nat)
  | execute
  | executePart (count : Nat)
  | reply
  | hangUp (mid : Bool)

def Session.reply (s : Session) (responses : List Response) : Session :=
  { s with daemon := .replying responses }

def consentResponse (plan : Resolution) (approvals : List Approval) : Response :=
  let entries := plan.resources.zip approvals
  let idsOf := fun (p : Approval → Bool) =>
    (entries.filter fun (_,a) => p a).map fun (pr,_) => pr.resource.id
  .consent (idsOf fun a => a == .approved)
    (idsOf fun a => match a with | .denied _ => true | _ => false)

def activate (setting : Setting) (m : Murl) (cache : Cache) (s : Session) : Session :=
  match setting.daemon.plan (.murl m) cache with
  | .error e => s.reply [.error "activate" e.toString]
  | .ok plan =>
    match Daemon.prepare plan setting.inv.opts.only with
    | none => { s with daemon := .closed }
    | some (_,slots) => { s with daemon := .asking plan slots, elapsed := 0 }

def Setting.answers (setting : Setting) (elapsed : Nat) (granted : List Nat) : Bool :=
  granted.isEmpty || setting.window.all fun window => decide (elapsed < window)

def executed (setting : Setting) (plan : Resolution) (approvals : List Approval) (s : Session) :
    Session :=
  let consent := consentResponse plan approvals
  match setting.daemon.dispatch plan approvals with
  | .ok report events =>
    { s with daemon := .replying [.plan,consent,.outcome report.aggregate], launched := some events }
  | .error e _ => s.reply [.plan,consent,.error "activate" e.toString]

def daemonStep (setting : Setting) (s : Session) : DaemonStep → Option Session
  | .accept =>
    match s.daemon with
    | .listening => if s.connected then some { s with daemon := .reading } else none
    | _ => none
  | .readRequest =>
    match s.daemon with
    | .reading =>
      if s.ready then
        match Murl.parse setting.inv.target with
        | .ok m => some { s with daemon := .resolving m }
        | .error e => some (s.reply [.error "parse" e.toString])
      else none
    | _ => none
  | .readTorn =>
    match s.daemon with
    | .reading =>
      if s.wire = .torn ∧ s.ended = true then
        some (s.reply [.error "protocol" "malformed request"])
      else none
    | _ => none
  | .readNothing =>
    match s.daemon with
    | .reading =>
      if s.wire = .empty ∧ s.ended = true then some { s with daemon := .closed } else none
    | _ => none
  | .readFails =>
    match s.daemon with
    | .reading => some { s with daemon := .closed }
    | _ => none
  | .resolve cache =>
    match s.daemon with
    | .resolving m => some (activate setting m cache s)
    | _ => none
  | .answer granted =>
    match s.daemon with
    | .asking plan slots =>
      if setting.answers s.elapsed granted then
        some { s with daemon := .executing plan (Daemon.apply slots granted) }
      else none
    | _ => none
  | .execute =>
    match s.daemon with
    | .executing plan approvals => some (executed setting plan approvals s)
    | _ => none
  | .executePart count =>
    match s.daemon with
    | .executing plan approvals =>
      match setting.daemon.dispatch plan approvals with
      | .ok _ events =>
        some { s with daemon := .closed, launched := some (events.take count) }
      | .error _ _ => some { s with daemon := .closed }
    | _ => none
  | .reply =>
    match s.daemon with
    | .replying (response :: rest) =>
      some { s with daemon := .replying rest, inbox := s.inbox ++ [response] }
    | _ => none
  | .hangUp mid =>
    match s.daemon with
    | .closed => none
    | .replying (_ :: _) => some { s with daemon := .closed, scrap := mid }
    | _ => some { s with daemon := .closed }

end Daemon

inductive Happening where
  | client (step : ClientStep)
  | daemon (step : DaemonStep)
  | wait (seconds : Nat)
  | lose

def Session.step (setting : Setting) (s : Session) : Happening → Option Session
  | .client step => clientStep setting s step
  | .daemon step => daemonStep setting s step
  | .wait seconds =>
    some { s with idle := s.idle + seconds, elapsed := s.elapsed + seconds }
  | .lose => some { s with inbox := s.inbox.drop 1 }

def sessionSystem (setting : Setting) : Transition.System Session :=
  ⟨fun s => s = {},fun s t => ∃ h, s.step setting h = some t⟩

end MurlSystem
