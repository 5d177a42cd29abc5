import MurlSystem.Core.Kind
import MurlSystem.Core.Trust

namespace MurlSystem

inductive Tier where
  | safe
  | sensitive
  | dangerous
deriving DecidableEq, Repr

def Tier.toString : Tier → String
  | .safe => "SAFE"
  | .sensitive => "SENSITIVE"
  | .dangerous => "DANGEROUS"

def classify (kind : Kind) (target : String) : Tier :=
  match kind with
  | .https => .safe
  | .murl => .safe
  | .dir => .sensitive
  | .file => if hasExecutableExtension target then .dangerous else .sensitive
  | .terminal => .dangerous
  | .ssh | .remoteDesktop => .dangerous
  | .geo | .mailto => .safe
  | .custom _ => .dangerous

inductive ConsentMode where
  | allow
  | prompt
  | deny
deriving DecidableEq, Repr

structure Policy where
  safe : ConsentMode := .prompt
  sensitive : ConsentMode := .prompt
  dangerous : ConsentMode := .prompt
  dangerousRequiresTrust : Bool := true
  remoteFilesystemRefs : ConsentMode := .prompt
deriving DecidableEq, Repr

structure EvalContext where
  trust : TrustStatus
  manifestExpired : Bool
  manifestPremature : Bool
  remoteOrigin : Bool
deriving DecidableEq, Repr

inductive Decision where
  | allow
  | prompt (reasons : List String)
  | deny (reason : String)
deriving DecidableEq, Repr

def Policy.mode (p : Policy) : Tier → ConsentMode
  | .safe => p.safe
  | .sensitive => p.sensitive
  | .dangerous => p.dangerous

def untrustedReason (trust : TrustStatus) : String :=
  s!"DANGEROUS resource from an untrusted manifest ({trust.toString}); pin the signing key with `murl trust add` or install the manifest locally"

def Policy.reasons (p : Policy) (kind : Kind) (tier : Tier) (ctx : EvalContext) : List String :=
  (if p.mode tier = .prompt then [s!"{tier.toString} resource"] else []) ++
  (if ctx.manifestExpired then ["manifest is expired"] else []) ++
  (if ctx.manifestPremature then ["manifest is not yet valid (notBefore)"] else []) ++
  (if ctx.remoteOrigin && kind.isFilesystem && p.remoteFilesystemRefs = .prompt then
    ["remote manifest references the local filesystem"] else []) ++
  (if tier = .dangerous && !ctx.trust.isTrusted then
    ["dangerous resource from an untrusted manifest"] else [])

def Policy.evaluate (p : Policy) (kind : Kind) (tier : Tier) (ctx : EvalContext) : Decision :=
  if tier = .dangerous && p.dangerousRequiresTrust && !ctx.trust.isTrusted then
    .deny (untrustedReason ctx.trust)
  else if ctx.manifestExpired && tier != .safe then .deny "manifest is expired"
  else if ctx.manifestPremature && tier != .safe then
    .deny "manifest is not yet valid (notBefore)"
  else if p.mode tier = .deny then .deny s!"{tier.toString} resources are disabled by policy"
  else if ctx.remoteOrigin && kind.isFilesystem && p.remoteFilesystemRefs = .deny then
    .deny "remote manifests may not reference the local filesystem (policy)"
  else if (p.reasons kind tier ctx).isEmpty then .allow
  else .prompt (p.reasons kind tier ctx)

theorem Policy.evaluate_untrusted (p : Policy) (kind : Kind) (ctx : EvalContext)
    (hp : p.dangerousRequiresTrust = true) (ht : ctx.trust.isTrusted = false) :
    p.evaluate kind .dangerous ctx = .deny (untrustedReason ctx.trust) := by
  simp [Policy.evaluate,hp,ht]

end MurlSystem
