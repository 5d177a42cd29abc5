import MurlSystem.Core.Dispatch

namespace MurlSystem

def Value.optional {α : Type} (f : α → Value) : Option α → Value
  | some a => f a
  | none => .null

def Value.strings (texts : List String) : Value := .array (texts.map .string)

section Serialize

def TrustStatus.toValue : TrustStatus → Value
  | .local => .object [("status",.string "local")]
  | .unsignedRemote => .object [("status",.string "unsignedRemote")]
  | .signedUnknownKey keyId =>
    .object [("key_id",.string keyId),("status",.string "signedUnknownKey")]
  | .signedTrusted keyId =>
    .object [("key_id",.string keyId),("status",.string "signedTrusted")]

def Tier.toValue (tier : Tier) : Value := .string tier.toString

def Decision.toValue : Decision → Value
  | .allow => .object [("decision",.string "allow")]
  | .prompt reasons =>
    .object [("decision",.string "prompt"),("reasons",Value.strings reasons)]
  | .deny reason => .object [("decision",.string "deny"),("reasons",.string reason)]

def OutcomeStatus.toString : OutcomeStatus → String
  | .opened => "OPENED"
  | .skipped => "SKIPPED"
  | .denied => "DENIED"
  | .failed => "FAILED"
  | .unavailable => "UNAVAILABLE"

def AggregateStatus.toString : AggregateStatus → String
  | .success => "SUCCESS"
  | .partialSuccess => "PARTIAL_SUCCESS"
  | .failed => "FAILED"
  | .denied => "DENIED"

end Serialize

section ToJson

def ResolvedNode.toJson (n : ResolvedNode) : Value :=
  .object [
    ("depth",.number (.int n.depth)),
    ("expired",.bool n.expired),
    ("identity",Value.optional .string n.identity),
    ("name",.string n.manifest.doc.name),
    ("notYetValid",.bool n.premature),
    ("origin",.string n.origin.describe),
    ("remote",.bool n.origin.isRemote),
    ("trust",n.trust.toValue)]

def PlannedResource.toJson (pr : PlannedResource) : Value :=
  .object [
    ("decision",Value.optional Decision.toValue pr.decision),
    ("id",.string pr.resource.id),
    ("kind",.string pr.kind.toString),
    ("label",.string pr.displayLabel),
    ("node",.number (.int pr.node)),
    ("required",.bool pr.resource.required),
    ("role",Value.optional .string pr.resource.role),
    ("rootAnchor",.string pr.rootAnchor),
    ("target",.string pr.resource.target),
    ("tier",pr.tier.toValue)]

def Resolution.toJson (res : Resolution) : Value :=
  .object [
    ("nodes",.array (res.nodes.map ResolvedNode.toJson)),
    ("resources",.array (res.resources.map PlannedResource.toJson)),
    ("selector",Value.optional .string res.selector),
    ("warnings",Value.strings res.warnings)]

-- `detail` is skipped where it is none.
def ResourceOutcome.toJson (outcome : ResourceOutcome) : Value :=
  .object ((outcome.detail.toList.map fun detail => ("detail",.string detail)) ++ [
    ("id",.string outcome.id),
    ("kind",.string outcome.kind),
    ("label",.string outcome.label),
    ("status",.string outcome.status.toString),
    ("tier",outcome.tier.toValue)])

def ExecutionReport.toJson (report : ExecutionReport) : Value :=
  .object [
    ("aggregate",.string report.aggregate.toString),
    ("outcomes",.array (report.outcomes.map ResourceOutcome.toJson))]

end ToJson

end MurlSystem
