import MurlSystem.Core.Name

namespace MurlSystem

inductive Error where
  | parse (e : MurlParseError)
  | manifest (why : String)
  | validation (why : String)
  | resolution (why : String)
  | limitExceeded (why : String)
  | cycle (why : String)
  | trust (why : String)
  | denied (why : String)
  | notFound (why : String)
  | fetch (why : String)
  | dispatch (why : String)
  | io (why : String)
  | json (why : String)
deriving DecidableEq, Repr

def Error.toString : Error → String
  | .parse e => s!"parse error: {e.toString}"
  | .manifest w => s!"manifest error: {w}"
  | .validation w => s!"validation failed: {w}"
  | .resolution w => s!"resolution error: {w}"
  | .limitExceeded w => s!"limit exceeded: {w}"
  | .cycle w => s!"cycle detected: {w}"
  | .trust w => s!"trust error: {w}"
  | .denied w => s!"denied by policy: {w}"
  | .notFound w => s!"not found: {w}"
  | .fetch w => s!"fetch error: {w}"
  | .dispatch w => s!"dispatch error: {w}"
  | .io w => s!"i/o error: {w}"
  | .json w => s!"json error: {w}"

structure Limits where
  maxDepth : Nat := 3
  maxTotalResources : Nat := 64
  maxNestedManifests : Nat := 8
  maxManifestBytes : Nat := 256 * 1024
  fetchTimeoutSecs : Nat := 10
  cacheTtlSecs : Nat := 3600
  dispatchStaggerMs : Nat := 150
  maxRedirects : Nat := 0
deriving DecidableEq, Repr

end MurlSystem
