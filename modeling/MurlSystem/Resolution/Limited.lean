import MurlSystem.Resolution.Excess
import MurlSystem.Resolution.Offline
import MurlSystem.Resolution.Records

namespace MurlSystem

open Program

structure Limits.Within (tight wide : Limits) : Prop where
  depth : tight.maxDepth ≤ wide.maxDepth
  resources : tight.maxTotalResources ≤ wide.maxTotalResources
  manifests : tight.maxNestedManifests ≤ wide.maxNestedManifests
  bytes : tight.maxManifestBytes ≤ wide.maxManifestBytes
  ttl : tight.cacheTtlSecs = wide.cacheTtlSecs

section Cut

variable {env : Env} {tight wide : Limits}

end Cut

end MurlSystem
