import Mathlib.Order.Basic
import MurlSystem.Core.Cache
import MurlSystem.Core.Fetch
import MurlSystem.Core.Manifest
import MurlSystem.Core.Policy
import MurlSystem.Foundation.Program

namespace MurlSystem

open Program

inductive Origin where
  | localStore (path : String)
  | localFile (path : String)
  | remote (url : String) (fromCache : Bool)
deriving DecidableEq, Repr

def Origin.isRemote : Origin → Bool
  | .remote _ _ => true
  | .localStore _ | .localFile _ => false

def Origin.describe : Origin → String
  | .localStore p => s!"local store ({p})"
  | .localFile p => s!"file ({p})"
  | .remote url true => s!"cache ({url})"
  | .remote url false => s!"remote ({url})"

structure ResolvedNode where
  identity : Option String
  origin : Origin
  manifest : Manifest
  rawBytes : Bytes
  trust : TrustStatus
  depth : Nat
  expired : Bool
  premature : Bool

structure PlannedResource where
  resource : ResourceDoc
  kind : Kind
  tier : Tier
  node : Nat
  rootAnchor : String
  decision : Option Decision

def PlannedResource.displayLabel (pr : PlannedResource) : String :=
  pr.resource.label.getD pr.resource.id

structure Resolution where
  nodes : List ResolvedNode
  resources : List PlannedResource
  warnings : List String
  selector : Option String

def ResolvedNode.evalContext (node : ResolvedNode) : EvalContext :=
  ⟨node.trust,node.expired,node.premature,node.origin.isRemote⟩

def PlannedResource.decide (policy : Policy) (nodes : List ResolvedNode) (pr : PlannedResource) :
    PlannedResource :=
  match nodes[pr.node]? with
  | some node => { pr with decision := some (policy.evaluate pr.kind pr.tier node.evalContext) }
  | none => pr

def Resolution.applyPolicy (res : Resolution) (policy : Policy) : Resolution :=
  { res with resources := res.resources.map (PlannedResource.decide policy res.nodes) }

inductive Locality where
  | thisDevice
  | loopback
  | network
deriving DecidableEq, Repr

namespace Locality

def rank : Locality → Nat
  | .thisDevice => 0
  | .loopback => 1
  | .network => 2

theorem rank_injective : Function.Injective rank := by
  intro a b h
  cases a <;> cases b <;> simp_all [rank]

instance : LinearOrder Locality := LinearOrder.lift' rank rank_injective

theorem le_network (l : Locality) : l ≤ .network := by
  change l.rank ≤ 2
  cases l <;> decide

def of (authority : Authority) : Locality :=
  if authority.isLocal then .thisDevice
  else if authority.isLoopback then .loopback
  else .network

def ofSource (origin : Origin) (murl : Option Murl) : Locality :=
  match origin,murl with
  | .localStore _,_ | .localFile _,_ => .thisDevice
  | .remote _ _,some m => Locality.of m.authority
  | .remote _ _,none => .network

def describe : Locality → String
  | .thisDevice => "this machine"
  | .loopback => "a loopback server"
  | .network => "the network"

end Locality

structure State where
  nodes : List ResolvedNode := []
  resources : List PlannedResource := []
  warnings : List String := []
  stack : List String := []
  visited : List String := []
  dedup : List (String × String) := []
  manifests : Nat := 0

-- The rest of a run is bookkeeping the source does not keep: what was accessed for whom,
-- which manifest nested which, and what became of every resource of a plan.
inductive Act where
  | load
  | cacheGet
  | fetch (url : String) (answer : Except Error Bytes)

def Murl.unselected (m : Murl) : Murl := { m with selector := none }

structure Access where
  parent : Option Nat
  murl : Murl
  act : Act

structure Call where
  parent : Option Nat
  murl : Option Murl

inductive Fate where
  | planned
  | duplicate
  | diamond (child : Murl)
  | spliced (child : Murl)
deriving DecidableEq, Repr

structure Turn where
  node : Nat
  index : Nat
  resource : ResourceDoc
  anchor : String
  fate : Fate

structure Run where
  st : State
  cache : Cache
  log : List Access
  calls : List Call
  turns : List Turn
  ticks : Nat

def Run.start (cache : Cache) : Run := ⟨{},cache,[],[],[],0⟩

def Act.url? : Act → Option String
  | .fetch url _ => some url
  | _ => none

def Run.fetched (r : Run) : List String := r.log.filterMap fun a => a.act.url?

structure Env where
  crates : Crates
  localStore : LocalStore
  remote : Option (List String → String → Except Error Bytes)
  cache : Option (Nat → Option PutFault)
  trustStore : TrustStore
  limits : Limits
  clock : Nat → Nat
  files : String → Except String Bytes

abbrev ResolveM := EStateM Error Run

def Run.warn (r : Run) (w : String) : Run :=
  { r with st := { r.st with warnings := r.st.warnings ++ [w] } }

def Run.access (r : Run) (a : Access) : Run := { r with log := r.log ++ [a] }

def Run.turn (r : Run) (t : Turn) : Run := { r with turns := r.turns ++ [t] }

def Run.pushStack (r : Run) (identity : String) : Run :=
  { r with st := { r.st with stack := r.st.stack ++ [identity] } }

def Run.popStack (r : Run) : Run := { r with st := { r.st with stack := r.st.stack.dropLast } }

def Run.visit (r : Run) (identity : String) : Run :=
  { r with st := { r.st with visited := identity :: r.st.visited } }

def Run.count (r : Run) : Run := { r with st := { r.st with manifests := r.st.manifests + 1 } }

def Run.pushNode (r : Run) (node : ResolvedNode) (call : Call) : Run :=
  { r with st := { r.st with nodes := r.st.nodes ++ [node] }, calls := r.calls ++ [call] }

def Run.plan (r : Run) (key : String × String) (pr : PlannedResource) : Run :=
  { r with st := { r.st with
      dedup := key :: r.st.dedup
      resources := r.st.resources ++ [pr] } }

def Run.tick (r : Run) : Run := { r with ticks := r.ticks + 1 }

def warn (w : String) : ResolveM Unit := modify fun r => r.warn w

def warnWhen (c : Bool) (w : String) : ResolveM Unit := if c then warn w else pure ()

def nowEpoch (env : Env) : ResolveM Nat := do
  let r ← get
  modify Run.tick
  return env.clock r.ticks

section Locate

variable (env : Env) (parent : Option Nat) (murl : Murl)

def ttlOf (limits : Limits) : VersionTag → Nat
  | .latest => limits.cacheTtlSecs
  | .pinned _ => u64Max

def loadLocal : ResolveM (Bytes × Origin) := do
  modify fun r => r.access ⟨parent,murl.unselected,.load⟩
  let (bytes,path) ← fromExcept (env.localStore.load murl)
  return (bytes,.localStore path)

def cacheGet (now : Nat) : ResolveM (Option CacheEntry) :=
  match env.cache with
  | none => pure none
  | some _ => do
    let r ← get
    let got := r.cache.get env.crates murl.identity (ttlOf env.limits murl.version) now
    modify fun r => { r.access ⟨parent,murl.unselected,.cacheGet⟩ with cache := got.2 }
    return got.1

def cachePut (url : String) (bytes : Bytes) (now : Nat) : ResolveM Unit :=
  match env.cache with
  | none => pure ()
  | some fault => do
    let r ← get
    let put := r.cache.put env.crates (fault r.fetched.length) murl.identity url bytes now
    modify fun r => { r with cache := put.2 }
    match put.1 with
    | .ok _ => pure ()
    | .error e => warn s!"cache error (ignored): {e.toString}"

def fetchUrl (fetcher : List String → String → Except Error Bytes) (url : String) :
    ResolveM (Except Error Bytes) := do
  let r ← get
  let answer := fetcher r.fetched url
  modify fun r => r.access ⟨parent,murl.unselected,.fetch url answer⟩
  return answer

def serveStale (entry : CacheEntry) (why : String) : ResolveM (Bytes × Origin) := do
  warn s!"{murl.identity}: {why} from {entry.info.url}"
  return (entry.bytes,.remote entry.info.url true)

def acceptFetched (url : String) (bytes : Bytes) (now : Nat) : ResolveM (Bytes × Origin) :=
  if env.limits.maxManifestBytes < bytes.length then
    throw (.limitExceeded s!"manifest at {url} exceeds {env.limits.maxManifestBytes} bytes")
  else do
    cachePut env murl url bytes now
    return (bytes,.remote url false)

def locateRemote (now : Nat) (cached : Option CacheEntry) : ResolveM (Bytes × Origin) :=
  let url := (wellKnownUrl murl).getD ""
  match env.remote,cached with
  | some fetcher,_ => do
    let answer ← fetchUrl parent murl fetcher url
    match answer,cached with
    | .ok bytes,_ => acceptFetched env murl url bytes now
    | .error e,some entry =>
      serveStale murl entry s!"fetch failed ({e.toString}); using stale cache"
    | .error e,none => throw e
  | none,some entry => serveStale murl entry "offline; using cached manifest"
  | none,none =>
    throw (.resolution s!"`{murl.identity}` requires network resolution, but the resolver is offline and the manifest is not cached")

def locate : ResolveM (Bytes × Origin) :=
  if murl.authority.isLocal then loadLocal env parent murl
  else do
    let now ← nowEpoch env
    let cached ← cacheGet env parent murl now
    match cached with
    | some entry =>
      if entry.fresh then return (entry.bytes,.remote entry.info.url true)
      else locateRemote env parent murl now cached
    | none => locateRemote env parent murl now cached

end Locate

section Examine

variable (env : Env) (murl : Option Murl)

def labelOf (origin : Origin) : String :=
  match murl with
  | some m => m.identity
  | none => origin.describe

def trustOf (origin : Origin) (verified : Option VerifiedSignature) : TrustStatus :=
  match origin,verified with
  | .localStore _,_ | .localFile _,_ => .local
  | .remote _ _,none => .unsignedRemote
  | .remote _ _,some v =>
    let authority := match murl with
      | some m => m.authority.toString
      | none => ""
    if env.trustStore.isTrusted authority v.keyId then .signedTrusted v.keyId
    else .signedUnknownKey v.keyId

def versionConflicts : VersionTag → VersionTag → Bool
  | .pinned a,.pinned b => a != b
  | _,_ => false

def bindIdentity (origin : Origin) (doc : ManifestDoc) : Except Error Unit :=
  match murl,doc.id with
  | some requested,some declared =>
    match Murl.parse declared with
    | .error e =>
      .error (.validation s!"{requested.identity}: manifest id is invalid: {e.toString}")
    | .ok declared =>
      let nameMatches := declared.authority == requested.authority &&
        declared.name == requested.name
      if !nameMatches || versionConflicts declared.version requested.version then
        .error (.resolution s!"manifest at {origin.describe} declares id `{declared.identity}` but was resolved as `{requested.identity}` — refusing a re-labeled manifest")
      else .ok ()
  | _,_ => .ok ()

def epochOf (stamp : String) : Nat := (parseRfc3339Utc stamp).toOption.getD 0

def isExpired (doc : ManifestDoc) (now : Nat) : Bool :=
  match doc.expires with
  | some stamp => decide (epochOf stamp ≤ now)
  | none => false

def isPremature (doc : ManifestDoc) (now : Nat) : Bool :=
  match doc.notBefore with
  | some stamp => decide (now < epochOf stamp)
  | none => false

def examine (bytes : Bytes) (origin : Origin) (depth : Nat) : ResolveM ResolvedNode := do
  let label := labelOf murl origin
  let manifest ← fromExcept (Manifest.fromSlice env.crates bytes env.limits)
  let report := manifest.validate env.crates
  forM report.warnings fun w => warn s!"{label}: {w.path} — {w.message}"
  fromExcept report.intoResult
  let verified ← fromExcept (verifyManifest env.crates manifest.raw)
  warnWhen (verified.isSome && manifest.doc.id.isNone)
    s!"{label}: signed manifest carries no `id`; without it a valid signature can be replayed under a different name"
  fromExcept (bindIdentity murl origin manifest.doc)
  let now ← nowEpoch env
  let expired := isExpired manifest.doc now
  let stamp := manifest.doc.expires.getD ""
  warnWhen expired s!"{label}: manifest expired at {stamp}"
  let premature := isPremature manifest.doc now
  let stamp := manifest.doc.notBefore.getD ""
  warnWhen premature s!"{label}: manifest is not valid before {stamp}"
  return ⟨murl.map Murl.identity,origin,manifest,bytes,trustOf env murl origin verified,depth,
    expired,premature⟩

end Examine

structure Site where
  murl : Option Murl
  label : String
  source : Locality
  depth : Nat
  anchor : Option String
  node : Nat

section Splice

variable (env : Env) (site : Site)

def Site.anchorOf (r : ResourceDoc) : String := site.anchor.getD r.id

def dedupKey (kind : Kind) (r : ResourceDoc) : String × String := (kind.toString,r.target)

def planResource (index : Nat) (r : ResourceDoc) (kind : Kind) : ResolveM Unit := do
  let run ← get
  if env.limits.maxTotalResources < run.st.resources.length + 1 then
    throw (.limitExceeded s!"resolution exceeds {env.limits.maxTotalResources} total resources")
  else if run.st.dedup.contains (dedupKey kind r) then do
    warn s!"{site.label}: duplicate resource ({kind.toString} {r.target}) skipped"
    modify fun run => run.turn ⟨site.node,index,r,site.anchorOf r,.duplicate⟩
  else do
    modify fun run => run.plan (dedupKey kind r)
      ⟨r,kind,classify kind r.target,site.node,site.anchorOf r,none⟩
    modify fun run => run.turn ⟨site.node,index,r,site.anchorOf r,.planned⟩

def crossingWarning (child : Murl) : ResolveM Unit :=
  match site.murl with
  | some parent =>
    warnWhen (parent.authority != child.authority)
      s!"{site.label}: nested mURL `{child.identity}` crosses into authority `{child.authority.toString}`"
  | none => pure ()

def spliceChild (recur : Murl → Option String → Option String → Nat → ResolveM Unit)
    (index : Nat) (r : ResourceDoc) (child : Murl) : ResolveM Unit := do
  let run ← get
  if run.st.stack.contains child.identity then
    let path := " -> ".intercalate run.st.stack
    throw (.cycle s!"{path} -> {child.identity}")
  else if run.st.visited.contains child.identity then do
    warn s!"{site.label}: nested mURL `{child.identity}` already resolved elsewhere; skipping duplicate"
    modify fun run => run.turn ⟨site.node,index,r,site.anchorOf r,.diamond child⟩
  else do
    crossingWarning site child
    modify fun run => run.pushStack child.identity
    modify fun run => run.turn ⟨site.node,index,r,site.anchorOf r,.spliced child⟩
    recur child (some (site.anchorOf r)) r.integrity site.node
    modify Run.popStack
    modify fun run => run.visit child.identity

def spliceNested (recur : site.depth + 1 ≤ env.limits.maxDepth →
      Murl → Option String → Option String → Nat → ResolveM Unit)
    (index : Nat) (r : ResourceDoc) : ResolveM Unit := do
  let child ← fromExcept ((Murl.parse r.target).mapError
    fun e => .validation s!"nested mURL: {e.toString}")
  if Locality.of child.authority < site.source then
    throw (.resolution s!"{site.label} comes from {site.source.describe} and nests `{child.identity}`, which is on this machine; a manifest may nest only names at least as far away as itself")
  else do
    warnWhen child.selector.isSome
      s!"{site.label}: selector on nested mURL `{r.target}` is ignored"
    if h : site.depth + 1 ≤ env.limits.maxDepth then spliceChild site (recur h) index r child
    else
      throw (.limitExceeded
        s!"nesting depth exceeds {env.limits.maxDepth} at `{child.identity}`")

def spliceResource (recur : site.depth + 1 ≤ env.limits.maxDepth →
      Murl → Option String → Option String → Nat → ResolveM Unit)
    (resources : List ResourceDoc) (index : Nat) : ResolveM Unit :=
  match resources[index]? with
  | none => pure ()
  | some r => do
    let kind ← fromExcept ((Kind.parse r.kind).mapError Error.validation)
    if kind = .murl then spliceNested env site recur index r
    else planResource env site index r kind

end Splice

def ingestBytes (env : Env) (depth : Nat)
    (recur : depth + 1 ≤ env.limits.maxDepth →
      Murl → Option String → Option String → Nat → ResolveM Unit)
    (murl : Option Murl) (bytes : Bytes) (origin : Origin) (anchor : Option String)
    (parent : Option Nat) : ResolveM Unit := do
  let node ← examine env murl bytes origin depth
  let run ← get
  modify fun run => run.pushNode node ⟨parent,murl.map Murl.unselected⟩
  let order ← fromExcept ((executionOrder node.manifest.doc.resources).mapError Error.validation)
  forM order (spliceResource env
    ⟨murl,labelOf murl origin,Locality.ofSource origin murl,depth,anchor,run.st.nodes.length⟩
    recur node.manifest.doc.resources)

def countManifest (env : Env) : ResolveM Unit := do
  modify Run.count
  let run ← get
  if env.limits.maxNestedManifests < run.st.manifests then
    throw (.limitExceeded
      s!"resolution touches more than {env.limits.maxNestedManifests} manifests")

def checkPin (env : Env) (bytes : Bytes) (integrity : Option String) : Except Error Unit :=
  match integrity with
  | some pin => checkIntegrity env.crates bytes pin
  | none => .ok ()

def ingestNamed (env : Env) (murl : Murl) (depth : Nat) (anchor integrity : Option String)
    (parent : Option Nat) : ResolveM Unit := do
  countManifest env
  let (bytes,origin) ← locate env parent murl
  fromExcept (checkPin env bytes integrity)
  ingestBytes env depth
    (fun h child anchor integrity node =>
      ingestNamed env child (depth + 1) anchor integrity (some node))
    (some murl) bytes origin anchor parent
termination_by env.limits.maxDepth - depth
decreasing_by omega

section Finish

def SelectorItem.claims (item : SelectorItem) (pr : PlannedResource) : Bool :=
  match item with
  | .id anchor => pr.rootAnchor == anchor
  | .role name => pr.resource.role == some name
  | .tag name => pr.resource.tags.contains name

def SelectorItem.matchesIn (item : SelectorItem) (st : State) : Bool :=
  match item with
  | .id anchor =>
    match st.nodes.head? with
    | some root => root.manifest.doc.resources.any fun r => r.id == anchor
    | none => false
  | .role _ | .tag _ => st.resources.any item.claims

def checkSelector (st : State) (item : SelectorItem) : Except Error Unit :=
  if item.matchesIn st then .ok ()
  else .error (.notFound
    s!"selector item `{item.toString}` matches nothing in the resolved destination")

def finish (st : State) (selector : Option (List SelectorItem)) : Except Error Resolution :=
  match selector with
  | none => .ok ⟨st.nodes,st.resources,st.warnings,none⟩
  | some items => do
    forM items (checkSelector st)
    return ⟨st.nodes,st.resources.filter fun pr => items.any fun item => item.claims pr,
      st.warnings,some (",".intercalate (items.map SelectorItem.toString))⟩

end Finish

def resolve (env : Env) (murl : Murl) : ResolveM Resolution := do
  modify fun run => run.pushStack murl.identity
  ingestNamed env murl 0 none none none
  modify Run.popStack
  let run ← get
  fromExcept (finish run.st murl.selector)

def resolveFile (env : Env) (path : String) : ResolveM Resolution := do
  let bytes ← fromExcept ((env.files path).mapError
    fun e => .notFound s!"cannot read manifest {path}: {e}")
  ingestBytes env 0
    (fun _ child anchor integrity node => ingestNamed env child 1 anchor integrity (some node))
    none bytes (.localFile path) none none
  let run ← get
  fromExcept (finish run.st none)

inductive TargetRef where
  | murl (m : Murl)
  | file (path : String)
deriving DecidableEq, Repr

def resolveRef (env : Env) : TargetRef → ResolveM Resolution
  | .murl m => resolve env m
  | .file path => resolveFile env path

end MurlSystem
