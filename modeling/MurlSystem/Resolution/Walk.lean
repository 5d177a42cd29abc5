import MurlSystem.Core.Resolver
import MurlSystem.Foundation.Transition

namespace MurlSystem

open Program

structure Request where
  murl : Option Murl
  depth : Nat
  anchor : Option String
  integrity : Option String
  parent : Option Nat

inductive Frame where
  | seek (req : Request)
  | found (req : Request) (bytes : Bytes) (origin : Origin)
  | walk (site : Site) (resources : List ResourceDoc) (todo : List Nat)

structure Config where
  run : Run
  frames : List Frame

def Run.note (r : Run) (ws : List String) (ticks : Nat) : Run :=
  { r with st := { r.st with warnings := r.st.warnings ++ ws }, ticks := r.ticks + ticks }

def Request.site (req : Request) (origin : Origin) (node : Nat) : Site :=
  ⟨req.murl,labelOf req.murl origin,Locality.ofSource origin req.murl,req.depth,req.anchor,node⟩

def Site.request (site : Site) (r : ResourceDoc) (child : Murl) : Request :=
  ⟨some child,site.depth + 1,some (site.anchorOf r),r.integrity,some site.node⟩

structure Admitted (env : Env) (req : Request) (bytes : Bytes) (origin : Origin)
    (node : ResolvedNode) : Prop where
  identity : node.identity = req.murl.map Murl.identity
  source : node.origin = origin
  rawBytes : node.rawBytes = bytes
  depth : node.depth = req.depth
  parsed : Manifest.fromSlice env.crates bytes env.limits = .ok node.manifest
  valid : (node.manifest.validate env.crates).errors = []
  bound : bindIdentity req.murl origin node.manifest.doc = .ok ()
  trust : ∃ verified, verifyManifest env.crates node.manifest.raw = .ok verified ∧
    node.trust = trustOf env req.murl origin verified

structure Nests (env : Env) (site : Site) (r : ResourceDoc) (child : Murl) : Prop where
  kind : Kind.parse r.kind = .ok .murl
  parsed : Murl.parse r.target = .ok child
  farther : site.source ≤ Locality.of child.authority
  shallow : site.depth + 1 ≤ env.limits.maxDepth

inductive Step (env : Env) : Config → Config → Prop
  | note (r : Run) (fs : List Frame) (ws : List String) (ticks : Nat) :
      Step env ⟨r,fs⟩ ⟨r.note ws ticks,fs⟩
  | overBudget (r : Run) (fs : List Frame)
      (full : env.limits.maxNestedManifests < r.st.manifests + 1) :
      Step env ⟨r,fs⟩ ⟨r.count,fs⟩
  | locate (r r' : Run) (fs : List Frame) (req : Request) (m : Murl) (bytes : Bytes)
      (origin : Origin) (named : req.murl = some m)
      (room : r.st.manifests + 1 ≤ env.limits.maxNestedManifests)
      (got : locate env req.parent m r.count = .ok (bytes,origin) r') :
      Step env ⟨r,.seek req :: fs⟩ ⟨r',.found req bytes origin :: fs⟩
  | lost (r r' : Run) (fs : List Frame) (req : Request) (m : Murl) (e : Error)
      (named : req.murl = some m)
      (room : r.st.manifests + 1 ≤ env.limits.maxNestedManifests)
      (got : locate env req.parent m r.count = .error e r') :
      Step env ⟨r,.seek req :: fs⟩ ⟨r',.seek req :: fs⟩
  | enter (r : Run) (fs : List Frame) (req : Request) (bytes : Bytes) (origin : Origin)
      (node : ResolvedNode) (order : List Nat)
      (pin : checkPin env bytes req.integrity = .ok ())
      (admitted : Admitted env req bytes origin node)
      (ordered : executionOrder node.manifest.doc.resources = .ok order) :
      Step env ⟨r,.found req bytes origin :: fs⟩
        ⟨r.pushNode node ⟨req.parent,req.murl.map Murl.unselected⟩,
          .walk (req.site origin r.st.nodes.length) node.manifest.doc.resources order :: fs⟩
  | plan (r : Run) (fs : List Frame) (site : Site) (resources : List ResourceDoc) (i : Nat)
      (todo : List Nat) (doc : ResourceDoc) (kind : Kind) (at_ : resources[i]? = some doc)
      (parsed : Kind.parse doc.kind = .ok kind) (leaf : kind ≠ .murl)
      (room : r.st.resources.length + 1 ≤ env.limits.maxTotalResources)
      (fresh : dedupKey kind doc ∉ r.st.dedup) :
      Step env ⟨r,.walk site resources (i :: todo) :: fs⟩
        ⟨(r.plan (dedupKey kind doc)
            ⟨doc,kind,classify kind doc.target,site.node,site.anchorOf doc,none⟩).turn
            ⟨site.node,i,doc,site.anchorOf doc,.planned⟩,
          .walk site resources todo :: fs⟩
  | duplicate (r : Run) (fs : List Frame) (site : Site) (resources : List ResourceDoc) (i : Nat)
      (todo : List Nat) (doc : ResourceDoc) (kind : Kind) (at_ : resources[i]? = some doc)
      (parsed : Kind.parse doc.kind = .ok kind) (leaf : kind ≠ .murl)
      (seen : dedupKey kind doc ∈ r.st.dedup) :
      Step env ⟨r,.walk site resources (i :: todo) :: fs⟩
        ⟨r.turn ⟨site.node,i,doc,site.anchorOf doc,.duplicate⟩,.walk site resources todo :: fs⟩
  | diamond (r : Run) (fs : List Frame) (site : Site) (resources : List ResourceDoc) (i : Nat)
      (todo : List Nat) (doc : ResourceDoc) (child : Murl) (at_ : resources[i]? = some doc)
      (nests : Nests env site doc child) (offStack : child.identity ∉ r.st.stack)
      (seen : child.identity ∈ r.st.visited) :
      Step env ⟨r,.walk site resources (i :: todo) :: fs⟩
        ⟨r.turn ⟨site.node,i,doc,site.anchorOf doc,.diamond child⟩,
          .walk site resources todo :: fs⟩
  | splice (r : Run) (fs : List Frame) (site : Site) (resources : List ResourceDoc) (i : Nat)
      (todo : List Nat) (doc : ResourceDoc) (child : Murl) (at_ : resources[i]? = some doc)
      (nests : Nests env site doc child) (offStack : child.identity ∉ r.st.stack)
      (unseen : child.identity ∉ r.st.visited) :
      Step env ⟨r,.walk site resources (i :: todo) :: fs⟩
        ⟨(r.pushStack child.identity).turn ⟨site.node,i,doc,site.anchorOf doc,.spliced child⟩,
          .seek (site.request doc child) :: .walk site resources todo :: fs⟩
  | close (r : Run) (fs : List Frame) (site outer : Site) (resources rs : List ResourceDoc)
      (todo : List Nat) (child : Murl) (named : site.murl = some child) :
      Step env ⟨r,.walk site resources [] :: .walk outer rs todo :: fs⟩
        ⟨r.popStack.visit child.identity,.walk outer rs todo :: fs⟩

def Request.root (m : Murl) : Request := ⟨some m,0,none,none,none⟩

def Request.file : Request := ⟨none,0,none,none,none⟩

inductive Start (env : Env) (cache : Cache) : TargetRef → Config → Prop
  | named (m : Murl) :
      Start env cache (.murl m)
        ⟨(Run.start cache).pushStack m.identity,[.seek (Request.root m)]⟩
  | file (path : String) (bytes : Bytes) (h : env.files path = .ok bytes) :
      Start env cache (.file path)
        ⟨Run.start cache,[.found Request.file bytes (.localFile path)]⟩

def walkSystem (env : Env) (cache : Cache) (ref : TargetRef) : Transition.System Config :=
  ⟨Start env cache ref,Step env⟩

end MurlSystem
