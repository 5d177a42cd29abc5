import Mathlib.Data.Finset.Card
import MurlSystem.Resolution.Distance

namespace MurlSystem

open Program

def Act.isLoad : Act → Bool
  | .load => true
  | _ => false

def Act.isGet : Act → Bool
  | .cacheGet => true
  | _ => false

def Act.isFetch : Act → Bool
  | .fetch _ _ => true
  | _ => false

def readsByName (log : List Access) : Nat :=
  log.countP fun a => a.act.isLoad || a.act.isFetch

def lookupsByName (log : List Access) : Nat :=
  log.countP fun a => a.act.isLoad || a.act.isGet

def namesTouched (log : List Access) : Nat := (log.map Access.murl).toFinset.card

structure WithinBudget (limits : Limits) (r : Run) : Prop where
  reads : readsByName r.log ≤ limits.maxNestedManifests
  lookups : lookupsByName r.log ≤ limits.maxNestedManifests
  names : namesTouched r.log ≤ limits.maxNestedManifests

def nodeIds (st : State) : List String := st.nodes.filterMap ResolvedNode.identity

def planKey (pr : PlannedResource) : String × String := (pr.kind.toString,pr.resource.target)

structure Bounded (limits : Limits) (res : Resolution) (r : Run) : Prop where
  depth : ∀ node ∈ res.nodes, node.depth ≤ limits.maxDepth
  total : res.resources.length ≤ limits.maxTotalResources
  identities : (res.nodes.filterMap ResolvedNode.identity).Nodup
  targets : (res.resources.map fun pr => (pr.kind,pr.resource.target)).Nodup
  calls : r.calls.length = res.nodes.length
  root : ∀ k call, r.calls[k]? = some call → (call.parent = none ↔ k = 0)
  nested : ∀ p k, r.nests p k → p < k
  acyclic : ∀ k, ¬Relation.TransGen r.nests k k

section Counting

variable {env : Env} {cache : Cache} {ref : TargetRef}

theorem count_reachable (f : List Access → Nat) (hnil : f [] = 0)
    (hadd : ∀ log parent m acts, Lookup m acts →
      f (log ++ acts.map (Access.mk parent m.unselected)) ≤ f log + 1)
    {c : Config} (h : (walkSystem env cache ref).Reachable c) :
    f c.run.log ≤ c.run.st.manifests ∧ f c.run.log ≤ env.limits.maxNestedManifests := by
  refine Transition.System.invariant (fun c : Config => f c.run.log ≤ c.run.st.manifests ∧
    f c.run.log ≤ env.limits.maxNestedManifests) ?_ ?_ h
  · intro c₀ h₀
    cases h₀ with
    | named m => simp [Run.pushStack,Run.start,hnil]
    | file path bytes hread => simp [Run.start,hnil]
  · intro c c' _ hI hs
    rcases Step.log_cases hs with ⟨hlog,-,hle⟩ | ⟨req,m,-,-,hroom,hloc⟩
    · rw [hlog]
      exact ⟨Nat.le_trans hI.1 hle,hI.2⟩
    · obtain ⟨acts,hlog,hacts,-⟩ := hloc.effect
      obtain ⟨ws,hst⟩ := hloc.st
      have hmore := hadd c.run.log req.parent m acts hacts
      have hcount : c'.run.st.manifests = c.run.st.manifests + 1 := by
        rw [hst]
        rfl
      have hlog : c'.run.log = c.run.log ++ acts.map (Access.mk req.parent m.unselected) := hlog
      rw [hlog,hcount]
      omega

theorem readsByName_add (log : List Access) (parent : Option Nat) (m : Murl) (acts : List Act)
    (h : Lookup m acts) :
    readsByName (log ++ acts.map (Access.mk parent m.unselected)) ≤ readsByName log + 1 := by
  unfold readsByName
  rw [List.countP_append]
  cases h <;> simp [Act.isLoad,Act.isFetch]

theorem lookupsByName_add (log : List Access) (parent : Option Nat) (m : Murl) (acts : List Act)
    (h : Lookup m acts) :
    lookupsByName (log ++ acts.map (Access.mk parent m.unselected)) ≤ lookupsByName log + 1 := by
  unfold lookupsByName
  rw [List.countP_append]
  cases h <;> simp [Act.isLoad,Act.isGet]

theorem namesTouched_add (log : List Access) (parent : Option Nat) (m : Murl) (acts : List Act)
    (_ : Lookup m acts) :
    namesTouched (log ++ acts.map (Access.mk parent m.unselected)) ≤ namesTouched log + 1 := by
  unfold namesTouched
  rw [List.map_append,List.toFinset_append]
  have hone : ((acts.map (Access.mk parent m.unselected)).map Access.murl).toFinset ⊆
      {m.unselected} := by
    intro x hx
    simp only [List.map_map,List.mem_toFinset,List.mem_map] at hx
    obtain ⟨act,-,rfl⟩ := hx
    exact Finset.mem_singleton.mpr rfl
  have hcard := Finset.card_le_card hone
  rw [Finset.card_singleton] at hcard
  exact Nat.le_trans (Finset.card_union_le _ _) (Nat.add_le_add_left hcard _)

theorem Reaches.withinBudget {r : Run} (h : Reaches env cache ref r) :
    WithinBudget env.limits r := by
  obtain ⟨fs,hr⟩ := h
  exact ⟨(count_reachable readsByName rfl readsByName_add hr).2,
    (count_reachable lookupsByName rfl lookupsByName_add hr).2,
    (count_reachable namesTouched rfl namesTouched_add hr).2⟩

end Counting

section Identities

variable {env : Env} {cache : Cache} {ref : TargetRef}

def Frame.murl : Frame → Option Murl
  | .seek req => req.murl
  | .found req _ _ => req.murl
  | .walk site _ _ => site.murl

def Frame.identity (f : Frame) : Option String := f.murl.map Murl.identity

structure Identified (c : Config) : Prop where
  stack : c.run.st.stack = (c.frames.filterMap Frame.identity).reverse
  known : ∀ id ∈ nodeIds c.run.st, id ∈ c.run.st.visited ∨
    ∃ f ∈ c.frames, f.isPending = false ∧ f.identity = some id
  fresh : ∀ f ∈ c.frames, f.isPending = true → ∀ id, f.identity = some id →
    id ∉ nodeIds c.run.st
  nodup : (nodeIds c.run.st).Nodup
  visited : ∀ id ∈ c.run.st.visited, id ∈ nodeIds c.run.st
  walked : ∀ f ∈ c.frames, f.isPending = false → ∀ id, f.identity = some id →
    id ∈ nodeIds c.run.st

theorem Identified.keep {c : Config} {r' : Run} (h : Identified c)
    (hn : r'.st.nodes = c.run.st.nodes) (hs : r'.st.stack = c.run.st.stack)
    (hv : r'.st.visited = c.run.st.visited) : Identified ⟨r',c.frames⟩ := by
  have hids : nodeIds r'.st = nodeIds c.run.st := by simp only [nodeIds,hn]
  refine ⟨?_,?_,?_,?_,?_,?_⟩
  · rw [hs]
    exact h.stack
  · rw [hids,hv]
    exact h.known
  · rw [hids]
    exact h.fresh
  · rw [hids]
    exact h.nodup
  · rw [hids,hv]
    exact h.visited
  · rw [hids]
    exact h.walked

theorem Identified.swap {r r' : Run} {f g : Frame} {fs : List Frame}
    (h : Identified ⟨r,f :: fs⟩) (hn : r'.st.nodes = r.st.nodes)
    (hs : r'.st.stack = r.st.stack) (hv : r'.st.visited = r.st.visited)
    (hid : g.identity = f.identity) (hp : g.isPending = f.isPending) :
    Identified ⟨r',g :: fs⟩ := by
  have hkeep := h.keep hn hs hv
  refine ⟨?_,?_,?_,hkeep.nodup,hkeep.visited,?_⟩
  · have hstack := hkeep.stack
    simp only [List.filterMap_cons,hid] at hstack ⊢
    exact hstack
  · intro id hmem
    rcases hkeep.known id hmem with hin | ⟨f',hf',hw,he⟩
    · exact .inl hin
    · rcases List.mem_cons.mp hf' with rfl | hf'
      · exact .inr ⟨g,by simp,by rw [hp,hw],by rw [hid,he]⟩
      · exact .inr ⟨f',by simp [hf'],hw,he⟩
  · intro f' hf' hw id he
    rcases List.mem_cons.mp hf' with rfl | hf'
    · exact hkeep.fresh f (by simp) (by rw [← hp,hw]) id (by rw [← hid,he])
    · exact hkeep.fresh f' (by simp [hf']) hw id he
  · intro f' hf' hw id he
    rcases List.mem_cons.mp hf' with rfl | hf'
    · exact hkeep.walked f (by simp) (by rw [← hp,hw]) id (by rw [← hid,he])
    · exact hkeep.walked f' (by simp [hf']) hw id he

theorem nodeIds_pushNode (r : Run) (node : ResolvedNode) (call : Call) :
    nodeIds (r.pushNode node call).st = nodeIds r.st ++ node.identity.toList := by
  unfold nodeIds Run.pushNode
  cases hid : node.identity with
  | none => simp [List.filterMap_append,hid]
  | some id => simp [List.filterMap_append,hid]

theorem Identified.enter {r : Run} {fs : List Frame} {req : Request} {bytes : Bytes}
    {origin : Origin} {node : ResolvedNode} {order : List Nat} {call : Call}
    (h : Identified ⟨r,.found req bytes origin :: fs⟩)
    (htop : ∀ f ∈ fs, f.isPending = false)
    (hnode : node.identity = req.murl.map Murl.identity) :
    Identified ⟨r.pushNode node call,
      .walk (req.site origin r.st.nodes.length) node.manifest.doc.resources order :: fs⟩ := by
  have hids := nodeIds_pushNode r node call
  refine ⟨h.stack,?_,?_,?_,?_,?_⟩
  · intro id hmem
    rw [hids] at hmem
    rcases List.mem_append.mp hmem with hmem | hmem
    · rcases h.known id hmem with hv | ⟨f,hf,hw,he⟩
      · exact .inl hv
      · rcases List.mem_cons.mp hf with rfl | hf
        · cases hw
        · exact .inr ⟨f,by simp [hf],hw,he⟩
    · refine .inr ⟨_,List.mem_cons_self,rfl,?_⟩
      have hsome : node.identity = some id := by simpa using hmem
      rw [← hsome,hnode]
      rfl
  · intro f hf hp id he
    rcases List.mem_cons.mp hf with rfl | hf
    · cases hp
    · rw [htop f hf] at hp
      cases hp
  · rw [hids,List.nodup_append]
    refine ⟨h.nodup,by cases node.identity <;> simp,?_⟩
    intro a ha b hb hab
    have hsome : node.identity = some b := by simpa using hb
    refine h.fresh (.found req bytes origin) (by simp) rfl b ?_ (hab ▸ ha)
    rw [← hsome,hnode]
    rfl
  · intro id hid
    rw [hids]
    exact List.mem_append_left _ (h.visited id hid)
  · intro f hf hw id he
    rw [hids]
    rcases List.mem_cons.mp hf with rfl | hf
    · refine List.mem_append_right _ ?_
      have hsame : node.identity = some id := by
        rw [hnode]
        exact he
      simp [hsame]
    · exact List.mem_append_left _ (h.walked f (by simp [hf]) hw id he)

theorem Identified.splice {r : Run} {fs : List Frame} {site : Site} {rs : List ResourceDoc}
    {i : Nat} {todo : List Nat} {doc : ResourceDoc} {child : Murl} {t : Turn}
    (h : Identified ⟨r,.walk site rs (i :: todo) :: fs⟩)
    (hoff : child.identity ∉ r.st.stack) (hunseen : child.identity ∉ r.st.visited)
    (htop : ∀ f ∈ fs, f.isPending = false) :
    Identified ⟨(r.pushStack child.identity).turn t,
      .seek (site.request doc child) :: .walk site rs todo :: fs⟩ := by
  have hnew : child.identity ∉ nodeIds r.st := by
    intro hmem
    rcases h.known _ hmem with hv | ⟨f,hf,-,he⟩
    · exact hunseen hv
    · rw [h.stack] at hoff
      exact hoff (List.mem_reverse.mpr (List.mem_filterMap.mpr ⟨f,hf,he⟩))
  have hswap : Identified ⟨r,.walk site rs todo :: fs⟩ := h.swap rfl rfl rfl rfl rfl
  refine ⟨?_,?_,?_,h.nodup,h.visited,?_⟩
  · have hstack := hswap.stack
    have hid : (Frame.seek (site.request doc child)).identity = some child.identity := rfl
    simp only [Run.turn,Run.pushStack] at hstack ⊢
    rw [hstack,List.filterMap_cons_some hid,List.reverse_cons]
  · intro id hmem
    rcases hswap.known id hmem with hv | ⟨f,hf,hw,he⟩
    · exact .inl hv
    · exact .inr ⟨f,List.mem_cons_of_mem _ hf,hw,he⟩
  · intro f hf hp id he
    rcases List.mem_cons.mp hf with rfl | hf
    · obtain rfl : child.identity = id := by
        simpa [Frame.identity,Frame.murl,Site.request] using he
      exact hnew
    · rcases List.mem_cons.mp hf with rfl | hf
      · cases hp
      · rw [htop f hf] at hp
        cases hp
  · intro f hf hw id he
    rcases List.mem_cons.mp hf with rfl | hf
    · cases hw
    · exact hswap.walked f hf hw id he

theorem Identified.close {r : Run} {fs : List Frame} {site outer : Site}
    {resources rs : List ResourceDoc} {todo : List Nat} {child : Murl}
    (h : Identified ⟨r,.walk site resources [] :: .walk outer rs todo :: fs⟩)
    (hnamed : site.murl = some child) :
    Identified ⟨r.popStack.visit child.identity,.walk outer rs todo :: fs⟩ := by
  have hid : (Frame.walk site resources []).identity = some child.identity := by
    simp [Frame.identity,Frame.murl,hnamed]
  refine ⟨?_,?_,?_,h.nodup,?_,?_⟩
  · have hstack := h.stack
    simp only [List.filterMap_cons_some hid,List.reverse_cons] at hstack
    simp only [Run.visit,Run.popStack,hstack,List.dropLast_concat]
  · intro id hmem
    rcases h.known id hmem with hv | ⟨f,hf,hw,he⟩
    · exact .inl (List.mem_cons_of_mem _ hv)
    · rcases List.mem_cons.mp hf with rfl | hf
      · obtain rfl : child.identity = id := by simpa [hid] using he
        exact .inl List.mem_cons_self
      · exact .inr ⟨f,hf,hw,he⟩
  · intro f hf
    exact h.fresh f (List.mem_cons_of_mem _ hf)
  · intro id hmem
    rcases List.mem_cons.mp hmem with rfl | hmem
    · exact h.walked _ List.mem_cons_self rfl _ hid
    · exact h.visited id hmem
  · intro f hf
    exact h.walked f (List.mem_cons_of_mem _ hf)

theorem Identified.step {c c' : Config} (h : Identified c) (hshape : Shape env ref c)
    (hs : Step env c c') : Identified c' := by
  cases hs with
  | note r fs ws ticks => exact h.keep rfl rfl rfl
  | overBudget r fs full => exact h.keep rfl rfl rfl
  | locate r r' fs req m bytes origin named room got =>
    obtain ⟨⟨ws,hst⟩,-,-,-⟩ := (locate_ok got).1
    exact h.swap (by rw [hst]; rfl) (by rw [hst]; rfl) (by rw [hst]; rfl) rfl rfl
  | lost r r' fs req m e named room got =>
    obtain ⟨⟨ws,hst⟩,-,-,-⟩ := locate_error got
    exact h.keep (by rw [hst]; rfl) (by rw [hst]; rfl) (by rw [hst]; rfl)
  | enter r fs req bytes origin node order pin admitted ordered =>
    exact h.enter hshape.pending admitted.identity
  | plan => exact h.swap rfl rfl rfl rfl rfl
  | duplicate => exact h.swap rfl rfl rfl rfl rfl
  | diamond => exact h.swap rfl rfl rfl rfl rfl
  | splice r fs site resources i todo doc child at_ nests offStack unseen =>
    exact h.splice offStack unseen hshape.pending
  | close r fs site outer resources rs todo child named => exact h.close named

theorem Identified.reachable {c : Config} (h : (walkSystem env cache ref).Reachable c) :
    Identified c := by
  refine Transition.System.invariant Identified ?_ ?_ h
  · intro c₀ h₀
    cases h₀ with
    | named m =>
      refine ⟨rfl,?_,?_,?_,?_,?_⟩ <;>
        simp [nodeIds,Run.pushStack,Run.start,Frame.isPending]
    | file path bytes hread =>
      refine ⟨rfl,?_,?_,?_,?_,?_⟩ <;> simp [nodeIds,Run.start,Frame.isPending]
  · intro c c' hc hI hs
    exact hI.step (Shape.reachable hc) hs

end Identities

section Plans

variable {env : Env} {cache : Cache} {ref : TargetRef}

structure PlannedOk (r : Run) (pr : PlannedResource) : Prop where
  node : ∃ node, r.st.nodes[pr.node]? = some node ∧
    pr.resource ∈ node.manifest.doc.resources
  kind : Kind.parse pr.resource.kind = .ok pr.kind
  leaf : pr.kind ≠ .murl
  tier : pr.tier = classify pr.kind pr.resource.target
  undecided : pr.decision = none

structure PlanOk (env : Env) (r : Run) : Prop where
  total : r.st.resources.length ≤ env.limits.maxTotalResources
  seen : ∀ pr ∈ r.st.resources, planKey pr ∈ r.st.dedup
  keys : (r.st.resources.map planKey).Nodup
  planned : ∀ pr ∈ r.st.resources, PlannedOk r pr

theorem PlannedOk.mono {r r' : Run} {pr : PlannedResource} (h : PlannedOk r pr)
    (hn : ∀ (k : Nat) (node : ResolvedNode), r.st.nodes[k]? = some node →
      r'.st.nodes[k]? = some node) :
    PlannedOk r' pr := by
  obtain ⟨node,hnode,hmem⟩ := h.node
  exact ⟨⟨node,hn _ _ hnode,hmem⟩,h.kind,h.leaf,h.tier,h.undecided⟩

theorem Step.nodes_mono {c c' : Config} (h : Step env c c') {k : Nat} {node : ResolvedNode}
    (hk : c.run.st.nodes[k]? = some node) : c'.run.st.nodes[k]? = some node := by
  rcases h.node_cases with ⟨hn,-⟩ | ⟨new,call,hrun,-⟩
  · rw [hn]
    exact hk
  · have hlt : k < c.run.st.nodes.length := (List.getElem?_eq_some_iff.mp hk).1
    rw [hrun]
    simpa [Run.pushNode,List.getElem?_append_left hlt] using hk

theorem Step.plan_cases {c c' : Config} (h : Step env c c') :
    (c'.run.st.resources = c.run.st.resources ∧ c'.run.st.dedup = c.run.st.dedup) ∨
    ∃ site rs i todo fs doc kind, c.frames = .walk site rs (i :: todo) :: fs ∧
      rs[i]? = some doc ∧ Kind.parse doc.kind = .ok kind ∧ kind ≠ .murl ∧
      c.run.st.resources.length + 1 ≤ env.limits.maxTotalResources ∧
      dedupKey kind doc ∉ c.run.st.dedup ∧
      c'.run.st.dedup = dedupKey kind doc :: c.run.st.dedup ∧
      c'.run.st.resources = c.run.st.resources ++
        [⟨doc,kind,classify kind doc.target,site.node,site.anchorOf doc,none⟩] := by
  cases h with
  | plan r fs site resources i todo doc kind at_ parsed leaf room fresh =>
    exact .inr ⟨site,resources,i,todo,fs,doc,kind,rfl,at_,parsed,leaf,room,fresh,rfl,rfl⟩
  | locate r r' fs req m bytes origin named room got =>
    obtain ⟨⟨ws,hst⟩,-,-,-⟩ := (locate_ok got).1
    exact .inl ⟨by rw [hst]; rfl,by rw [hst]; rfl⟩
  | lost r r' fs req m e named room got =>
    obtain ⟨⟨ws,hst⟩,-,-,-⟩ := locate_error got
    exact .inl ⟨by rw [hst]; rfl,by rw [hst]; rfl⟩
  | note => exact .inl ⟨rfl,rfl⟩
  | overBudget => exact .inl ⟨rfl,rfl⟩
  | enter => exact .inl ⟨rfl,rfl⟩
  | duplicate => exact .inl ⟨rfl,rfl⟩
  | diamond => exact .inl ⟨rfl,rfl⟩
  | splice => exact .inl ⟨rfl,rfl⟩
  | close => exact .inl ⟨rfl,rfl⟩

theorem PlanOk.step {c c' : Config} (h : PlanOk env c.run) (hshape : Shape env ref c)
    (hs : Step env c c') : PlanOk env c'.run := by
  have hmono : ∀ pr, PlannedOk c.run pr → PlannedOk c'.run pr :=
    fun pr hpr => hpr.mono fun _ _ hk => hs.nodes_mono hk
  rcases hs.plan_cases with ⟨hres,hded⟩ |
    ⟨site,rs,i,todo,fs,doc,kind,hframes,hat,hparsed,hleaf,hroom,hfresh,hded,hres⟩
  · refine ⟨by rw [hres]; exact h.total,?_,by rw [hres]; exact h.keys,?_⟩
    · rw [hres,hded]
      exact h.seen
    · intro pr hpr
      rw [hres] at hpr
      exact hmono pr (h.planned pr hpr)
  · have hsite : SiteOk env c.run site rs :=
      hshape.frames (.walk site rs (i :: todo)) (by simp [hframes])
    obtain ⟨node,hnode,hrs,-⟩ := hsite.node
    refine ⟨?_,?_,?_,?_⟩
    · rw [hres]
      simpa using hroom
    · intro pr hpr
      rw [hres] at hpr
      rw [hded]
      rcases List.mem_append.mp hpr with hpr | hpr
      · exact List.mem_cons_of_mem _ (h.seen pr hpr)
      · obtain rfl := List.mem_singleton.mp hpr
        exact List.mem_cons_self
    · rw [hres,List.map_append,List.nodup_append]
      refine ⟨h.keys,by simp,?_⟩
      intro a ha b hb hab
      obtain ⟨pr,hpr,rfl⟩ := List.mem_map.mp ha
      obtain rfl : dedupKey kind doc = b := by simpa [planKey,dedupKey,eq_comm] using hb
      exact hfresh (hab ▸ h.seen pr hpr)
    · intro pr hpr
      rw [hres] at hpr
      rcases List.mem_append.mp hpr with hpr | hpr
      · exact hmono pr (h.planned pr hpr)
      · obtain rfl := List.mem_singleton.mp hpr
        have hmem : doc ∈ node.manifest.doc.resources := by
          rw [hrs]
          exact List.mem_of_getElem? hat
        exact ⟨⟨node,hs.nodes_mono hnode,hmem⟩,hparsed,hleaf,rfl,rfl⟩

theorem PlanOk.reachable {c : Config} (h : (walkSystem env cache ref).Reachable c) :
    PlanOk env c.run := by
  refine Transition.System.invariant (fun c : Config => PlanOk env c.run) ?_ ?_ h
  · intro c₀ h₀
    cases h₀ with
    | named m => refine ⟨?_,?_,?_,?_⟩ <;> simp [Run.pushStack,Run.start]
    | file path bytes hread => refine ⟨?_,?_,?_,?_⟩ <;> simp [Run.start]
  · intro c c' hc hI hs
    exact hI.step (Shape.reachable hc) hs

end Plans

section Bound

variable {env : Env} {cache : Cache} {ref : TargetRef}

theorem acyclic_of_lt {r : Nat → Nat → Prop} (h : ∀ p k, r p k → p < k) (k : Nat) :
    ¬Relation.TransGen r k k := by
  intro hk
  have hlt : ∀ {a b}, Relation.TransGen r a b → a < b := by
    intro a b hab
    induction hab with
    | single hr => exact h _ _ hr
    | tail _ hr ih => exact Nat.lt_trans ih (h _ _ hr)
  exact Nat.lt_irrefl k (hlt hk)

theorem targets_nodup {resources : List PlannedResource}
    (h : (resources.map planKey).Nodup) :
    (resources.map fun pr => (pr.kind,pr.resource.target)).Nodup := by
  have hmap : resources.map planKey =
      (resources.map fun pr => (pr.kind,pr.resource.target)).map
        fun (kind,target) => (kind.toString,target) := by
    simp [planKey,Function.comp_def]
  rw [hmap] at h
  exact h.of_map _

theorem Finished.bounded {r : Run} {res : Resolution} (h : Finished env cache ref r)
    (hres : finish r.st ref.selector = .ok res) : Bounded env.limits res r := by
  obtain ⟨hnodes,-,hsub⟩ := finish_ok hres
  cases h with
  | all r stack site rs h =>
    have hshape := Shape.reachable h
    have hplan := PlanOk.reachable h
    have hnodes : res.nodes = r.st.nodes := hnodes
    have hsub : res.resources.Sublist r.st.resources := hsub
    have hlt : ∀ p k, r.nests p k → p < k := by
      rintro p k ⟨call,hcall,hparent⟩
      exact (hshape.nested k call p hcall hparent).1
    refine ⟨?_,?_,?_,?_,?_,?_,hlt,acyclic_of_lt hlt⟩
    · rw [hnodes]
      exact hshape.depth
    · exact Nat.le_trans hsub.length_le hplan.total
    · rw [hnodes]
      exact (Identified.reachable h).nodup
    · exact targets_nodup (hplan.keys.sublist (hsub.map planKey))
    · rw [hnodes]
      exact hshape.calls
    · intro k call hk
      refine ⟨hshape.root k call hk,?_⟩
      rintro rfl
      cases hp : call.parent with
      | none => rfl
      | some p =>
        have hneg := (hshape.nested 0 call p hk hp).1
        omega

theorem Stopped.withinBudget {r : Run} (h : Stopped env cache ref r) :
    WithinBudget env.limits r := by
  cases h with
  | unread => exact ⟨Nat.zero_le _,Nat.zero_le _,Nat.zero_le _⟩
  | reached r stack h =>
    have hbudget := h.withinBudget
    exact ⟨hbudget.reads,hbudget.lookups,hbudget.names⟩

theorem resolveRef_budget (env : Env) (cache : Cache) (ref : TargetRef) :
    wp (resolveRef env ref)
      (fun res r => WithinBudget env.limits r ∧ Bounded env.limits res r)
      (fun _ r => WithinBudget env.limits r) (Run.start cache) := by
  refine wp_mono (resolveRef_spec env cache ref) ?_ ?_
  · rintro res r ⟨hfinished,hres⟩
    exact ⟨hfinished.stopped.withinBudget,hfinished.bounded hres⟩
  · intro _ r hstopped
    exact hstopped.withinBudget

end Bound

end MurlSystem
