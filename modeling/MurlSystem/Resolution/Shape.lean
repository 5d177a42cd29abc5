import MurlSystem.Resolution.Locate

namespace MurlSystem

def Run.locality (r : Run) (k : Nat) : Option Locality :=
  match r.st.nodes[k]?,r.calls[k]? with
  | some node,some call => some (Locality.ofSource node.origin call.murl)
  | _,_ => none

def Frame.isPending : Frame → Bool
  | .seek _ | .found _ _ _ => true
  | .walk _ _ _ => false

theorem Locality.ofSource_unselected (origin : Origin) (murl : Option Murl) :
    Locality.ofSource origin (murl.map Murl.unselected) = Locality.ofSource origin murl := by
  cases origin <;> cases murl <;> rfl

structure SiteOk (env : Env) (r : Run) (site : Site) (rs : List ResourceDoc) : Prop where
  node : ∃ node, r.st.nodes[site.node]? = some node ∧ node.manifest.doc.resources = rs ∧
    node.identity = site.murl.map Murl.identity
  source : r.locality site.node = some site.source
  depth : site.depth ≤ env.limits.maxDepth

structure RequestOk (env : Env) (ref : TargetRef) (r : Run) (req : Request) : Prop where
  depth : req.depth ≤ env.limits.maxDepth
  root : req.parent = none → r.st.nodes = [] ∧ ∀ m, req.murl = some m → ref = .murl m
  parent : ∀ p, req.parent = some p → ∃ source m, r.locality p = some source ∧
    req.murl = some m ∧ source ≤ Locality.of m.authority

def FrameOk (env : Env) (ref : TargetRef) (r : Run) : Frame → Prop
  | .seek req => RequestOk env ref r req
  | .found req _ origin => RequestOk env ref r req ∧
      ∀ m, req.murl = some m → Locality.ofSource origin (some m) = Locality.of m.authority
  | .walk site rs _ => SiteOk env r site rs

structure Shape (env : Env) (ref : TargetRef) (c : Config) : Prop where
  calls : c.run.calls.length = c.run.st.nodes.length
  frames : ∀ f ∈ c.frames, FrameOk env ref c.run f
  pending : ∀ f ∈ c.frames.tail, f.isPending = false
  depth : ∀ node ∈ c.run.st.nodes, node.depth ≤ env.limits.maxDepth
  root : ∀ k call, c.run.calls[k]? = some call → call.parent = none → k = 0
  nested : ∀ k call p, c.run.calls[k]? = some call → call.parent = some p →
    p < k ∧ ∃ source here, c.run.locality p = some source ∧ c.run.locality k = some here ∧
      source ≤ here

theorem locality_congr {r r' : Run} (hn : r'.st.nodes = r.st.nodes) (hc : r'.calls = r.calls)
    (k : Nat) : r'.locality k = r.locality k := by
  simp only [Run.locality,hn,hc]

theorem FrameOk.congr {env : Env} {ref : TargetRef} {r r' : Run} {f : Frame} (h : FrameOk env ref r f)
    (hn : r'.st.nodes = r.st.nodes) (hc : r'.calls = r.calls) : FrameOk env ref r' f := by
  have hreq : ∀ req, RequestOk env ref r req → RequestOk env ref r' req := by
    intro req hr
    refine ⟨hr.depth,?_,?_⟩
    · intro hp
      rw [hn]
      exact hr.root hp
    · intro p hp
      rw [locality_congr hn hc]
      exact hr.parent p hp
  cases f with
  | seek req => exact hreq req h
  | found req bytes origin => exact ⟨hreq req h.1,h.2⟩
  | walk site rs todo =>
    have h : SiteOk env r site rs := h
    refine ⟨?_,?_,h.depth⟩
    · rw [hn]
      exact h.node
    · rw [locality_congr hn hc]
      exact h.source

theorem Shape.move {env : Env} {ref : TargetRef} {c : Config} {r' : Run} {fs : List Frame} (h : Shape env ref c)
    (hn : r'.st.nodes = c.run.st.nodes) (hc : r'.calls = c.run.calls)
    (hf : ∀ f ∈ fs, FrameOk env ref r' f) (hp : ∀ f ∈ fs.tail, f.isPending = false) :
    Shape env ref ⟨r',fs⟩ := by
  refine ⟨?_,hf,hp,?_,?_,?_⟩
  · rw [hn,hc]
    exact h.calls
  · rw [hn]
    exact h.depth
  · rw [hc]
    exact h.root
  · intro k call p hk hparent
    rw [hc] at hk
    rw [locality_congr hn hc,locality_congr hn hc]
    exact h.nested k call p hk hparent

theorem Shape.keep {env : Env} {ref : TargetRef} {c : Config} {r' : Run} (h : Shape env ref c)
    (hn : r'.st.nodes = c.run.st.nodes) (hc : r'.calls = c.run.calls) :
    Shape env ref ⟨r',c.frames⟩ :=
  h.move hn hc (fun f hf => (h.frames f hf).congr hn hc) h.pending

theorem Shape.swap {env : Env} {ref : TargetRef} {r r' : Run} {f g : Frame} {fs : List Frame}
    (h : Shape env ref ⟨r,f :: fs⟩) (hn : r'.st.nodes = r.st.nodes) (hc : r'.calls = r.calls)
    (hg : FrameOk env ref r g) : Shape env ref ⟨r',g :: fs⟩ := by
  refine h.move hn hc ?_ h.pending
  intro f' hf'
  rcases List.mem_cons.mp hf' with rfl | hf'
  · exact hg.congr hn hc
  · exact (h.frames f' (by simp [hf'])).congr hn hc

theorem Shape.topSite {env : Env} {ref : TargetRef} {r : Run} {site : Site} {rs : List ResourceDoc}
    {todo : List Nat} {fs : List Frame} (h : Shape env ref ⟨r,.walk site rs todo :: fs⟩) :
    SiteOk env r site rs :=
  h.frames (.walk site rs todo) (by simp)

theorem Run.locality_pushNode_old {r : Run} {node : ResolvedNode} {call : Call} {k : Nat}
    {l : Locality} (hlen : r.calls.length = r.st.nodes.length) (h : r.locality k = some l) :
    (r.pushNode node call).locality k = some l := by
  have hk : k < r.st.nodes.length := by
    by_contra hge
    have hnone : r.st.nodes[k]? = none := List.getElem?_eq_none (not_lt.mp hge)
    simp [Run.locality,hnone] at h
  unfold Run.locality at h ⊢
  simpa [Run.pushNode,List.getElem?_append_left hk,List.getElem?_append_left (hlen ▸ hk)] using h

theorem Run.locality_pushNode_new {r : Run} {node : ResolvedNode} {call : Call}
    (hlen : r.calls.length = r.st.nodes.length) :
    (r.pushNode node call).locality r.st.nodes.length =
      some (Locality.ofSource node.origin call.murl) := by
  unfold Run.locality
  have hc : (r.calls ++ [call])[r.st.nodes.length]? = some call := by simp [← hlen]
  simp [Run.pushNode,hc]

theorem SiteOk.pushNode {env : Env} {r : Run} {site : Site} {rs : List ResourceDoc}
    {node : ResolvedNode} {call : Call} (h : SiteOk env r site rs)
    (hlen : r.calls.length = r.st.nodes.length) : SiteOk env (r.pushNode node call) site rs := by
  obtain ⟨old,hold,hrs,hid⟩ := h.node
  have hlt : site.node < r.st.nodes.length := (List.getElem?_eq_some_iff.mp hold).1
  refine ⟨⟨old,?_,hrs,hid⟩,Run.locality_pushNode_old hlen h.source,h.depth⟩
  simpa [Run.pushNode,List.getElem?_append_left hlt] using hold

theorem Shape.enter {env : Env} {ref : TargetRef} {r : Run} {fs : List Frame} {req : Request} {bytes : Bytes}
    {origin : Origin} {node : ResolvedNode} {order : List Nat}
    (h : Shape env ref ⟨r,.found req bytes origin :: fs⟩)
    (hnode : Admitted env req bytes origin node) :
    Shape env ref ⟨r.pushNode node ⟨req.parent,req.murl.map Murl.unselected⟩,
      .walk (req.site origin r.st.nodes.length) node.manifest.doc.resources order :: fs⟩ := by
  have hfound := h.frames (.found req bytes origin) (by simp)
  obtain ⟨hreq,hsource⟩ := hfound
  have hlen : r.calls.length = r.st.nodes.length := h.calls
  have hnew : (r.pushNode node ⟨req.parent,req.murl.map Murl.unselected⟩).locality r.st.nodes.length =
      some (Locality.ofSource origin req.murl) := by
    rw [Run.locality_pushNode_new hlen,hnode.source,Locality.ofSource_unselected]
  have hcall : ∀ k call, (r.calls ++ [⟨req.parent,req.murl.map Murl.unselected⟩])[k]? = some call →
      (k < r.st.nodes.length ∧ r.calls[k]? = some call) ∨
      (k = r.st.nodes.length ∧ call = ⟨req.parent,req.murl.map Murl.unselected⟩) := by
    intro k call hk
    rcases Nat.lt_trichotomy k r.calls.length with hlt | heq | hgt
    · rw [List.getElem?_append_left hlt] at hk
      exact .inl ⟨hlen ▸ hlt,hk⟩
    · subst heq
      rw [List.getElem?_append_right (Nat.le_refl _)] at hk
      exact .inr ⟨hlen,by simpa using hk.symm⟩
    · rw [List.getElem?_eq_none (by simp; omega)] at hk
      cases hk
  refine ⟨?_,?_,h.pending,?_,?_,?_⟩
  · simp [Run.pushNode,hlen]
  · intro f hf
    rcases List.mem_cons.mp hf with rfl | hf
    · refine ⟨⟨node,by simp [Run.pushNode,Request.site],rfl,hnode.identity⟩,hnew,hreq.depth⟩
    · have hwalk := h.pending f hf
      have hok := h.frames f (by simp [hf])
      cases f with
      | seek _ => cases hwalk
      | found _ _ _ => cases hwalk
      | walk site rs todo => exact SiteOk.pushNode hok hlen
  · intro n hn
    rcases List.mem_append.mp hn with hn | hn
    · exact h.depth n hn
    · obtain rfl : n = node := by simpa using hn
      rw [hnode.depth]
      exact hreq.depth
  · intro k call hk hparent
    rcases hcall k call hk with ⟨_,hold⟩ | ⟨rfl,rfl⟩
    · exact h.root k call hold hparent
    · have hnil : r.st.nodes = [] := (hreq.root hparent).1
      simp [hnil]
  · intro k call p hk hparent
    rcases hcall k call hk with ⟨_,hold⟩ | ⟨rfl,rfl⟩
    · obtain ⟨hlt,source,here,hs,hh,hle⟩ := h.nested k call p hold hparent
      exact ⟨hlt,source,here,Run.locality_pushNode_old hlen hs,
        Run.locality_pushNode_old hlen hh,hle⟩
    · obtain ⟨source,m,hs,hm,hle⟩ := hreq.parent p hparent
      have hlt : p < r.st.nodes.length := by
        by_contra hge
        have hnone : r.st.nodes[p]? = none := List.getElem?_eq_none (not_lt.mp hge)
        simp [Run.locality,hnone] at hs
      refine ⟨hlt,source,_,Run.locality_pushNode_old hlen hs,hnew,?_⟩
      rw [hm,hsource m hm]
      exact hle

theorem Shape.step {env : Env} {ref : TargetRef} {c c' : Config} (h : Shape env ref c) (hs : Step env c c') :
    Shape env ref c' := by
  cases hs with
  | note r fs ws ticks => exact h.keep rfl rfl
  | overBudget r fs full => exact h.keep rfl rfl
  | locate r r' fs req m bytes origin named room got =>
    obtain ⟨hloc,hsrc⟩ := locate_ok got
    obtain ⟨ws,hst⟩ := hloc.st
    have hreq := h.frames (.seek req) (by simp)
    refine h.swap (by rw [hst]; rfl) hloc.calls ⟨hreq,?_⟩
    intro m' hm'
    obtain rfl : m = m' := by simpa [named] using hm'
    cases origin with
    | localStore p => simp [Locality.ofSource,Locality.of,show m.authority.isLocal = true from hsrc]
    | localFile p => cases hsrc
    | remote url fromCache => rfl
  | lost r r' fs req m e named room got =>
    have hloc := locate_error got
    obtain ⟨ws,hst⟩ := hloc.st
    exact h.keep (by rw [hst]; rfl) hloc.calls
  | enter r fs req bytes origin node order pin admitted ordered => exact h.enter admitted
  | plan r fs site resources i todo doc kind at_ parsed leaf room fresh =>
    exact h.swap rfl rfl h.topSite
  | duplicate r fs site resources i todo doc kind at_ parsed leaf seen =>
    exact h.swap rfl rfl h.topSite
  | diamond r fs site resources i todo doc child at_ nests offStack seen =>
    exact h.swap rfl rfl h.topSite
  | splice r fs site resources i todo doc child at_ nests offStack unseen =>
    have hsite : SiteOk env r site resources := h.topSite
    refine h.move rfl rfl ?_ ?_
    · intro f hf
      rcases List.mem_cons.mp hf with rfl | hf
      · refine ⟨nests.shallow,fun hp => (by cases hp),?_⟩
        intro p hp
        obtain rfl : site.node = p := by simpa [Site.request] using hp
        exact ⟨site.source,child,hsite.source,rfl,nests.farther⟩
      · rcases List.mem_cons.mp hf with rfl | hf
        · exact FrameOk.congr (f := .walk site resources todo) hsite rfl rfl
        · exact (h.frames f (by simp [hf])).congr rfl rfl
    · intro f hf
      rcases List.mem_cons.mp hf with rfl | hf
      · rfl
      · exact h.pending f hf
  | close r fs site outer resources rs todo child named =>
    refine h.move rfl rfl ?_ ?_
    · intro f hf
      exact (h.frames f (List.mem_cons_of_mem _ hf)).congr rfl rfl
    · intro f hf
      exact h.pending f (List.mem_cons_of_mem _ hf)

theorem Shape.start {env : Env} {ref : TargetRef} {cache : Cache} {c : Config} (h : Start env cache ref c) :
    Shape env ref c := by
  cases h with
  | named m =>
    refine ⟨rfl,?_,by simp,by simp [Run.pushStack,Run.start],?_,?_⟩
    · intro f hf
      obtain rfl : f = .seek (Request.root m) := by simpa using hf
      refine ⟨Nat.zero_le _,fun _ => ⟨rfl,?_⟩,fun p hp => by cases hp⟩
      intro m' hm'
      obtain rfl : m = m' := by simpa [Request.root] using hm'
      rfl
    · intro k call hk
      simp [Run.pushStack,Run.start] at hk
    · intro k call p hk
      simp [Run.pushStack,Run.start] at hk
  | file path bytes hread =>
    refine ⟨rfl,?_,by simp,by simp [Run.start],?_,?_⟩
    · intro f hf
      obtain rfl : f = .found Request.file bytes (.localFile path) := by simpa using hf
      exact ⟨⟨Nat.zero_le _,fun _ => ⟨rfl,fun m hm => by cases hm⟩,fun p hp => by cases hp⟩,
        fun m hm => by cases hm⟩
    · intro k call hk
      simp [Run.start] at hk
    · intro k call p hk
      simp [Run.start] at hk

theorem Shape.reachable {env : Env} {ref : TargetRef} {cache : Cache} {c : Config}
    (h : (walkSystem env cache ref).Reachable c) : Shape env ref c :=
  Transition.System.invariant (Shape env ref) (fun _ h0 => Shape.start h0)
    (fun c c' _ hI (hs : Step env c c') => hI.step hs) h

end MurlSystem
