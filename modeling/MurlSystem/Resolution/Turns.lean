import MurlSystem.Resolution.Budget

namespace MurlSystem

open Program

def Pinned (env : Env) (nodes : List ResolvedNode) (child : Murl) (pin : Option String) : Prop :=
  ∃ node ∈ nodes, node.identity = some child.identity ∧ checkPin env node.rawBytes pin = .ok ()

def Pending (fs : List Frame) (child : Murl) (pin : Option String) : Prop :=
  ∃ f ∈ fs, ∃ req, (f = .seek req ∨ ∃ bytes origin, f = .found req bytes origin) ∧
    req.murl = some child ∧ req.integrity = pin

structure Nested (doc : ResourceDoc) (child : Murl) : Prop where
  kind : Kind.parse doc.kind = .ok .murl
  parsed : Murl.parse doc.target = .ok child

def FateOk (env : Env) (c : Config) (t : Turn) : Prop :=
  match t.fate with
  | .planned | .duplicate => ∃ kind, Kind.parse t.resource.kind = .ok kind ∧ kind ≠ .murl
  | .diamond child => Nested t.resource child ∧ child.identity ∈ nodeIds c.run.st
  | .spliced child => Nested t.resource child ∧
      (Pinned env c.run.st.nodes child t.resource.integrity ∨
        Pending c.frames child t.resource.integrity)

def TurnAt (r : Run) (t : Turn) : Prop :=
  ∃ node, r.st.nodes[t.node]? = some node ∧
    node.manifest.doc.resources[t.index]? = some t.resource

def Handled (c : Config) (k i : Nat) : Prop :=
  (∃ t ∈ c.run.turns, t.node = k ∧ t.index = i) ∨
  ∃ site rs todo, .walk site rs todo ∈ c.frames ∧ site.node = k ∧ i ∈ todo

structure Turned (env : Env) (c : Config) : Prop where
  at_ : ∀ t ∈ c.run.turns, TurnAt c.run t
  fate : ∀ t ∈ c.run.turns, FateOk env c t
  handled : ∀ k node, c.run.st.nodes[k]? = some node →
    ∀ i, i < node.manifest.doc.resources.length → Handled c k i

section Steps

variable {env : Env} {cache : Cache} {ref : TargetRef} {c c' : Config}

theorem Pinned.mono {nodes more : List ResolvedNode} {child : Murl} {pin : Option String}
    (h : Pinned env nodes child pin) : Pinned env (nodes ++ more) child pin := by
  obtain ⟨node,hmem,hrest⟩ := h
  exact ⟨node,List.mem_append_left _ hmem,hrest⟩

theorem FateOk.move {t : Turn} (h : FateOk env c t)
    (hids : ∀ id ∈ nodeIds c.run.st, id ∈ nodeIds c'.run.st)
    (hpin : ∀ child pin, Pinned env c.run.st.nodes child pin ∨ Pending c.frames child pin →
      Pinned env c'.run.st.nodes child pin ∨ Pending c'.frames child pin) :
    FateOk env c' t := by
  unfold FateOk at h ⊢
  cases hf : t.fate with
  | planned =>
    rw [hf] at h
    exact h
  | duplicate =>
    rw [hf] at h
    exact h
  | diamond child =>
    rw [hf] at h
    exact ⟨h.1,hids _ h.2⟩
  | spliced child =>
    rw [hf] at h
    exact ⟨h.1,hpin _ _ h.2⟩

theorem Turned.keep {r' : Run} (h : Turned env c) (hn : r'.st.nodes = c.run.st.nodes)
    (ht : r'.turns = c.run.turns) : Turned env ⟨r',c.frames⟩ := by
  have hids : nodeIds r'.st = nodeIds c.run.st := by simp only [nodeIds,hn]
  refine ⟨?_,?_,?_⟩
  · intro t hmem
    rw [ht] at hmem
    unfold TurnAt
    rw [hn]
    exact h.at_ t hmem
  · intro t hmem
    rw [ht] at hmem
    refine (h.fate t hmem).move ?_ ?_
    · intro id hid
      rwa [hids]
    · intro child pin hp
      rwa [hn]
  · intro k node hk i hi
    rw [hn] at hk
    unfold Handled
    rw [ht]
    exact h.handled k node hk i hi

theorem Turned.take {r r' : Run} {fs : List Frame} {site : Site} {rs : List ResourceDoc}
    {i : Nat} {todo : List Nat} {doc : ResourceDoc} {fate : Fate} (opened : List Frame)
    (h : Turned env ⟨r,.walk site rs (i :: todo) :: fs⟩) (hsite : SiteOk env r site rs)
    (hat : rs[i]? = some doc) (hn : r'.st.nodes = r.st.nodes)
    (ht : r'.turns = r.turns ++ [⟨site.node,i,doc,site.anchorOf doc,fate⟩])
    (hfate : FateOk env ⟨r',opened ++ .walk site rs todo :: fs⟩
      ⟨site.node,i,doc,site.anchorOf doc,fate⟩) :
    Turned env ⟨r',opened ++ .walk site rs todo :: fs⟩ := by
  have hids : nodeIds r'.st = nodeIds r.st := by simp only [nodeIds,hn]
  obtain ⟨node,hnode,hrs,-⟩ := hsite.node
  refine ⟨?_,?_,?_⟩
  · intro t hmem
    rw [ht] at hmem
    unfold TurnAt
    rw [hn]
    rcases List.mem_append.mp hmem with hmem | hmem
    · exact h.at_ t hmem
    · obtain rfl := List.mem_singleton.mp hmem
      exact ⟨node,hnode,by rw [hrs]; exact hat⟩
  · intro t hmem
    rw [ht] at hmem
    rcases List.mem_append.mp hmem with hmem | hmem
    · refine (h.fate t hmem).move ?_ ?_
      · intro id hid
        rwa [hids]
      · intro child pin hp
        rcases hp with hp | ⟨f,hf,req,hform,hreq⟩
        · exact .inl (by rwa [hn])
        · rcases List.mem_cons.mp hf with rfl | hf
          · rcases hform with hform | ⟨_,_,hform⟩ <;> cases hform
          · exact .inr ⟨f,by simp [hf],req,hform,hreq⟩
    · obtain rfl := List.mem_singleton.mp hmem
      exact hfate
  · intro k n hk j hj
    rw [hn] at hk
    unfold Handled
    rw [ht]
    rcases h.handled k n hk j hj with ⟨t,hmem,hkt,hjt⟩ | ⟨s,rs',todo',hf,hks,hjt⟩
    · exact .inl ⟨t,by simp [hmem],hkt,hjt⟩
    · rcases List.mem_cons.mp hf with hf | hf
      · obtain ⟨rfl,rfl,rfl⟩ : s = site ∧ rs' = rs ∧ todo' = i :: todo := by simpa using hf
        rcases List.mem_cons.mp hjt with rfl | hjt
        · exact .inl ⟨⟨s.node,j,doc,s.anchorOf doc,fate⟩,by simp,hks,rfl⟩
        · exact .inr ⟨s,rs',todo,by simp,hks,hjt⟩
      · exact .inr ⟨s,rs',todo',by simp [hf],hks,hjt⟩

theorem Turned.enter {r : Run} {fs : List Frame} {req : Request} {bytes : Bytes}
    {origin : Origin} {node : ResolvedNode} {order : List Nat} {call : Call}
    (h : Turned env ⟨r,.found req bytes origin :: fs⟩)
    (hpin : checkPin env bytes req.integrity = .ok ())
    (hnode : Admitted env req bytes origin node)
    (hord : executionOrder node.manifest.doc.resources = .ok order) :
    Turned env ⟨r.pushNode node call,
      .walk (req.site origin r.st.nodes.length) node.manifest.doc.resources order :: fs⟩ := by
  have hold : ∀ (k : Nat) (n : ResolvedNode), r.st.nodes[k]? = some n →
      (r.pushNode node call).st.nodes[k]? = some n := by
    intro k n hk
    have hlt : k < r.st.nodes.length := (List.getElem?_eq_some_iff.mp hk).1
    simpa [Run.pushNode,List.getElem?_append_left hlt] using hk
  refine ⟨?_,?_,?_⟩
  · intro t hmem
    obtain ⟨n,hk,hi⟩ := h.at_ t hmem
    exact ⟨n,hold _ _ hk,hi⟩
  · intro t hmem
    refine (h.fate t hmem).move ?_ ?_
    · intro id hid
      rw [nodeIds_pushNode]
      exact List.mem_append_left _ hid
    · intro child pin hp
      rcases hp with hp | ⟨f,hf,req',hform,hmurl,hint⟩
      · exact .inl hp.mono
      · rcases List.mem_cons.mp hf with rfl | hf
        · refine .inl ⟨node,by simp [Run.pushNode],?_⟩
          rcases hform with hform | ⟨_,_,hform⟩
          · cases hform
          · obtain ⟨rfl,-,-⟩ : req = req' ∧ _ ∧ _ := by simpa using hform
            rw [hnode.identity,hmurl,hnode.rawBytes,← hint]
            exact ⟨rfl,hpin⟩
        · exact .inr ⟨f,by simp [hf],req',hform,hmurl,hint⟩
  · intro k n hk i hi
    rcases Nat.lt_or_ge k r.st.nodes.length with hlt | hge
    · have hk : r.st.nodes[k]? = some n := by
        simpa [Run.pushNode,List.getElem?_append_left hlt] using hk
      rcases h.handled k n hk i hi with ht | ⟨s,rs,todo,hf,hrest⟩
      · exact .inl ht
      · refine .inr ⟨s,rs,todo,?_,hrest⟩
        rcases List.mem_cons.mp hf with hf | hf
        · cases hf
        · simp [hf]
    · have hlen : k < (r.st.nodes ++ [node]).length := (List.getElem?_eq_some_iff.mp hk).1
      have hkeq : k = r.st.nodes.length := by
        simp only [List.length_append,List.length_singleton] at hlen
        omega
      subst hkeq
      obtain rfl : node = n := by simpa [Run.pushNode] using hk
      exact .inr ⟨_,_,order,List.mem_cons_self,rfl,(executionOrder_mem hord i).mpr hi⟩

theorem Turned.close {r : Run} {fs : List Frame} {site outer : Site}
    {resources rs : List ResourceDoc} {todo : List Nat} {id : String}
    (h : Turned env ⟨r,.walk site resources [] :: .walk outer rs todo :: fs⟩) :
    Turned env ⟨r.popStack.visit id,.walk outer rs todo :: fs⟩ := by
  refine ⟨h.at_,?_,?_⟩
  · intro t hmem
    refine (h.fate t hmem).move (fun _ hid => hid) ?_
    intro child pin hp
    rcases hp with hp | ⟨f,hf,req,hform,hreq⟩
    · exact .inl hp
    · rcases List.mem_cons.mp hf with rfl | hf
      · rcases hform with hform | ⟨_,_,hform⟩ <;> cases hform
      · exact .inr ⟨f,hf,req,hform,hreq⟩
  · intro k node hk i hi
    rcases h.handled k node hk i hi with ht | ⟨s,rs',todo',hf,hks,hjt⟩
    · exact .inl ht
    · rcases List.mem_cons.mp hf with hf | hf
      · obtain ⟨-,-,rfl⟩ : s = site ∧ rs' = resources ∧ todo' = [] := by simpa using hf
        cases hjt
      · exact .inr ⟨s,rs',todo',hf,hks,hjt⟩

theorem Turned.found {r r' : Run} {fs : List Frame} {req : Request} {bytes : Bytes}
    {origin : Origin} (h : Turned env ⟨r,.seek req :: fs⟩)
    (hn : r'.st.nodes = r.st.nodes) (ht : r'.turns = r.turns) :
    Turned env ⟨r',.found req bytes origin :: fs⟩ := by
  have hkeep := h.keep hn ht
  refine ⟨hkeep.at_,?_,?_⟩
  · intro t hmem
    refine (hkeep.fate t hmem).move (fun _ hid => hid) ?_
    intro child pin hp
    rcases hp with hp | ⟨f,hf,req',hform,hreq⟩
    · exact .inl hp
    · rcases List.mem_cons.mp hf with rfl | hf
      · rcases hform with hform | ⟨_,_,hform⟩
        · obtain rfl : req = req' := by simpa using hform
          exact .inr ⟨_,List.mem_cons_self,req,.inr ⟨bytes,origin,rfl⟩,hreq⟩
        · cases hform
      · exact .inr ⟨f,by simp [hf],req',hform,hreq⟩
  · intro k node hk i hi
    rcases hkeep.handled k node hk i hi with hturn | ⟨s,rs,todo,hf,hrest⟩
    · exact .inl hturn
    · rcases List.mem_cons.mp hf with hf | hf
      · cases hf
      · exact .inr ⟨s,rs,todo,by simp [hf],hrest⟩

theorem Turned.step (h : Turned env c) (hshape : Shape env ref c) (hids : Identified c)
    (hs : Step env c c') : Turned env c' := by
  cases hs with
  | note r fs ws ticks => exact h.keep rfl rfl
  | overBudget r fs full => exact h.keep rfl rfl
  | locate r r' fs req m bytes origin named room got =>
    obtain ⟨⟨ws,hst⟩,-,hturns,-⟩ := (locate_ok got).1
    exact h.found (by rw [hst]; rfl) hturns
  | lost r r' fs req m e named room got =>
    obtain ⟨⟨ws,hst⟩,-,hturns,-⟩ := locate_error got
    exact h.keep (by rw [hst]; rfl) hturns
  | enter r fs req bytes origin node order pin admitted ordered =>
    exact h.enter pin admitted ordered
  | plan r fs site resources i todo doc kind at_ parsed leaf room fresh =>
    exact h.take [] hshape.topSite at_ rfl rfl ⟨kind,parsed,leaf⟩
  | duplicate r fs site resources i todo doc kind at_ parsed leaf seen =>
    exact h.take [] hshape.topSite at_ rfl rfl ⟨kind,parsed,leaf⟩
  | diamond r fs site resources i todo doc child at_ nests offStack seen =>
    exact h.take [] hshape.topSite at_ rfl rfl
      ⟨⟨nests.kind,nests.parsed⟩,hids.visited _ seen⟩
  | splice r fs site resources i todo doc child at_ nests offStack unseen =>
    exact h.take [.seek (site.request doc child)] hshape.topSite at_ rfl rfl
      ⟨⟨nests.kind,nests.parsed⟩,.inr ⟨_,List.mem_cons_self,_,.inl rfl,rfl,rfl⟩⟩
  | close r fs site outer resources rs todo child named => exact h.close

theorem Turned.reachable (h : (walkSystem env cache ref).Reachable c) : Turned env c := by
  refine Transition.System.invariant (Turned env) ?_ ?_ h
  · intro c₀ h₀
    cases h₀ with
    | named m => refine ⟨?_,?_,?_⟩ <;> simp [Run.pushStack,Run.start]
    | file path bytes hread => refine ⟨?_,?_,?_⟩ <;> simp [Run.start]
  · intro c₁ c₂ hc hI hs
    exact hI.step (Shape.reachable hc) (Identified.reachable hc) hs

end Steps

end MurlSystem
