import Mathlib.Data.List.NodupEquivFin
import MurlSystem.Foundation.Nesting
import MurlSystem.Resolution.Sequence

namespace MurlSystem

open Program

inductive Contributes (nodes : List ResolvedNode) (turns : List Turn) :
    Nat → Nat → PlannedResource → Prop
  | own (k i : Nat) (pr : PlannedResource) (node : ResolvedNode) (at_ : nodes[k]? = some node)
      (declared : node.manifest.doc.resources[i]? = some pr.resource) (placed : pr.node = k) :
      Contributes nodes turns k i pr
  | nested (t : Turn) (child : Murl) (j i : Nat) (pr : PlannedResource) (node : ResolvedNode)
      (taken : t ∈ turns) (spliced : t.fate = .spliced child) (at_ : nodes[j]? = some node)
      (named : node.identity = some child.identity) (inner : Contributes nodes turns j i pr) :
      Contributes nodes turns t.node t.index pr

def Precedes (plan : List PlannedResource) (x y : PlannedResource) : Prop :=
  ∀ i j : Nat, plan[i]? = some x → plan[j]? = some y → i < j

def SamePair (r : ResourceDoc) (pr : PlannedResource) : Prop :=
  Kind.parse r.kind = .ok pr.kind ∧ pr.resource.target = r.target

structure Ordered (selector : Option (List SelectorItem)) (turns : List Turn)
    (res : Resolution) : Prop where
  dependency : ∀ (k : Nat) (node : ResolvedNode), res.nodes[k]? = some node →
    ∀ a b, Relation.TransGen (DependsOn node.manifest.doc.resources) a b →
    ∀ x ∈ res.resources, ∀ y ∈ res.resources, Contributes res.nodes turns k b x →
      Contributes res.nodes turns k a y → Precedes res.resources x y
  survivor : ∀ (k : Nat) (node : ResolvedNode), res.nodes[k]? = some node →
    ∀ a b, Relation.TransGen (DependsOn node.manifest.doc.resources) a b →
    ∀ t ∈ turns, t.node = k → t.index = b → t.fate = .duplicate →
    (selector = none → ∃ x ∈ res.resources, SamePair t.resource x) ∧
    ∀ x ∈ res.resources, ∀ y ∈ res.resources, SamePair t.resource x →
      Contributes res.nodes turns k a y → Precedes res.resources x y
  contiguous : ∀ (k a h i j : Nat) (x y z : PlannedResource), h ≤ i → i ≤ j →
    res.resources[h]? = some x → res.resources[i]? = some y → res.resources[j]? = some z →
    Contributes res.nodes turns k a x → Contributes res.nodes turns k a z →
    Contributes res.nodes turns k a y

section Blocks

variable {env : Env} {cache : Cache} {ref : TargetRef} {c c' : Config}

def Opener (turns : List Turn) (id : Option String) : Option Nat → Prop
  | some p => ∃ t child, turns[p]? = some t ∧ t.fate = .spliced child ∧ id = some child.identity
  | none => ∀ t ∈ turns, ∀ child, t.fate = .spliced child → id ≠ some child.identity

structure Blocks (c : Config) (owners stack : List (Option Nat)) : Prop where
  trace : Nesting.Trace owners stack
  length : owners.length = c.run.turns.length
  frames : List.Forall₂ (fun f o => Opener c.run.turns f.identity o) c.frames stack
  turns : ∀ (q : Nat) (t : Turn) (node : ResolvedNode), c.run.turns[q]? = some t →
    c.run.st.nodes[t.node]? = some node →
    ∃ o, owners[q]? = some o ∧ Opener c.run.turns node.identity o

def Sole (turns : List Turn) : Prop :=
  ∀ (p q : Nat) (t u : Turn) (child child' : Murl), turns[p]? = some t →
    turns[q]? = some u → t.fate = .spliced child → u.fate = .spliced child' →
    child.identity = child'.identity → p = q

theorem Opener.snoc {turns : List Turn} {t : Turn} {id : Option String} {o : Option Nat}
    (h : Opener turns id o) (hne : ∀ child, t.fate = .spliced child → id ≠ some child.identity) :
    Opener (turns ++ [t]) id o := by
  cases o with
  | some p =>
    obtain ⟨u,child,hp,hf,hid⟩ := h
    have hlt : p < turns.length := (List.getElem?_eq_some_iff.mp hp).1
    exact ⟨u,child,by rw [List.getElem?_append_left hlt]; exact hp,hf,hid⟩
  | none =>
    intro u hu child hf
    rcases List.mem_append.mp hu with hu | hu
    · exact h u hu child hf
    · obtain rfl := List.mem_singleton.mp hu
      exact hne child hf

theorem Opener.unique {turns : List Turn} {id : Option String} {o o' : Option Nat}
    (hsole : Sole turns) (h : Opener turns id o) (h' : Opener turns id o') : o = o' := by
  cases o with
  | none =>
    cases o' with
    | none => rfl
    | some q =>
      obtain ⟨u,child,hq,hf,hid⟩ := h'
      exact absurd hid (h u (List.mem_of_getElem? hq) child hf)
  | some p =>
    obtain ⟨t,child,hp,hf,hid⟩ := h
    cases o' with
    | none => exact absurd hid (h' t (List.mem_of_getElem? hp) child hf)
    | some q =>
      obtain ⟨u,child',hq,hf',hid'⟩ := h'
      rw [hid] at hid'
      rw [hsole p q t u child child' hp hq hf hf' (Option.some.inj hid')]

theorem Blocks.keep {owners stack : List (Option Nat)} {r' : Run} {fs : List Frame}
    (h : Blocks c owners stack) (hn : r'.st.nodes = c.run.st.nodes)
    (ht : r'.turns = c.run.turns) (hf : fs.map Frame.identity = c.frames.map Frame.identity) :
    Blocks ⟨r',fs⟩ owners stack := by
  refine ⟨h.trace,by rw [ht]; exact h.length,?_,?_⟩
  · have hids : List.Forall₂ (Opener c.run.turns) (c.frames.map Frame.identity) stack :=
      List.forall₂_map_left_iff.mpr h.frames
    rw [← hf] at hids
    rw [ht]
    exact List.forall₂_map_left_iff.mp hids
  · rw [hn,ht]
    exact h.turns

theorem Blocks.enter {owners stack : List (Option Nat)} {r : Run} {fs : List Frame}
    {req : Request} {bytes : Bytes} {origin : Origin} {node : ResolvedNode} {order : List Nat}
    {call : Call} (h : Blocks ⟨r,.found req bytes origin :: fs⟩ owners stack)
    (hturned : Turned env ⟨r,.found req bytes origin :: fs⟩) :
    Blocks ⟨r.pushNode node call,
      .walk (req.site origin r.st.nodes.length) node.manifest.doc.resources order :: fs⟩
      owners stack := by
  refine ⟨h.trace,h.length,?_,?_⟩
  · have hids : List.Forall₂ (Opener r.turns)
        ((Frame.found req bytes origin :: fs).map Frame.identity) stack :=
      List.forall₂_map_left_iff.mpr h.frames
    exact List.forall₂_map_left_iff.mp hids
  · intro q t n hq hn
    obtain ⟨old,hold,-⟩ := hturned.at_ t (List.mem_of_getElem? hq)
    have hlt : t.node < r.st.nodes.length := (List.getElem?_eq_some_iff.mp hold).1
    have hn : r.st.nodes[t.node]? = some n := by
      simpa [Run.pushNode,List.getElem?_append_left hlt] using hn
    exact h.turns q t n hq hn

theorem Blocks.take {owners stack : List (Option Nat)} {r r' : Run} {fs : List Frame}
    {site : Site} {rs : List ResourceDoc} {todo : List Nat} {t : Turn} (rest : List Nat)
    (h : Blocks ⟨r,.walk site rs todo :: fs⟩ owners stack) (hsite : SiteOk env r site rs)
    (hn : r'.st.nodes = r.st.nodes) (ht : r'.turns = r.turns ++ [t])
    (hnode : t.node = site.node)
    (hnew : ∀ child, t.fate = .spliced child → child.identity ∉ nodeIds r.st ∧
      ∀ f ∈ Frame.walk site rs todo :: fs, f.identity ≠ some child.identity) :
    ∃ o outer, stack = o :: outer ∧
      (owners ++ [o]).length = r'.turns.length ∧
      List.Forall₂ (fun f o => Opener r'.turns f.identity o) (.walk site rs rest :: fs) stack ∧
      ∀ (q : Nat) (u : Turn) (node : ResolvedNode), r'.turns[q]? = some u → r'.st.nodes[u.node]? = some node →
        ∃ o', (owners ++ [o])[q]? = some o' ∧ Opener r'.turns node.identity o' := by
  have hlength : owners.length = r.turns.length := h.length
  have hmore : ∀ {id o}, Opener r.turns id o →
      (∀ child, t.fate = .spliced child → id ≠ some child.identity) → Opener r'.turns id o := by
    intro id o ho hne
    rw [ht]
    exact ho.snoc hne
  have hframes : List.Forall₂ (fun f o => Opener r'.turns f.identity o)
      (.walk site rs todo :: fs) stack := by
    have hpair := (List.forall₂_and_left _ _).mpr ⟨fun f hf => hf,h.frames⟩
    exact hpair.imp fun f o hfo => hmore hfo.2 fun child hf => (hnew child hf).2 f hfo.1
  have hframes' : List.Forall₂ (fun f o => Opener r'.turns f.identity o)
      (.walk site rs rest :: fs) stack := by
    have hids : List.Forall₂ (Opener r'.turns)
        ((Frame.walk site rs todo :: fs).map Frame.identity) stack :=
      List.forall₂_map_left_iff.mpr hframes
    exact List.forall₂_map_left_iff.mp hids
  cases hframes with
  | @cons _ o _ outer ho houter =>
    refine ⟨o,outer,rfl,by simp [ht,hlength],hframes',?_⟩
    intro q u node hq hu
    rw [hn] at hu
    have hidne : ∀ child, t.fate = .spliced child → node.identity ≠ some child.identity := by
      intro child hf heq
      exact (hnew child hf).1 (List.mem_filterMap.mpr ⟨node,List.mem_of_getElem? hu,heq⟩)
    rw [ht] at hq
    have hlt : q < (r.turns ++ [t]).length := (List.getElem?_eq_some_iff.mp hq).1
    rcases Nat.lt_or_ge q r.turns.length with hql | hqg
    · rw [List.getElem?_append_left hql] at hq
      obtain ⟨o',ho',hopen⟩ := h.turns q u node hq hu
      refine ⟨o',?_,hmore hopen hidne⟩
      rw [List.getElem?_append_left (hlength ▸ hql)]
      exact ho'
    · have heq : q = r.turns.length := by
        simp only [List.length_append,List.length_singleton] at hlt
        omega
      subst heq
      obtain rfl : t = u := by simpa using hq
      obtain ⟨n,hsn,-,hid⟩ := hsite.node
      rw [hnode,hsn] at hu
      obtain rfl := Option.some.inj hu
      refine ⟨o,by rw [← hlength]; simp,?_⟩
      rw [hid]
      exact ho

theorem Identified.onStack (h : Identified c) {f : Frame} {id : String} (hf : f ∈ c.frames)
    (hid : f.identity = some id) : id ∈ c.run.st.stack := by
  rw [h.stack]
  exact List.mem_reverse.mpr (List.mem_filterMap.mpr ⟨f,hf,hid⟩)

theorem Identified.met (h : Identified c) {id : String} (hid : id ∈ nodeIds c.run.st) :
    id ∈ c.run.st.visited ∨ id ∈ c.run.st.stack := by
  rcases h.known id hid with hv | ⟨f,hf,-,hfid⟩
  · exact .inl hv
  · exact .inr (h.onStack hf hfid)

theorem Turned.spliced_met (h : Turned env c) (hids : Identified c) {t : Turn} {child : Murl}
    (ht : t ∈ c.run.turns) (hf : t.fate = .spliced child) :
    child.identity ∈ c.run.st.visited ∨ child.identity ∈ c.run.st.stack := by
  have hfate := h.fate t ht
  unfold FateOk at hfate
  rw [hf] at hfate
  rcases hfate.2 with ⟨node,hnode,hid,-⟩ | ⟨f,hmem,req,hform,hmurl,-⟩
  · exact hids.met (List.mem_filterMap.mpr ⟨node,hnode,hid⟩)
  · refine .inr (hids.onStack hmem ?_)
    rcases hform with rfl | ⟨bytes,origin,rfl⟩ <;>
      simp [Frame.identity,Frame.murl,hmurl]

theorem Step.turn_cases (hs : Step env c c') :
    c'.run.turns = c.run.turns ∨ ∃ t, c'.run.turns = c.run.turns ++ [t] ∧
      (∀ child, t.fate = .spliced child → child.identity ∉ c.run.st.stack ∧
        child.identity ∉ c.run.st.visited) ∧
      (t.fate = .duplicate → ∃ kind, Kind.parse t.resource.kind = .ok kind ∧
        dedupKey kind t.resource ∈ c.run.st.dedup) := by
  cases hs with
  | note => exact .inl rfl
  | overBudget => exact .inl rfl
  | locate r r' fs req m bytes origin named room got =>
    obtain ⟨-,-,hturns,-⟩ := (locate_ok got).1
    exact .inl hturns
  | lost r r' fs req m e named room got =>
    obtain ⟨-,-,hturns,-⟩ := locate_error got
    exact .inl hturns
  | enter => exact .inl rfl
  | plan => exact .inr ⟨_,rfl,by simp,by simp⟩
  | duplicate r fs site resources i todo doc kind at_ parsed leaf seen =>
    exact .inr ⟨_,rfl,by simp,fun _ => ⟨kind,parsed,seen⟩⟩
  | diamond => exact .inr ⟨_,rfl,by simp,by simp⟩
  | splice r fs site resources i todo doc child at_ nests offStack unseen =>
    refine .inr ⟨_,rfl,?_,by simp⟩
    rintro child' hf
    cases hf
    exact ⟨offStack,unseen⟩
  | close => exact .inl rfl

theorem Sole.snoc {turns : List Turn} {t : Turn} (h : Sole turns)
    (hnew : ∀ u ∈ turns, ∀ child child', t.fate = .spliced child → u.fate = .spliced child' →
      child.identity ≠ child'.identity) : Sole (turns ++ [t]) := by
  intro p q u v child child' hp hq hu hv heq
  have hat : ∀ {k : Nat} {w : Turn}, (turns ++ [t])[k]? = some w →
      turns[k]? = some w ∨ (k = turns.length ∧ w = t) := by
    intro k w hk
    have hlt : k < (turns ++ [t]).length := (List.getElem?_eq_some_iff.mp hk).1
    rcases Nat.lt_or_ge k turns.length with hkl | hkg
    · rw [List.getElem?_append_left hkl] at hk
      exact .inl hk
    · have hkeq : k = turns.length := by
        simp only [List.length_append,List.length_singleton] at hlt
        omega
      subst hkeq
      exact .inr ⟨rfl,by simpa using hk.symm⟩
  rcases hat hp with hp | ⟨hpe,rfl⟩
  · rcases hat hq with hq | ⟨-,hv'⟩
    · exact h p q u v child child' hp hq hu hv heq
    · rw [hv'] at hv
      exact absurd heq.symm (hnew u (List.mem_of_getElem? hp) child' child hv hu)
  · rcases hat hq with hq | ⟨hqe,-⟩
    · exact absurd heq (hnew v (List.mem_of_getElem? hq) child child' hu hv)
    · exact hpe.trans hqe.symm

theorem Sole.reachable (h : (walkSystem env cache ref).Reachable c) : Sole c.run.turns := by
  refine Transition.System.invariant (fun c : Config => Sole c.run.turns) ?_ ?_ h
  · intro c₀ h₀
    cases h₀ with
    | named m => exact fun p q t u child child' hp => by simp [Run.pushStack,Run.start] at hp
    | file path bytes hread => exact fun p q t u child child' hp => by simp [Run.start] at hp
  · intro c c' hc hI hs
    rcases hs.turn_cases with hsame | ⟨t,ht,hspliced,-⟩
    · rw [hsame]
      exact hI
    · rw [ht]
      refine hI.snoc ?_
      intro u hu child child' hf hf' heq
      obtain ⟨hstack,hvisited⟩ := hspliced child hf
      rcases (Turned.reachable hc).spliced_met (Identified.reachable hc) hu hf' with hv | hst
      · exact hvisited (heq ▸ hv)
      · exact hstack (heq ▸ hst)

theorem Blocks.leaf {owners stack : List (Option Nat)} {r r' : Run} {fs : List Frame}
    {site : Site} {rs : List ResourceDoc} {todo rest : List Nat} {t : Turn}
    (h : Blocks ⟨r,.walk site rs todo :: fs⟩ owners stack) (hsite : SiteOk env r site rs)
    (hn : r'.st.nodes = r.st.nodes) (ht : r'.turns = r.turns ++ [t])
    (hnode : t.node = site.node) (hleaf : ∀ child, t.fate ≠ .spliced child) :
    ∃ owners' stack', Blocks ⟨r',.walk site rs rest :: fs⟩ owners' stack' := by
  obtain ⟨o,outer,hstack,hlen,hframes,hturns⟩ := h.take rest hsite hn ht hnode
    fun child hf => absurd hf (hleaf child)
  refine ⟨owners ++ [o],stack,?_,hlen,hframes,hturns⟩
  have htrace := h.trace
  rw [hstack] at htrace ⊢
  exact .event htrace

theorem Blocks.splice {owners stack : List (Option Nat)} {r r' : Run} {fs : List Frame}
    {site : Site} {rs : List ResourceDoc} {todo rest : List Nat} {t : Turn} {child : Murl}
    {req : Request} (h : Blocks ⟨r,.walk site rs todo :: fs⟩ owners stack)
    (hsite : SiteOk env r site rs) (hn : r'.st.nodes = r.st.nodes)
    (ht : r'.turns = r.turns ++ [t]) (hnode : t.node = site.node)
    (hspliced : t.fate = .spliced child) (hreq : req.murl = some child)
    (hnew : child.identity ∉ nodeIds r.st)
    (hoff : ∀ f ∈ Frame.walk site rs todo :: fs, f.identity ≠ some child.identity) :
    ∃ owners' stack', Blocks ⟨r',.seek req :: .walk site rs rest :: fs⟩ owners' stack' := by
  obtain ⟨o,outer,hstack,hlen,hframes,hturns⟩ := h.take rest hsite hn ht hnode
    (by
      intro child' hf
      rw [hspliced] at hf
      cases hf
      exact ⟨hnew,hoff⟩)
  refine ⟨owners ++ [o],some owners.length :: stack,?_,hlen,.cons ?_ hframes,hturns⟩
  · have htrace := h.trace
    rw [hstack] at htrace ⊢
    exact .opened htrace
  · have hlength : owners.length = r.turns.length := h.length
    refine ⟨t,child,?_,hspliced,?_⟩
    · rw [ht,hlength]
      simp
    · simp [Frame.identity,Frame.murl,hreq]

theorem Blocks.step {owners stack : List (Option Nat)} (h : Blocks c owners stack)
    (hshape : Shape env ref c) (hids : Identified c) (hturned : Turned env c)
    (hs : Step env c c') : ∃ owners' stack', Blocks c' owners' stack' := by
  cases hs with
  | note => exact ⟨owners,stack,h.keep rfl rfl rfl⟩
  | overBudget => exact ⟨owners,stack,h.keep rfl rfl rfl⟩
  | locate r r' fs req m bytes origin named room got =>
    obtain ⟨⟨ws,hst⟩,-,hturns,-⟩ := (locate_ok got).1
    exact ⟨owners,stack,h.keep (by rw [hst]; rfl) hturns rfl⟩
  | lost r r' fs req m e named room got =>
    obtain ⟨⟨ws,hst⟩,-,hturns,-⟩ := locate_error got
    exact ⟨owners,stack,h.keep (by rw [hst]; rfl) hturns rfl⟩
  | enter => exact ⟨owners,stack,h.enter hturned⟩
  | plan => exact h.leaf hshape.topSite rfl rfl rfl (by simp)
  | duplicate => exact h.leaf hshape.topSite rfl rfl rfl (by simp)
  | diamond => exact h.leaf hshape.topSite rfl rfl rfl (by simp)
  | splice r fs site resources i todo doc child at_ nests offStack unseen =>
    refine h.splice hshape.topSite rfl rfl rfl rfl rfl ?_ ?_
    · intro hmem
      rcases hids.met hmem with hv | hst
      · exact unseen hv
      · exact offStack hst
    · intro f hf hid
      exact offStack (hids.onStack hf hid)
  | close r fs site outer resources rs todo child named =>
    obtain ⟨htrace,hlen,hframes,hturns⟩ := h
    cases hframes with
    | cons ho hrest =>
      cases hrest with
      | cons ho' hrest' => exact ⟨owners,_,.closed htrace,hlen,.cons ho' hrest',hturns⟩

theorem Blocks.reachable (h : (walkSystem env cache ref).Reachable c) :
    ∃ owners stack, Blocks c owners stack := by
  refine Transition.System.invariant (fun c => ∃ owners stack, Blocks c owners stack) ?_ ?_ h
  · intro c₀ h₀
    cases h₀ with
    | named m =>
      refine ⟨[],[none],.start,rfl,.cons ?_ .nil,?_⟩ <;> simp [Opener,Run.pushStack,Run.start]
    | file path bytes hread =>
      refine ⟨[],[none],.start,rfl,.cons ?_ .nil,?_⟩ <;> simp [Opener,Run.start]
  · rintro c₁ c₂ hc ⟨owners,stack,hI⟩ hs
    exact hI.step (Shape.reachable hc) (Identified.reachable hc) (Turned.reachable hc) hs

end Blocks

section Placed

variable {env : Env} {cache : Cache} {ref : TargetRef} {c : Config} {r : Run}

def Echoed (turns : List Turn) : Prop :=
  ∀ (p : Nat) (t : Turn), turns[p]? = some t → t.fate = .duplicate →
    ∃ q u, q < p ∧ turns[q]? = some u ∧ u.fate = .planned ∧
      u.resource.kind = t.resource.kind ∧ u.resource.target = t.resource.target

theorem Matched.turn (h : Matched r) {pr : PlannedResource} (hpr : pr ∈ r.st.resources) :
    ∃ t ∈ r.turns, t.fate = .planned ∧ t.slot = pr.slot := by
  have hmem : pr.slot ∈ (plannedTurns r.turns).map Turn.slot := by
    rw [h]
    exact List.mem_map.mpr ⟨pr,hpr,rfl⟩
  obtain ⟨t,ht,hslot⟩ := List.mem_map.mp hmem
  obtain ⟨hturn,hplanned⟩ := List.mem_filter.mp ht
  exact ⟨t,hturn,by simpa using hplanned,hslot⟩

theorem Echoed.reachable (h : (walkSystem env cache ref).Reachable c) : Echoed c.run.turns := by
  refine Transition.System.invariant (fun c : Config => Echoed c.run.turns) ?_ ?_ h
  · intro c₀ h₀
    cases h₀ with
    | named m => exact fun p t hp => by simp [Run.pushStack,Run.start] at hp
    | file path bytes hread => exact fun p t hp => by simp [Run.start] at hp
  · intro c c' hc hI hs
    rcases hs.turn_cases with hsame | ⟨t,ht,-,hdup⟩
    · rw [hsame]
      exact hI
    · rw [ht]
      intro p u hp hfate
      have hlt : p < (c.run.turns ++ [t]).length := (List.getElem?_eq_some_iff.mp hp).1
      rcases Nat.lt_or_ge p c.run.turns.length with hpl | hpg
      · rw [List.getElem?_append_left hpl] at hp
        obtain ⟨q,v,hqp,hq,hrest⟩ := hI p u hp hfate
        refine ⟨q,v,hqp,?_,hrest⟩
        rw [List.getElem?_append_left (Nat.lt_trans hqp hpl)]
        exact hq
      · have hpeq : p = c.run.turns.length := by
          simp only [List.length_append,List.length_singleton] at hlt
          omega
        subst hpeq
        obtain rfl : t = u := by simpa using hp
        obtain ⟨kind,hkind,hkey⟩ := hdup hfate
        obtain ⟨pr,hpr,heq⟩ := List.mem_map.mp ((Tallied.reachable hc).keys _ hkey)
        obtain ⟨v,hv,hplanned,hslot⟩ := (Matched.reachable hc).turn hpr
        obtain ⟨q,hq⟩ := List.mem_iff_getElem?.mp hv
        have hres : v.resource = pr.resource := congrArg Prod.snd hslot
        obtain ⟨hname,htarget⟩ : pr.kind.toString = kind.toString ∧
            pr.resource.target = t.resource.target := by
          simpa [planKey,dedupKey] using heq
        have hqlt := (List.getElem?_eq_some_iff.mp hq).1
        refine ⟨q,v,hqlt,?_,hplanned,?_,?_⟩
        · rw [List.getElem?_append_left hqlt]
          exact hq
        · rw [hres,← Kind.parse_parsed ((PlanOk.reachable hc).planned pr hpr).kind,hname,
            Kind.parse_parsed hkind]
        · rw [hres,htarget]

theorem PlanOk.slots (h : PlanOk env r) : (r.st.resources.map PlannedResource.slot).Nodup := by
  have hkeys := h.keys
  unfold List.Nodup at hkeys ⊢
  rw [List.pairwise_map] at hkeys ⊢
  refine hkeys.imp_of_mem ?_
  intro a b ha hb hne hslot
  have hres : a.resource = b.resource := congrArg Prod.snd hslot
  have hkind := (h.planned a ha).kind
  rw [hres,(h.planned b hb).kind] at hkind
  obtain hkind : b.kind = a.kind := Except.ok.inj hkind
  exact hne (by simp [planKey,hres,hkind])

theorem Matched.unique (h : Matched r) (hplan : PlanOk env r) {p q : Nat} {t u : Turn}
    (hp : r.turns[p]? = some t) (hq : r.turns[q]? = some u) (ht : t.fate = .planned)
    (hu : u.fate = .planned) (hslot : t.slot = u.slot) : p = q := by
  have hnodup := hplan.slots
  rw [← h] at hnodup
  unfold List.Nodup plannedTurns at hnodup
  rw [List.pairwise_map,List.pairwise_filter,List.pairwise_iff_getElem] at hnodup
  obtain ⟨hpl,hpt⟩ := List.getElem?_eq_some_iff.mp hp
  obtain ⟨hql,hqu⟩ := List.getElem?_eq_some_iff.mp hq
  rcases Nat.lt_trichotomy p q with hlt | heq | hgt
  · exact absurd (by rw [hpt,hqu,hslot]) (hnodup p q hpl hql hlt (by simp [hpt,ht]) (by simp [hqu,hu]))
  · exact heq
  · exact absurd (by rw [hpt,hqu,hslot]) (hnodup q p hql hpl hgt (by simp [hqu,hu]) (by simp [hpt,ht]))

theorem Matched.places (h : Matched r) {plan : List PlannedResource}
    (hsub : plan.Sublist r.st.resources) :
    ∃ f : ℕ ↪o ℕ, ∀ (i : Nat) (pr : PlannedResource), plan[i]? = some pr →
      ∃ t, r.turns[f i]? = some t ∧ t.fate = .planned ∧ t.slot = pr.slot := by
  have hslots : (plan.map PlannedResource.slot).Sublist ((plannedTurns r.turns).map Turn.slot) := by
    rw [h]
    exact hsub.map _
  have hturns : (plannedTurns r.turns).Sublist r.turns := List.filter_sublist
  obtain ⟨f,hf⟩ := List.sublist_iff_exists_orderEmbedding_getElem?_eq.mp hslots
  obtain ⟨g,hg⟩ := List.sublist_iff_exists_orderEmbedding_getElem?_eq.mp hturns
  refine ⟨f.trans g,?_⟩
  intro i pr hi
  have hmap : ((plannedTurns r.turns).map Turn.slot)[f i]? = some pr.slot := by
    rw [← hf i,List.getElem?_map,hi]
    rfl
  rw [List.getElem?_map] at hmap
  obtain ⟨t,ht,hslot⟩ := Option.map_eq_some_iff.mp hmap
  have hplanned := (List.mem_filter.mp (List.mem_of_getElem? ht)).2
  refine ⟨t,?_,by simpa using hplanned,hslot⟩
  rw [← ht]
  exact (hg (f i)).symm

theorem Contributes.covered {owners stack : List (Option Nat)} {k i : Nat}
    {pr : PlannedResource} (h : (walkSystem env cache ref).Reachable c)
    (hb : Blocks c owners stack) (hpr : pr ∈ c.run.st.resources)
    (hc : Contributes c.run.st.nodes c.run.turns k i pr) :
    ∃ p t, c.run.turns[p]? = some t ∧ t.node = k ∧ t.index = i ∧ ∃ q u,
      Nesting.Covers owners p q ∧ c.run.turns[q]? = some u ∧ u.fate = .planned ∧
      u.slot = pr.slot := by
  have hturned := Turned.reachable h
  induction hc with
  | own k i pr node at_ declared placed =>
    obtain ⟨u,hu,hplanned,hslot⟩ := (Matched.reachable h).turn hpr
    obtain ⟨q,hq⟩ := List.mem_iff_getElem?.mp hu
    have hnode : u.node = pr.node := congrArg Prod.fst hslot
    have hres : u.resource = pr.resource := congrArg Prod.snd hslot
    obtain ⟨node',hk,hi⟩ := hturned.at_ u hu
    rw [hnode,placed,at_] at hk
    obtain rfl := Option.some.inj hk
    have hvalid := nodes_valid h node (List.mem_of_getElem? at_)
    rw [hres] at hi
    exact ⟨q,u,hq,by rw [hnode,placed],validate_id_injective hvalid hi declared rfl,q,u,.refl,hq,
      hplanned,hslot⟩
  | nested t child j i pr node taken spliced at_ named inner ih =>
    obtain ⟨p',t',hp',hnode,-,q,u,hcov,hrest⟩ := ih hpr
    obtain ⟨p,hp⟩ := List.mem_iff_getElem?.mp taken
    obtain ⟨o,ho,hopen⟩ := hb.turns p' t' node hp' (by rw [hnode]; exact at_)
    have hself : Opener c.run.turns node.identity (some p) := ⟨t,child,hp,spliced,named⟩
    obtain rfl := hopen.unique (Sole.reachable h) hself
    exact ⟨p,t,hp,rfl,rfl,q,u,.head ho hcov,hrest⟩

theorem Blocks.contributes {owners stack : List (Option Nat)} {p q : Nat} {u : Turn}
    {pr : PlannedResource} (hb : Blocks c owners stack) (hturned : Turned env c)
    (hq : c.run.turns[q]? = some u) (hslot : u.slot = pr.slot) (hc : Nesting.Covers owners p q) :
    ∀ t, c.run.turns[p]? = some t → Contributes c.run.st.nodes c.run.turns t.node t.index pr := by
  induction hc using Relation.ReflTransGen.head_induction_on with
  | refl =>
    intro t ht
    rw [hq] at ht
    obtain rfl := Option.some.inj ht
    obtain ⟨node,hk,hi⟩ := hturned.at_ u (List.mem_of_getElem? hq)
    have hres : u.resource = pr.resource := congrArg Prod.snd hslot
    exact .own _ _ pr node hk (by rw [hi,hres]) (congrArg Prod.fst hslot).symm
  | @head p p' hu _ ih =>
    intro t ht
    have hlt : p' < c.run.turns.length := hb.length ▸ hu.lt_length
    have hp' := List.getElem?_eq_getElem hlt
    obtain ⟨node,hk,-⟩ := hturned.at_ _ (List.mem_of_getElem? hp')
    obtain ⟨o,ho,hopen⟩ := hb.turns p' _ node hp' hk
    unfold Nesting.Under at hu
    rw [hu] at ho
    obtain rfl := Option.some.inj ho
    obtain ⟨t',child,hp,hf,hid⟩ := hopen
    rw [ht] at hp
    obtain rfl := Option.some.inj hp
    exact .nested t child _ _ pr node (List.mem_of_getElem? ht) hf hk hid (ih _ hp')

theorem contributes_iff {plan : List PlannedResource}
    (h : (walkSystem env cache ref).Reachable c) (hsub : plan.Sublist c.run.st.resources) :
    ∃ (f : ℕ ↪o ℕ) (owners stack : List (Option Nat)), Blocks c owners stack ∧
      (∀ (i : Nat) (pr : PlannedResource), plan[i]? = some pr →
        ∃ t, c.run.turns[f i]? = some t ∧ t.fate = .planned ∧ t.slot = pr.slot) ∧
      ∀ (i : Nat) (pr : PlannedResource), plan[i]? = some pr → ∀ k a,
        Contributes c.run.st.nodes c.run.turns k a pr ↔
          ∃ p t, c.run.turns[p]? = some t ∧ t.node = k ∧ t.index = a ∧
            Nesting.Covers owners p (f i) := by
  have hmatched := Matched.reachable h
  obtain ⟨owners,stack,hb⟩ := Blocks.reachable h
  obtain ⟨f,hf⟩ := hmatched.places hsub
  refine ⟨f,owners,stack,hb,hf,?_⟩
  intro i pr hi k a
  obtain ⟨u,hu,hplanned,hslot⟩ := hf i pr hi
  constructor
  · intro hc
    obtain ⟨p,t,hp,hk,ha,q,v,hcov,hq,hv,hvslot⟩ :=
      hc.covered h hb (hsub.subset (List.mem_of_getElem? hi))
    obtain rfl := hmatched.unique (PlanOk.reachable h) hq hu hv hplanned (hvslot.trans hslot.symm)
    exact ⟨p,t,hp,hk,ha,hcov⟩
  · rintro ⟨p,t,hp,rfl,rfl,hcov⟩
    exact hb.contributes (Turned.reachable h) hu hslot hcov t hp

end Placed

section Ordered

variable {env : Env} {cache : Cache} {ref : TargetRef} {c : Config}

theorem Blocks.before {owners stack : List (Option Nat)} {p p' q : Nat} {t t' : Turn}
    (hb : Blocks c owners stack) (h : (walkSystem env cache ref).Reachable c)
    (hp : c.run.turns[p]? = some t) (hp' : c.run.turns[p']? = some t') (hnode : t.node = t'.node)
    (hlt : p < p') (hcov : Nesting.Covers owners p q) : q < p' := by
  obtain ⟨node,hk,-⟩ := (Turned.reachable h).at_ t (List.mem_of_getElem? hp)
  obtain ⟨o,ho,hopen⟩ := hb.turns p t node hp hk
  obtain ⟨o',ho',hopen'⟩ := hb.turns p' t' node hp' (by rw [← hnode]; exact hk)
  obtain rfl := hopen.unique (Sole.reachable h) hopen'
  exact hb.trace.before ho ho' hlt hcov

theorem echoed_entry {p : Nat} {t : Turn} (h : (walkSystem env cache ref).Reachable c)
    (hp : c.run.turns[p]? = some t) (hfate : t.fate = .duplicate) :
    ∃ q u pr, q < p ∧ c.run.turns[q]? = some u ∧ u.fate = .planned ∧
      pr ∈ c.run.st.resources ∧ u.slot = pr.slot ∧ SamePair t.resource pr := by
  obtain ⟨q,u,hqp,hq,hu,hkind,htarget⟩ := Echoed.reachable h p t hp hfate
  obtain ⟨pr,hpr,hprnode,hprres⟩ := (Matched.reachable h).entry (List.mem_of_getElem? hq) hu
  refine ⟨q,u,pr,hqp,hq,hu,hpr,?_,?_,by rw [hprres,htarget]⟩
  · unfold Turn.slot PlannedResource.slot
    rw [hprnode,hprres]
  · have hparsed := ((PlanOk.reachable h).planned pr hpr).kind
    rw [hprres,hkind] at hparsed
    exact hparsed

theorem pair_unique {t : ResourceDoc} {x y : PlannedResource}
    (h : (walkSystem env cache ref).Reachable c) (hx : x ∈ c.run.st.resources)
    (hy : y ∈ c.run.st.resources) (hpx : SamePair t x) (hpy : SamePair t y) : x = y := by
  refine List.inj_on_of_nodup_map (PlanOk.reachable h).keys hx hy ?_
  have hkinds : x.kind = y.kind := Except.ok.inj (hpx.1.symm.trans hpy.1)
  simp [planKey,hkinds,hpx.2,hpy.2]

theorem reachable_ordered {selector : Option (List SelectorItem)} {res : Resolution}
    (h : (walkSystem env cache ref).Reachable c) (hnodes : res.nodes = c.run.st.nodes)
    (hsub : res.resources.Sublist c.run.st.resources)
    (hfull : selector = none → res.resources = c.run.st.resources) :
    Ordered selector c.run.turns res := by
  have hturned := Turned.reachable h
  have hpaced := Paced.reachable h
  have hplan := PlanOk.reachable h
  have hmatched := Matched.reachable h
  obtain ⟨f,owners,stack,hb,hplaced,hiff⟩ := contributes_iff h hsub
  refine ⟨?_,?_,?_⟩
  · intro k node hk a b hd x _ y _ hcx hcy i j hi hj
    rw [hnodes] at hk hcx hcy
    obtain ⟨p,t,hp,rfl,rfl,hcov⟩ := (hiff i x hi _ _).mp hcx
    obtain ⟨p',t',hp',hnode,rfl,hcov'⟩ := (hiff j y hj _ _).mp hcy
    have hvalid := nodes_valid h node (List.mem_of_getElem? hk)
    have hlt := hpaced.sooner hvalid hk hp' hnode hp rfl hd
    have hstart := hb.before h hp hp' hnode.symm hlt hcov
    exact f.lt_iff_lt.mp (Nat.lt_of_lt_of_le hstart (hb.trace.covers_le hcov'))
  · intro k node hk a b hd t ht htk htb hfate
    rw [hnodes] at hk ⊢
    obtain ⟨p,hp⟩ := List.mem_iff_getElem?.mp ht
    obtain ⟨q,u,pr,hqp,hq,hu,hpr,huslot,hpair⟩ := echoed_entry h hp hfate
    refine ⟨fun hnone => ⟨pr,by rw [hfull hnone]; exact hpr,hpair⟩,?_⟩
    intro x hx y _ hpx hcy i j hi hj
    obtain rfl := pair_unique h hpr (hsub.subset hx) hpair hpx
    obtain ⟨v,hv,hvplanned,hvslot⟩ := hplaced i pr hi
    obtain rfl := hmatched.unique hplan hq hv hu hvplanned (huslot.trans hvslot.symm)
    obtain ⟨p',t',hp',hnode,rfl,hcov'⟩ := (hiff j y hj _ _).mp hcy
    have hvalid := nodes_valid h node (List.mem_of_getElem? hk)
    have hlt := hpaced.sooner hvalid hk hp' hnode hp htk (htb ▸ hd)
    have hle := hb.trace.covers_le hcov'
    exact f.lt_iff_lt.mp (by omega)
  · intro k a i₁ i₂ i₃ x y z h12 h23 hx hy hz hcx hcz
    rw [hnodes] at hcx hcz ⊢
    obtain ⟨p,t,hp,rfl,rfl,hcov⟩ := (hiff i₁ x hx _ _).mp hcx
    obtain ⟨p',t',hp',hnode,hindex,hcov'⟩ := (hiff i₃ z hz _ _).mp hcz
    obtain ⟨node,hk,-⟩ := hturned.at_ t (List.mem_of_getElem? hp)
    obtain rfl := hpaced.once hk hp hp' hnode.symm hindex.symm
    have hle := hb.trace.covers_le hcov
    have hmid := hb.trace.interval p (f i₂) (f i₃) hcov'
      (Nat.le_trans hle (f.le_iff_le.mpr h12)) (f.le_iff_le.mpr h23)
    exact (hiff i₂ y hy _ _).mpr ⟨p,t,hp,rfl,rfl,hmid⟩

theorem finish_full {st : State} {res : Resolution} {selector : Option (List SelectorItem)}
    (h : finish st selector = .ok res) (hnone : selector = none) :
    res.resources = st.resources := by
  subst hnone
  obtain rfl : _ = res := by simpa [finish] using h
  rfl

theorem Finished.ordered {r : Run} {res : Resolution} (h : Finished env cache ref r)
    (hres : finish r.st ref.selector = .ok res) : Ordered ref.selector r.turns res := by
  obtain ⟨hnodes,-,hsub⟩ := finish_ok hres
  have hfull := finish_full hres
  cases h with
  | all r stack site rs h => exact reachable_ordered h hnodes hsub hfull

theorem resolveRef_ordered (env : Env) (cache : Cache) (ref : TargetRef) :
    wp (resolveRef env ref) (fun res r => Ordered ref.selector r.turns res) (fun _ _ => True)
      (Run.start cache) := by
  refine wp_mono (resolveRef_spec env cache ref) ?_ (fun _ _ _ => trivial)
  rintro res r ⟨hfinished,hres⟩
  exact hfinished.ordered hres

end Ordered

end MurlSystem
