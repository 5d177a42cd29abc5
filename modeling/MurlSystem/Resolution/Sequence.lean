import MurlSystem.Resolution.Produced
import MurlSystem.Resolution.Spliced

namespace MurlSystem

open Program

def DependsOn (rs : List ResourceDoc) (a b : Nat) : Prop :=
  ∃ ra rb, rs[a]? = some ra ∧ rs[b]? = some rb ∧ rb.id ∈ ra.dependsOn

section Depends

variable {crates : Crates} {m : Manifest}

theorem validate_at (h : (m.validate crates).errors = []) {i : Nat} {r : ResourceDoc}
    (hi : m.doc.resources[i]? = some r) :
    (validateResource crates m.doc.resources (m.doc.resources.take i) r).errors = [] := by
  obtain ⟨hlt,rfl⟩ := List.getElem?_eq_some_iff.mp hi
  have hsplit : m.doc.resources =
      m.doc.resources.take i ++ m.doc.resources[i] :: m.doc.resources.drop (i + 1) := by
    rw [List.getElem_cons_drop,List.take_append_drop]
  have heach := validateEach_errors_nil (validate_each h) hsplit
  simpa using heach

theorem validate_id_injective (h : (m.validate crates).errors = []) {i j : Nat}
    {ri rj : ResourceDoc} (hi : m.doc.resources[i]? = some ri)
    (hj : m.doc.resources[j]? = some rj) (heq : ri.id = rj.id) : i = j := by
  have hearlier : ∀ {i j : Nat} {ri rj : ResourceDoc}, m.doc.resources[i]? = some ri →
      m.doc.resources[j]? = some rj → i < j → ri.id ≠ rj.id := by
    intro i j ri rj hi hj hlt
    refine (validateResource_id (validate_at h hj)).2 ri ?_
    exact List.mem_iff_getElem?.mpr ⟨i,by rw [List.getElem?_take_of_lt hlt]; exact hi⟩
  rcases Nat.lt_trichotomy i j with hlt | hsame | hgt
  · exact absurd heq (hearlier hi hj hlt)
  · exact hsame
  · exact absurd heq.symm (hearlier hj hi hgt)

theorem validateDepends_other {p : String → String} {all : List ResourceDoc} {r : ResourceDoc}
    (h : (validateDepends p all r).errors = []) : r.id ∉ r.dependsOn := by
  intro hmem
  simp only [validateDepends,ValidationReport.append_errors,List.append_eq_nil_iff,
    ValidationReport.concat_errors_nil,List.forall_mem_map] at h
  have hself := h.2 r.id hmem
  simp at hself

theorem validateResource_depends {all earlier : List ResourceDoc} {r : ResourceDoc}
    (h : (validateResource crates all earlier r).errors = []) : r.id ∉ r.dependsOn := by
  simp only [validateResource,ValidationReport.append_errors,List.append_eq_nil_iff] at h
  exact validateDepends_other h.1.2

theorem DependsOn.mem_depsOf (h : (m.validate crates).errors = []) {a b : Nat}
    (hd : DependsOn m.doc.resources a b) : b ∈ depsOf m.doc.resources a := by
  obtain ⟨ra,rb,ha,hb,hdep⟩ := hd
  have hne : b ≠ a := by
    rintro rfl
    rw [ha] at hb
    obtain rfl := Option.some.inj hb
    exact validateResource_depends (validate_at h ha) hdep
  have hindex : indexOf m.doc.resources rb.id = some b := by
    obtain ⟨hlt,hget⟩ := List.getElem?_eq_some_iff.mp hb
    unfold indexOf
    rw [List.findIdx?_eq_some_iff_getElem]
    refine ⟨hlt,by simp [hget],?_⟩
    intro j hj
    have hjlt := Nat.lt_trans hj hlt
    have hother : m.doc.resources[j].id ≠ rb.id := fun heq =>
      Nat.ne_of_lt hj (validate_id_injective h (List.getElem?_eq_getElem hjlt) hb heq)
    simpa using hother
  unfold depsOf
  rw [ha]
  refine List.mem_filter.mpr ⟨?_,by simpa using hne⟩
  exact List.mem_filterMap.mpr ⟨rb.id,hdep,hindex⟩

theorem OrderedSoFar.before {out : List Nat} (h : OrderedSoFar m.doc.resources out)
    (hvalid : (m.validate crates).errors = []) {a b : Nat}
    (hd : Relation.TransGen (DependsOn m.doc.resources) a b) :
    ∀ pre post, out = pre ++ a :: post → b ∈ pre := by
  induction hd with
  | single hab => exact fun pre post he => h.depsFirst pre _ post he _ (hab.mem_depsOf hvalid)
  | tail _ hbc ih =>
    intro pre post he
    obtain ⟨pre',mid,rfl⟩ := List.append_of_mem (ih pre post he)
    have hc := h.depsFirst pre' _ (mid ++ _ :: post) (by simpa using he) _
      (hbc.mem_depsOf hvalid)
    exact List.mem_append_left _ hc

theorem OrderedSoFar.pairwise {out : List Nat} (h : OrderedSoFar m.doc.resources out)
    (hvalid : (m.validate crates).errors = []) :
    out.Pairwise fun a b => ¬Relation.TransGen (DependsOn m.doc.resources) a b := by
  rw [List.pairwise_iff_forall_sublist]
  intro a b hsub hd
  obtain ⟨left,right,rfl,ha,hb⟩ := List.cons_sublist_iff.mp hsub
  obtain ⟨pre,post,rfl⟩ := List.append_of_mem ha
  have hpre := h.before hvalid hd pre (post ++ right) (by simp)
  have hright : b ∈ right := List.singleton_sublist.mp hb
  have hdisj := (List.nodup_append.mp h.nodup).2.2
  exact hdisj b (by simp [hpre]) b hright rfl

theorem executionOrder_irrefl {order : List Nat}
    (hvalid : (m.validate crates).errors = [])
    (h : executionOrder m.doc.resources = .ok order) (a : Nat) :
    ¬Relation.TransGen (DependsOn m.doc.resources) a a := by
  intro hd
  have hlt : a < m.doc.resources.length := by
    obtain ⟨_,⟨ra,_,ha,_⟩,-⟩ := Relation.TransGen.head'_iff.mp hd
    exact (List.getElem?_eq_some_iff.mp ha).1
  obtain ⟨ho,-⟩ := executionOrder_ordered h
  obtain ⟨pre,post,rfl⟩ := List.append_of_mem ((executionOrder_mem h a).mpr hlt)
  have hpre := ho.before hvalid hd pre post rfl
  have hdisj := (List.nodup_append.mp ho.nodup).2.2
  exact hdisj a hpre a List.mem_cons_self rfl

end Depends

def indicesAt (turns : List Turn) (k : Nat) : List Nat :=
  (turns.filter fun t => t.node == k).map Turn.index

def Frame.node? : Frame → Option Nat
  | .walk site _ _ => some site.node
  | .seek _ | .found _ _ _ => none

structure Paced (c : Config) : Prop where
  walked : ∀ site rs todo, .walk site rs todo ∈ c.frames →
    executionOrder rs = .ok (indicesAt c.run.turns site.node ++ todo)
  taken : ∀ k node, c.run.st.nodes[k]? = some node →
    ∃ rest, executionOrder node.manifest.doc.resources = .ok (indicesAt c.run.turns k ++ rest)
  apart : (c.frames.filterMap Frame.node?).Nodup

section Paced

variable {env : Env} {cache : Cache} {ref : TargetRef} {c c' : Config}

theorem indicesAt_self (turns : List Turn) (t : Turn) :
    indicesAt (turns ++ [t]) t.node = indicesAt turns t.node ++ [t.index] := by
  simp [indicesAt]

theorem indicesAt_other (turns : List Turn) {t : Turn} {k : Nat} (h : t.node ≠ k) :
    indicesAt (turns ++ [t]) k = indicesAt turns k := by
  simp [indicesAt,h]

theorem Frame.node_pending {f : Frame} (h : f.isPending = true) : f.node? = none := by
  cases f with
  | seek => rfl
  | found => rfl
  | walk => cases h

theorem Paced.keep {r' : Run} (h : Paced c) (hn : r'.st.nodes = c.run.st.nodes)
    (ht : r'.turns = c.run.turns) : Paced ⟨r',c.frames⟩ := by
  refine ⟨?_,?_,h.apart⟩
  · rw [ht]
    exact h.walked
  · rw [hn,ht]
    exact h.taken

theorem Paced.found {r r' : Run} {fs : List Frame} {req : Request} {bytes : Bytes}
    {origin : Origin} (h : Paced ⟨r,.seek req :: fs⟩) (hn : r'.st.nodes = r.st.nodes)
    (ht : r'.turns = r.turns) : Paced ⟨r',.found req bytes origin :: fs⟩ := by
  have hkeep := h.keep hn ht
  refine ⟨?_,hkeep.taken,hkeep.apart⟩
  intro site rs todo hf
  rcases List.mem_cons.mp hf with hf | hf
  · cases hf
  · exact hkeep.walked site rs todo (List.mem_cons_of_mem _ hf)

theorem Paced.take {r r' : Run} {fs : List Frame} {site : Site} {rs : List ResourceDoc}
    {i : Nat} {todo : List Nat} {t : Turn} (opened : List Frame)
    (h : Paced ⟨r,.walk site rs (i :: todo) :: fs⟩) (hsite : SiteOk env r site rs)
    (hopened : ∀ f ∈ opened, f.isPending = true) (hn : r'.st.nodes = r.st.nodes)
    (ht : r'.turns = r.turns ++ [t]) (hnode : t.node = site.node) (hindex : t.index = i) :
    Paced ⟨r',opened ++ .walk site rs todo :: fs⟩ := by
  have hself : executionOrder rs = .ok (indicesAt r'.turns site.node ++ todo) := by
    rw [ht,← hnode,indicesAt_self,hindex,hnode,List.append_assoc]
    exact h.walked site rs (i :: todo) List.mem_cons_self
  have happart := List.nodup_cons.mp h.apart
  refine ⟨?_,?_,?_⟩
  · intro s rs' todo' hf
    rcases List.mem_append.mp hf with hf | hf
    · cases hopened _ hf
    · rcases List.mem_cons.mp hf with hf | hf
      · obtain ⟨rfl,rfl,rfl⟩ : s = site ∧ rs' = rs ∧ todo' = todo := by simpa using hf
        exact hself
      · have hne : t.node ≠ s.node := by
          intro heq
          exact happart.1 (List.mem_filterMap.mpr ⟨_,hf,by rw [← hnode,heq]; rfl⟩)
        rw [ht,indicesAt_other _ hne]
        exact h.walked s rs' todo' (List.mem_cons_of_mem _ hf)
  · intro k node hk
    rw [hn] at hk
    by_cases hkey : t.node = k
    · obtain ⟨node',hnode',hrs,-⟩ := hsite.node
      rw [← hnode,hkey,hk] at hnode'
      obtain rfl := Option.some.inj hnode'
      refine ⟨todo,?_⟩
      rw [hrs,hself,← hnode,hkey]
    · rw [ht,indicesAt_other _ hkey]
      exact h.taken k node hk
  · have hnone : opened.filterMap Frame.node? = [] :=
      List.filterMap_eq_nil_iff.mpr fun f hf => Frame.node_pending (hopened f hf)
    rw [List.filterMap_append,hnone]
    exact h.apart

theorem Paced.enter {r : Run} {fs : List Frame} {req : Request} {bytes : Bytes} {origin : Origin}
    {node : ResolvedNode} {order : List Nat} {call : Call}
    (h : Paced ⟨r,.found req bytes origin :: fs⟩)
    (hshape : Shape env ref ⟨r,.found req bytes origin :: fs⟩)
    (hturned : Turned env ⟨r,.found req bytes origin :: fs⟩)
    (hord : executionOrder node.manifest.doc.resources = .ok order) :
    Paced ⟨r.pushNode node call,
      .walk (req.site origin r.st.nodes.length) node.manifest.doc.resources order :: fs⟩ := by
  have hnone : indicesAt r.turns r.st.nodes.length = [] := by
    refine List.map_eq_nil_iff.mpr (List.filter_eq_nil_iff.mpr ?_)
    intro t ht heq
    obtain ⟨n,hn,-⟩ := hturned.at_ t ht
    have hlt : t.node < r.st.nodes.length := (List.getElem?_eq_some_iff.mp hn).1
    have heq : t.node = r.st.nodes.length := by simpa using heq
    omega
  refine ⟨?_,?_,?_⟩
  · intro s rs todo hf
    rcases List.mem_cons.mp hf with hf | hf
    · obtain ⟨rfl,rfl,rfl⟩ : s = req.site origin r.st.nodes.length ∧
        rs = node.manifest.doc.resources ∧ todo = order := by simpa using hf
      change _ = Except.ok (indicesAt r.turns r.st.nodes.length ++ todo)
      rw [hnone]
      exact hord
    · exact h.walked s rs todo (List.mem_cons_of_mem _ hf)
  · intro k n hk
    change (r.st.nodes ++ [node])[k]? = some n at hk
    change ∃ rest, _ = Except.ok (indicesAt r.turns k ++ rest)
    rcases Nat.lt_or_ge k r.st.nodes.length with hlt | hge
    · rw [List.getElem?_append_left hlt] at hk
      exact h.taken k n hk
    · have hlen : k < (r.st.nodes ++ [node]).length := (List.getElem?_eq_some_iff.mp hk).1
      have hkeq : k = r.st.nodes.length := by
        simp only [List.length_append,List.length_singleton] at hlen
        omega
      subst hkeq
      obtain rfl : node = n := by simpa using hk
      exact ⟨order,by rw [hnone]; exact hord⟩
  · refine List.nodup_cons.mpr ⟨?_,h.apart⟩
    intro hmem
    obtain ⟨f,hf,hnode⟩ := List.mem_filterMap.mp hmem
    have hok := hshape.frames f (List.mem_cons_of_mem _ hf)
    cases f with
    | seek => cases hnode
    | found => cases hnode
    | walk s rs todo =>
      obtain ⟨n,hn,-⟩ := SiteOk.node hok
      obtain hs : s.node = r.st.nodes.length := Option.some.inj hnode
      have hlt : s.node < r.st.nodes.length := (List.getElem?_eq_some_iff.mp hn).1
      omega

theorem Paced.step (h : Paced c) (hshape : Shape env ref c) (hturned : Turned env c)
    (hs : Step env c c') : Paced c' := by
  cases hs with
  | note => exact h.keep rfl rfl
  | overBudget => exact h.keep rfl rfl
  | locate r r' fs req m bytes origin named room got =>
    obtain ⟨⟨ws,hst⟩,-,hturns,-⟩ := (locate_ok got).1
    exact h.found (by rw [hst]; rfl) hturns
  | lost r r' fs req m e named room got =>
    obtain ⟨⟨ws,hst⟩,-,hturns,-⟩ := locate_error got
    exact h.keep (by rw [hst]; rfl) hturns
  | enter r fs req bytes origin node order pin admitted ordered =>
    exact h.enter hshape hturned ordered
  | plan => exact h.take [] hshape.topSite (by simp) rfl rfl rfl rfl
  | duplicate => exact h.take [] hshape.topSite (by simp) rfl rfl rfl rfl
  | diamond => exact h.take [] hshape.topSite (by simp) rfl rfl rfl rfl
  | splice r fs site resources i todo doc child =>
    refine h.take [.seek (site.request doc child)] hshape.topSite ?_ rfl rfl rfl rfl
    simp [Frame.isPending]
  | close =>
    refine ⟨fun s rs todo hf => ?_,h.taken,(List.nodup_cons.mp h.apart).2⟩
    exact h.walked s rs todo (List.mem_cons_of_mem _ hf)

theorem Paced.reachable (h : (walkSystem env cache ref).Reachable c) : Paced c := by
  refine Transition.System.invariant Paced ?_ ?_ h
  · intro c₀ h₀
    cases h₀ with
    | named m => refine ⟨?_,?_,List.nodup_nil⟩ <;> simp [Run.pushStack,Run.start]
    | file path bytes hread => refine ⟨?_,?_,List.nodup_nil⟩ <;> simp [Run.start]
  · intro c₁ c₂ hc hI hs
    exact hI.step (Shape.reachable hc) (Turned.reachable hc) hs

theorem Paced.sooner {k p q : Nat} {t u : Turn} {node : ResolvedNode} (h : Paced c)
    (hvalid : (node.manifest.validate env.crates).errors = [])
    (hk : c.run.st.nodes[k]? = some node) (hp : c.run.turns[p]? = some t) (htk : t.node = k)
    (hq : c.run.turns[q]? = some u) (huk : u.node = k)
    (hd : Relation.TransGen (DependsOn node.manifest.doc.resources) t.index u.index) : q < p := by
  obtain ⟨rest,hord⟩ := h.taken k node hk
  obtain ⟨ho,-⟩ := executionOrder_ordered hord
  have hpair := (List.pairwise_append.mp (ho.pairwise hvalid)).1
  unfold indicesAt at hpair
  rw [List.pairwise_map,List.pairwise_filter,List.pairwise_iff_getElem] at hpair
  obtain ⟨hplt,hpt⟩ := List.getElem?_eq_some_iff.mp hp
  obtain ⟨hqlt,hqu⟩ := List.getElem?_eq_some_iff.mp hq
  by_contra hge
  rcases Nat.eq_or_lt_of_le (Nat.not_lt.mp hge) with heq | hlt
  · subst heq
    rw [hp] at hq
    obtain rfl := Option.some.inj hq
    exact executionOrder_irrefl hvalid hord _ hd
  · have hnot := hpair p q hplt hqlt hlt (by simp [hpt,htk]) (by simp [hqu,huk])
    rw [hpt,hqu] at hnot
    exact hnot hd

theorem Paced.once {p q : Nat} {t u : Turn} {node : ResolvedNode} (h : Paced c)
    (hk : c.run.st.nodes[t.node]? = some node) (hp : c.run.turns[p]? = some t)
    (hq : c.run.turns[q]? = some u) (hnode : t.node = u.node) (hindex : t.index = u.index) :
    p = q := by
  obtain ⟨rest,hord⟩ := h.taken t.node node hk
  obtain ⟨ho,-⟩ := executionOrder_ordered hord
  have hpair := (List.nodup_append.mp ho.nodup).1
  unfold indicesAt List.Nodup at hpair
  rw [List.pairwise_map,List.pairwise_filter,List.pairwise_iff_getElem] at hpair
  obtain ⟨hplt,hpt⟩ := List.getElem?_eq_some_iff.mp hp
  obtain ⟨hqlt,hqu⟩ := List.getElem?_eq_some_iff.mp hq
  rcases Nat.lt_trichotomy p q with hlt | heq | hgt
  · exact absurd (by rw [hpt,hqu,hindex])
      (hpair p q hplt hqlt hlt (by simp [hpt]) (by simp [hqu,hnode]))
  · exact heq
  · exact absurd (by rw [hpt,hqu,hindex])
      (hpair q p hqlt hplt hgt (by simp [hqu,hnode]) (by simp [hpt]))

end Paced

end MurlSystem
