import MurlSystem.Resolution.Pins

namespace MurlSystem

open Program

structure Accounted (res : Resolution) : Prop where
  named : ∀ node ∈ res.nodes, ∀ doc ∈ node.manifest.doc.resources,
    Kind.parse doc.kind = .ok .murl → ∃ child, Murl.parse doc.target = .ok child ∧
      ∃! k : Nat, ∃ n : ResolvedNode, res.nodes[k]? = some n ∧ n.identity = some child.identity
  pairs : ∀ kind target,
    (∃ pr ∈ res.resources, pr.kind = kind ∧ pr.resource.target = target) ↔
      kind ≠ .murl ∧ ∃ node ∈ res.nodes, ∃ doc ∈ node.manifest.doc.resources,
        Kind.parse doc.kind = .ok kind ∧ doc.target = target
  once : (res.resources.map fun pr => (pr.kind,pr.resource.target)).Nodup
  tier : ∀ pr ∈ res.resources, pr.tier = classify pr.kind pr.resource.target
  declared : ∀ pr ∈ res.resources, ∃ node, res.nodes[pr.node]? = some node ∧
    pr.resource ∈ node.manifest.doc.resources ∧ Kind.parse pr.resource.kind = .ok pr.kind

def Represented (st : State) (doc : ResourceDoc) : Prop :=
  ∃ kind, Kind.parse doc.kind = .ok kind ∧ dedupKey kind doc ∈ st.resources.map planKey

structure Tallied (c : Config) : Prop where
  keys : ∀ key ∈ c.run.st.dedup, key ∈ c.run.st.resources.map planKey
  leaves : ∀ t ∈ c.run.turns, t.fate = .planned ∨ t.fate = .duplicate →
    Represented c.run.st t.resource

section Tally

variable {env : Env} {cache : Cache} {ref : TargetRef} {c c' : Config}

theorem Tallied.keep {r r' : Run} {fs fs' : List Frame} (h : Tallied ⟨r,fs⟩)
    (hr : r'.st.resources = r.st.resources) (hd : r'.st.dedup = r.st.dedup)
    (ht : r'.turns = r.turns) : Tallied ⟨r',fs'⟩ := by
  constructor
  · rw [hr,hd]
    exact h.keys
  · unfold Represented
    rw [hr,ht]
    exact h.leaves

theorem Tallied.pass {r r' : Run} {fs fs' : List Frame} {t : Turn} (h : Tallied ⟨r,fs⟩)
    (hr : r'.st.resources = r.st.resources) (hd : r'.st.dedup = r.st.dedup)
    (ht : r'.turns = r.turns ++ [t])
    (hleaf : t.fate = .planned ∨ t.fate = .duplicate → Represented r.st t.resource) :
    Tallied ⟨r',fs'⟩ := by
  constructor
  · rw [hr,hd]
    exact h.keys
  · intro t' hmem hfate
    unfold Represented
    rw [hr]
    rw [ht] at hmem
    rcases List.mem_append.mp hmem with hmem | hmem
    · exact h.leaves t' hmem hfate
    · obtain rfl := List.mem_singleton.mp hmem
      exact hleaf hfate

theorem Tallied.plan {r : Run} {fs fs' : List Frame} {site : Site} {i : Nat} {doc : ResourceDoc}
    {kind : Kind} (h : Tallied ⟨r,fs⟩) (hparsed : Kind.parse doc.kind = .ok kind) :
    Tallied ⟨(r.plan (dedupKey kind doc)
        ⟨doc,kind,classify kind doc.target,site.node,site.anchorOf doc,none⟩).turn
        ⟨site.node,i,doc,site.anchorOf doc,.planned⟩,fs'⟩ := by
  have hmore : ∀ key, key ∈ r.st.resources.map planKey ∨ key = dedupKey kind doc →
      key ∈ (r.st.resources ++ [(⟨doc,kind,classify kind doc.target,site.node,site.anchorOf doc,
        none⟩ : PlannedResource)]).map planKey := by
    intro key hkey
    rw [List.map_append,List.mem_append]
    rcases hkey with hkey | rfl
    · exact .inl hkey
    · exact .inr (by simp [planKey,dedupKey])
  constructor
  · intro key hkey
    rcases List.mem_cons.mp hkey with rfl | hkey
    · exact hmore _ (.inr rfl)
    · exact hmore key (.inl (h.keys key hkey))
  · intro t hmem hfate
    rcases List.mem_append.mp hmem with hmem | hmem
    · obtain ⟨k,hk,hkey⟩ := h.leaves t hmem hfate
      exact ⟨k,hk,hmore _ (.inl hkey)⟩
    · obtain rfl := List.mem_singleton.mp hmem
      exact ⟨kind,hparsed,hmore _ (.inr rfl)⟩

theorem Tallied.step (h : Tallied c) (hs : Step env c c') : Tallied c' := by
  cases hs with
  | note => exact h.keep rfl rfl rfl
  | overBudget => exact h.keep rfl rfl rfl
  | locate r r' fs req m bytes origin named room got =>
    obtain ⟨⟨ws,hst⟩,-,hturns,-⟩ := (locate_ok got).1
    exact h.keep (by rw [hst]; rfl) (by rw [hst]; rfl) hturns
  | lost r r' fs req m e named room got =>
    obtain ⟨⟨ws,hst⟩,-,hturns,-⟩ := locate_error got
    exact h.keep (by rw [hst]; rfl) (by rw [hst]; rfl) hturns
  | enter => exact h.keep rfl rfl rfl
  | plan r fs site resources i todo doc kind at_ parsed leaf room fresh => exact h.plan parsed
  | duplicate r fs site resources i todo doc kind at_ parsed leaf seen =>
    exact h.pass rfl rfl rfl fun _ => ⟨kind,parsed,h.keys _ seen⟩
  | diamond => exact h.pass rfl rfl rfl (by rintro (hf | hf) <;> cases hf)
  | splice => exact h.pass rfl rfl rfl (by rintro (hf | hf) <;> cases hf)
  | close => exact h.keep rfl rfl rfl

theorem Tallied.reachable (h : (walkSystem env cache ref).Reachable c) : Tallied c := by
  refine Transition.System.invariant Tallied ?_ (fun _ _ _ hI hs => hI.step hs) h
  intro c₀ h₀
  cases h₀ with
  | named m => constructor <;> simp [Run.pushStack,Run.start]
  | file path bytes hread => constructor <;> simp [Run.start]

end Tally

section Planned

variable {env : Env} {cache : Cache} {ref : TargetRef} {c c' : Config}

def plannedTurns (turns : List Turn) : List Turn := turns.filter fun t => t.fate == .planned

def Turn.slot (t : Turn) : Nat × ResourceDoc := (t.node,t.resource)

def PlannedResource.slot (pr : PlannedResource) : Nat × ResourceDoc := (pr.node,pr.resource)

def Matched (r : Run) : Prop :=
  (plannedTurns r.turns).map Turn.slot = r.st.resources.map PlannedResource.slot

theorem Matched.step (h : Matched c.run) (hs : Step env c c') : Matched c'.run := by
  unfold Matched at h ⊢
  cases hs with
  | plan r fs site resources i todo doc kind at_ parsed leaf room fresh =>
    simpa [plannedTurns,Run.turn,Run.plan,Turn.slot,PlannedResource.slot] using h
  | duplicate => simpa [plannedTurns,Run.turn] using h
  | diamond => simpa [plannedTurns,Run.turn] using h
  | splice => simpa [plannedTurns,Run.turn,Run.pushStack] using h
  | locate r r' fs req m bytes origin named room got =>
    obtain ⟨⟨ws,hst⟩,-,hturns,-⟩ := (locate_ok got).1
    rw [hst,hturns]
    exact h
  | lost r r' fs req m e named room got =>
    obtain ⟨⟨ws,hst⟩,-,hturns,-⟩ := locate_error got
    rw [hst,hturns]
    exact h
  | note => exact h
  | overBudget => exact h
  | enter => exact h
  | close => exact h

theorem Matched.reachable (h : (walkSystem env cache ref).Reachable c) : Matched c.run := by
  refine Transition.System.invariant (fun c : Config => Matched c.run) ?_
    (fun _ _ _ hI hs => hI.step hs) h
  intro c₀ h₀
  cases h₀ with
  | named m => rfl
  | file path bytes hread => rfl

theorem Matched.entry {r : Run} {t : Turn} (h : Matched r) (ht : t ∈ r.turns)
    (hf : t.fate = .planned) :
    ∃ pr ∈ r.st.resources, pr.node = t.node ∧ pr.resource = t.resource := by
  have hmem : t.slot ∈ r.st.resources.map PlannedResource.slot := by
    rw [← h]
    exact List.mem_map.mpr ⟨t,List.mem_filter.mpr ⟨ht,by simp [hf]⟩,rfl⟩
  obtain ⟨pr,hpr,hslot⟩ := List.mem_map.mp hmem
  obtain ⟨hnode,hres⟩ := Prod.mk.inj hslot
  exact ⟨pr,hpr,hnode,hres⟩

end Planned

section Accounted

variable {env : Env} {cache : Cache} {ref : TargetRef}

theorem identity_index {nodes : List ResolvedNode} {i j : Nat} {a b : ResolvedNode} {id : String}
    (h : (nodes.filterMap ResolvedNode.identity).Nodup) (hi : nodes[i]? = some a)
    (hj : nodes[j]? = some b) (ha : a.identity = some id) (hb : b.identity = some id) : i = j := by
  have hpair := List.pairwise_iff_getElem.mp (List.pairwise_filterMap.mp h)
  obtain ⟨hilt,rfl⟩ := List.getElem?_eq_some_iff.mp hi
  obtain ⟨hjlt,rfl⟩ := List.getElem?_eq_some_iff.mp hj
  rcases Nat.lt_trichotomy i j with hlt | heq | hgt
  · exact absurd rfl (hpair i j hilt hjlt hlt id ha id hb)
  · exact heq
  · exact absurd rfl (hpair j i hjlt hilt hgt id hb id ha)

theorem Turned.turnOf {r : Run} {site : Site} {rs : List ResourceDoc} {node : ResolvedNode}
    {doc : ResourceDoc} (h : Turned env ⟨r,[.walk site rs []]⟩) (hnode : node ∈ r.st.nodes)
    (hdoc : doc ∈ node.manifest.doc.resources) : ∃ t ∈ r.turns, t.resource = doc := by
  obtain ⟨k,hk⟩ := List.mem_iff_getElem?.mp hnode
  obtain ⟨i,hi⟩ := List.mem_iff_getElem?.mp hdoc
  have hlt : i < node.manifest.doc.resources.length := (List.getElem?_eq_some_iff.mp hi).1
  rcases h.handled k node hk i hlt with ⟨t,ht,hkt,hit⟩ | ⟨s,rs',todo,hf,-,htodo⟩
  · obtain ⟨node',hk',hi'⟩ := h.at_ t ht
    rw [hkt,hk] at hk'
    obtain rfl := Option.some.inj hk'
    rw [hit,hi] at hi'
    exact ⟨t,ht,(Option.some.inj hi').symm⟩
  · obtain ⟨-,-,rfl⟩ : s = site ∧ rs' = rs ∧ todo = [] := by simpa using hf
    cases htodo

theorem Turned.nested_known {r : Run} {site : Site} {rs : List ResourceDoc} {t : Turn}
    (h : Turned env ⟨r,[.walk site rs []]⟩) (ht : t ∈ r.turns)
    (hkind : Kind.parse t.resource.kind = .ok .murl) :
    ∃ child, Murl.parse t.resource.target = .ok child ∧ child.identity ∈ nodeIds r.st := by
  have hfate := h.fate t ht
  unfold FateOk at hfate
  cases hf : t.fate with
  | planned =>
    rw [hf] at hfate
    obtain ⟨kind,hparsed,hleaf⟩ := hfate
    rw [hkind] at hparsed
    cases hparsed
    exact absurd rfl hleaf
  | duplicate =>
    rw [hf] at hfate
    obtain ⟨kind,hparsed,hleaf⟩ := hfate
    rw [hkind] at hparsed
    cases hparsed
    exact absurd rfl hleaf
  | diamond child =>
    rw [hf] at hfate
    exact ⟨child,hfate.1.parsed,hfate.2⟩
  | spliced child =>
    rw [hf] at hfate
    obtain ⟨hnested,hpin⟩ := hfate
    rcases hpin with ⟨node,hnode,hid,-⟩ | ⟨f,hmem,req,hform,-⟩
    · exact ⟨child,hnested.parsed,List.mem_filterMap.mpr ⟨node,hnode,hid⟩⟩
    · obtain rfl := List.mem_singleton.mp hmem
      rcases hform with hform | ⟨_,_,hform⟩ <;> cases hform

theorem Turned.leaf_fate {c : Config} {t : Turn} (h : Turned env c) (ht : t ∈ c.run.turns)
    (hkind : Kind.parse t.resource.kind ≠ .ok .murl) :
    t.fate = .planned ∨ t.fate = .duplicate := by
  have hfate := h.fate t ht
  unfold FateOk at hfate
  cases hf : t.fate with
  | planned => exact .inl rfl
  | duplicate => exact .inr rfl
  | diamond child =>
    rw [hf] at hfate
    exact absurd hfate.1.kind hkind
  | spliced child =>
    rw [hf] at hfate
    exact absurd hfate.1.kind hkind

theorem represented_pair {r : Run} {doc : ResourceDoc} {kind : Kind} (hplan : PlanOk env r)
    (h : Represented r.st doc) (hkind : Kind.parse doc.kind = .ok kind) :
    ∃ pr ∈ r.st.resources, pr.kind = kind ∧ pr.resource.target = doc.target := by
  obtain ⟨k,hk,hkey⟩ := h
  rw [hkind] at hk
  cases hk
  obtain ⟨pr,hpr,heq⟩ := List.mem_map.mp hkey
  obtain ⟨hstr,htarget⟩ : pr.kind.toString = kind.toString ∧ pr.resource.target = doc.target := by
    simpa [planKey,dedupKey] using heq
  have hname : pr.resource.kind = doc.kind := by
    rw [← Kind.parse_parsed (hplan.planned pr hpr).kind,hstr,Kind.parse_parsed hkind]
  refine ⟨pr,hpr,?_,htarget⟩
  have hparsed := (hplan.planned pr hpr).kind
  rw [hname,hkind] at hparsed
  cases hparsed
  rfl

theorem Finished.accounted {r : Run} {res : Resolution} (h : Finished env cache ref r)
    (hres : finish r.st none = .ok res) : Accounted res := by
  obtain rfl : _ = res := by simpa [finish] using hres
  cases h with
  | all r stack site rs h =>
    have hplan := PlanOk.reachable h
    have hturned := Turned.reachable h
    have hids := (Identified.reachable h).nodup
    have htally := Tallied.reachable h
    refine ⟨?_,?_,targets_nodup hplan.keys,fun pr hpr => (hplan.planned pr hpr).tier,?_⟩
    · intro node hnode doc hdoc hkind
      obtain ⟨t,ht,rfl⟩ := hturned.turnOf hnode hdoc
      obtain ⟨child,hparsed,hmem⟩ := hturned.nested_known ht hkind
      obtain ⟨n,hn,hid⟩ := List.mem_filterMap.mp hmem
      obtain ⟨k,hk⟩ := List.mem_iff_getElem?.mp hn
      refine ⟨child,hparsed,k,⟨n,hk,hid⟩,?_⟩
      rintro j ⟨n',hj,hid'⟩
      exact identity_index hids hj hk hid' hid
    · intro kind target
      constructor
      · rintro ⟨pr,hpr,rfl,rfl⟩
        obtain ⟨node,hnode,hmem⟩ := (hplan.planned pr hpr).node
        exact ⟨(hplan.planned pr hpr).leaf,node,List.mem_of_getElem? hnode,pr.resource,hmem,
          (hplan.planned pr hpr).kind,rfl⟩
      · rintro ⟨hleaf,node,hnode,doc,hdoc,hkind,rfl⟩
        obtain ⟨t,ht,rfl⟩ := hturned.turnOf hnode hdoc
        have hnot : Kind.parse t.resource.kind ≠ .ok .murl := by
          rw [hkind]
          intro heq
          cases heq
          exact hleaf rfl
        have hleaf' : Represented r.st t.resource :=
          htally.leaves t ht (hturned.leaf_fate ht hnot)
        exact represented_pair (r := r) hplan hleaf' hkind
    · intro pr hpr
      obtain ⟨node,hnode,hmem⟩ := (hplan.planned pr hpr).node
      exact ⟨node,hnode,hmem,(hplan.planned pr hpr).kind⟩

theorem resolveRef_accounted (env : Env) (cache : Cache) (ref : TargetRef)
    (h : ref.selector = none) :
    wp (resolveRef env ref) (fun res _ => Accounted res) (fun _ _ => True) (Run.start cache) := by
  refine wp_mono (resolveRef_spec env cache ref) ?_ (fun _ _ _ => trivial)
  rintro res r ⟨hfinished,hres⟩
  rw [h] at hres
  exact hfinished.accounted hres

theorem diamond_accounted : ∃ res r,
    resolveRef diamondEnv diamondRef (Run.start Cache.empty) = .ok res r ∧ Accounted res := by
  obtain ⟨res,r,hok,-⟩ := finishes_ok diamond_resolves
  have hall := wp_ok (resolveRef_accounted diamondEnv Cache.empty diamondRef rfl) hok
  exact ⟨res,r,hok,hall⟩

end Accounted

end MurlSystem
