import MurlSystem.Naming.Printing
import MurlSystem.Resolution.Distinct

namespace MurlSystem

open Program

def Murl.selecting (m : Murl) (items : List SelectorItem) : Murl :=
  { m with selector := some items }

structure Selects (items : List SelectorItem) (full res : Resolution) : Prop where
  claimed : ∀ item ∈ items, ∃ pr ∈ res.resources, item.claims pr = true
  plan : res.resources = full.resources.filter fun pr => items.any fun item => item.claims pr

def Offers (name : String) (c : Config) : Prop :=
  ∃ site i doc kind, Meets c site i doc kind ∧ site.anchorOf doc = name ∧
    (kind,doc.target) ∉ c.run.planned

def IdsOffered (env : Env) (cache : Cache) (ref : TargetRef) (items : List SelectorItem)
    (r : Run) : Prop :=
  ∀ name, .id name ∈ items → ∃ c, OnWay env cache ref c r ∧ Offers name c

section Bare

variable (env : Env)

def Site.bare (site : Site) : Site := { site with murl := site.murl.map Syntax.bare }

theorem labelOf_bare (murl : Option Murl) :
    labelOf (murl.map Syntax.bare) = labelOf murl := by
  cases murl <;> rfl

theorem ofSource_bare (origin : Origin) (murl : Option Murl) :
    Locality.ofSource origin (murl.map Syntax.bare) = Locality.ofSource origin murl := by
  cases origin <;> cases murl <;> rfl

theorem examine_bare (murl : Option Murl) (bytes : Bytes) (origin : Origin) (depth : Nat) :
    examine env (murl.map Syntax.bare) bytes origin depth =
      examine env murl bytes origin depth := by
  have hbind : bindIdentity (murl.map Syntax.bare) origin = bindIdentity murl origin := by
    funext doc
    unfold bindIdentity
    cases murl <;> cases doc.id <;> rfl
  have htrust : trustOf env (murl.map Syntax.bare) origin = trustOf env murl origin := by
    funext verified
    cases murl <;> cases origin <;> cases verified <;> rfl
  have hid : (murl.map Syntax.bare).map Murl.identity = murl.map Murl.identity := by
    cases murl <;> rfl
  unfold examine
  rw [labelOf_bare,hbind,htrust,hid]

theorem crossingWarning_bare (site : Site) (child : Murl) :
    crossingWarning site.bare child = crossingWarning site child := by
  unfold crossingWarning Site.bare
  cases site.murl <;> rfl

theorem spliceChild_bare (site : Site)
    (recur : Murl → Option String → Option String → Nat → ResolveM Unit) (i : Nat)
    (doc : ResourceDoc) (child : Murl) :
    spliceChild site.bare recur i doc child = spliceChild site recur i doc child := by
  unfold spliceChild
  rw [crossingWarning_bare]
  rfl

theorem spliceResource_bare (site : Site)
    (recur : site.depth + 1 ≤ env.limits.maxDepth →
      Murl → Option String → Option String → Nat → ResolveM Unit) (rs : List ResourceDoc) :
    spliceResource env site.bare recur rs = spliceResource env site recur rs := by
  funext i
  unfold spliceResource spliceNested
  simp only [spliceChild_bare]
  rfl

end Bare

section Unselected

variable (env : Env)

theorem locate_unselected (parent : Option Nat) (m : Murl) :
    locate env parent m.unselected = locate env parent m := rfl

theorem examine_unselected (m : Murl) (bytes : Bytes) (origin : Origin) (depth : Nat) :
    examine env (some m.unselected) bytes origin depth =
      examine env (some m) bytes origin depth :=
  (examine_bare env (some m.unselected) bytes origin depth).symm.trans
    (examine_bare env (some m) bytes origin depth)

theorem ingestBytes_unselected (m : Murl) (depth : Nat)
    (recur : depth + 1 ≤ env.limits.maxDepth →
      Murl → Option String → Option String → Nat → ResolveM Unit) (bytes : Bytes)
    (origin : Origin) (anchor : Option String) (parent : Option Nat) :
    ingestBytes env depth recur (some m.unselected) bytes origin anchor parent =
      ingestBytes env depth recur (some m) bytes origin anchor parent := by
  unfold ingestBytes
  rw [examine_unselected]
  refine bind_congr fun node => ?_
  refine bind_congr fun run => ?_
  refine bind_congr fun _ => ?_
  refine bind_congr fun order => ?_
  have hsource : Locality.ofSource origin (some m.unselected) =
      Locality.ofSource origin (some m) := Locality.ofSource_unselected origin (some m)
  rw [hsource]
  have hsplice := (spliceResource_bare env ⟨some m.unselected,labelOf (some m.unselected) origin,
    Locality.ofSource origin (some m),depth,anchor,run.st.nodes.length⟩ recur
    node.manifest.doc.resources).symm.trans (spliceResource_bare env ⟨some m,labelOf (some m) origin,
      Locality.ofSource origin (some m),depth,anchor,run.st.nodes.length⟩ recur
      node.manifest.doc.resources)
  exact congrArg (forM order) hsplice

theorem ingestNamed_unselected (m : Murl) (depth : Nat) (anchor integrity : Option String)
    (parent : Option Nat) :
    ingestNamed env m.unselected depth anchor integrity parent =
      ingestNamed env m depth anchor integrity parent := by
  rw [ingestNamed,ingestNamed,locate_unselected]
  refine bind_congr fun _ => ?_
  refine bind_congr fun got => ?_
  refine bind_congr fun _ => ?_
  exact ingestBytes_unselected env m depth _ _ _ _ _

end Unselected

section Finish

variable {st : State} {items : List SelectorItem} {res : Resolution}

theorem checkSelector_all (h : forM items (checkSelector st) = .ok ()) :
    ∀ item ∈ items, item.matchesIn st = true := by
  induction items with
  | nil => simp
  | cons item rest ih =>
    rw [List.forM_cons] at h
    unfold checkSelector at h
    by_cases hm : item.matchesIn st = true
    · rw [if_pos hm] at h
      intro x hx
      rcases List.mem_cons.mp hx with rfl | hx
      · exact hm
      · exact ih h x hx
    · rw [if_neg hm] at h
      cases h

theorem finish_selected (h : finish st (some items) = .ok res) :
    (∀ item ∈ items, item.matchesIn st = true) ∧
    res.resources = st.resources.filter fun pr => items.any fun item => item.claims pr := by
  unfold finish at h
  dsimp only at h
  cases hc : forM items (checkSelector st) with
  | error e =>
    rw [hc] at h
    cases h
  | ok u =>
    rw [hc] at h
    obtain rfl : _ = res := by simpa [bind,Except.bind,pure,Except.pure] using h
    exact ⟨checkSelector_all hc,rfl⟩

end Finish

section Selected

variable {env : Env} {cache : Cache} {ref : TargetRef}

def Anchored (name : String) (r : Run) : Prop := ∃ pr ∈ r.st.resources, pr.rootAnchor = name

theorem Step.resources_prefix {c c' : Config} (h : Step env c c') :
    c.run.st.resources <+: c'.run.st.resources := by
  rcases h.plan_cases with ⟨hres,-⟩ | ⟨_,_,_,_,_,_,_,-,-,-,-,-,-,-,hres⟩
  · rw [hres]
  · rw [hres]
    exact List.prefix_append _ _

theorem Path.anchored {name : String} {c c' : Config} (h : Path env c c')
    (hc : Anchored name c.run) : Anchored name c'.run := by
  induction h with
  | refl => exact hc
  | tail _ hs ih =>
    obtain ⟨pr,hpr,hname⟩ := ih
    exact ⟨pr,hs.resources_prefix.subset hpr,hname⟩

theorem Start.unanchored {name : String} {c : Config} (h : Start env cache ref c) :
    ¬Anchored name c.run := by
  rintro ⟨pr,hpr,-⟩
  cases h with
  | named m => exact absurd hpr List.not_mem_nil
  | file path bytes hread => exact absurd hpr List.not_mem_nil

theorem anchored_by_offer {name : String} {c c' : Config}
    (hc : (walkSystem env cache ref).Reachable c) (hs : Step env c c')
    (hno : ¬Anchored name c.run) (hyes : Anchored name c'.run) : Offers name c := by
  obtain ⟨pr,hpr,hname⟩ := hyes
  rcases hs.plan_cases with ⟨hres,-⟩ |
    ⟨site,rs,i,todo,fs,doc,kind,hframes,hat,hparsed,hleaf,-,hfresh,-,hres⟩
  · rw [hres] at hpr
    exact absurd ⟨pr,hpr,hname⟩ hno
  · rw [hres] at hpr
    have hlast : pr = ⟨doc,kind,classify kind doc.target,site.node,site.anchorOf doc,none⟩ := by
      rcases List.mem_append.mp hpr with hold | hnew
      · exact absurd ⟨pr,hold,hname⟩ hno
      · exact List.mem_singleton.mp hnew
    refine ⟨site,i,doc,kind,⟨⟨rs,todo,fs,hframes,hat⟩,hparsed,hleaf⟩,?_,?_⟩
    · rw [← hname,hlast]
    · intro hplanned
      exact hfresh ((dedup_planned (PlanOk.reachable hc) (MetPlanned.reachable hc).keys
        hparsed).mpr hplanned)

theorem Offers.next {name : String} {c c' : Config} (h : Offers name c)
    (hc : (walkSystem env cache ref).Reachable c) (hs : Step env c c') :
    Anchored name c'.run ∨ Offers name c' := by
  obtain ⟨site,i,doc,kind,⟨⟨rs,todo,fs,hframes,hat⟩,hparsed,hleaf⟩,hname,hfresh⟩ := h
  cases hs with
  | plan r fs' site' rs' i' todo' doc' kind' at_ parsed leaf room fresh =>
    cases hframes
    obtain rfl : doc' = doc := Option.some.inj (at_.symm.trans hat)
    exact .inl ⟨_,List.mem_append_right _ (List.mem_singleton.mpr rfl),hname⟩
  | duplicate r fs' site' rs' i' todo' doc' kind' at_ parsed leaf seen =>
    cases hframes
    obtain rfl : doc' = doc := Option.some.inj (at_.symm.trans hat)
    obtain rfl : kind' = kind := Except.ok.inj (parsed.symm.trans hparsed)
    exact absurd ((dedup_planned (PlanOk.reachable hc) (MetPlanned.reachable hc).keys
      parsed).mp seen) hfresh
  | diamond r fs' site' rs' i' todo' doc' child at_ nests offStack seen =>
    cases hframes
    obtain rfl : doc' = doc := Option.some.inj (at_.symm.trans hat)
    exact absurd (Except.ok.inj (hparsed.symm.trans nests.kind)) hleaf
  | splice r fs' site' rs' i' todo' doc' child at_ nests offStack unseen =>
    cases hframes
    obtain rfl : doc' = doc := Option.some.inj (at_.symm.trans hat)
    exact absurd (Except.ok.inj (hparsed.symm.trans nests.kind)) hleaf
  | note => exact .inr ⟨site,i,doc,kind,⟨⟨rs,todo,fs,hframes,hat⟩,hparsed,hleaf⟩,hname,hfresh⟩
  | overBudget =>
    exact .inr ⟨site,i,doc,kind,⟨⟨rs,todo,fs,hframes,hat⟩,hparsed,hleaf⟩,hname,hfresh⟩
  | locate => cases hframes
  | lost => cases hframes
  | enter => cases hframes
  | close => cases hframes

theorem Offers.anchored {name : String} {c : Config} {r : Run} {site : Site}
    {rs : List ResourceDoc} (h : Offers name c) (hc : (walkSystem env cache ref).Reachable c)
    (rest : Path env c ⟨r,[.walk site rs []]⟩) : Anchored name r := by
  have hended : ¬Offers name ⟨r,[.walk site rs []]⟩ := by
    rintro ⟨site',i,doc,kind,⟨⟨rs',todo,fs,hframes,-⟩,-,-⟩,-,-⟩
    cases hframes
  obtain ⟨u,v,hcu,hu,huv,hv,hend⟩ := Transition.exits rest h hended
  have hanchored : Anchored name v.run := (hu.next (hc.path hcu) huv).resolve_right hv
  exact Path.anchored hend hanchored

theorem anchored_iff {name : String} {r : Run} (h : Finished env cache ref r) :
    Anchored name r ↔ ∃ c, OnWay env cache ref c r ∧ Offers name c := by
  constructor
  · intro hanchored
    cases h with
    | all r stack site rs h =>
      obtain ⟨a,hstart,hpath⟩ := h
      have hend : ¬¬Anchored name r := not_not_intro hanchored
      obtain ⟨u,v,hau,hu,huv,hv,hrest⟩ := Transition.exits
        (I := fun c : Config => ¬Anchored name c.run) hpath (Start.unanchored hstart) hend
      have hreach : (walkSystem env cache ref).Reachable u := ⟨a,hstart,hau⟩
      exact ⟨u,.all r stack site rs hreach (hrest.head huv),
        anchored_by_offer hreach huv hu (not_not.mp hv)⟩
  · rintro ⟨c,hway,hoffers⟩
    cases hway with
    | all r stack site rs hreach hrest =>
      have hanchored : Anchored name r := hoffers.anchored hreach hrest
      exact hanchored

theorem selects_iff {r : Run} {items : List SelectorItem} {full res : Resolution}
    (h : Finished env cache ref r) (hfull : full.resources = r.st.resources)
    (hres : finish r.st (some items) = .ok res) :
    Selects items full res ↔ IdsOffered env cache ref items r := by
  obtain ⟨hmatched,hplan⟩ := finish_selected hres
  constructor
  · rintro ⟨hclaimed,-⟩ name hname
    obtain ⟨pr,hpr,hclaims⟩ := hclaimed (.id name) hname
    rw [hplan] at hpr
    refine (anchored_iff h).mp ⟨pr,(List.mem_filter.mp hpr).1,?_⟩
    simpa [SelectorItem.claims] using hclaims
  · intro hids
    refine ⟨?_,by rw [hplan,hfull]⟩
    intro item hitem
    have hsome : ∃ pr ∈ r.st.resources, item.claims pr = true := by
      cases item with
      | id name =>
        obtain ⟨pr,hpr,hanchor⟩ := (anchored_iff h).mpr (hids name hitem)
        exact ⟨pr,hpr,by simp [SelectorItem.claims,hanchor]⟩
      | role name => simpa [SelectorItem.matchesIn] using hmatched (.role name) hitem
      | tag name => simpa [SelectorItem.matchesIn] using hmatched (.tag name) hitem
    obtain ⟨pr,hpr,hclaims⟩ := hsome
    refine ⟨pr,?_,hclaims⟩
    rw [hplan]
    exact List.mem_filter.mpr ⟨hpr,List.any_eq_true.mpr ⟨item,hitem,hclaims⟩⟩

def ingestRoot (env : Env) (m : Murl) : ResolveM Unit := do
  modify fun run => run.pushStack m.identity
  ingestNamed env m 0 none none none
  modify Run.popStack

theorem resolve_eq_ok {m : Murl} {res : Resolution} {r : Run} :
    resolve env m (Run.start cache) = .ok res r ↔
      ingestRoot env m (Run.start cache) = .ok () r ∧ finish r.st m.selector = .ok res := by
  have hsplit : resolve env m = (ingestRoot env m >>= fun _ => get >>= fun run =>
      fromExcept (finish run.st m.selector)) := by
    unfold resolve ingestRoot
    simp only [bind_assoc]
  rw [hsplit,bind_eq_ok]
  constructor
  · rintro ⟨_,r',hroot,hrest⟩
    obtain ⟨hfinish,rfl⟩ := fromExcept_eq_ok.mp hrest
    exact ⟨hroot,hfinish⟩
  · rintro ⟨hroot,hfinish⟩
    exact ⟨(),r,hroot,fromExcept_eq_ok.mpr ⟨hfinish,rfl⟩⟩

theorem resolve_unselected {m : Murl} {items : List SelectorItem} {res : Resolution} {r : Run}
    (h : resolve env (m.selecting items) (Run.start cache) = .ok res r) :
    ∃ full, resolve env m.unselected (Run.start cache) = .ok full r ∧
      full.resources = r.st.resources := by
  obtain ⟨hroot,-⟩ := resolve_eq_ok.mp h
  have hsame : ingestRoot env (m.selecting items) = ingestRoot env m.unselected := by
    unfold ingestRoot
    rw [← ingestNamed_unselected env (m.selecting items)]
    rfl
  rw [hsame] at hroot
  exact ⟨⟨r.st.nodes,r.st.resources,r.st.warnings,none⟩,resolve_eq_ok.mpr ⟨hroot,rfl⟩,rfl⟩

theorem resolve_selects (env : Env) (cache : Cache) (m : Murl) (items : List SelectorItem) :
    wp (resolve env (m.selecting items))
      (fun res r => ∃ full, resolve env m.unselected (Run.start cache) = .ok full r ∧
        res.resources = full.resources.filter (fun pr => items.any fun item => item.claims pr) ∧
        (Selects items full res ↔
          IdsOffered env cache (.murl (m.selecting items)) items r))
      (fun _ _ => True) (Run.start cache) := by
  refine wp_of_result ?_ (fun _ _ _ => trivial)
  intro res r hrun
  obtain ⟨full,hfull,hres⟩ := resolve_unselected hrun
  have href : resolveRef env (.murl (m.selecting items)) (Run.start cache) = .ok res r := hrun
  obtain ⟨hfinished,hfinish⟩ := resolveRef_ok href
  refine ⟨full,hfull,?_,selects_iff hfinished hres hfinish⟩
  rw [hres]
  exact (finish_selected hfinish).2

end Selected

section Empty

def twicePage : Value :=
  manifestValue "Twice" [resourceValue "a" "https" "https://e.com" none,
    resourceValue "b" "https" "https://e.com" none]

def twiceEnv : Env :=
  siteEnv (siteCrates [twicePage] [] [])
    [("https://a.com/.well-known/murl/twice.murl.json",twicePage)]

def twiceMurl : Murl := ⟨.remote "a.com" none,["twice"],.latest,none,none⟩

theorem selector_selects_nothing :
    ¬wp (resolve twiceEnv (twiceMurl.selecting [.id "b"]))
      (fun res _ => res.resources.any (SelectorItem.claims (.id "b")) = true)
      (fun _ _ => True) (Run.start Cache.empty) := by
  intro h
  have hrun := wp_okHolds.mp h
  revert hrun
  simp only [twiceEnv,siteEnv,siteCrates,published_compact]
  decide +kernel

end Empty

end MurlSystem
