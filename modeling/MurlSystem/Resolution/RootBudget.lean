import MurlSystem.Resolution.Backward
import MurlSystem.Resolution.Pins

namespace MurlSystem

open Program

section Tally

variable {env : Env} {n extra : Nat}

structure Tally (n extra : Nat) (r : Run) : Prop where
  nodes : r.st.nodes.length = r.st.manifests + extra
  within : r.st.manifests ≤ n

instance (n extra : Nat) : Unmoved fun r => ¬Tally n extra r where
  same := by
    intro r r' hcore hno htally
    simp only [Run.core,Prod.mk.injEq] at hcore
    refine hno ⟨?_,?_⟩
    · rw [hcore.1,hcore.2.1]
      exact htally.nodes
    · rw [hcore.2.1]
      exact htally.within

theorem tally_ingestNamed (m : Murl) (depth : Nat) (anchor pin : Option String)
    (parent : Option Nat) : Keeps (Tally env.limits.maxNestedManifests extra)
      (ingestNamed env m depth anchor pin parent) := by
  refine keeps_ingestNamed ?_ m depth anchor pin parent
  intro m depth pin parent s s' bytes origin s₁ s₂ node hentered htally
  obtain ⟨hnodes,hmanifests⟩ := hentered.counted
  refine ⟨?_,by rw [hmanifests]; exact hentered.room⟩
  rw [hnodes,hmanifests,List.length_append,htally.nodes,List.length_singleton]
  omega

theorem tally_file {path : String} {bytes : Bytes} {s r : Run}
    (h : ingestFile env path bytes s = .ok () r) (hs : Tally env.limits.maxNestedManifests 0 s) :
    Tally env.limits.maxNestedManifests 1 r := by
  obtain ⟨node,s₂,order,hexamine,-,hrest⟩ := ingestBytes_ok h
  obtain ⟨⟨ws,ticks,rfl⟩,-⟩ :=
    wp_ok (examine_spec env Request.file bytes (.localFile path) s) hexamine
  refine Keeps.of_back (Back.forM (back_spliceResource ?_ _) order) _ _ _ hrest ⟨?_,hs.within⟩
  · intro hd child anchor pin k
    exact (tally_ingestNamed child 1 anchor pin _).back
  · change (s.st.nodes ++ [node]).length = s.st.manifests + 1
    rw [List.length_append,hs.nodes,List.length_singleton]

theorem tally_start (cache : Cache) : Tally n 0 (Run.start cache) := ⟨rfl,Nat.zero_le _⟩

end Tally

section Counts

variable {env : Env} {cache : Cache} {c c' : Config}

theorem Step.count_cases (h : Step env c c') :
    c'.run.st.manifests = c.run.st.manifests ∨
    env.limits.maxNestedManifests < c.run.st.manifests + 1 ∧
      c'.run.st.manifests = c.run.st.manifests + 1 ∨
    ∃ req fs, c.frames = .seek req :: fs ∧ c'.run.st.manifests = c.run.st.manifests + 1 := by
  cases h with
  | overBudget r fs full => exact .inr (.inl ⟨full,rfl⟩)
  | locate r r' fs req m bytes origin named room got =>
    obtain ⟨⟨ws,hst⟩,-,-,-⟩ := (locate_ok got).1
    exact .inr (.inr ⟨req,fs,rfl,by rw [hst]; rfl⟩)
  | lost r r' fs req m e named room got =>
    obtain ⟨⟨ws,hst⟩,-,-,-⟩ := locate_error got
    exact .inr (.inr ⟨req,fs,rfl,by rw [hst]; rfl⟩)
  | note => exact .inl rfl
  | enter => exact .inl rfl
  | plan => exact .inl rfl
  | duplicate => exact .inl rfl
  | diamond => exact .inl rfl
  | splice => exact .inl rfl
  | close => exact .inl rfl

theorem Path.count_mono (h : Path env c c') : c.run.st.manifests ≤ c'.run.st.manifests := by
  induction h with
  | refl => exact Nat.le_refl _
  | tail _ hs ih =>
    rcases hs.count_cases with hsame | ⟨-,hmore⟩ | ⟨_,_,-,hmore⟩
    · exact hsame ▸ ih
    · omega
    · omega

theorem Step.leaves_seek {req : Request} {fs : List Frame} (h : Step env c c')
    (hseek : c.frames = .seek req :: fs) (hgone : c'.frames ≠ .seek req :: fs) :
    c'.run.st.manifests = c.run.st.manifests + 1 := by
  cases h with
  | locate r r' fs' req' m bytes origin named room got =>
    obtain ⟨⟨ws,hst⟩,-,-,-⟩ := (locate_ok got).1
    rw [hst]
    rfl
  | lost => exact absurd hseek hgone
  | note => exact absurd hseek hgone
  | overBudget => exact absurd hseek hgone
  | enter => cases hseek
  | plan => cases hseek
  | duplicate => cases hseek
  | diamond => cases hseek
  | splice => cases hseek
  | close => cases hseek

theorem Path.counts_seek {req : Request} {fs : List Frame} (h : Path env c c')
    (hseek : c.frames = .seek req :: fs) (hgone : c'.frames ≠ .seek req :: fs) :
    c.run.st.manifests + 1 ≤ c'.run.st.manifests := by
  obtain ⟨u,v,hcu,hu,huv,hv,hend⟩ := Transition.exits
    (I := fun c : Config => c.frames = .seek req :: fs) h hseek hgone
  have hbefore : c.run.st.manifests ≤ u.run.st.manifests := Path.count_mono hcu
  have hafter : v.run.st.manifests ≤ c'.run.st.manifests := Path.count_mono hend
  have hcounted := Step.leaves_seek huv hu hv
  omega

end Counts

section Budget

def Spare (limits : Limits) (c : Config) : Prop :=
  ∀ req fs, c.frames = .seek req :: fs → c.run.st.manifests + 1 < limits.maxNestedManifests

def RootSpared (env : Env) (cache : Cache) (path : String) (r : Run) : Prop :=
  0 < env.limits.maxNestedManifests ∧
    ∀ c, OnWay env cache (.file path) c r → Spare env.limits c

theorem resolve_within (env : Env) (cache : Cache) (m : Murl) {res : Resolution} {r : Run}
    (h : resolve env m (Run.start cache) = .ok res r) :
    res.nodes.length ≤ env.limits.maxNestedManifests := by
  obtain ⟨s',hread,rfl,hfinish⟩ := resolve_runs.mp h
  have hstart : Tally env.limits.maxNestedManifests 0 ((Run.start cache).pushStack m.identity) :=
    ⟨rfl,Nat.zero_le _⟩
  have htally := tally_ingestNamed m 0 none none none _ _ _ hread hstart
  rw [(finish_ok hfinish).1]
  change s'.st.nodes.length ≤ _
  rw [htally.nodes]
  exact htally.within

theorem resolveFile_within (env : Env) (cache : Cache) (path : String) {res : Resolution} {r : Run}
    (h : resolveFile env path (Run.start cache) = .ok res r) :
    res.nodes.length = r.st.manifests + 1 ∧ r.st.manifests ≤ env.limits.maxNestedManifests := by
  obtain ⟨bytes,-,hroot,hfinish⟩ := resolveFile_runs.mp h
  have htally := tally_file hroot (tally_start cache)
  rw [(finish_ok hfinish).1]
  exact ⟨htally.nodes,htally.within⟩

theorem spare_of_within {env : Env} {cache : Cache} {path : String} {r : Run}
    (hle : r.st.manifests + 1 ≤ env.limits.maxNestedManifests) :
    RootSpared env cache path r := by
  refine ⟨by omega,?_⟩
  intro c hway req fs hseek
  cases hway with
  | all r stack site rs hreach hrest =>
    have hcounted : c.run.st.manifests + 1 ≤ r.st.manifests :=
      hrest.counts_seek hseek (by simp)
    have hle : r.st.manifests + 1 ≤ env.limits.maxNestedManifests := hle
    omega

theorem within_of_spare {env : Env} {cache : Cache} {path : String} {r : Run}
    (h : Finished env cache (.file path) r) (hspare : RootSpared env cache path r) :
    r.st.manifests + 1 ≤ env.limits.maxNestedManifests := by
  obtain ⟨hpos,hspare⟩ := hspare
  cases h with
  | all r stack site rs h =>
    obtain ⟨a,hstart,hpath⟩ := h
    by_contra hover
    have hfirst : a.run.st.manifests + 1 ≤ env.limits.maxNestedManifests := by
      cases hstart with
      | file path bytes hread => exact hpos
    obtain ⟨u,v,hau,hu,huv,hv,hrest⟩ := Transition.exits
      (I := fun c : Config => c.run.st.manifests + 1 ≤ env.limits.maxNestedManifests)
      hpath hfirst hover
    rcases Step.count_cases huv with hsame | ⟨hfull,-⟩ | ⟨req,fs,hseek,hmore⟩
    · exact hv (hsame ▸ hu)
    · omega
    · have hroom := hspare u (.all r stack site rs ⟨a,hstart,hau⟩ (hrest.head huv)) req fs hseek
      omega

theorem manifest_budget (env : Env) (cache : Cache) :
    (∀ m res r, resolve env m (Run.start cache) = .ok res r →
      res.nodes.length ≤ env.limits.maxNestedManifests) ∧
    ∀ path res r, resolveFile env path (Run.start cache) = .ok res r →
      (res.nodes.length ≤ env.limits.maxNestedManifests ↔ RootSpared env cache path r) := by
  refine ⟨fun m res r h => resolve_within env cache m h,fun path res r h => ?_⟩
  have href : resolveRef env (.file path) (Run.start cache) = .ok res r := h
  rw [(resolveFile_within env cache path h).1]
  exact ⟨spare_of_within,within_of_spare (resolveRef_ok href).1⟩

def openedPage : Value := manifestValue "Q" [resourceValue "p" "murl" "murl://a.com/p" none]

def openedEnv (n : Nat) : Env :=
  { siteEnv (siteCrates [leafPage,openedPage] [] [])
      [("https://a.com/.well-known/murl/p.murl.json",leafPage)] with
    limits := { maxNestedManifests := n }
    files := fun _ => .ok (published openedPage) }

theorem opened_within : ∃ res r,
    resolveFile (openedEnv 2) "q.json" (Run.start Cache.empty) = .ok res r ∧
      res.nodes.length ≤ 2 ∧ RootSpared (openedEnv 2) Cache.empty "q.json" r := by
  have hrun : finishes (resolveFile (openedEnv 2) "q.json")
      (fun res _ => res.nodes.length == 2) (Run.start Cache.empty) = true := by
    simp only [openedEnv,siteEnv,siteCrates,published_compact]
    decide +kernel
  obtain ⟨res,r,hok,hcount⟩ := finishes_ok hrun
  have hnodes : res.nodes.length ≤ 2 := (beq_iff_eq.mp hcount).le
  exact ⟨res,r,hok,hnodes,((manifest_budget (openedEnv 2) Cache.empty).2 _ res r hok).mp hnodes⟩

theorem root_uncounted : ∃ res r,
    resolveFile (openedEnv 1) "q.json" (Run.start Cache.empty) = .ok res r ∧
      (openedEnv 1).limits.maxNestedManifests = 1 ∧ res.nodes.length = 2 := by
  have hrun : finishes (resolveFile (openedEnv 1) "q.json")
      (fun res _ => res.nodes.length == 2) (Run.start Cache.empty) = true := by
    simp only [openedEnv,siteEnv,siteCrates,published_compact]
    decide +kernel
  obtain ⟨res,r,hok,hcount⟩ := finishes_ok hrun
  exact ⟨res,r,hok,rfl,beq_iff_eq.mp hcount⟩

end Budget

end MurlSystem
