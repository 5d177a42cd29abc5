import MurlSystem.Foundation.Fallible
import MurlSystem.Resolution.Budget

namespace MurlSystem

open Program Fallible

def PlannedResource.pair (pr : PlannedResource) : Kind × String := (pr.kind,pr.resource.target)

def Turn.pair (t : Turn) : Option (Kind × String) :=
  match Kind.parse t.resource.kind with
  | .ok kind => if kind = .murl then none else some (kind,t.resource.target)
  | .error _ => none

def Run.met (r : Run) : Finset (Kind × String) := (r.turns.filterMap Turn.pair).toFinset

def Run.planned (r : Run) : List (Kind × String) := r.st.resources.map PlannedResource.pair

def Roomy (limits : Limits) (c : Config) : Prop :=
  ∀ site i doc kind, Meets c site i doc kind → (kind,doc.target) ∈ c.run.planned →
    c.run.st.resources.length < limits.maxTotalResources

def Run.skip (r : Run) (site : Site) (i : Nat) (doc : ResourceDoc) (kind : Kind) : Run :=
  (r.warn s!"{site.label}: duplicate resource ({kind.toString} {doc.target}) skipped").turn
    ⟨site.node,i,doc,site.anchorOf doc,.duplicate⟩

section Halting

variable {env : Env} {cache : Cache} {ref : TargetRef}

theorem finish_unlimited (st : State) (selector : Option (List SelectorItem)) :
    Blames Unlimited (finish st selector) := by
  unfold finish
  cases selector with
  | none => exact Blames.ok _
  | some items =>
    refine Blames.bind (Blames.forM ?_ items) fun _ => Blames.pure _
    intro item
    unfold checkSelector
    exact Blames.ite (Blames.ok _) (Blames.error rfl)

def Stuck (env : Env) (cache : Cache) (ref : TargetRef) (e : Error) (r : Run) : Prop :=
  OwnWords env → e = totalExceeded env.limits →
    ∃ fs, (walkSystem env cache ref).Reachable ⟨r,fs⟩ ∧ Overfull env.limits ⟨r,fs⟩

theorem Halts.stuck {a : Config} {e : Error} {r : Run} (h : Start env cache ref a)
    (hh : Halts env a e r) : Stuck env cache ref e r := by
  obtain ⟨fs,hpath,hfull⟩ := hh
  intro hown htotal
  exact ⟨fs,hpath.reachable h,hfull hown htotal⟩

theorem Unlimited.stuck {e : Error} {r : Run} (h : Unlimited e) : Stuck env cache ref e r :=
  fun _ htotal => absurd htotal h.elsewhere

theorem resolve_halts (env : Env) (cache : Cache) (m : Murl) :
    wp (resolve env m) (fun _ _ => True) (Stuck env cache (.murl m)) (Run.start cache) := by
  have hstart : Start env cache (.murl m) ⟨(Run.start cache).pushStack m.identity,
    [.seek (Request.root m)]⟩ := .named m
  unfold resolve
  rw [wp_bind,wp_modify,wp_bind]
  refine wp_mono (ingestNamed_steps m 0 none none none (Path.refl _)) ?_ fun _ _ he => he.stuck hstart
  intro _ r _
  rw [wp_bind,wp_modify,wp_bind,wp_get,wp_fromExcept]
  refine ⟨fun _ _ => trivial,fun e he => ?_⟩
  exact Unlimited.stuck (finish_unlimited _ _ e he)

theorem resolveFile_halts (env : Env) (cache : Cache) (path : String) :
    wp (resolveFile env path) (fun _ _ => True) (Stuck env cache (.file path))
      (Run.start cache) := by
  unfold resolveFile
  rw [wp_bind,wp_fromExcept]
  refine ⟨?_,fun e he => Unlimited.stuck ?_⟩
  swap
  · exact Blames.mapError (P := Unlimited) (by exact fun _ => rfl) _ e he
  intro bytes hbytes
  have hstart : Start env cache (.file path)
      ⟨Run.start cache,[.found Request.file bytes (.localFile path)]⟩ :=
    .file path bytes (mapError_ok.mp hbytes)
  rw [wp_bind]
  refine wp_mono (ingestBytes_steps Request.file ?_ rfl (Path.refl _)) ?_
    fun _ _ he => he.stuck hstart
  · intro _ node a fs r doc child hseek
    exact ingestNamed_steps child 1 _ _ _ hseek
  · intro _ r _
    rw [wp_bind,wp_get,wp_fromExcept]
    refine ⟨fun _ _ => trivial,fun e he => ?_⟩
    exact Unlimited.stuck (finish_unlimited _ _ e he)

theorem resolveRef_halts (env : Env) (cache : Cache) (ref : TargetRef) :
    wp (resolveRef env ref) (fun _ _ => True) (Stuck env cache ref) (Run.start cache) := by
  cases ref with
  | murl m => exact resolve_halts env cache m
  | file path => exact resolveFile_halts env cache path

end Halting

section Counting

variable {env : Env} {cache : Cache} {ref : TargetRef} {c : Config}

theorem met_turn_leaf {r : Run} {t : Turn} {kind : Kind}
    (hparsed : Kind.parse t.resource.kind = .ok kind) (hleaf : kind ≠ .murl) :
    (r.turn t).met = insert (kind,t.resource.target) r.met := by
  have hpair : t.pair = some (kind,t.resource.target) := by simp [Turn.pair,hparsed,hleaf]
  ext p
  simp [Run.met,Run.turn,List.filterMap_append,hpair]

theorem met_turn_nested {r : Run} {t : Turn} (hparsed : Kind.parse t.resource.kind = .ok .murl) :
    (r.turn t).met = r.met := by
  have hpair : t.pair = none := by simp [Turn.pair,hparsed]
  simp [Run.met,Run.turn,List.filterMap_append,hpair]

structure MetPlanned (r : Run) : Prop where
  met : r.met = r.planned.toFinset
  keys : ∀ key ∈ r.st.dedup, ∃ pr ∈ r.st.resources, planKey pr = key

theorem MetPlanned.keep {r r' : Run} (h : MetPlanned r) (hturns : r'.turns = r.turns)
    (hres : r'.st.resources = r.st.resources) (hded : r'.st.dedup = r.st.dedup) : MetPlanned r' := by
  refine ⟨?_,by rw [hres,hded]; exact h.keys⟩
  have hmet : r'.met = r.met := by simp only [Run.met,hturns]
  rw [hmet,Run.planned,hres]
  exact h.met

theorem dedup_planned {r : Run} {doc : ResourceDoc} {kind : Kind} (hplan : PlanOk env r)
    (hkeys : ∀ key ∈ r.st.dedup, ∃ pr ∈ r.st.resources, planKey pr = key)
    (hparsed : Kind.parse doc.kind = .ok kind) :
    dedupKey kind doc ∈ r.st.dedup ↔ (kind,doc.target) ∈ r.planned := by
  constructor
  · intro hseen
    obtain ⟨pr,hpr,hkey⟩ := hkeys _ hseen
    obtain ⟨hname,htarget⟩ : pr.kind.toString = kind.toString ∧ pr.resource.target = doc.target :=
      Prod.mk.inj hkey
    have hkind := (hplan.planned pr hpr).kind
    rw [Kind.parse_parsed hkind,Kind.parse_parsed hparsed] at hname
    rw [hname,hparsed] at hkind
    cases hkind
    exact List.mem_map.mpr ⟨pr,hpr,by rw [PlannedResource.pair,htarget]⟩
  · intro hmem
    obtain ⟨pr,hpr,hpair⟩ := List.mem_map.mp hmem
    have hseen := hplan.seen pr hpr
    obtain ⟨rfl,htarget⟩ : pr.kind = kind ∧ pr.resource.target = doc.target := Prod.mk.inj hpair
    rwa [planKey,htarget] at hseen

theorem MetPlanned.step {c c' : Config} (h : MetPlanned c.run) (hplan : PlanOk env c.run)
    (hs : Step env c c') : MetPlanned c'.run := by
  cases hs with
  | plan r fs site resources i todo doc kind at_ parsed leaf room fresh =>
    refine ⟨?_,?_⟩
    · rw [met_turn_leaf parsed leaf]
      have hmet : (r.plan (dedupKey kind doc)
          ⟨doc,kind,classify kind doc.target,site.node,site.anchorOf doc,none⟩).met = r.met := rfl
      rw [hmet,h.met]
      ext p
      simp [Run.planned,Run.plan,Run.turn,PlannedResource.pair]
    · intro key hkey
      rcases List.mem_cons.mp hkey with rfl | hkey
      · exact ⟨_,List.mem_append_right _ (List.mem_singleton.mpr rfl),rfl⟩
      · obtain ⟨pr,hpr,he⟩ := h.keys key hkey
        exact ⟨pr,List.mem_append_left _ hpr,he⟩
  | duplicate r fs site resources i todo doc kind at_ parsed leaf seen =>
    refine ⟨?_,h.keys⟩
    have hmem := (dedup_planned hplan h.keys parsed).mp seen
    rw [met_turn_leaf parsed leaf,h.met]
    exact Finset.insert_eq_of_mem (List.mem_toFinset.mpr hmem)
  | diamond r fs site resources i todo doc child at_ nests offStack seen =>
    refine ⟨?_,h.keys⟩
    rw [met_turn_nested nests.kind]
    exact h.met
  | splice r fs site resources i todo doc child at_ nests offStack unseen =>
    refine ⟨?_,h.keys⟩
    rw [met_turn_nested nests.kind]
    exact h.met
  | locate r r' fs req m bytes origin named room got =>
    obtain ⟨⟨ws,hst⟩,-,hturns,-⟩ := (locate_ok got).1
    exact h.keep hturns (by rw [hst]; rfl) (by rw [hst]; rfl)
  | lost r r' fs req m e named room got =>
    obtain ⟨⟨ws,hst⟩,-,hturns,-⟩ := locate_error got
    exact h.keep hturns (by rw [hst]; rfl) (by rw [hst]; rfl)
  | note => exact h.keep rfl rfl rfl
  | overBudget => exact h.keep rfl rfl rfl
  | enter => exact h.keep rfl rfl rfl
  | close => exact h.keep rfl rfl rfl

theorem MetPlanned.reachable (h : (walkSystem env cache ref).Reachable c) : MetPlanned c.run := by
  refine Transition.System.invariant (fun c : Config => MetPlanned c.run) ?_ ?_ h
  · intro c₀ h₀
    cases h₀ with
    | named m => exact ⟨rfl,by simp [Run.pushStack,Run.start]⟩
    | file path bytes hread => exact ⟨rfl,by simp [Run.start]⟩
  · intro c c' hc hI hs
    exact hI.step (PlanOk.reachable hc) hs

theorem planned_nodup {r : Run} (hplan : PlanOk env r) : r.planned.Nodup :=
  targets_nodup hplan.keys

theorem Meets.unique {site site' : Site} {i i' : Nat} {doc doc' : ResourceDoc} {kind kind' : Kind}
    (h : Meets c site i doc kind) (h' : Meets c site' i' doc' kind') :
    kind = kind' ∧ doc = doc' := by
  obtain ⟨resources,todo,fs,hframes,hat⟩ := h.next
  obtain ⟨resources',todo',fs',hframes',hat'⟩ := h'.next
  rw [hframes] at hframes'
  cases hframes'
  rw [hat] at hat'
  cases hat'
  have hkind := h.parsed
  rw [h'.parsed] at hkind
  cases hkind
  exact ⟨rfl,rfl⟩

theorem roomy_iff {limits : Limits} {site : Site} {i : Nat} {doc : ResourceDoc} {kind : Kind}
    (h : Meets c site i doc kind) : Roomy limits c ↔
      ((kind,doc.target) ∈ c.run.planned → c.run.st.resources.length < limits.maxTotalResources) := by
  constructor
  · intro hroomy
    exact hroomy site i doc kind h
  · intro hroom site' i' doc' kind' h'
    obtain ⟨rfl,rfl⟩ := h.unique h'
    exact hroom

end Counting

section Limit

variable {env : Env} {cache : Cache} {ref : TargetRef} {c : Config}

theorem full_distinct {site : Site} {i : Nat} {doc : ResourceDoc} {kind : Kind}
    (hc : (walkSystem env cache ref).Reachable c) (h : Meets c site i doc kind)
    (hfull : env.limits.maxTotalResources < c.run.st.resources.length + 1) :
    env.limits.maxTotalResources < (insert (kind,doc.target) c.run.met).card ↔
      Roomy env.limits c := by
  have hplan := PlanOk.reachable hc
  have hcard : c.run.met.card = c.run.st.resources.length := by
    rw [(MetPlanned.reachable hc).met,List.toFinset_card_of_nodup (planned_nodup hplan),
      Run.planned,List.length_map]
  have hmet : (kind,doc.target) ∈ c.run.met ↔ (kind,doc.target) ∈ c.run.planned := by
    rw [(MetPlanned.reachable hc).met,List.mem_toFinset]
  have htotal := hplan.total
  rw [roomy_iff h,← hmet]
  by_cases hmem : (kind,doc.target) ∈ c.run.met
  · rw [Finset.insert_eq_of_mem hmem,hcard]
    constructor
    · intro hless
      omega
    · intro hroom
      have hless := hroom hmem
      omega
  · rw [Finset.card_insert_of_notMem hmem,hcard]
    exact ⟨fun _ hin => absurd hin hmem,fun _ => hfull⟩

theorem skip_iff {site : Site} {i : Nat} {doc : ResourceDoc} {kind : Kind}
    (hc : (walkSystem env cache ref).Reachable c) (h : Meets c site i doc kind)
    (hmem : (kind,doc.target) ∈ c.run.planned) :
    planResource env site i doc kind c.run = .ok () (c.run.skip site i doc kind) ↔
      Roomy env.limits c := by
  rw [roomy_iff h]
  have hseen := (dedup_planned (PlanOk.reachable hc) (MetPlanned.reachable hc).keys h.parsed).mpr hmem
  unfold planResource
  constructor
  · intro hskip _
    obtain ⟨_,_,hget,hskip⟩ := bind_eq_ok.mp hskip
    cases hget
    by_contra hfull
    rw [if_pos (by omega)] at hskip
    cases hskip
  · intro hroom
    have hless := hroom hmem
    refine bind_eq_ok.mpr ⟨_,_,rfl,?_⟩
    rw [if_neg (by omega),if_pos (List.contains_iff_mem.mpr hseen)]
    rfl

theorem distinct_limit (env : Env) (cache : Cache) (ref : TargetRef) (hown : OwnWords env) :
    (∀ r, resolveRef env ref (Run.start cache) = .error (totalExceeded env.limits) r →
      ∃ c site i doc kind, (walkSystem env cache ref).Reachable c ∧ c.run = r ∧
        Meets c site i doc kind ∧
        (env.limits.maxTotalResources < (insert (kind,doc.target) r.met).card ↔
          Roomy env.limits c)) ∧
    ∀ c site i doc kind, (walkSystem env cache ref).Reachable c → Meets c site i doc kind →
      (kind,doc.target) ∈ c.run.planned →
      (planResource env site i doc kind c.run = .ok () (c.run.skip site i doc kind) ↔
        Roomy env.limits c) := by
  refine ⟨fun r hr => ?_,fun c site i doc kind hc h hmem => skip_iff hc h hmem⟩
  obtain ⟨fs,hc,hover⟩ := wp_error (resolveRef_halts env cache ref) hr hown rfl
  obtain ⟨site,i,doc,kind,hmeets⟩ := hover.meets
  exact ⟨_,site,i,doc,kind,hc,rfl,hmeets,full_distinct hc hmeets hover.full⟩

end Limit

section Overflow

def pairPage (target : String) : Value :=
  manifestValue "P" [resourceValue "a" "https" "https://e.com" none,
    resourceValue "b" "https" target none]

def tightEnv (target : String) : Env :=
  { siteEnv (siteCrates [pairPage target] [] [])
      [("https://a.com/.well-known/murl/p.murl.json",pairPage target)] with
    limits := { maxTotalResources := 1 } }

def tightRef : TargetRef := .murl ⟨.remote "a.com" none,["p"],.latest,none,none⟩

theorem tightEnv_ownWords (target : String) : OwnWords (tightEnv target) := by
  intro fetcher hfetcher past url he
  cases hfetcher
  dsimp only at he
  split at he
  · cases he
  · cases he

theorem second_target_overflows : ∃ r,
    resolveRef (tightEnv "https://f.com") tightRef (Run.start Cache.empty) =
      .error (totalExceeded (tightEnv "https://f.com").limits) r ∧
    ∃ c site i doc kind,
      (walkSystem (tightEnv "https://f.com") Cache.empty tightRef).Reachable c ∧ c.run = r ∧
      Meets c site i doc kind ∧
      ((tightEnv "https://f.com").limits.maxTotalResources <
          (insert (kind,doc.target) r.met).card ↔
        Roomy (tightEnv "https://f.com").limits c) := by
  have hrun : stops (resolveRef (tightEnv "https://f.com") tightRef)
      (fun e _ => e == totalExceeded (tightEnv "https://f.com").limits) (Run.start Cache.empty) =
        true := by
    simp only [tightEnv,siteEnv,siteCrates,published_compact]
    decide +kernel
  obtain ⟨e,r,hstop,he⟩ := stops_error hrun
  rw [beq_iff_eq] at he
  subst he
  exact ⟨r,hstop,(distinct_limit _ _ _ (tightEnv_ownWords _)).1 r hstop⟩

theorem same_target_overflows : ∃ r,
    resolveRef (tightEnv "https://e.com") tightRef (Run.start Cache.empty) =
      .error (totalExceeded (tightEnv "https://e.com").limits) r ∧
    (tightEnv "https://e.com").limits.maxTotalResources = 1 ∧
    (r.st.nodes.all fun node => node.manifest.doc.resources.all fun doc =>
      (doc.kind,doc.target) == ("https","https://e.com")) = true := by
  have hrun : stops (resolveRef (tightEnv "https://e.com") tightRef)
      (fun e r => e == totalExceeded (tightEnv "https://e.com").limits &&
        r.st.nodes.all fun node => node.manifest.doc.resources.all fun doc =>
          (doc.kind,doc.target) == ("https","https://e.com")) (Run.start Cache.empty) = true := by
    simp only [tightEnv,siteEnv,siteCrates,published_compact]
    decide +kernel
  obtain ⟨e,r,hstop,he⟩ := stops_error hrun
  rw [Bool.and_eq_true,beq_iff_eq] at he
  obtain ⟨rfl,hsame⟩ := he
  exact ⟨r,hstop,rfl,hsame⟩

end Overflow

end MurlSystem
