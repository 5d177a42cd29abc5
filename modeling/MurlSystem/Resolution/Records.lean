import MurlSystem.Core.Resolver
import MurlSystem.Foundation.Cut

namespace MurlSystem

open Program

structure Records {τ : Type} (trace : Run → List τ) : Prop where
  warn : ∀ (r : Run) w, trace r <+: trace (r.warn w)
  access : ∀ (r : Run) a, trace r <+: trace (r.access a)
  tick : ∀ r : Run, trace r <+: trace r.tick
  store : ∀ (r : Run) cache, trace r <+: trace { r with cache := cache }
  turn : ∀ (r : Run) t, trace r <+: trace (r.turn t)
  pushStack : ∀ (r : Run) id, trace r <+: trace (r.pushStack id)
  popStack : ∀ r : Run, trace r <+: trace r.popStack
  visit : ∀ (r : Run) id, trace r <+: trace (r.visit id)
  count : ∀ r : Run, trace r <+: trace r.count
  plan : ∀ (r : Run) key pr, trace r <+: trace (r.plan key pr)
  pushNode : ∀ (r : Run) node call, trace r <+: trace (r.pushNode node call)

theorem records_log : Records Run.log where
  warn _ _ := List.prefix_rfl
  access _ _ := List.prefix_append _ _
  tick _ := List.prefix_rfl
  store _ _ := List.prefix_rfl
  turn _ _ := List.prefix_rfl
  pushStack _ _ := List.prefix_rfl
  popStack _ := List.prefix_rfl
  visit _ _ := List.prefix_rfl
  count _ := List.prefix_rfl
  plan _ _ _ := List.prefix_rfl
  pushNode _ _ _ := List.prefix_rfl

theorem records_nodes : Records fun r => r.st.nodes where
  warn _ _ := List.prefix_rfl
  access _ _ := List.prefix_rfl
  tick _ := List.prefix_rfl
  store _ _ := List.prefix_rfl
  turn _ _ := List.prefix_rfl
  pushStack _ _ := List.prefix_rfl
  popStack _ := List.prefix_rfl
  visit _ _ := List.prefix_rfl
  count _ := List.prefix_rfl
  plan _ _ _ := List.prefix_rfl
  pushNode _ _ _ := List.prefix_append _ _

theorem records_warnings : Records fun r => r.st.warnings where
  warn _ _ := List.prefix_append _ _
  access _ _ := List.prefix_rfl
  tick _ := List.prefix_rfl
  store _ _ := List.prefix_rfl
  turn _ _ := List.prefix_rfl
  pushStack _ _ := List.prefix_rfl
  popStack _ := List.prefix_rfl
  visit _ _ := List.prefix_rfl
  count _ := List.prefix_rfl
  plan _ _ _ := List.prefix_rfl
  pushNode _ _ _ := List.prefix_rfl

section Grows

variable {τ : Type} {trace : Run → List τ} (keeps : Records trace) (env : Env)

include keeps

theorem grows_warn (w : String) : Grows trace (warn w) := Grows.modify fun r => keeps.warn r w

theorem grows_warnWhen (c : Bool) (w : String) : Grows trace (warnWhen c w) :=
  Grows.ite (grows_warn keeps w) (Grows.pure _)

theorem grows_nowEpoch : Grows trace (nowEpoch env) :=
  Grows.get.bind fun _ => (Grows.modify keeps.tick).bind fun _ => Grows.pure _

theorem grows_loadLocal (parent : Option Nat) (m : Murl) : Grows trace (loadLocal env parent m) :=
  (Grows.modify fun r => keeps.access r _).bind fun _ =>
    (Grows.fromExcept _).bind fun _ => Grows.pure _

theorem grows_cacheGet (parent : Option Nat) (m : Murl) (now : Nat) :
    Grows trace (cacheGet env parent m now) := by
  unfold cacheGet
  cases env.cache with
  | none => exact Grows.pure _
  | some fault =>
    refine Grows.get.bind fun _ => (Grows.modify fun r => ?_).bind fun _ => Grows.pure _
    exact (keeps.access r _).trans (keeps.store _ _)

theorem grows_cachePut (m : Murl) (url : String) (bytes : Bytes) (now : Nat) :
    Grows trace (cachePut env m url bytes now) := by
  unfold cachePut
  cases env.cache with
  | none => exact Grows.pure _
  | some fault =>
    refine Grows.get.bind fun r => (Grows.modify fun r => keeps.store r _).bind fun _ => ?_
    cases (r.cache.put env.crates (fault r.fetched.length) m.identity url bytes now).1 with
    | ok _ => exact Grows.pure _
    | error e => exact grows_warn keeps _

theorem grows_fetchUrl (parent : Option Nat) (m : Murl)
    (fetcher : List String → String → Except Error Bytes) (url : String) :
    Grows trace (fetchUrl parent m fetcher url) :=
  Grows.get.bind fun _ => (Grows.modify fun r => keeps.access r _).bind fun _ => Grows.pure _

theorem grows_acceptFetched (m : Murl) (url : String) (bytes : Bytes) (now : Nat) :
    Grows trace (acceptFetched env m url bytes now) :=
  Grows.ite (Grows.throw _) ((grows_cachePut keeps env m url bytes now).bind fun _ => Grows.pure _)

theorem grows_serveStale (m : Murl) (entry : CacheEntry) (why : String) :
    Grows trace (serveStale m entry why) := (grows_warn keeps _).bind fun _ => Grows.pure _

theorem grows_locateRemote (parent : Option Nat) (m : Murl) (now : Nat)
    (cached : Option CacheEntry) : Grows trace (locateRemote env parent m now cached) := by
  unfold locateRemote
  cases env.remote with
  | none =>
    cases cached with
    | none => exact Grows.throw _
    | some entry => exact grows_serveStale keeps m entry _
  | some fetcher =>
    refine (grows_fetchUrl keeps parent m fetcher _).bind fun answer => ?_
    cases answer with
    | ok bytes => exact grows_acceptFetched keeps env m _ bytes now
    | error e =>
      cases cached with
      | none => exact Grows.throw _
      | some entry => exact grows_serveStale keeps m entry _

theorem grows_locate (parent : Option Nat) (m : Murl) : Grows trace (locate env parent m) := by
  refine Grows.ite (grows_loadLocal keeps env parent m) ((grows_nowEpoch keeps env).bind fun now =>
    (grows_cacheGet keeps env parent m now).bind fun cached => ?_)
  cases cached with
  | none => exact grows_locateRemote keeps env parent m now none
  | some entry => exact Grows.ite (Grows.pure _) (grows_locateRemote keeps env parent m now _)

theorem grows_examine (murl : Option Murl) (bytes : Bytes) (origin : Origin) (depth : Nat) :
    Grows trace (examine env murl bytes origin depth) := by
  refine (Grows.fromExcept _).bind fun manifest => ?_
  refine (Grows.forM (fun _ => grows_warn keeps _) _).bind fun _ => ?_
  refine (Grows.fromExcept _).bind fun _ => ?_
  refine (Grows.fromExcept _).bind fun verified => ?_
  refine (grows_warnWhen keeps _ _).bind fun _ => ?_
  refine (Grows.fromExcept _).bind fun _ => ?_
  refine (grows_nowEpoch keeps env).bind fun now => ?_
  refine (grows_warnWhen keeps _ _).bind fun _ => ?_
  exact (grows_warnWhen keeps _ _).bind fun _ => Grows.pure _

theorem grows_planResource (site : Site) (i : Nat) (doc : ResourceDoc) (kind : Kind) :
    Grows trace (planResource env site i doc kind) := by
  refine Grows.get.bind fun run => Grows.ite (Grows.throw _) (Grows.ite ?_ ?_)
  · exact (grows_warn keeps _).bind fun _ => Grows.modify fun r => keeps.turn r _
  · exact (Grows.modify fun r => keeps.plan r _ _).bind fun _ =>
      Grows.modify fun r => keeps.turn r _

theorem grows_crossingWarning (site : Site) (child : Murl) :
    Grows trace (crossingWarning site child) := by
  unfold crossingWarning
  cases site.murl with
  | none => exact Grows.pure _
  | some parent => exact grows_warnWhen keeps _ _

theorem grows_spliceChild {site : Site}
    {recur : Murl → Option String → Option String → Nat → ResolveM Unit}
    (h : ∀ child anchor integrity node, Grows trace (recur child anchor integrity node))
    (i : Nat) (doc : ResourceDoc) (child : Murl) :
    Grows trace (spliceChild site recur i doc child) := by
  refine Grows.get.bind fun run => Grows.ite (Grows.throw _) (Grows.ite ?_ ?_)
  · exact (grows_warn keeps _).bind fun _ => Grows.modify fun r => keeps.turn r _
  · refine (grows_crossingWarning keeps site child).bind fun _ => ?_
    refine (Grows.modify fun r => keeps.pushStack r _).bind fun _ => ?_
    refine (Grows.modify fun r => keeps.turn r _).bind fun _ => (h child _ _ _).bind fun _ => ?_
    exact (Grows.modify keeps.popStack).bind fun _ => Grows.modify fun r => keeps.visit r _

theorem grows_spliceResource {site : Site}
    {recur : site.depth + 1 ≤ env.limits.maxDepth →
      Murl → Option String → Option String → Nat → ResolveM Unit}
    (h : ∀ hd child anchor integrity node, Grows trace (recur hd child anchor integrity node))
    (resources : List ResourceDoc) (i : Nat) :
    Grows trace (spliceResource env site recur resources i) := by
  unfold spliceResource
  cases resources[i]? with
  | none => exact Grows.pure _
  | some doc =>
    refine (Grows.fromExcept _).bind fun kind =>
      Grows.ite ?_ (grows_planResource keeps env site i doc kind)
    refine (Grows.fromExcept _).bind fun child => Grows.ite (Grows.throw _) ?_
    refine (grows_warnWhen keeps _ _).bind fun _ => ?_
    exact Grows.dite (fun hd => grows_spliceChild keeps (h hd) i doc child) fun _ => Grows.throw _

theorem grows_ingestBytes {depth : Nat}
    {recur : depth + 1 ≤ env.limits.maxDepth →
      Murl → Option String → Option String → Nat → ResolveM Unit}
    (h : ∀ hd child anchor integrity node, Grows trace (recur hd child anchor integrity node))
    (murl : Option Murl) (bytes : Bytes) (origin : Origin) (anchor : Option String)
    (parent : Option Nat) :
    Grows trace (ingestBytes env depth recur murl bytes origin anchor parent) := by
  refine (grows_examine keeps env murl bytes origin depth).bind fun node => ?_
  refine Grows.get.bind fun run => (Grows.modify fun r => keeps.pushNode r _ _).bind fun _ => ?_
  exact (Grows.fromExcept _).bind fun order => Grows.forM (grows_spliceResource keeps env h _) order

theorem grows_countManifest : Grows trace (countManifest env) := by
  refine (Grows.modify keeps.count).bind fun _ => Grows.get.bind fun run => ?_
  exact Grows.ite (Grows.throw _) (Grows.pure _)

theorem grows_ingestNamed (m : Murl) (depth : Nat) (anchor integrity : Option String)
    (parent : Option Nat) : Grows trace (ingestNamed env m depth anchor integrity parent) := by
  induction hn : env.limits.maxDepth - depth using Nat.strong_induction_on
    generalizing m depth anchor integrity parent with
  | _ n ih =>
    rw [ingestNamed]
    refine (grows_countManifest keeps env).bind fun _ => (grows_locate keeps env parent m).bind
      fun found => (Grows.fromExcept _).bind fun _ => grows_ingestBytes keeps env ?_ _ _ _ _ _
    intro hd child anchor' integrity' node
    exact ih (env.limits.maxDepth - (depth + 1)) (by omega) child (depth + 1) _ _ _ rfl

end Grows

end MurlSystem
