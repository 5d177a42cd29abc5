import MurlSystem.Resolution.Examine

namespace MurlSystem

open Program

inductive Lookup (m : Murl) : List Act → Prop
  | store (h : m.authority.isLocal = true) : Lookup m [.load]
  | skip (h : m.authority.isLocal = false) : Lookup m []
  | cache (h : m.authority.isLocal = false) : Lookup m [.cacheGet]
  | remote (h : m.authority.isLocal = false) (url : String) (answer : Except Error Bytes) :
      Lookup m [.fetch url answer]
  | both (h : m.authority.isLocal = false) (url : String) (answer : Except Error Bytes) :
      Lookup m [.cacheGet,.fetch url answer]

inductive CacheEffect (env : Env) (m : Murl) (c : Cache) : List Act → Cache → Prop
  | same (acts : List Act) : CacheEffect env m c acts c
  | read (acts : List Act) (now : Nat) (looked : .cacheGet ∈ acts) :
      CacheEffect env m c acts
        (c.get env.crates m.identity (ttlOf env.limits m.version) now).2
  | stored (acts : List Act) (now : Nat) (url : String) (bytes : Bytes)
      (fault : Nat → Option PutFault) (n : Nat) (cached : env.cache = some fault)
      (stale : ∀ entry, (c.get env.crates m.identity (ttlOf env.limits m.version) now).1 =
        some entry → entry.fresh = false)
      (fetched : .fetch url (.ok bytes) ∈ acts)
      (small : bytes.length ≤ env.limits.maxManifestBytes) :
      CacheEffect env m c acts
        ((c.get env.crates m.identity (ttlOf env.limits m.version) now).2.put env.crates
          (fault n) m.identity url bytes now).2

structure Located (env : Env) (parent : Option Nat) (m : Murl) (r r' : Run) : Prop where
  st : ∃ ws, r'.st = { r.st with warnings := r.st.warnings ++ ws }
  calls : r'.calls = r.calls
  turns : r'.turns = r.turns
  effect : ∃ acts, r'.log = r.log ++ acts.map (Access.mk parent m.unselected) ∧ Lookup m acts ∧
    CacheEffect env m r.cache acts r'.cache

structure LookedUp (parent : Option Nat) (m : Murl) (r r' : Run) (acts : List Act)
    (cache : Cache) : Prop where
  st : ∃ ws, r'.st = { r.st with warnings := r.st.warnings ++ ws }
  calls : r'.calls = r.calls
  turns : r'.turns = r.turns
  log : r'.log = r.log ++ acts.map (Access.mk parent m.unselected)
  cache : r'.cache = cache

theorem LookedUp.noted {parent : Option Nat} {m : Murl} {r r₁ r₂ : Run} {acts : List Act}
    {cache : Cache} (h : LookedUp parent m r r₁ acts cache) (hn : Noted r₁ r₂) :
    LookedUp parent m r r₂ acts cache := by
  obtain ⟨⟨ws,hst⟩,hcalls,hturns,hlog,hcache⟩ := h
  obtain ⟨ws',n,rfl⟩ := hn
  exact ⟨⟨ws ++ ws',by simp [Run.note,hst]⟩,hcalls,hturns,hlog,hcache⟩

theorem LookedUp.located {env : Env} {parent : Option Nat} {m : Murl} {r r' : Run}
    {acts : List Act} {cache : Cache} (h : LookedUp parent m r r' acts cache)
    (hl : Lookup m acts) (hc : CacheEffect env m r.cache acts cache) :
    Located env parent m r r' :=
  ⟨h.st,h.calls,h.turns,acts,h.log,hl,h.cache ▸ hc⟩

def sourceMatches (m : Murl) : Origin → Prop
  | .localStore _ => m.authority.isLocal = true
  | .remote _ _ => m.authority.isLocal = false
  | .localFile _ => False

section Cases

variable {env : Env} {parent : Option Nat} {m : Murl} {r r₁ : Run} {acts : List Act}

theorem cachePut_spec {url : String} {bytes : Bytes} {now : Nat} {cache : Cache}
    (h : LookedUp parent m r r₁ acts cache) {Q : Unit → Run → Prop} {E : Error → Run → Prop}
    (hnone : env.cache = none → ∀ r₂, LookedUp parent m r r₂ acts cache → Q () r₂)
    (hsome : ∀ fault n, env.cache = some fault → ∀ r₂,
      LookedUp parent m r r₂ acts (cache.put env.crates (fault n) m.identity url bytes now).2 →
      Q () r₂) :
    wp (cachePut env m url bytes now) Q E r₁ := by
  unfold cachePut
  cases hc : env.cache with
  | none => exact hnone hc r₁ h
  | some fault =>
    dsimp only
    rw [wp_bind,wp_get,wp_bind,wp_modify,h.cache]
    have hput : LookedUp parent m r
        { r₁ with cache := (cache.put env.crates (fault r₁.fetched.length) m.identity url bytes
          now).2 } acts
        (cache.put env.crates (fault r₁.fetched.length) m.identity url bytes now).2 :=
      ⟨h.st,h.calls,h.turns,h.log,rfl⟩
    cases (cache.put env.crates (fault r₁.fetched.length) m.identity url bytes now).1 with
    | ok u => exact hsome fault _ hc _ hput
    | error e =>
      rw [wp_warn]
      exact hsome fault _ hc _ (hput.noted (.warn _ _))

inductive Consulted (env : Env) (m : Murl) (c : Cache) (now : Nat) :
    Option CacheEntry → List Act → Cache → Prop
  | uncached (h : env.cache = none) : Consulted env m c now none [] c
  | looked :
      Consulted env m c now (c.get env.crates m.identity (ttlOf env.limits m.version) now).1
        [.cacheGet] (c.get env.crates m.identity (ttlOf env.limits m.version) now).2

theorem cacheGet_spec {now : Nat} {Q : Option CacheEntry → Run → Prop} {E : Error → Run → Prop}
    (h : LookedUp parent m r r₁ [] r.cache)
    (hQ : ∀ cached acts cache r₂, Consulted env m r.cache now cached acts cache →
      LookedUp parent m r r₂ acts cache → Q cached r₂) :
    wp (cacheGet env parent m now) Q E r₁ := by
  unfold cacheGet
  cases hc : env.cache with
  | none => exact hQ none [] r.cache r₁ (.uncached hc) h
  | some fault =>
    dsimp only
    rw [wp_bind,wp_get,wp_bind,wp_modify,wp_pure,h.cache]
    refine hQ _ [.cacheGet] _ _ .looked ⟨h.st,h.calls,h.turns,?_,rfl⟩
    simp [Run.access,h.log]

theorem Consulted.lookup {c cache : Cache} {now : Nat} {cached : Option CacheEntry}
    (h : Consulted env m c now cached acts cache) (hm : m.authority.isLocal = false) :
    Lookup m acts ∧ CacheEffect env m c acts cache := by
  cases h with
  | uncached _ => exact ⟨.skip hm,.same _⟩
  | looked => exact ⟨.cache hm,.read _ _ (by simp)⟩

theorem Consulted.fetched {c cache : Cache} {now : Nat} {cached : Option CacheEntry}
    (h : Consulted env m c now cached acts cache) (hm : m.authority.isLocal = false)
    (url : String) (answer : Except Error Bytes) :
    Lookup m (acts ++ [.fetch url answer]) ∧
      CacheEffect env m c (acts ++ [.fetch url answer]) cache := by
  cases h with
  | uncached _ => exact ⟨.remote hm url answer,.same _⟩
  | looked => exact ⟨.both hm url answer,.read _ _ (by simp)⟩

theorem Consulted.stored {c cache : Cache} {now n : Nat} {cached : Option CacheEntry}
    {url : String} {bytes : Bytes} {fault : Nat → Option PutFault}
    (h : Consulted env m c now cached acts cache) (hcache : env.cache = some fault)
    (hstale : ∀ entry, cached = some entry → entry.fresh = false)
    (hsmall : bytes.length ≤ env.limits.maxManifestBytes) :
    CacheEffect env m c (acts ++ [.fetch url (.ok bytes)])
      (cache.put env.crates (fault n) m.identity url bytes now).2 := by
  cases h with
  | uncached hnone => rw [hnone] at hcache; cases hcache
  | looked => exact .stored _ now url bytes fault n hcache hstale (by simp) hsmall

def Settles (env : Env) (parent : Option Nat) (m : Murl) (r : Run) (x : ResolveM (Bytes × Origin))
    (r₁ : Run) : Prop :=
  wp x (fun got r' => Located env parent m r r' ∧ sourceMatches m got.2)
    (fun _ r' => Located env parent m r r') r₁

theorem serveStale_spec {entry : CacheEntry} {why : String} {cache : Cache}
    (h : LookedUp parent m r r₁ acts cache) (hl : Lookup m acts)
    (hc : CacheEffect env m r.cache acts cache) (hm : m.authority.isLocal = false) :
    Settles env parent m r (serveStale m entry why) r₁ := by
  unfold Settles serveStale
  rw [wp_bind,wp_warn,wp_pure]
  exact ⟨(h.noted (.warn _ _)).located hl hc,hm⟩

theorem acceptFetched_spec {now : Nat} {cached : Option CacheEntry} {cache : Cache} {url : String}
    {bytes : Bytes} (hcons : Consulted env m r.cache now cached acts cache)
    (hstale : ∀ entry, cached = some entry → entry.fresh = false)
    (h : LookedUp parent m r r₁ (acts ++ [.fetch url (.ok bytes)]) cache)
    (hm : m.authority.isLocal = false) :
    Settles env parent m r (acceptFetched env m url bytes now) r₁ := by
  obtain ⟨hl,hc⟩ := hcons.fetched hm url (.ok bytes)
  unfold Settles acceptFetched
  rw [wp_ite]
  constructor
  · intro _
    exact h.located hl hc
  · intro hsmall
    rw [wp_bind]
    refine cachePut_spec h ?_ ?_
    · intro _ r₂ h₂
      exact ⟨h₂.located hl hc,hm⟩
    · intro fault n hfault r₂ h₂
      exact ⟨h₂.located hl (hcons.stored hfault hstale (not_lt.mp hsmall)),hm⟩

theorem locateRemote_spec {now : Nat} {cached : Option CacheEntry} {cache : Cache}
    (hcons : Consulted env m r.cache now cached acts cache)
    (hstale : ∀ entry, cached = some entry → entry.fresh = false)
    (h : LookedUp parent m r r₁ acts cache) (hm : m.authority.isLocal = false) :
    Settles env parent m r (locateRemote env parent m now cached) r₁ := by
  obtain ⟨hl,hc⟩ := hcons.lookup hm
  unfold locateRemote
  cases hr : env.remote with
  | none =>
    cases cached with
    | none => exact h.located hl hc
    | some entry => exact serveStale_spec h hl hc hm
  | some fetcher =>
    dsimp only
    unfold Settles fetchUrl
    rw [wp_bind,wp_bind,wp_get,wp_bind,wp_modify,wp_pure]
    have hfetch : ∀ answer, LookedUp parent m r
        (r₁.access ⟨parent,m.unselected,.fetch ((wellKnownUrl m).getD "") answer⟩)
        (acts ++ [.fetch ((wellKnownUrl m).getD "") answer]) cache := by
      intro answer
      exact ⟨h.st,h.calls,h.turns,by simp [Run.access,h.log],h.cache⟩
    cases hans : fetcher r₁.fetched ((wellKnownUrl m).getD "") with
    | ok bytes => exact acceptFetched_spec hcons hstale (hfetch (.ok bytes)) hm
    | error e =>
      obtain ⟨hl',hc'⟩ := hcons.fetched hm ((wellKnownUrl m).getD "") (.error e)
      cases cached with
      | none => exact (hfetch (.error e)).located hl' hc'
      | some entry => exact serveStale_spec (hfetch (.error e)) hl' hc' hm

end Cases

theorem locate_spec (env : Env) (parent : Option Nat) (m : Murl) (r : Run) :
    Settles env parent m r (locate env parent m) r := by
  unfold locate
  by_cases hlocal : m.authority.isLocal = true
  · rw [if_pos hlocal]
    unfold Settles loadLocal
    rw [wp_bind,wp_modify,wp_bind,wp_fromExcept]
    have hload : Located env parent m r (r.access ⟨parent,m.unselected,.load⟩) :=
      ⟨⟨[],by simp [Run.access]⟩,rfl,rfl,[.load],rfl,.store hlocal,.same _⟩
    exact ⟨fun _ _ => ⟨hload,hlocal⟩,fun _ _ => hload⟩
  · have hm : m.authority.isLocal = false := by simpa using hlocal
    rw [if_neg hlocal]
    unfold Settles
    rw [wp_bind,wp_nowEpoch,wp_bind]
    have hstart : LookedUp parent m r r.tick [] r.cache :=
      ⟨⟨[],by simp [Run.tick]⟩,rfl,rfl,by simp [Run.tick],rfl⟩
    refine cacheGet_spec hstart ?_
    intro cached acts cache r₂ hcons h₂
    obtain ⟨hl,hc⟩ := hcons.lookup hm
    cases cached with
    | none => exact locateRemote_spec hcons (by simp) h₂ hm
    | some entry =>
      cases hfresh : entry.fresh with
      | true =>
        simp only [hfresh,if_true]
        exact ⟨h₂.located hl hc,hm⟩
      | false =>
        simp only [hfresh]
        refine locateRemote_spec hcons ?_ h₂ hm
        intro e he
        obtain rfl : entry = e := by simpa using he
        exact hfresh

theorem locate_ok {env : Env} {parent : Option Nat} {m : Murl} {r r' : Run} {bytes : Bytes}
    {origin : Origin} (h : locate env parent m r = .ok (bytes,origin) r') :
    Located env parent m r r' ∧ sourceMatches m origin := by
  have hspec := locate_spec env parent m r
  unfold Settles at hspec
  have hres := wp_ok hspec h
  exact hres

theorem locate_error {env : Env} {parent : Option Nat} {m : Murl} {r r' : Run} {e : Error}
    (h : locate env parent m r = .error e r') : Located env parent m r r' := by
  have hspec := locate_spec env parent m r
  unfold Settles at hspec
  have hres := wp_error hspec h
  exact hres

theorem Step.log_cases {env : Env} {c c' : Config} (h : Step env c c') :
    (c'.run.log = c.run.log ∧ c'.run.cache = c.run.cache ∧
      c.run.st.manifests ≤ c'.run.st.manifests) ∨
    ∃ req m, .seek req ∈ c.frames ∧ req.murl = some m ∧
      c.run.st.manifests + 1 ≤ env.limits.maxNestedManifests ∧
      Located env req.parent m c.run.count c'.run := by
  cases h with
  | locate r r' fs req m bytes origin named room got =>
    exact .inr ⟨req,m,by simp,named,room,(locate_ok got).1⟩
  | lost r r' fs req m e named room got =>
    exact .inr ⟨req,m,by simp,named,room,locate_error got⟩
  | overBudget r fs full => exact .inl ⟨rfl,rfl,Nat.le_succ _⟩
  | note => exact .inl ⟨rfl,rfl,Nat.le_refl _⟩
  | enter => exact .inl ⟨rfl,rfl,Nat.le_refl _⟩
  | plan => exact .inl ⟨rfl,rfl,Nat.le_refl _⟩
  | duplicate => exact .inl ⟨rfl,rfl,Nat.le_refl _⟩
  | diamond => exact .inl ⟨rfl,rfl,Nat.le_refl _⟩
  | splice => exact .inl ⟨rfl,rfl,Nat.le_refl _⟩
  | close => exact .inl ⟨rfl,rfl,Nat.le_refl _⟩

theorem Step.node_cases {env : Env} {c c' : Config} (h : Step env c c') :
    (c'.run.st.nodes = c.run.st.nodes ∧ c'.run.calls = c.run.calls) ∨
    ∃ node call, c'.run = c.run.pushNode node call ∧
      (node.manifest.validate env.crates).errors = [] := by
  cases h with
  | locate r r' fs req m bytes origin named room got =>
    obtain ⟨⟨ws,hst⟩,hcalls,-,-⟩ := (locate_ok got).1
    exact .inl ⟨by rw [hst]; rfl,hcalls⟩
  | lost r r' fs req m e named room got =>
    obtain ⟨⟨ws,hst⟩,hcalls,-,-⟩ := locate_error got
    exact .inl ⟨by rw [hst]; rfl,hcalls⟩
  | enter r fs req bytes origin node order pin admitted ordered =>
    exact .inr ⟨node,_,rfl,admitted.valid⟩
  | note => exact .inl ⟨rfl,rfl⟩
  | overBudget => exact .inl ⟨rfl,rfl⟩
  | plan => exact .inl ⟨rfl,rfl⟩
  | duplicate => exact .inl ⟨rfl,rfl⟩
  | diamond => exact .inl ⟨rfl,rfl⟩
  | splice => exact .inl ⟨rfl,rfl⟩
  | close => exact .inl ⟨rfl,rfl⟩

end MurlSystem
