import MurlSystem.Foundation.Revalidate
import MurlSystem.Resolution.CacheUse

namespace MurlSystem

open Program

section Entries

def intactEntry (env : Env) (cache : Cache) (m : Murl) : Option (Bytes × CacheMeta) :=
  match env.cache with
  | none => none
  | some _ => (cache (cacheKey env.crates m.identity)).readable env.crates m.identity

def servedEntry (limits : Limits) (m : Murl) (now : Nat) (e : Bytes × CacheMeta) : CacheEntry :=
  ⟨e.1,e.2,isFresh (ttlOf limits m.version) now e.2.fetchedAt⟩

theorem Cache.get_intact {crates : Crates} {cache : Cache} {identity : String} {ttl now : Nat}
    {e : Bytes × CacheMeta}
    (h : (cache (cacheKey crates identity)).readable crates identity = some e) :
    (cache.get crates identity ttl now).2 = cache := by
  rcases cache.get_cache crates identity ttl now with hsame | ⟨hnone,-⟩
  · exact hsame
  · rw [Cache.readable,h] at hnone
    cases hnone

end Entries

section Lookup

variable (env : Env) (parent : Option Nat) (m : Murl) (r : Run)

def cacheAsked : List Access :=
  match env.cache with
  | none => []
  | some _ => [⟨parent,m.unselected,.cacheGet⟩]

def remoteUrl : String := (wellKnownUrl m).getD ""

def fetchResult : Option (Except Error Bytes) :=
  env.remote.map fun fetcher => fetcher r.fetched (remoteUrl m)

def tried : List Access :=
  (fetchResult env m r).toList.map fun answer => ⟨parent,m.unselected,.fetch (remoteUrl m) answer⟩

def keepable (e : Bytes × CacheMeta) : Bool :=
  isFresh (ttlOf env.limits m.version) (env.clock r.ticks) e.2.fetchedAt

def verdict : Revalidate.Answer (Bytes × CacheMeta) Bytes Error :=
  Revalidate.look (intactEntry env r.cache m) (keepable env m r) (fetchResult env m r)

variable {env parent m r}

inductive Fulfilled (env : Env) (parent : Option Nat) (m : Murl) (r : Run) :
    Revalidate.Answer (Bytes × CacheMeta) Bytes Error → Except Error (Bytes × Origin) → Run → Prop
  | kept (e : Bytes × CacheMeta) (r' : Run) (st : r'.st = r.st)
      (log : r'.log = r.log ++ cacheAsked env parent m) (cache : r'.cache = r.cache) :
      Fulfilled env parent m r (.kept e) (.ok (e.1,.remote e.2.url true)) r'
  | fetched (bytes : Bytes) (r' : Run) (ws : List String)
      (st : r'.st = { r.st with warnings := r.st.warnings ++ ws })
      (log : r'.log = r.log ++ cacheAsked env parent m ++ tried env parent m r) :
      Fulfilled env parent m r (.fetched bytes) (.ok (bytes,.remote (remoteUrl m) false)) r'
  | refused (bytes : Bytes) (r' : Run) (e : Error) (st : r'.st = r.st)
      (log : r'.log = r.log ++ cacheAsked env parent m ++ tried env parent m r) :
      Fulfilled env parent m r (.fetched bytes) (.error e) r'
  | stale (e : Bytes × CacheMeta) (why : Option Error) (r' : Run) (w : String)
      (st : r'.st = { r.st with warnings := r.st.warnings ++ [w] })
      (log : r'.log = r.log ++ cacheAsked env parent m ++ tried env parent m r)
      (cache : r'.cache = r.cache) :
      Fulfilled env parent m r (.stale e why) (.ok (e.1,.remote e.2.url true)) r'
  | lost (why : Option Error) (r' : Run) (e : Error) (st : r'.st = r.st)
      (log : r'.log = r.log ++ cacheAsked env parent m ++ tried env parent m r) :
      Fulfilled env parent m r (.lost why) (.error e) r'

structure Asked (env : Env) (parent : Option Nat) (m : Murl) (r r₁ : Run) : Prop where
  st : r₁.st = r.st
  log : r₁.log = r.log ++ cacheAsked env parent m
  fetched : r₁.fetched = r.fetched
  cache : ∀ e, intactEntry env r.cache m = some e → r₁.cache = r.cache

theorem cacheGet_asked (r r₀ : Run) (hst : r₀.st = r.st) (hlog : r₀.log = r.log)
    (hcache : r₀.cache = r.cache) (now : Nat) :
    wp (cacheGet env parent m now)
      (fun cached r₁ => cached = (intactEntry env r.cache m).map (servedEntry env.limits m now) ∧
        Asked env parent m r r₁) (fun _ _ => False) r₀ := by
  have hfetched : ∀ act : Act, act.url? = none → ∀ r₁ : Run,
      r₁.log = r.log ++ [⟨parent,m.unselected,act⟩] → r₁.fetched = r.fetched := by
    intro act hact r₁ h
    simp [Run.fetched,h,hact]
  unfold cacheGet
  cases hc : env.cache with
  | none =>
    have hnone : intactEntry env r.cache m = none := by
      unfold intactEntry
      rw [hc]
    refine ⟨by rw [hnone]; rfl,hst,?_,by rw [Run.fetched,hlog]; rfl,by simp [hnone]⟩
    rw [hlog,cacheAsked,hc,List.append_nil]
  | some fault =>
    have hentry : intactEntry env r.cache m =
        (r.cache (cacheKey env.crates m.identity)).readable env.crates m.identity := by
      unfold intactEntry
      rw [hc]
    dsimp only
    rw [wp_bind,wp_get,wp_bind,wp_modify,wp_pure,hcache]
    refine ⟨?_,hst,?_,hfetched .cacheGet rfl _ ?_,?_⟩
    · rw [Cache.get_entry,hentry]
      rfl
    · rw [cacheAsked,hc]
      exact congrArg (· ++ _) hlog
    · exact congrArg (· ++ _) hlog
    · intro e he
      rw [hentry] at he
      exact Cache.get_intact he

def Fulfils (env : Env) (parent : Option Nat) (m : Murl) (r : Run)
    (v : Revalidate.Answer (Bytes × CacheMeta) Bytes Error) (x : ResolveM (Bytes × Origin))
    (r₁ : Run) : Prop :=
  wp x (fun got r' => Fulfilled env parent m r v (.ok got) r')
    (fun e r' => Fulfilled env parent m r v (.error e) r') r₁

theorem serveStale_fulfils {e : Bytes × CacheMeta} {why : Option Error} {text : String} {now : Nat}
    {r₁ : Run} (st : r₁.st = r.st)
    (log : r₁.log = r.log ++ cacheAsked env parent m ++ tried env parent m r)
    (cache : r₁.cache = r.cache) :
    Fulfils env parent m r (.stale e why) (serveStale m (servedEntry env.limits m now e) text) r₁ := by
  unfold Fulfils serveStale warn
  rw [wp_bind,wp_modify,wp_pure]
  exact .stale e why _ _ (by rw [← st]; rfl) log cache

theorem acceptFetched_fulfils {bytes : Bytes} {now : Nat} {r₁ : Run} (st : r₁.st = r.st)
    (log : r₁.log = r.log ++ cacheAsked env parent m ++ tried env parent m r) :
    Fulfils env parent m r (.fetched bytes) (acceptFetched env m (remoteUrl m) bytes now) r₁ := by
  unfold Fulfils acceptFetched
  rw [wp_ite]
  constructor
  · intro _
    exact .refused bytes _ _ st log
  · intro _
    rw [wp_bind]
    have hput : wp (cachePut env m (remoteUrl m) bytes now)
        (fun _ r' => ∃ ws, r'.st = { r.st with warnings := r.st.warnings ++ ws } ∧
          r'.log = r₁.log) (fun _ _ => False) r₁ := by
      unfold cachePut
      cases env.cache with
      | none => exact ⟨[],by simp [st],rfl⟩
      | some fault =>
        dsimp only
        rw [wp_bind,wp_get,wp_bind,wp_modify]
        cases (r₁.cache.put env.crates (fault r₁.fetched.length) m.identity (remoteUrl m) bytes
          now).1 with
        | ok u => exact ⟨[],by simp [st],rfl⟩
        | error e => exact ⟨[_],by rw [← st]; rfl,rfl⟩
    refine wp_mono hput ?_ (fun _ _ h => h.elim)
    rintro _ r' ⟨ws,hst,hlog⟩
    exact .fetched bytes r' ws hst (hlog.trans log)

theorem locateRemote_fulfils (now : Nat) {r₁ : Run} (h : Asked env parent m r r₁) :
    Fulfils env parent m r (Revalidate.renew (intactEntry env r.cache m) (fetchResult env m r))
      (locateRemote env parent m now
        ((intactEntry env r.cache m).map (servedEntry env.limits m now))) r₁ := by
  unfold locateRemote
  cases hremote : env.remote with
  | none =>
    have hfetch : fetchResult env m r = none := by
      rw [fetchResult,hremote]
      rfl
    have hlog : r₁.log = r.log ++ cacheAsked env parent m ++ tried env parent m r := by
      rw [h.log,tried,hfetch]
      exact (List.append_nil _).symm
    rw [hfetch]
    cases hheld : intactEntry env r.cache m with
    | none => exact .lost none _ _ h.st hlog
    | some e => exact serveStale_fulfils h.st hlog (h.cache e hheld)
  | some fetcher =>
    have hfetch : fetchResult env m r = some (fetcher r.fetched (remoteUrl m)) := by
      rw [fetchResult,hremote]
      rfl
    dsimp only
    unfold Fulfils fetchUrl
    rw [wp_bind,wp_bind,wp_get,wp_bind,wp_modify,wp_pure,h.fetched,hfetch]
    have hlog : (r₁.access ⟨parent,m.unselected,.fetch (remoteUrl m)
        (fetcher r.fetched (remoteUrl m))⟩).log =
        r.log ++ cacheAsked env parent m ++ tried env parent m r := by
      rw [tried,hfetch]
      exact congrArg (· ++ _) h.log
    rw [remoteUrl] at hlog ⊢
    cases hanswer : fetcher r.fetched ((wellKnownUrl m).getD "") with
    | ok bytes =>
      rw [hanswer] at hlog
      exact acceptFetched_fulfils h.st hlog
    | error e =>
      rw [hanswer] at hlog
      cases hheld : intactEntry env r.cache m with
      | none => exact .lost (some e) _ _ h.st hlog
      | some entry => exact serveStale_fulfils h.st hlog (h.cache entry hheld)

theorem locate_fulfils (env : Env) (parent : Option Nat) (r : Run)
    (away : m.authority.isLocal = false) :
    Fulfils env parent m r (verdict env m r) (locate env parent m) r := by
  unfold Fulfils locate
  rw [if_neg (by simp [away]),wp_bind,wp_nowEpoch,wp_bind]
  refine wp_mono (cacheGet_asked r r.tick rfl rfl rfl (env.clock r.ticks)) ?_ (fun _ _ h => h.elim)
  rintro cached r₁ ⟨rfl,h⟩
  unfold verdict
  cases hheld : intactEntry env r.cache m with
  | none =>
    have hremote := locateRemote_fulfils (env.clock r.ticks) h
    rw [hheld] at hremote
    exact hremote
  | some e =>
    have hremote := locateRemote_fulfils (env.clock r.ticks) h
    rw [hheld] at hremote
    rw [Option.map_some]
    dsimp only
    rw [wp_ite]
    constructor
    · intro hfresh
      have hgood : keepable env m r e = true := hfresh
      rw [Revalidate.look_good rfl hgood]
      exact .kept e r₁ h.st h.log (h.cache e hheld)
    · intro hbad
      rw [Revalidate.look_renew]
      · exact hremote
      · intro entry hentry
        cases hentry
        exact Bool.eq_false_iff.mpr hbad

end Lookup

section Law

def CacheServed (got : Except Error (Bytes × Origin)) : Prop :=
  ∃ bytes url, got = .ok (bytes,.remote url true)

def Silent (got : Except Error (Bytes × Origin)) (r r' : Run) : Prop :=
  CacheServed got ∧ r'.st.warnings = r.st.warnings

def FreshEntry (env : Env) (m : Murl) (r : Run) : Prop :=
  ∃ e, intactEntry env r.cache m = some e ∧
    env.clock r.ticks < min (e.2.fetchedAt + env.limits.cacheTtlSecs) u64Max

structure Heeds (env : Env) (parent : Option Nat) (m : Murl) (r : Run)
    (got : Except Error (Bytes × Origin)) (r' : Run) : Prop where
  home : m.authority.isLocal = true →
    r'.log = r.log ++ [⟨parent,m.unselected,.load⟩] ∧ r'.cache = r.cache
  pinned : m.authority.isLocal = false → ∀ parts e, m.version = .pinned parts →
    intactEntry env r.cache m = some e →
    got = .ok (e.1,.remote e.2.url true) ∧ r'.log = r.log ++ cacheAsked env parent m ∧
      r'.st = r.st ∧ r'.cache = r.cache
  fresh : m.authority.isLocal = false → m.version = .latest →
    env.limits.cacheTtlSecs < u64Max → (Silent got r r' ↔ FreshEntry env m r)
  fetched : m.authority.isLocal = false → m.version = .latest →
    env.limits.cacheTtlSecs < u64Max → ¬FreshEntry env m r →
    ∀ fetcher, env.remote = some fetcher → r'.log = r.log ++ cacheAsked env parent m ++
      [⟨parent,m.unselected,.fetch (remoteUrl m) (fetcher r.fetched (remoteUrl m))⟩]
  served : CacheServed got → ∃ e, intactEntry env r.cache m = some e ∧
    got = .ok (e.1,.remote e.2.url true) ∧ r'.cache = r.cache
  quiet : Silent got r r' → r'.log = r.log ++ cacheAsked env parent m ∧ r'.st = r.st
  stale : CacheServed got → ¬Silent got r r' →
    (∃ w, r'.st = { r.st with warnings := r.st.warnings ++ [w] }) ∧
      ∀ fetcher, env.remote = some fetcher →
        ∃ why, fetcher r.fetched (remoteUrl m) = .error why

variable {env : Env} {parent : Option Nat} {m : Murl} {r r' : Run}
  {v : Revalidate.Answer (Bytes × CacheMeta) Bytes Error} {got : Except Error (Bytes × Origin)}

theorem Fulfilled.served (h : Fulfilled env parent m r v got r') (hcache : CacheServed got) :
    ∃ e, (v = .kept e ∨ ∃ why, v = .stale e why) ∧ got = .ok (e.1,.remote e.2.url true) ∧
      r'.cache = r.cache := by
  obtain ⟨bytes,url,hgot⟩ := hcache
  cases h with
  | kept e _ st log cache => exact ⟨e,.inl rfl,rfl,cache⟩
  | stale e why _ w st log cache => exact ⟨e,.inr ⟨why,rfl⟩,rfl,cache⟩
  | fetched bytes' _ ws st log => simp at hgot
  | refused bytes' _ e st log => cases hgot
  | lost why _ e st log => cases hgot

theorem Fulfilled.silent (h : Fulfilled env parent m r v got r') :
    Silent got r r' ↔ ∃ e, v = .kept e := by
  constructor
  · rintro ⟨hcache,hquiet⟩
    obtain ⟨e,hv | ⟨why,hv⟩,-,-⟩ := h.served hcache
    · exact ⟨e,hv⟩
    · subst hv
      cases h with
      | stale e why _ w st log cache =>
        rw [st] at hquiet
        simp at hquiet
  · rintro ⟨e,rfl⟩
    cases h with
    | kept e _ st log cache => exact ⟨⟨_,_,rfl⟩,by rw [st]⟩

theorem Fulfilled.log (h : Fulfilled env parent m r v got r') (hv : ∀ e, v ≠ .kept e) :
    r'.log = r.log ++ cacheAsked env parent m ++ tried env parent m r := by
  cases h with
  | kept e _ st log cache => exact absurd rfl (hv e)
  | stale e why _ w st log cache => exact log
  | fetched bytes _ ws st log => exact log
  | refused bytes _ e st log => exact log
  | lost why _ e st log => exact log

theorem keepable_pinned {parts : List Nat} {e : Bytes × CacheMeta}
    (h : m.version = .pinned parts) : keepable env m r e = true := by
  rw [keepable,h]
  rfl

theorem keepable_latest {e : Bytes × CacheMeta} (h : m.version = .latest)
    (httl : env.limits.cacheTtlSecs < u64Max) : keepable env m r e = true ↔
      env.clock r.ticks < min (e.2.fetchedAt + env.limits.cacheTtlSecs) u64Max := by
  rw [keepable,h,ttlOf,isFresh]
  simp [httl.ne]

theorem verdict_fresh (h : m.version = .latest) (httl : env.limits.cacheTtlSecs < u64Max) :
    (∃ e, verdict env m r = .kept e) ↔ FreshEntry env m r := by
  unfold verdict FreshEntry
  constructor
  · rintro ⟨e,hkept⟩
    obtain ⟨hheld,hgood⟩ := Revalidate.look_kept.mp hkept
    exact ⟨e,hheld,(keepable_latest h httl).mp hgood⟩
  · rintro ⟨e,hheld,hnow⟩
    exact ⟨e,Revalidate.look_kept.mpr ⟨hheld,(keepable_latest h httl).mpr hnow⟩⟩

theorem fetchResult_failed {why : Option Error}
    (h : fetchResult env m r = why.map Except.error) :
    ∀ fetcher, env.remote = some fetcher →
      ∃ e, fetcher r.fetched (remoteUrl m) = .error e := by
  intro fetcher hremote
  rw [fetchResult,hremote] at h
  cases why with
  | none => cases h
  | some e => exact ⟨e,Option.some.inj h⟩

theorem Fulfilled.heeds (away : m.authority.isLocal = false)
    (h : Fulfilled env parent m r (verdict env m r) got r') : Heeds env parent m r got r' where
  home := by simp [away]
  pinned := by
    intro _ parts e hversion hheld
    have hkept : verdict env m r = .kept e :=
      Revalidate.look_good hheld (keepable_pinned hversion)
    rw [hkept] at h
    cases h with
    | kept e _ st log cache => exact ⟨rfl,log,st,cache⟩
  fresh _ hversion httl := h.silent.trans (verdict_fresh hversion httl)
  fetched := by
    intro _ hversion httl hnone fetcher hremote
    have hlog := h.log fun e he => hnone ((verdict_fresh hversion httl).mp ⟨e,he⟩)
    rw [tried,fetchResult,hremote] at hlog
    exact hlog
  served := by
    intro hcache
    obtain ⟨e,hv,hgot,hsame⟩ := h.served hcache
    refine ⟨e,?_,hgot,hsame⟩
    rcases hv with hv | ⟨why,hv⟩
    · exact (Revalidate.look_kept.mp hv).1
    · exact (Revalidate.look_stale hv).1
  quiet := by
    intro hsilent
    obtain ⟨e,hv⟩ := h.silent.mp hsilent
    rw [hv] at h
    cases h with
    | kept e _ st log cache => exact ⟨log,st⟩
  stale := by
    intro hcache hloud
    obtain ⟨e,hv | ⟨why,hv⟩,-,-⟩ := h.served hcache
    · exact absurd (h.silent.mpr ⟨e,hv⟩) hloud
    · refine ⟨?_,fetchResult_failed (Revalidate.look_stale hv).2.2⟩
      rw [hv] at h
      cases h with
      | stale e why _ w st log cache => exact ⟨w,st⟩

theorem Heeds.store (home : m.authority.isLocal = true) (hgot : ¬CacheServed got)
    (log : r'.log = r.log ++ [⟨parent,m.unselected,.load⟩]) (cache : r'.cache = r.cache) :
    Heeds env parent m r got r' where
  home _ := ⟨log,cache⟩
  pinned := by simp [home]
  fresh := by simp [home]
  fetched := by simp [home]
  served h := absurd h hgot
  quiet h := absurd h.1 hgot
  stale h := absurd h hgot

theorem locate_heeds (env : Env) (parent : Option Nat) (m : Murl) (r : Run) :
    wp (locate env parent m) (fun got r' => Heeds env parent m r (.ok got) r')
      (fun e r' => Heeds env parent m r (.error e) r') r := by
  cases hlocal : m.authority.isLocal with
  | true =>
    unfold locate
    rw [if_pos hlocal]
    unfold loadLocal
    rw [wp_bind,wp_modify,wp_bind,wp_fromExcept]
    constructor
    · rintro ⟨bytes,path⟩ _
      refine .store hlocal ?_ rfl rfl
      rintro ⟨b,url,h⟩
      cases h
    · intro e _
      refine .store hlocal ?_ rfl rfl
      rintro ⟨b,url,h⟩
      cases h
  | false =>
    exact wp_mono (locate_fulfils env parent r hlocal) (fun _ _ h => h.heeds hlocal)
      (fun _ _ h => h.heeds hlocal)

end Law

section Whole

structure OneName (a m : Murl) : Prop where
  authority : a.authority = m.authority
  name : a.name = m.name
  version : a.version = m.version

def Alone (crates : Crates) (log : List Access) (m : Murl) : Prop :=
  ∀ a ∈ log, cacheKey crates a.murl.identity = cacheKey crates m.identity → OneName a.murl m

def Unfetched (log : List Access) (m : Murl) : Prop :=
  ∀ a ∈ log, OneName a.murl m → a.act.url? = none

structure RunHeeds (env : Env) (cache : Cache) (ref : TargetRef) (last : Run) : Prop where
  lookups : ∀ c c', (walkSystem env cache ref).Reachable c → Step env c c' →
    (c'.run.log = c.run.log ∧ c'.run.cache = c.run.cache) ∨
    ∃ req m got, .seek req ∈ c.frames ∧ req.murl = some m ∧
      locate env req.parent m c.run.count = result got c'.run ∧
      Heeds env req.parent m c.run.count got c'.run
  home : ∀ a ∈ last.log, a.murl.authority.isLocal = true → a.act = .load
  pinned : ∀ m parts e, m.authority.isLocal = false → m.version = .pinned parts →
    intactEntry env cache m = some e → Alone env.crates last.log m →
    Unfetched last.log m ∧ intactEntry env last.cache m = some e

variable {env : Env} {cache : Cache} {ref : TargetRef}

theorem OneName.identity {a m : Murl} (h : OneName a m) : a.identity = m.identity := by
  simp only [Murl.identity,h.authority,h.name,h.version]

theorem intactEntry_congr {c c' : Cache} {a m : Murl} (hid : a.identity = m.identity)
    (h : c' (cacheKey env.crates m.identity) = c (cacheKey env.crates m.identity)) :
    intactEntry env c' a = intactEntry env c m := by
  unfold intactEntry
  rw [hid,h]

theorem step_heeds {c c' : Config} (h : Step env c c') :
    (c'.run.log = c.run.log ∧ c'.run.cache = c.run.cache) ∨
    ∃ req m got, .seek req ∈ c.frames ∧ req.murl = some m ∧
      locate env req.parent m c.run.count = result got c'.run ∧
      Heeds env req.parent m c.run.count got c'.run ∧
      Located env req.parent m c.run.count c'.run := by
  cases h with
  | locate r r' fs req m bytes origin named room got =>
    have hheeds := wp_ok (locate_heeds env req.parent m r.count) got
    exact .inr ⟨req,m,.ok (bytes,origin),by simp,named,got,hheeds,(locate_ok got).1⟩
  | lost r r' fs req m e named room got =>
    have hheeds := wp_error (locate_heeds env req.parent m r.count) got
    exact .inr ⟨req,m,.error e,by simp,named,got,hheeds,locate_error got⟩
  | note => exact .inl ⟨rfl,rfl⟩
  | overBudget => exact .inl ⟨rfl,rfl⟩
  | enter => exact .inl ⟨rfl,rfl⟩
  | plan => exact .inl ⟨rfl,rfl⟩
  | duplicate => exact .inl ⟨rfl,rfl⟩
  | diamond => exact .inl ⟨rfl,rfl⟩
  | splice => exact .inl ⟨rfl,rfl⟩
  | close => exact .inl ⟨rfl,rfl⟩

def HomeLoads (log : List Access) : Prop :=
  ∀ a ∈ log, a.murl.authority.isLocal = true → a.act = .load

theorem HomeLoads.located {parent : Option Nat} {m : Murl} {r r' : Run} (h : HomeLoads r.log)
    (hloc : Located env parent m r r') : HomeLoads r'.log := by
  obtain ⟨acts,hlog,hlookup,-⟩ := hloc.effect
  intro a ha hlocal
  rw [hlog] at ha
  rcases List.mem_append.mp ha with hold | hnew
  · exact h a hold hlocal
  · obtain ⟨act,hact,rfl⟩ := List.mem_map.mp hnew
    cases hlookup with
    | store _ => exact List.mem_singleton.mp hact
    | skip hm => cases hact
    | cache hm => exact absurd (hm.symm.trans hlocal) (by simp)
    | remote hm url answer => exact absurd (hm.symm.trans hlocal) (by simp)
    | both hm url answer => exact absurd (hm.symm.trans hlocal) (by simp)

def PinKept (env : Env) (m : Murl) (e : Bytes × CacheMeta) (r : Run) : Prop :=
  Alone env.crates r.log m → Unfetched r.log m ∧ intactEntry env r.cache m = some e

theorem cacheAsked_unfetched {env : Env} {parent : Option Nat} {x : Murl} {a : Access}
    (h : a ∈ cacheAsked env parent x) : a.act.url? = none := by
  unfold cacheAsked at h
  cases hc : env.cache with
  | none =>
    rw [hc] at h
    cases h
  | some fault =>
    rw [hc] at h
    rw [List.mem_singleton.mp h]
    rfl

theorem PinKept.looked {parent : Option Nat} {m x : Murl} {parts : List Nat}
    {e : Bytes × CacheMeta} {r r' : Run} {got : Except Error (Bytes × Origin)}
    (away : m.authority.isLocal = false) (hversion : m.version = .pinned parts)
    (h : PinKept env m e r) (hheeds : Heeds env parent x r got r')
    (hloc : Located env parent x r r') : PinKept env m e r' := by
  obtain ⟨acts,hlog,-,heffect⟩ := hloc.effect
  intro halone
  rw [hlog] at halone
  obtain ⟨hunfetched,hintact⟩ := h fun a ha => halone a (List.mem_append_left _ ha)
  by_cases hapart : ∀ act ∈ acts, cacheKey env.crates m.identity ≠ cacheKey env.crates x.identity
  · constructor
    · intro a ha hsame
      rw [hlog] at ha
      rcases List.mem_append.mp ha with hold | hnew
      · exact hunfetched a hold hsame
      · obtain ⟨act,hact,rfl⟩ := List.mem_map.mp hnew
        have hid : x.identity = m.identity := hsame.identity
        exact absurd (by rw [hid]) (hapart act hact)
    · rw [← hintact]
      exact intactEntry_congr rfl (heffect.elsewhere hapart)
  · simp only [ne_eq,not_forall,not_not] at hapart
    obtain ⟨act,hact,hkey⟩ := hapart
    have hsame : OneName x.unselected m :=
      halone _ (List.mem_append_right _ (List.mem_map.mpr ⟨act,hact,rfl⟩)) hkey.symm
    have hid : x.identity = m.identity := hsame.identity
    have hx : x.authority.isLocal = false := by
      have hauthority : x.authority = m.authority := hsame.authority
      rw [hauthority,away]
    have hentry : intactEntry env r.cache x = some e :=
      (intactEntry_congr hid rfl).trans hintact
    have hpin : x.version = .pinned parts := Eq.trans hsame.version hversion
    obtain ⟨-,hkept,-,hcache⟩ := hheeds.pinned hx parts e hpin hentry
    constructor
    · intro a ha hname
      rw [hkept] at ha
      rcases List.mem_append.mp ha with hold | hnew
      · exact hunfetched a hold hname
      · exact cacheAsked_unfetched hnew
    · rw [hcache]
      exact hintact

theorem PinKept.reachable {m : Murl} {parts : List Nat} {e : Bytes × CacheMeta} {c : Config}
    (away : m.authority.isLocal = false) (hversion : m.version = .pinned parts)
    (hentry : intactEntry env cache m = some e) (h : (walkSystem env cache ref).Reachable c) :
    PinKept env m e c.run := by
  have hstart : PinKept env m e (Run.start cache) := by
    intro _
    refine ⟨?_,hentry⟩
    intro a ha
    cases ha
  refine Transition.System.invariant (fun c : Config => PinKept env m e c.run) ?_ ?_ h
  · intro c₀ h₀
    cases h₀ with
    | named x => exact hstart
    | file path bytes hread => exact hstart
  · intro c₁ c₂ _ hI hs
    rcases step_heeds hs with ⟨hlog,hcache⟩ | ⟨req,x,got,-,-,-,hheeds,hloc⟩
    · unfold PinKept
      rw [hlog,hcache]
      exact hI
    · exact PinKept.looked (r := c₁.run.count) away hversion hI hheeds hloc

theorem HomeLoads.reachable {c : Config} (h : (walkSystem env cache ref).Reachable c) :
    HomeLoads c.run.log := by
  have hstart : HomeLoads (Run.start cache).log := by
    intro a ha
    cases ha
  refine Transition.System.invariant (fun c : Config => HomeLoads c.run.log) ?_ ?_ h
  · intro c₀ h₀
    cases h₀ with
    | named x => exact hstart
    | file path bytes hread => exact hstart
  · intro c₁ c₂ _ hI hs
    rcases step_heeds hs with ⟨hlog,-⟩ | ⟨req,x,got,-,-,-,-,hloc⟩
    · rw [hlog]
      exact hI
    · exact HomeLoads.located (r := c₁.run.count) hI hloc

theorem resolveRef_heeds (env : Env) (cache : Cache) (ref : TargetRef) :
    RunHeeds env cache ref (final (resolveRef env ref) (Run.start cache)) := by
  have hlookups : ∀ c c', (walkSystem env cache ref).Reachable c → Step env c c' →
      (c'.run.log = c.run.log ∧ c'.run.cache = c.run.cache) ∨
      ∃ req m got, .seek req ∈ c.frames ∧ req.murl = some m ∧
        locate env req.parent m c.run.count = result got c'.run ∧
        Heeds env req.parent m c.run.count got c'.run := by
    intro c c' _ hs
    rcases step_heeds hs with hsame | ⟨req,m,got,hreq,hm,hgot,hheeds,-⟩
    · exact .inl hsame
    · exact .inr ⟨req,m,got,hreq,hm,hgot,hheeds⟩
  have hstop := resolveRef_final env cache ref
  generalize final (resolveRef env ref) (Run.start cache) = last at hstop ⊢
  cases hstop with
  | unread =>
    refine ⟨hlookups,?_,?_⟩
    · intro a ha
      cases ha
    · intro m parts e _ _ hentry _
      refine ⟨?_,hentry⟩
      intro a ha
      cases ha
  | reached r stack h =>
    obtain ⟨fs,hr⟩ := h
    refine ⟨hlookups,HomeLoads.reachable hr,?_⟩
    intro m parts e away hversion hentry
    exact PinKept.reachable away hversion hentry hr

theorem freshness_exact (env : Env) :
    (∀ parent m r, wp (locate env parent m) (fun got r' => Heeds env parent m r (.ok got) r')
      (fun e r' => Heeds env parent m r (.error e) r') r) ∧
    ∀ cache ref, RunHeeds env cache ref (final (resolveRef env ref) (Run.start cache)) :=
  ⟨locate_heeds env,resolveRef_heeds env⟩

end Whole

section Notes

def notes : Murl := ⟨.local,["notes"],.pinned [1],none,none⟩

def notesMeta (crates : Crates) (bytes : Bytes) : CacheMeta :=
  ⟨notes.identity,"https://notes.test/",0,sha256Hex crates bytes⟩

def notesEnv (stored : Bytes) : Env :=
  { siteEnv (siteCrates [] [] []) [] with
    localStore := ⟨.posix,"/home/u/.local/share/murl/names",fun _ => .bytes stored⟩
    cache := some fun _ => none }

def notesCache (crates : Crates) (bytes : Bytes) : Cache :=
  Cache.empty.write (cacheKey crates notes.identity) ⟨some bytes,some (notesMeta crates bytes)⟩

theorem notes_intact (stored bytes : Bytes) :
    intactEntry (notesEnv stored) (notesCache (notesEnv stored).crates bytes) notes =
      some (bytes,notesMeta (notesEnv stored).crates bytes) := by
  have hslot : notesCache (notesEnv stored).crates bytes
      (cacheKey (notesEnv stored).crates notes.identity) =
      ⟨some bytes,some (notesMeta (notesEnv stored).crates bytes)⟩ := Cache.write_same _ _ _
  have hcache : (notesEnv stored).cache = some fun _ => none := rfl
  unfold intactEntry
  rw [hcache]
  dsimp only
  rw [hslot]
  simp [Slot.readable,notesMeta]

theorem pinned_local_from_store :
    let env := notesEnv [123,125]
    let e := (([91,93] : Bytes),notesMeta env.crates [91,93])
    let r := Run.start (notesCache env.crates e.1)
    notes.version = .pinned [1] ∧ intactEntry env r.cache notes = some e ∧
      ¬∃ origin r', locate env none notes r = .ok (e.1,origin) r' := by
  intro env e r
  refine ⟨rfl,notes_intact _ _,?_⟩
  rintro ⟨origin,r',h⟩
  have hload : locate (notesEnv [123,125]) none notes
      (Run.start (notesCache (notesEnv [123,125]).crates [91,93])) =
      .ok ([123,125],.localStore ((notesEnv [123,125]).localStore.manifestPath notes))
        ((Run.start (notesCache (notesEnv [123,125]).crates [91,93])).access
          ⟨none,notes,.load⟩) := rfl
  rw [hload] at h
  cases h

end Notes

end MurlSystem
