import MurlSystem.Resolution.CacheUse
import MurlSystem.Resolution.Pins
import MurlSystem.Resolution.Replay

namespace MurlSystem

open Program

def Act.answer? : Act → Option (Except Error Bytes)
  | .fetch _ answer => some answer
  | .load | .cacheGet => none

def Run.answers (r : Run) : List (Except Error Bytes) := r.log.filterMap fun a => a.act.answer?

def WritesSucceeded (fault : Nat → Option PutFault) (r : Run) : Prop :=
  ∀ (k : Nat) (bytes : Bytes), r.answers[k]? = some (.ok bytes) → fault (k + 1) = none

def CacheHolds (crates : Crates) (cache : Cache) (id url : String) (bytes : Bytes) : Prop :=
  ∃ stamp, cache (cacheKey crates id) = ⟨some bytes,some ⟨id,url,stamp,sha256Hex crates bytes⟩⟩

section CacheHolds

variable {crates : Crates} {cache : Cache} {id url : String} {bytes : Bytes} {ttl now : Nat}

theorem CacheHolds.get (h : CacheHolds crates cache id url bytes) (ttl now : Nat) :
    ∃ entry, cache.get crates id ttl now = (some entry,cache) ∧ entry.bytes = bytes ∧
      entry.info.url = url := by
  obtain ⟨stamp,hslot⟩ := h
  refine ⟨⟨bytes,⟨id,url,stamp,sha256Hex crates bytes⟩,isFresh ttl now stamp⟩,?_,rfl,rfl⟩
  unfold Cache.get
  simp [hslot]

theorem Cache.get_served {entry : CacheEntry} (h : (cache.get crates id ttl now).1 = some entry) :
    (cache.get crates id ttl now).2 = cache ∧
      CacheHolds crates cache id entry.info.url entry.bytes := by
  unfold Cache.get at h ⊢
  cases hd : (cache (cacheKey crates id)).data with
  | none => simp [hd] at h
  | some data =>
    cases hi : (cache (cacheKey crates id)).info with
    | none => simp [hd,hi] at h
    | some info =>
      simp only [hd,hi] at h ⊢
      by_cases hbad : info.identity ≠ id ∨ sha256Hex crates data ≠ info.sha256
      · rw [if_pos hbad] at h
        cases h
      · rw [if_neg hbad] at h ⊢
        obtain rfl := Option.some.inj h
        obtain ⟨hid,hsum⟩ : info.identity = id ∧ sha256Hex crates data = info.sha256 := by
          simpa using hbad
        refine ⟨rfl,info.fetchedAt,?_⟩
        calc cache (cacheKey crates id)
            = ⟨(cache (cacheKey crates id)).data,(cache (cacheKey crates id)).info⟩ := rfl
          _ = ⟨some data,some info⟩ := by rw [hd,hi]
          _ = _ := by rw [hsum,← hid]

theorem Cache.put_served (cache : Cache) (id url : String) (bytes : Bytes) (now : Nat) :
    CacheHolds crates (cache.put crates none id url bytes now).2 id url bytes :=
  ⟨now,Cache.write_same _ _ _⟩

theorem CacheEffect.served {env : Env} {m : Murl} {c c' : Cache} {acts : List Act}
    (parent : Option Nat) (h : CacheEffect env m c acts c') (hne : m.identity ≠ id)
    (hclash : NoClash env.crates (acts.map (Access.mk parent m.unselected)) id)
    (hs : CacheHolds env.crates c id url bytes) : CacheHolds env.crates c' id url bytes := by
  obtain ⟨stamp,hslot⟩ := hs
  exact ⟨stamp,(h.elsewhere (hclash.key_ne hne)).trans hslot⟩

end CacheHolds

section Locate

variable {env : Env} {fault : Nat → Option PutFault} {parent : Option Nat} {m : Murl} {r : Run}

theorem answers_length (r : Run) : r.answers.length = r.fetched.length := by
  unfold Run.answers Run.fetched
  induction r.log with
  | nil => rfl
  | cons a rest ih =>
    rw [List.filterMap_cons,List.filterMap_cons]
    cases a.act with
    | load => exact ih
    | cacheGet => exact ih
    | fetch url answer => exact congrArg (· + 1) ih

def Serves (env : Env) (fault : Nat → Option PutFault) (m : Murl) (got : Bytes × Origin)
    (r : Run) : Prop :=
  ∃ url fromCache, got.2 = .remote url fromCache ∧
    (WritesSucceeded fault r → CacheHolds env.crates r.cache m.identity url got.1)

theorem WritesSucceeded.last {r' : Run} {url : String} {bytes : Bytes}
    (h : WritesSucceeded fault r')
    (hlog : r'.log = r.log ++ [⟨parent,m.unselected,.fetch url (.ok bytes)⟩]) :
    fault r'.fetched.length = none := by
  have hanswers : r'.answers = r.answers ++ [.ok bytes] := by
    simp [Run.answers,hlog,Act.answer?]
  rw [← answers_length,hanswers,List.length_append,List.length_singleton]
  exact h r.answers.length bytes (by simp [hanswers])

theorem acceptFetched_serves {url : String} {bytes : Bytes} {now : Nat} {r₀ : Run}
    (hcache : env.cache = some fault)
    (hlog : r.log = r₀.log ++ [⟨parent,m.unselected,.fetch url (.ok bytes)⟩]) :
    wp (acceptFetched env m url bytes now) (Serves env fault m) (fun _ _ => True) r := by
  unfold acceptFetched
  rw [wp_ite]
  refine ⟨fun _ => trivial,fun _ => ?_⟩
  rw [wp_bind]
  unfold cachePut
  rw [hcache]
  dsimp only
  rw [wp_bind,wp_get,wp_bind,wp_modify]
  have hserved : ∀ r' : Run, r'.log = r.log →
      r'.cache = (r.cache.put env.crates (fault r.fetched.length) m.identity url bytes now).2 →
      Serves env fault m (bytes,.remote url false) r' := by
    intro r' hlog' hcache'
    refine ⟨url,false,rfl,?_⟩
    intro hw
    have hnone := hw.last (hlog'.trans hlog)
    have hfetched : r'.fetched = r.fetched := by simp only [Run.fetched,hlog']
    rw [hfetched] at hnone
    rw [hcache',hnone]
    exact Cache.put_served _ _ _ _ _
  cases (r.cache.put env.crates (fault r.fetched.length) m.identity url bytes now).1 with
  | ok u =>
    rw [wp_pure,wp_pure]
    exact hserved _ rfl rfl
  | error e =>
    rw [wp_warn,wp_pure]
    exact hserved _ rfl rfl

theorem serveStale_serves {entry : CacheEntry} {why : String}
    (h : CacheHolds env.crates r.cache m.identity entry.info.url entry.bytes) :
    wp (serveStale m entry why) (Serves env fault m) (fun _ _ => True) r := by
  unfold serveStale
  rw [wp_bind,wp_warn,wp_pure]
  exact ⟨entry.info.url,true,rfl,fun _ => h⟩

theorem locateRemote_serves {now : Nat} {cached : Option CacheEntry}
    (hcache : env.cache = some fault)
    (h : ∀ entry, cached = some entry →
      CacheHolds env.crates r.cache m.identity entry.info.url entry.bytes) :
    wp (locateRemote env parent m now cached) (Serves env fault m) (fun _ _ => True) r := by
  unfold locateRemote
  cases env.remote with
  | none =>
    cases cached with
    | none => trivial
    | some entry => exact serveStale_serves (h entry rfl)
  | some fetcher =>
    dsimp only
    unfold fetchUrl
    rw [wp_bind,wp_bind,wp_get,wp_bind,wp_modify,wp_pure]
    cases fetcher r.fetched ((wellKnownUrl m).getD "") with
    | ok bytes => exact acceptFetched_serves hcache rfl
    | error e =>
      cases cached with
      | none => trivial
      | some entry => exact serveStale_serves (h entry rfl)

theorem locate_serves (hcache : env.cache = some fault) (hm : m.authority.isLocal = false) :
    wp (locate env parent m) (Serves env fault m) (fun _ _ => True) r := by
  unfold locate
  rw [if_neg (by simp [hm]),wp_bind,wp_nowEpoch,wp_bind]
  unfold cacheGet
  rw [hcache]
  dsimp only
  rw [wp_bind,wp_get,wp_bind,wp_modify,wp_pure]
  have hserve : ∀ entry,
      (r.tick.cache.get env.crates m.identity (ttlOf env.limits m.version)
        (env.clock r.ticks)).1 = some entry →
      CacheHolds env.crates (r.tick.cache.get env.crates m.identity (ttlOf env.limits m.version)
        (env.clock r.ticks)).2 m.identity entry.info.url entry.bytes := by
    intro entry hgot
    obtain ⟨hsame,hserved⟩ := Cache.get_served hgot
    rw [hsame]
    exact hserved
  cases hgot : (r.tick.cache.get env.crates m.identity (ttlOf env.limits m.version)
      (env.clock r.ticks)).1 with
  | none => exact locateRemote_serves hcache (by simp)
  | some entry =>
    rw [hgot] at hserve
    dsimp only
    rw [wp_ite]
    constructor
    · intro _
      exact ⟨entry.info.url,true,rfl,fun _ => hserve entry rfl⟩
    · intro _
      exact locateRemote_serves hcache hserve

end Locate

structure Stored (env : Env) (c : Config) : Prop where
  nodes : ∀ node ∈ c.run.st.nodes, ∀ id url fromCache, node.identity = some id →
    node.origin = .remote url fromCache → NoClash env.crates c.run.log id →
    CacheHolds env.crates c.run.cache id url node.rawBytes
  found : ∀ req bytes url fromCache m, .found req bytes (.remote url fromCache) ∈ c.frames →
    req.murl = some m → NoClash env.crates c.run.log m.identity →
    CacheHolds env.crates c.run.cache m.identity url bytes

section Stored

variable {env : Env} {fault : Nat → Option PutFault} {cache : Cache} {ref : TargetRef}
  {c c' : Config}

theorem WritesSucceeded.earlier {r r' : Run} {more : List Access}
    (h : WritesSucceeded fault r') (hlog : r'.log = r.log ++ more) : WritesSucceeded fault r := by
  intro k bytes hk
  refine h k bytes ?_
  have hlt : k < r.answers.length := (List.getElem?_eq_some_iff.mp hk).1
  unfold Run.answers at hk hlt ⊢
  rw [hlog,List.filterMap_append,List.getElem?_append_left hlt]
  exact hk

theorem NoClash.earlier {crates : Crates} {log more : List Access} {id : String}
    (h : NoClash crates (log ++ more) id) : NoClash crates log id :=
  fun a ha => h a (List.mem_append_left _ ha)

theorem NoClash.later {crates : Crates} {log more : List Access} {id : String}
    (h : NoClash crates (log ++ more) id) : NoClash crates more id :=
  fun a ha => h a (List.mem_append_right _ ha)

theorem Stored.keep {r' : Run} {fs : List Frame} (h : Stored env c)
    (hn : r'.st.nodes = c.run.st.nodes) (hl : r'.log = c.run.log)
    (hc : r'.cache = c.run.cache)
    (hf : ∀ req bytes origin, .found req bytes origin ∈ fs →
      .found req bytes origin ∈ c.frames) : Stored env ⟨r',fs⟩ := by
  constructor
  · rw [hn,hl,hc]
    exact h.nodes
  · rw [hl,hc]
    intro req bytes url fromCache m hmem
    exact h.found req bytes url fromCache m (hf _ _ _ hmem)

theorem Stored.located {r r' : Run} {fs : List Frame} {req : Request} {m : Murl}
    (h : Stored env ⟨r,.seek req :: fs⟩) (hids : Identified ⟨r,.seek req :: fs⟩)
    (named : req.murl = some m) (hloc : Located env req.parent m r.count r') :
    ∀ node ∈ r'.st.nodes, ∀ id url fromCache, node.identity = some id →
      node.origin = .remote url fromCache → NoClash env.crates r'.log id →
      CacheHolds env.crates r'.cache id url node.rawBytes := by
  obtain ⟨⟨ws,hst⟩,-,-,acts,hlog,-,heffect⟩ := hloc
  intro node hnode id url fromCache hid horigin hclash
  rw [hst] at hnode
  rw [hlog] at hclash
  have hold := h.nodes node hnode id url fromCache hid horigin hclash.earlier
  have hne : m.identity ≠ id := by
    rintro rfl
    refine hids.fresh (.seek req) List.mem_cons_self rfl m.identity ?_
      (List.mem_filterMap.mpr ⟨node,hnode,hid⟩)
    simp [Frame.identity,Frame.murl,named]
  exact heffect.served req.parent hne hclash.later hold

theorem Stored.enter {r : Run} {fs : List Frame} {req : Request} {bytes : Bytes}
    {origin : Origin} {node : ResolvedNode} {order : List Nat} {call : Call}
    (h : Stored env ⟨r,.found req bytes origin :: fs⟩)
    (hnode : Admitted env req bytes origin node) :
    Stored env ⟨r.pushNode node call,
      .walk (req.site origin r.st.nodes.length) node.manifest.doc.resources order :: fs⟩ := by
  constructor
  · intro n hn id url fromCache hid horigin hclash
    rcases List.mem_append.mp hn with hn | hn
    · exact h.nodes n hn id url fromCache hid horigin hclash
    · obtain rfl := List.mem_singleton.mp hn
      rw [hnode.identity] at hid
      obtain ⟨m,hm,rfl⟩ := Option.map_eq_some_iff.mp hid
      rw [hnode.source] at horigin
      subst horigin
      rw [hnode.rawBytes]
      exact h.found req bytes url fromCache m List.mem_cons_self hm hclash
  · intro req' bytes' url fromCache m hmem
    rcases List.mem_cons.mp hmem with hmem | hmem
    · cases hmem
    · exact h.found req' bytes' url fromCache m (List.mem_cons_of_mem _ hmem)

theorem Stored.step (h : Stored env c) (hcache : env.cache = some fault)
    (hids : Identified c) (hshape : Shape env ref c) (hs : Step env c c')
    (hw : WritesSucceeded fault c'.run) : Stored env c' := by
  have hnone : ∀ {r : Run} {req : Request} {fs : List Frame},
      Shape env ref ⟨r,.seek req :: fs⟩ → ∀ req' bytes origin, .found req' bytes origin ∉ fs := by
    intro r req fs hshape req' bytes origin hmem
    cases hshape.pending _ hmem
  cases hs with
  | note => exact h.keep rfl rfl rfl fun _ _ _ hmem => hmem
  | overBudget => exact h.keep rfl rfl rfl fun _ _ _ hmem => hmem
  | locate r r' fs req m bytes origin named room got =>
    obtain ⟨hloc,hsource⟩ := locate_ok got
    refine ⟨h.located hids named hloc,?_⟩
    intro req' bytes' url fromCache m' hmem hm' hclash
    rcases List.mem_cons.mp hmem with heq | hmem
    · obtain ⟨rfl,rfl,rfl⟩ : req' = req ∧ bytes' = bytes ∧ .remote url fromCache = origin := by
        simpa using heq
      rw [named] at hm'
      obtain rfl := Option.some.inj hm'
      obtain ⟨url',fromCache',heq,hserved⟩ := wp_ok (locate_serves hcache hsource) got
      cases heq
      exact hserved hw
    · exact absurd hmem (hnone hshape req' bytes' _)
  | lost r r' fs req m e named room got =>
    refine ⟨h.located hids named (locate_error got),?_⟩
    intro req' bytes' url fromCache m' hmem
    rcases List.mem_cons.mp hmem with heq | hmem
    · cases heq
    · exact absurd hmem (hnone hshape req' bytes' _)
  | enter r fs req bytes origin node order pin admitted ordered => exact h.enter admitted
  | plan => exact h.keep rfl rfl rfl (by simp)
  | duplicate => exact h.keep rfl rfl rfl (by simp)
  | diamond => exact h.keep rfl rfl rfl (by simp)
  | splice => exact h.keep rfl rfl rfl (by simp)
  | close => exact h.keep rfl rfl rfl (by simp)

theorem Stored.reachable (hcache : env.cache = some fault)
    (h : (walkSystem env cache ref).Reachable c) :
    WritesSucceeded fault c.run → Stored env c := by
  refine Transition.System.invariant
    (fun c : Config => WritesSucceeded fault c.run → Stored env c) ?_ ?_ h
  · intro c₀ h₀ _
    cases h₀ with
    | named m => constructor <;> simp [Run.pushStack,Run.start]
    | file path bytes hread => constructor <;> simp [Run.start]
  · intro c₁ c₂ hc hI hs hw
    have hearlier : WritesSucceeded fault c₁.run := by
      rcases hs.log_cases with ⟨hlog,-,-⟩ | ⟨req,m,-,-,-,hloc⟩
      · exact hw.earlier (by rw [hlog,List.append_nil])
      · obtain ⟨acts,hlog,-,-⟩ := hloc.effect
        exact hw.earlier hlog
    exact (hI hearlier).step hcache (Identified.reachable hc) (Shape.reachable hc) hs hw

end Stored

def Origin.replayed : Origin → Origin
  | .remote url _ => .remote url true
  | origin => origin

def Env.offline (env : Env) : Env := { env with remote := none }

def offlineLeeway (cache : Cache) : Leeway :=
  ⟨fun origin origin' => origin' = origin.replayed,True,fun c => c = cache⟩

section Offline

variable {env : Env} {fault : Nat → Option PutFault} {m : Murl} {t : Run}

theorem locate_cached (hcache : env.cache = some fault) (parent : Option Nat)
    (hm : m.authority.isLocal = false) {bytes : Bytes} {url : String}
    (h : CacheHolds env.crates t.cache m.identity url bytes) :
    wp (locate env.offline parent m)
      (fun got t' => got = (bytes,.remote url true) ∧ t'.cache = t.cache ∧
        ∃ ws, t'.st = { t.st with warnings := t.st.warnings ++ ws }) (fun _ _ => False) t := by
  obtain ⟨entry,hget,rfl,rfl⟩ := h.get (ttlOf env.limits m.version) (env.clock t.ticks)
  have hcache' : env.offline.cache = some fault := hcache
  have hget' : t.tick.cache.get env.offline.crates m.identity
      (ttlOf env.offline.limits m.version) (env.offline.clock t.ticks) = (some entry,t.cache) :=
    hget
  unfold locate
  rw [if_neg (by simp [hm]),wp_bind,wp_nowEpoch,wp_bind]
  unfold cacheGet
  rw [hcache']
  dsimp only
  rw [wp_bind,wp_get,wp_bind,wp_modify,wp_pure,hget']
  dsimp only
  rw [wp_ite]
  constructor
  · intro _
    exact ⟨rfl,rfl,[],by simp [Run.access,Run.tick]⟩
  · intro _
    unfold locateRemote serveStale
    rw [show env.offline.remote = none from rfl]
    dsimp only
    rw [wp_bind,wp_warn,wp_pure]
    exact ⟨rfl,rfl,_,by simp [Run.access,Run.tick,Run.warn]; rfl⟩

theorem trustOf_replayed (origin : Origin) (murl : Option Murl)
    (verified : Option VerifiedSignature) :
    trustOf env murl origin.replayed verified = trustOf env murl origin verified := by
  cases origin <;> cases verified <;> rfl

theorem SameSource.replayed (m : Murl) (origin : Origin) :
    SameSource env (some m) origin origin.replayed := by
  refine ⟨rfl,?_,trustOf_replayed origin (some m)⟩
  cases origin <;> rfl

theorem relocates_offline (hcache : env.cache = some fault) {cache : Cache}
    {z : List ResolvedNode}
    (hz : ∀ node ∈ z, ∀ id url fromCache, node.identity = some id →
      node.origin = .remote url fromCache → CacheHolds env.crates cache id url node.rawBytes) :
    Relocates (offlineLeeway cache) env env.offline z := by
  rintro parent m s t s' bytes origin h hgot ⟨node,hnode,hid,horigin,rfl⟩
  obtain ⟨⟨⟨ws,hst⟩,-,-,-⟩,hsource⟩ := locate_ok hgot
  have hback : ∀ t' : Run, t'.cache = t.cache →
      (∃ ws, t'.st = { t.st with warnings := t.st.warnings ++ ws }) →
      Replays (offlineLeeway cache) s' t' := by
    rintro t' hcache' ⟨ws',hst'⟩
    constructor
    all_goals first | rw [hst,hst'] | rw [hcache']
    · exact h.nodes
    · exact h.resources
    · exact h.stack
    · exact h.visited
    · exact h.dedup
    · exact h.manifests
    · exact h.cache
  cases origin with
  | localStore path =>
    obtain ⟨path',hload,horigin',-⟩ := (locate_home hsource).mp hgot
    obtain rfl := Origin.localStore.inj horigin'
    exact ⟨.localStore path,t.access ⟨parent,m.unselected,.load⟩,
      (locate_home hsource).mpr ⟨path,hload,rfl,rfl⟩,hback _ rfl ⟨[],by simp [Run.access]⟩,
      .refl env _ _,rfl⟩
  | localFile path => cases hsource
  | remote url fromCache =>
    have hserved := hz node hnode m.identity url fromCache hid horigin
    have hsame : t.cache = cache := h.cache
    rw [← hsame] at hserved
    have hcached := locate_cached hcache parent hsource hserved
    unfold wp at hcached
    split at hcached
    · rename_i got t' hok
      obtain ⟨rfl,hcache',hst'⟩ := hcached
      exact ⟨_,t',hok,hback t' hcache' hst',.replayed m _,rfl⟩
    · cases hcached

theorem offline_replays (env : Env) (now : Nat) (hclock : ∀ n, env.clock n = now)
    (fault : Nat → Option PutFault) (hcache : env.cache = some fault) (cache : Cache)
    (ref : TargetRef) (res : Resolution) (r : Run)
    (hrun : resolveRef env ref (Run.start cache) = .ok res r) (hwrites : WritesSucceeded fault r)
    (hclash : ∀ id ∈ nodeIds r.st, NoClash env.crates r.log id) :
    ∃ res' r', resolveRef env.offline ref (Run.start r.cache) = .ok res' r' ∧
      SameResolution (offlineLeeway r.cache) res res' := by
  obtain ⟨hfinished,-⟩ := resolveRef_ok hrun
  have hz : ∀ node ∈ r.st.nodes, ∀ id url fromCache, node.identity = some id →
      node.origin = .remote url fromCache → CacheHolds env.crates r.cache id url node.rawBytes := by
    intro node hnode id url fromCache hid horigin
    have hclash := hclash id (List.mem_filterMap.mpr ⟨node,hnode,hid⟩)
    cases hfinished with
    | all r stack site rs h =>
      exact (Stored.reachable hcache h hwrites).nodes node hnode id url fromCache hid horigin
        hclash
  have htime : SameTime (offlineLeeway r.cache) env env.clock := fun _ => ⟨now,hclock,hclock⟩
  have hloc : Relocates (offlineLeeway r.cache) env
      (env.sited env.localStore none env.cache env.clock) r.st.nodes :=
    relocates_offline hcache hz
  exact resolveRef_again hloc htime rfl (fun _ => rfl) hrun

def nestingPage : Value := manifestValue "Q" [resourceValue "p" "murl" "murl://a.com/p" none]

def nestingDigests : List (Bytes × Bytes) :=
  [(published leafPage,leafDigest),
   (published nestingPage,[255,179,15,222,163,206,247,119,53,78,172,77,21,205,168,202,69,23,213,
    209,179,115,10,170,158,38,202,199,113,169,153,125]),
   (Text.bytes "murl://a.com/p",[223,114,247,179,239,206,189,135,155,240,170,148,182,86,198,104,
    182,245,146,254,57,254,237,114,203,12,97,140,245,208,75,213]),
   (Text.bytes "murl://a.com/q",[104,48,124,203,230,212,46,31,121,5,38,75,172,246,72,27,85,84,121,
    165,168,134,30,15,18,92,18,210,255,86,48,41])]

def nestingEnv : Env :=
  { siteEnv (siteCrates [leafPage,nestingPage] nestingDigests [])
      [("https://a.com/.well-known/murl/p.murl.json",leafPage),
       ("https://a.com/.well-known/murl/q.murl.json",nestingPage)] with
    cache := some fun _ => none }

def nestingRef : TargetRef := .murl ⟨.remote "a.com" none,["q"],.latest,none,none⟩

def namesApart (crates : Crates) (r : Run) : Bool :=
  (nodeIds r.st).all fun id => r.log.all fun a =>
    cacheKey crates a.murl.identity != cacheKey crates id || a.murl.identity == id

theorem namesApart_noClash {crates : Crates} {r : Run} (h : namesApart crates r = true) :
    ∀ id ∈ nodeIds r.st, NoClash crates r.log id := by
  intro id hid a ha hkey
  have hpair := List.all_eq_true.mp (List.all_eq_true.mp h id hid) a ha
  simpa [hkey] using hpair

theorem nesting_replayed : ∃ res r res' r',
    resolveRef nestingEnv nestingRef (Run.start Cache.empty) = .ok res r ∧
    resolveRef nestingEnv.offline nestingRef (Run.start r.cache) = .ok res' r' ∧
    SameResolution (offlineLeeway r.cache) res res' := by
  have hrun : finishes (resolveRef nestingEnv nestingRef)
      (fun _ r => namesApart nestingEnv.crates r) (Run.start Cache.empty) = true := by
    simp only [nestingEnv,nestingDigests,siteEnv,siteCrates,published_compact]
    decide +kernel
  obtain ⟨res,r,hok,hnames⟩ := finishes_ok hrun
  obtain ⟨res',r',hagain,hsame⟩ := offline_replays nestingEnv 1000000 (fun _ => rfl)
    (fun _ => none) rfl Cache.empty nestingRef res r hok (fun _ _ _ => rfl)
    (namesApart_noClash hnames)
  exact ⟨res,r,res',r',hok,hagain,hsame⟩

end Offline

end MurlSystem
