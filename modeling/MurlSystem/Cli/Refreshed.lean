import MurlSystem.Cli.Context
import MurlSystem.Resolution.Backward
import MurlSystem.Resolution.Offline

namespace MurlSystem

open Program

def Act.failed : Act → Bool
  | .fetch _ (.error _) => true
  | .fetch _ (.ok _) | .load | .cacheGet => false

def Fine (log : List Access) : Prop := ∀ a ∈ log, a.act.failed = false

def CacheServes (env : Env) (cache : Cache) (m : Murl) (tick : Nat) : Prop :=
  env.cache.isSome = true ∧ ∃ entry,
    (cache.get env.crates m.identity (ttlOf env.limits m.version) (env.clock tick)).1 =
      some entry ∧ (entry.fresh = true ∨ env.remote = none)

def FromCache (origin : Origin) : Prop := ∃ url, origin = .remote url true

def FromFetch (log : List Access) (origin : Origin) (bytes : Bytes) : Prop :=
  ∃ url, origin = .remote url false ∧ ∃ a ∈ log, a.act = .fetch url (.ok bytes)

structure CacheFirst (env : Env) (m : Murl) (r : Run) (got : Bytes × Origin) (r' : Run) : Prop where
  ticks : r'.ticks = r.ticks + 1
  served : Fine r'.log → CacheServes env r.cache m r.ticks → FromCache got.2
  fetched : Fine r'.log → ¬CacheServes env r.cache m r.ticks → FromFetch r'.log got.2 got.1

section Locate

variable {env : Env} {parent : Option Nat} {m : Murl} {r r₁ : Run} {now : Nat}

theorem cachePut_log {url : String} {bytes : Bytes} {Q : Unit → Run → Prop}
    {E : Error → Run → Prop} (h : ∀ r', r'.log = r₁.log → r'.ticks = r₁.ticks → Q () r') :
    wp (cachePut env m url bytes now) Q E r₁ := by
  unfold cachePut
  cases env.cache with
  | none => exact h r₁ rfl rfl
  | some fault =>
    dsimp only
    rw [wp_bind,wp_get,wp_bind,wp_modify]
    split
    · exact h _ rfl rfl
    · exact h _ rfl rfl

theorem locateRemote_answers {cached : Option CacheEntry} (hticks : r₁.ticks = r.ticks + 1)
    (hserved : CacheServes env r.cache m r.ticks ↔ ∃ entry, cached = some entry ∧ env.remote = none) :
    wp (locateRemote env parent m now cached) (CacheFirst env m r) (fun _ _ => True) r₁ := by
  unfold locateRemote
  cases hr : env.remote with
  | none =>
    cases cached with
    | none => trivial
    | some entry =>
      have hyes : CacheServes env r.cache m r.ticks := hserved.mpr ⟨entry,rfl,hr⟩
      exact ⟨hticks,fun _ _ => ⟨_,rfl⟩,fun _ hno => absurd hyes hno⟩
  | some fetcher =>
    have hno : ¬CacheServes env r.cache m r.ticks := by
      intro hyes
      obtain ⟨entry,-,hnone⟩ := hserved.mp hyes
      rw [hr] at hnone
      cases hnone
    dsimp only
    unfold fetchUrl
    rw [wp_bind,wp_bind,wp_get,wp_bind,wp_modify,wp_pure]
    cases hans : fetcher r₁.fetched ((wellKnownUrl m).getD "") with
    | ok bytes =>
      dsimp only
      unfold acceptFetched
      rw [wp_ite]
      refine ⟨fun _ => trivial,fun _ => ?_⟩
      rw [wp_bind]
      refine cachePut_log fun r' hlog ht => ?_
      refine ⟨ht.trans hticks,fun _ hyes => absurd hyes hno,fun _ _ => ⟨_,rfl,?_⟩⟩
      rw [hlog]
      exact ⟨_,List.mem_append_right _ List.mem_cons_self,rfl⟩
    | error e =>
      have hbad : ∀ r' : Run, r'.log = r₁.log ++
          [⟨parent,m.unselected,.fetch ((wellKnownUrl m).getD "") (.error e)⟩] → ¬Fine r'.log := by
        intro r' hlog hfine
        rw [hlog] at hfine
        cases hfine _ (List.mem_append_right _ List.mem_cons_self)
      cases cached with
      | none => trivial
      | some entry =>
        exact ⟨hticks,fun hfine => absurd hfine (hbad _ rfl),fun hfine => absurd hfine (hbad _ rfl)⟩

theorem locate_answers (hm : m.authority.isLocal = false) :
    wp (locate env parent m) (CacheFirst env m r) (fun _ _ => True) r := by
  have hlocal : ¬m.authority.isLocal = true := by simp [hm]
  unfold locate
  rw [if_neg hlocal,wp_bind,wp_nowEpoch,wp_bind]
  unfold cacheGet
  cases hc : env.cache with
  | none =>
    refine locateRemote_answers rfl ?_
    constructor
    · rintro ⟨hsome,-⟩
      rw [hc] at hsome
      cases hsome
    · rintro ⟨entry,he,-⟩
      cases he
  | some fault =>
    dsimp only
    rw [wp_bind,wp_get,wp_bind,wp_modify,wp_pure]
    have hcache : r.tick.cache = r.cache := rfl
    rw [hcache]
    cases hgot : (r.cache.get env.crates m.identity (ttlOf env.limits m.version)
      (env.clock r.ticks)).1 with
    | none =>
      refine locateRemote_answers rfl ?_
      constructor
      · rintro ⟨-,entry,he,-⟩
        rw [hgot] at he
        cases he
      · rintro ⟨entry,he,-⟩
        cases he
    | some entry =>
      have hopen : env.cache.isSome = true := by rw [hc]; rfl
      cases hfresh : entry.fresh with
      | true =>
        have hyes : CacheServes env r.cache m r.ticks := ⟨hopen,entry,hgot,.inl hfresh⟩
        simp only [hfresh,if_true]
        exact ⟨rfl,fun _ _ => ⟨_,rfl⟩,fun _ hno => absurd hyes hno⟩
      | false =>
        simp only [hfresh]
        refine locateRemote_answers rfl ?_
        constructor
        · rintro ⟨-,entry',he,hor⟩
          obtain rfl := Option.some.inj (hgot.symm.trans he)
          rw [hfresh] at hor
          exact ⟨entry,rfl,hor.resolve_left (by simp)⟩
        · rintro ⟨entry',he,hnone⟩
          obtain rfl := Option.some.inj he
          exact ⟨hopen,entry,hgot,.inr hnone⟩

theorem locate_local_ticks (hm : m.authority.isLocal = true) {got : Bytes × Origin} {r' : Run}
    (h : locate env parent m r = .ok got r') : r'.ticks = r.ticks := by
  obtain ⟨path,-,-,rfl⟩ := (locate_home hm).mp h
  rfl

end Locate

theorem examine_ticks {env : Env} {r : Run} (murl : Option Murl) (bytes : Bytes) (origin : Origin)
    (depth : Nat) : wp (examine env murl bytes origin depth) (fun _ r' => r'.ticks = r.ticks + 1)
      (fun _ _ => True) r :=
  wp_examine (fun _ _ _ _ => rfl) (fun _ _ _ _ => trivial)

section Watched

variable {env : Env} {before : Cache} {s s' : Run}

def lookupTick (nodes : List ResolvedNode) (k : Nat) : Nat :=
  k + (nodes.take k).countP fun node => node.origin.isRemote

def Traced (env : Env) (before : Cache) (r : Run) (k : Nat) (node : ResolvedNode) (call : Call) :
    Prop :=
  (node.origin.isRemote = true ↔ ∃ m, call.murl = some m ∧ m.authority.isLocal = false) ∧
  ∀ m, call.murl = some m → m.authority.isLocal = false → NoClash env.crates r.log m.identity →
    (CacheServes env before m (lookupTick r.st.nodes k) → FromCache node.origin) ∧
    (¬CacheServes env before m (lookupTick r.st.nodes k) → FromFetch r.log node.origin node.rawBytes)

structure Watched (env : Env) (before : Cache) (r : Run) : Prop where
  ticks : r.ticks = lookupTick r.st.nodes r.st.nodes.length
  calls : r.calls.length = r.st.nodes.length
  cache : ∀ id, id ∉ nodeIds r.st → NoClash env.crates r.log id →
    r.cache (cacheKey env.crates id) = before (cacheKey env.crates id)
  nodes : ∀ k node call, r.st.nodes[k]? = some node → r.calls[k]? = some call →
    Traced env before r k node call

def Refetching (env : Env) (before : Cache) (r : Run) : Prop :=
  (nodeIds r.st).Nodup → Fine r.log → Watched env before r

instance : Unmoved fun r => ¬Refetching env before r where
  same := by
    intro r r' hcore hno hrefetching
    simp only [Run.core,Prod.mk.injEq] at hcore
    obtain ⟨hnodes,-,hcache,hlog,hcalls,hticks⟩ := hcore
    refine hno fun hnodup hfine => ?_
    have hids : nodeIds r'.st = nodeIds r.st := by simp only [nodeIds,hnodes]
    have htracked := hrefetching (by rw [← hids]; exact hnodup) (by rw [← hlog]; exact hfine)
    refine ⟨?_,?_,?_,?_⟩
    · rw [hticks,hnodes]
      exact htracked.ticks
    · rw [hcalls,hnodes]
      exact htracked.calls
    · rw [hids,hlog,hcache]
      exact htracked.cache
    · unfold Traced
      rw [hnodes,hcalls,hlog]
      exact htracked.nodes

theorem CacheServes.congr {c c' : Cache} {m : Murl} {tick : Nat}
    (h : c (cacheKey env.crates m.identity) = c' (cacheKey env.crates m.identity)) :
    CacheServes env c m tick ↔ CacheServes env c' m tick := by
  have hget : (c.get env.crates m.identity (ttlOf env.limits m.version) (env.clock tick)).1 =
      (c'.get env.crates m.identity (ttlOf env.limits m.version) (env.clock tick)).1 := by
    unfold Cache.get
    dsimp only
    rw [h]
    split
    · split <;> rfl
    · rfl
  rw [CacheServes,CacheServes,hget]

theorem lookupTick_append (nodes more : List ResolvedNode) {k : Nat} (h : k ≤ nodes.length) :
    lookupTick (nodes ++ more) k = lookupTick nodes k := by
  rw [lookupTick,lookupTick,List.take_append_of_le_length h]

theorem lookupTick_snoc (nodes : List ResolvedNode) (node : ResolvedNode) :
    lookupTick (nodes ++ [node]) (nodes ++ [node]).length =
      lookupTick nodes nodes.length + 1 + if node.origin.isRemote then 1 else 0 := by
  rw [lookupTick,lookupTick,List.take_length,List.take_length,List.countP_append,
    List.countP_singleton,List.length_append,List.length_singleton]
  omega

theorem FromFetch.mono {log more : List Access} {origin : Origin} {bytes : Bytes}
    (h : FromFetch log origin bytes) : FromFetch (log ++ more) origin bytes := by
  obtain ⟨url,horigin,a,ha,hact⟩ := h
  exact ⟨url,horigin,a,List.mem_append_left _ ha,hact⟩

theorem Traced.mono {r r' : Run} {more : List Access} {nodes : List ResolvedNode} {k : Nat}
    {node : ResolvedNode} {call : Call} (h : Traced env before r k node call)
    (hk : k ≤ r.st.nodes.length) (hlog : r'.log = r.log ++ more)
    (hnodes : r'.st.nodes = r.st.nodes ++ nodes) : Traced env before r' k node call := by
  refine ⟨h.1,fun m hm hfar hclash => ?_⟩
  rw [hlog] at hclash ⊢
  rw [hnodes,lookupTick_append _ _ hk]
  obtain ⟨hserved,hfetched⟩ := h.2 m hm hfar hclash.earlier
  exact ⟨hserved,fun hno => (hfetched hno).mono⟩

theorem nodeIds_snoc {r r' : Run} {node : ResolvedNode} {id : String}
    (hnodes : r'.st.nodes = r.st.nodes ++ [node]) (hid : node.identity = some id) :
    nodeIds r'.st = nodeIds r.st ++ [id] := by
  simp [nodeIds,hnodes,List.filterMap_append,hid]

theorem Watched.snoc {r r' : Run} {node : ResolvedNode} {call : Call} {id : String}
    {more : List Access} (h : Watched env before r) (hid : node.identity = some id)
    (hnodes : r'.st.nodes = r.st.nodes ++ [node]) (hcalls : r'.calls = r.calls ++ [call])
    (hlog : r'.log = r.log ++ more)
    (hticks : r'.ticks = r.ticks + 1 + if node.origin.isRemote then 1 else 0)
    (hcache : ∀ other, other ≠ id → NoClash env.crates more other →
      r'.cache (cacheKey env.crates other) = r.cache (cacheKey env.crates other))
    (hnew : Traced env before r' r.st.nodes.length node call) : Watched env before r' := by
  refine ⟨?_,?_,?_,?_⟩
  · rw [hnodes,lookupTick_snoc,hticks,h.ticks]
  · rw [hcalls,hnodes,List.length_append,List.length_append,h.calls]
    rfl
  · intro other hother hclash
    rw [nodeIds_snoc hnodes hid,List.mem_append,List.mem_singleton,not_or] at hother
    rw [hlog] at hclash
    rw [hcache other hother.2 hclash.later,h.cache other hother.1 hclash.earlier]
  · intro k node' call' hnode hcall
    rw [hnodes] at hnode
    rw [hcalls] at hcall
    rcases Nat.lt_trichotomy k r.st.nodes.length with hlt | rfl | hgt
    · rw [List.getElem?_append_left hlt] at hnode
      rw [List.getElem?_append_left (by rw [h.calls]; exact hlt)] at hcall
      exact (h.nodes k node' call' hnode hcall).mono hlt.le hlog hnodes
    · rw [List.getElem?_concat_length] at hnode
      rw [← h.calls,List.getElem?_concat_length] at hcall
      cases hnode
      cases hcall
      exact hnew
    · rw [List.getElem?_eq_none (by simp; omega)] at hnode
      cases hnode

theorem sourceMatches.isRemote {m : Murl} {origin : Origin} (h : sourceMatches m origin) :
    origin.isRemote = true ↔ m.authority.isLocal = false := by
  cases origin with
  | remote url fromCache => exact ⟨fun _ => h,fun _ => rfl⟩
  | localStore path =>
    have hlocal : m.authority.isLocal = true := h
    simp [Origin.isRemote,hlocal]
  | localFile path => exact h.elim

section Entered

variable {m : Murl} {depth : Nat} {pin : Option String} {parent : Option Nat} {s₁ s₂ : Run}
  {bytes : Bytes} {origin : Origin} {node : ResolvedNode}

structure Recorded (env : Env) (m : Murl) (parent : Option Nat) (s s₁ s' : Run) (more : List Access) :
    Prop where
  log : s'.log = s.log ++ more
  found : s'.log = s₁.log
  calls : s'.calls = s.calls ++ [⟨parent,some m.unselected⟩]
  ticks : s'.ticks = s₁.ticks + 1
  elsewhere : ∀ other, other ≠ m.identity → NoClash env.crates more other →
    s'.cache (cacheKey env.crates other) = s.cache (cacheKey env.crates other)

theorem Entered.recorded (h : Entered env m depth pin parent s s' bytes origin s₁ s₂ node) :
    ∃ more, Recorded env m parent s s₁ s' more := by
  obtain ⟨⟨-,hcalls,-,acts,hlog,-,heffect⟩,-⟩ := locate_ok h.located
  obtain ⟨⟨ws,ticks,hnoted⟩,-⟩ :=
    wp_ok (examine_spec env ⟨some m,depth,none,none,none⟩ bytes origin s₁) h.examined
  have hticks := wp_ok (examine_ticks (some m) bytes origin depth) h.examined
  have hafter := h.after
  refine ⟨acts.map (Access.mk parent m.unselected),?_,?_,?_,?_,?_⟩
  · rw [hafter,hnoted]
    exact hlog
  · rw [hafter,hnoted]
    rfl
  · rw [hafter,hnoted]
    exact congrArg (· ++ [⟨parent,some m.unselected⟩]) hcalls
  · rw [hafter]
    exact hticks
  · intro other hother hclash
    have hcache : s'.cache = s₁.cache := by
      rw [hafter,hnoted]
      rfl
    rw [hcache]
    exact heffect.elsewhere (hclash.key_ne (Ne.symm hother))

theorem Entered.described (h : Entered env m depth pin parent s s' bytes origin s₁ s₂ node) :
    Admitted env ⟨some m,depth,none,none,none⟩ bytes origin node :=
  (wp_ok (examine_spec env ⟨some m,depth,none,none,none⟩ bytes origin s₁) h.examined).2

theorem Entered.isRemote (h : Entered env m depth pin parent s s' bytes origin s₁ s₂ node) :
    node.origin.isRemote = true ↔ m.authority.isLocal = false := by
  rw [h.described.source]
  exact (locate_ok h.located).2.isRemote

theorem Entered.ticks (h : Entered env m depth pin parent s s' bytes origin s₁ s₂ node) :
    s₁.ticks = s.ticks + if node.origin.isRemote then 1 else 0 := by
  cases hm : m.authority.isLocal with
  | true =>
    have hremote : ¬node.origin.isRemote = true := by
      rw [h.isRemote,hm]
      simp
    rw [locate_local_ticks hm h.located,if_neg hremote]
    rfl
  | false =>
    rw [(wp_ok (locate_answers hm) h.located).ticks,if_pos (h.isRemote.mpr hm)]
    rfl

theorem Entered.traced {more : List Access}
    (h : Entered env m depth pin parent s s' bytes origin s₁ s₂ node)
    (hrec : Recorded env m parent s s₁ s' more) (hwatched : Watched env before s)
    (hnew : m.identity ∉ nodeIds s.st) (hfine : Fine s'.log) :
    Traced env before s' s.st.nodes.length node ⟨parent,some m.unselected⟩ := by
  refine ⟨?_,?_⟩
  · rw [h.isRemote]
    constructor
    · intro hm
      exact ⟨m.unselected,rfl,hm⟩
    · rintro ⟨m',hm',hfar⟩
      cases hm'
      exact hfar
  · intro m' hm' hfar hclash
    cases hm'
    have hanswered := wp_ok (locate_answers hfar) h.located
    have hfine₁ : Fine s₁.log := by
      rw [← hrec.found]
      exact hfine
    have hclash' : NoClash env.crates s.log m.identity := by
      rw [hrec.log] at hclash
      exact hclash.earlier
    have htick : lookupTick s'.st.nodes s.st.nodes.length = s.count.ticks := by
      rw [h.counted.1,lookupTick_append _ _ (Nat.le_refl _)]
      exact hwatched.ticks.symm
    have hsame : CacheServes env s.count.cache m s.count.ticks ↔
        CacheServes env before m.unselected (lookupTick s'.st.nodes s.st.nodes.length) := by
      rw [htick]
      exact CacheServes.congr (hwatched.cache m.identity hnew hclash')
    rw [← hsame,h.described.source,h.described.rawBytes,hrec.found]
    exact ⟨hanswered.served hfine₁,hanswered.fetched hfine₁⟩

theorem Entered.tracked (h : Entered env m depth pin parent s s' bytes origin s₁ s₂ node)
    (hrefetching : Refetching env before s) : Refetching env before s' := by
  obtain ⟨more,hrec⟩ := h.recorded
  have hnodes := h.counted.1
  have hid : node.identity = some m.identity := h.described.identity
  intro hnodup hfine
  rw [nodeIds_snoc hnodes hid,List.nodup_append] at hnodup
  have hnew : m.identity ∉ nodeIds s.st := fun hmem =>
    hnodup.2.2 _ hmem _ (List.mem_singleton.mpr rfl) rfl
  have hearlier : Fine s.log := by
    rw [hrec.log] at hfine
    exact fun a ha => hfine a (List.mem_append_left _ ha)
  have hwatched := hrefetching hnodup.1 hearlier
  refine hwatched.snoc hid hnodes hrec.calls hrec.log ?_ hrec.elsewhere
    (h.traced hrec hwatched hnew hfine)
  rw [hrec.ticks,h.ticks]
  omega

end Entered

theorem Watched.start (cache : Cache) (stack : List String) :
    Watched env cache ((Run.start cache).withStack stack) := by
  refine ⟨rfl,rfl,fun _ _ _ => rfl,?_⟩
  intro k node call hnode
  simp [Run.withStack,Run.start] at hnode

theorem keeps_refetching (m : Murl) (depth : Nat) (anchor pin : Option String)
    (parent : Option Nat) :
    Keeps (Refetching env before) (ingestNamed env m depth anchor pin parent) :=
  keeps_ingestNamed (fun _ _ _ _ _ _ _ _ _ _ _ hentered => hentered.tracked) m depth anchor pin
    parent

theorem refetching_file {path : String} {bytes : Bytes} {cache : Cache} {r : Run}
    (h : ingestFile env path bytes (Run.start cache) = .ok () r) : Refetching env cache r := by
  obtain ⟨node,s₂,order,hexamine,-,hrest⟩ := ingestBytes_ok h
  obtain ⟨⟨ws,ticks,hnoted⟩,hnode⟩ :=
    wp_ok (examine_spec env Request.file bytes (.localFile path) (Run.start cache)) hexamine
  have hticks := wp_ok (examine_ticks none bytes (.localFile path) 0) hexamine
  refine Keeps.of_back (Back.forM (back_spliceResource ?_ _) order) _ _ _ hrest ?_
  · intro hd child anchor pin k
    exact (keeps_refetching child 1 anchor pin _).back
  · have hremote : node.origin.isRemote = false := by
      rw [hnode.source]
      rfl
    have hid : node.identity = none := hnode.identity
    intro _ _
    subst hnoted
    refine ⟨?_,rfl,fun _ _ _ => rfl,?_⟩
    · refine hticks.trans ?_
      simp [lookupTick,Run.pushNode,Run.note,Run.start,hremote]
    · intro k node' call hnode' hcall
      have hk : k = 0 := by
        have hlt := (List.getElem?_eq_some_iff.mp hcall).1
        simpa [Run.pushNode,Run.note,Run.start] using hlt
      subst hk
      cases hnode'
      cases hcall
      refine ⟨?_,fun m hm => by cases hm⟩
      rw [hremote]
      constructor
      · intro hno
        cases hno
      · rintro ⟨m,hm,-⟩
        cases hm

end Watched

section Refresh

variable {env : Env} {before : Cache} {fault : Option EvictFault} {ref : TargetRef}
  {res : Resolution} {r : Run}

def evicted (env : Env) (fault : Option EvictFault) (ref : TargetRef) (cache : Cache) : Cache :=
  match ref with
  | .murl m => cache.evict env.crates fault m.identity
  | .file _ => cache

theorem resolveTarget_refresh (ref : TargetRef) : resolveTarget env true fault ref (Run.start before) =
    resolveRef env ref (Run.start (evicted env fault ref before)) := by
  cases ref <;> rfl

theorem resolveRef_refetching {cache : Cache}
    (h : resolveRef env ref (Run.start cache) = .ok res r) : Refetching env cache r := by
  cases ref with
  | murl m =>
    obtain ⟨s',hread,rfl,-⟩ := resolve_runs.mp h
    have hstart : Refetching env cache ((Run.start cache).pushStack m.identity) :=
      fun _ _ => Watched.start cache [m.identity]
    have hrun := keeps_refetching m 0 none none none _ _ _ hread hstart
    intro hnodup hfine
    obtain ⟨hticks,hcalls,hcache,hnodes⟩ := hrun hnodup hfine
    exact ⟨hticks,hcalls,hcache,hnodes⟩
  | file path =>
    obtain ⟨bytes,-,hroot,-⟩ := resolveFile_runs.mp h
    exact refetching_file hroot

theorem refresh_exact (h : resolveTarget env true fault ref (Run.start before) = .ok res r)
    (hfine : Fine r.log)
    (hclash : ∀ call ∈ r.calls, ∀ m, call.murl = some m → NoClash env.crates r.log m.identity) :
    (∀ node ∈ res.nodes, node.origin.isRemote = true →
      FromFetch r.log node.origin node.rawBytes) ↔
    ∀ (k : Nat) (call : Call) (m : Murl), r.calls[k]? = some call → call.murl = some m →
      m.authority.isLocal = false →
      ¬CacheServes env (evicted env fault ref before) m (lookupTick res.nodes k) := by
  rw [resolveTarget_refresh] at h
  have hnodes : res.nodes = r.st.nodes := (finish_ok (resolveRef_ok h).2).1
  have hbounded := (wp_ok (resolveRef_budget env (evicted env fault ref before) ref) h).2
  have hnodup : (nodeIds r.st).Nodup := by
    unfold nodeIds
    rw [← hnodes]
    exact hbounded.identities
  have htracked := resolveRef_refetching h hnodup hfine
  rw [hnodes]
  constructor
  · intro hall k call m hcall hm hfar hserved
    have hlt : k < r.st.nodes.length := by
      rw [← htracked.calls]
      exact (List.getElem?_eq_some_iff.mp hcall).1
    have hnode : r.st.nodes[k]? = some r.st.nodes[k] := List.getElem?_eq_getElem hlt
    obtain ⟨hremote,hcases⟩ := htracked.nodes k _ call hnode hcall
    have hmem : call ∈ r.calls := List.mem_of_getElem? hcall
    obtain ⟨url,hcached⟩ := (hcases m hm hfar (hclash call hmem m hm)).1 hserved
    obtain ⟨url',hfetched,-⟩ := hall _ (List.getElem_mem hlt) (hremote.mpr ⟨m,hm,hfar⟩)
    rw [hcached] at hfetched
    cases hfetched
  · intro hnone node hmem hremote
    obtain ⟨k,hlt,rfl⟩ := List.getElem_of_mem hmem
    have hlt' : k < r.calls.length := by
      rw [htracked.calls]
      exact hlt
    have hcall : r.calls[k]? = some r.calls[k] := List.getElem?_eq_getElem hlt'
    obtain ⟨hiff,hcases⟩ := htracked.nodes k _ _ (List.getElem?_eq_getElem hlt) hcall
    obtain ⟨m,hm,hfar⟩ := hiff.mp hremote
    exact (hcases m hm hfar (hclash _ (List.mem_of_getElem? hcall) m hm)).2
      (hnone k _ m hcall hm hfar)

def callsApart (crates : Crates) (r : Run) : Bool :=
  r.calls.all fun call => call.murl.all fun m => r.log.all fun a =>
    cacheKey crates a.murl.identity != cacheKey crates m.identity || a.murl.identity == m.identity

theorem callsApart_noClash {crates : Crates} {r : Run} (h : callsApart crates r = true) :
    ∀ call ∈ r.calls, ∀ m, call.murl = some m → NoClash crates r.log m.identity := by
  intro call hcall m hm a ha hkey
  have hone := List.all_eq_true.mp h call hcall
  rw [hm,Option.all_some] at hone
  have hpair := List.all_eq_true.mp hone a ha
  simpa [hkey] using hpair

def fetchedAll (r : Run) : Bool := r.log.all fun a => !a.act.failed

theorem fetchedAll_fine (h : fetchedAll r = true) : Fine r.log := by
  intro a ha
  simpa using List.all_eq_true.mp h a ha

def nestedLeaf : String := "murl://a.com/p"

def nestedCached : Cache :=
  (Cache.empty.put nestingEnv.crates none nestedLeaf "https://a.com/.well-known/murl/p.murl.json"
    (published leafPage) 999999).2

theorem get_blank {crates : Crates} {cache : Cache} (h : ∀ key, cache key = ⟨none,none⟩)
    (i : String) (ttl now : Nat) : (cache.get crates i ttl now).1 = none := by
  unfold Cache.get
  dsimp only
  rw [h]

theorem evict_blank {crates : Crates} {cache : Cache} {i : String}
    (h : ∀ key, cache key = ⟨none,none⟩) (key : String) :
    cache.evict crates none i key = ⟨none,none⟩ := by
  unfold Cache.evict Cache.write
  dsimp only
  split
  · rfl
  · exact h key

theorem empty_cache_refreshed : ∃ res r,
    resolveTarget nestingEnv true none nestingRef (Run.start Cache.empty) = .ok res r ∧
      ∀ node ∈ res.nodes, node.origin.isRemote = true →
        FromFetch r.log node.origin node.rawBytes := by
  have hrun : finishes (resolveTarget nestingEnv true none nestingRef)
      (fun _ r => fetchedAll r && callsApart nestingEnv.crates r) (Run.start Cache.empty) = true := by
    simp only [nestingEnv,nestingDigests,siteEnv,siteCrates,published_compact]
    decide +kernel
  obtain ⟨res,r,hok,hboth⟩ := finishes_ok hrun
  rw [Bool.and_eq_true] at hboth
  refine ⟨res,r,hok,?_⟩
  refine (refresh_exact hok (fetchedAll_fine hboth.1) (callsApart_noClash hboth.2)).mpr ?_
  rintro k call m - - - ⟨-,entry,hentry,-⟩
  have hslot : ∀ key, evicted nestingEnv none nestingRef Cache.empty key = ⟨none,none⟩ :=
    evict_blank fun _ => rfl
  have hempty : ∀ i ttl now, ((evicted nestingEnv none nestingRef Cache.empty).get
      nestingEnv.crates i ttl now).1 = none := get_blank hslot
  have hnone := hempty m.identity (ttlOf nestingEnv.limits m.version)
    (nestingEnv.clock (lookupTick res.nodes k))
  rw [hnone] at hentry
  cases hentry

theorem nested_served_stale : ∃ res r,
    resolveTarget nestingEnv true none nestingRef (Run.start nestedCached) = .ok res r ∧
      Fine r.log ∧ ∃ node ∈ res.nodes, FromCache node.origin := by
  have hrun : finishes (resolveTarget nestingEnv true none nestingRef)
      (fun res r => fetchedAll r && res.nodes.any fun node =>
        node.origin == .remote "https://a.com/.well-known/murl/p.murl.json" true)
      (Run.start nestedCached) = true := by
    simp only [nestedCached,nestingEnv,nestingDigests,siteEnv,siteCrates,published_compact]
    decide +kernel
  obtain ⟨res,r,hok,hboth⟩ := finishes_ok hrun
  rw [Bool.and_eq_true] at hboth
  obtain ⟨node,hnode,horigin⟩ := List.any_eq_true.mp hboth.2
  exact ⟨res,r,hok,fetchedAll_fine hboth.1,node,hnode,_,beq_iff_eq.mp horigin⟩

end Refresh

end MurlSystem
