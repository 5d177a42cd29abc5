import MurlSystem.Resolution.Locate
import MurlSystem.Resolution.Outcome

namespace MurlSystem

open Program

def NoClash (crates : Crates) (log : List Access) (i : String) : Prop :=
  ∀ a ∈ log, cacheKey crates a.murl.identity = cacheKey crates i → a.murl.identity = i

def ShortWrites (env : Env) : Prop :=
  ∃ fault n k why, env.cache = some fault ∧ fault n = some (.shortData k why)

def Refetched (env : Env) (log : List Access) (i : String) (bytes : Bytes) : Prop :=
  ∃ a ∈ log, a.murl.identity = i ∧ bytes.length ≤ env.limits.maxManifestBytes ∧
    ∃ url, a.act = .fetch url (.ok bytes)

def RefetchedLatest (env : Env) (log : List Access) (i : String) : Prop :=
  ∃ a ∈ log, a.murl.identity = i ∧ a.murl.version = .latest ∧
    ∃ url bytes, a.act = .fetch url (.ok bytes) ∧ bytes.length ≤ env.limits.maxManifestBytes

def Kept (env : Env) (before : Cache) (r : Run) (i : String) : Prop :=
  ∀ b, before.readable env.crates i = some b →
    r.cache.readable env.crates i = some b ∨ RefetchedLatest env r.log i

def Sourced (env : Env) (before : Cache) (r : Run) (i : String) : Prop :=
  ∀ b, r.cache.readable env.crates i = some b →
    before.readable env.crates i = some b ∨
    ∃ bytes, Refetched env r.log i bytes ∧ (b = bytes ∨ ShortWrites env ∧ b <+: bytes)

section Put

variable {crates : Crates}

theorem Cache.readable_write_same {cache : Cache} {i : String} {slot : Slot} :
    (cache.write (cacheKey crates i) slot).readable crates i =
      (slot.readable crates i).map Prod.fst := by
  simp [Cache.readable]

theorem Slot.readable_data {slot : Slot} {i : String} {b : Bytes}
    (h : (slot.readable crates i).map Prod.fst = some b) : slot.data = some b := by
  unfold Slot.readable at h
  cases hd : slot.data with
  | none => simp [hd] at h
  | some data =>
    cases hi : slot.info with
    | none => simp [hd,hi] at h
    | some info =>
      simp only [hd,hi] at h
      split at h
      · simpa using h
      · simp at h

theorem Cache.get_elsewhere {cache : Cache} {j key : String} {ttl now : Nat}
    (h : key ≠ cacheKey crates j) : (cache.get crates j ttl now).2 key = cache key := by
  rcases cache.get_cache crates j ttl now with hsame | ⟨-,hdrop⟩
  · rw [hsame]
  · rw [hdrop,Cache.write_other _ _ h]

theorem Cache.put_elsewhere {cache : Cache} {fault : Option PutFault} {j key url : String}
    {bytes : Bytes} {now : Nat} (h : key ≠ cacheKey crates j) :
    (cache.put crates fault j url bytes now).2 key = cache key := by
  unfold Cache.put
  cases fault with
  | none => exact Cache.write_other _ _ h
  | some f => cases f <;> first | rfl | exact Cache.write_other _ _ h

theorem Cache.readable_congr {c c' : Cache} {i : String}
    (h : c' (cacheKey crates i) = c (cacheKey crates i)) :
    c'.readable crates i = c.readable crates i := by
  unfold Cache.readable
  rw [h]

theorem Cache.put_same {cache : Cache} {fault : Option PutFault} {i url : String}
    {bytes b : Bytes} {now : Nat}
    (h : (cache.put crates fault i url bytes now).2.readable crates i = some b) :
    cache.readable crates i = some b ∨ b = bytes ∨
      ∃ k why, fault = some (.shortData k why) ∧ b <+: bytes := by
  unfold Cache.put at h
  cases fault with
  | none =>
    rw [Cache.readable_write_same] at h
    have hdata := Slot.readable_data h
    exact .inr (.inl (by simpa using hdata.symm))
  | some f =>
    cases f with
    | createDir why => exact .inl h
    | openData why => exact .inl h
    | shortData k why =>
      rw [Cache.readable_write_same] at h
      have hdata := Slot.readable_data h
      obtain rfl : bytes.take k = b := by simpa using hdata
      exact .inr (.inr ⟨k,why,rfl,List.take_prefix k bytes⟩)
    | openMeta why =>
      rw [Cache.readable_write_same] at h
      have hdata := Slot.readable_data h
      exact .inr (.inl (by simpa using hdata.symm))
    | shortMeta why =>
      rw [Cache.readable_write_same] at h
      have hdata := Slot.readable_data h
      exact .inr (.inl (by simpa using hdata.symm))

theorem Cache.get_same {cache : Cache} {i : String} {ttl now : Nat} :
    (cache.get crates i ttl now).2.readable crates i = cache.readable crates i := by
  rcases cache.get_cache crates i ttl now with hsame | ⟨hnone,hdrop⟩
  · rw [hsame]
  · rw [hdrop,hnone,Cache.readable_write_same]
    rfl

theorem Cache.get_stale {cache : Cache} {i : String} {ttl now : Nat} {b : Bytes}
    (h : cache.readable crates i = some b)
    (hstale : ∀ entry, (cache.get crates i ttl now).1 = some entry → entry.fresh = false) :
    ttl ≠ u64Max := by
  rintro rfl
  have hread := cache.get_readable crates i u64Max now
  rw [h] at hread
  obtain ⟨entry,hentry,-⟩ := Option.map_eq_some_iff.mp hread
  have hfalse := hstale entry hentry
  rw [Cache.get_fresh hentry] at hfalse
  simp [isFresh] at hfalse

end Put

section Steps

variable {env : Env} {cache : Cache} {ref : TargetRef}

theorem CacheEffect.elsewhere {m : Murl} {c c' : Cache} {acts : List Act} {key : String}
    (h : CacheEffect env m c acts c')
    (hkey : ∀ act ∈ acts, key ≠ cacheKey env.crates m.identity) : c' key = c key := by
  cases h with
  | same => rfl
  | read now looked => exact Cache.get_elsewhere (hkey _ looked)
  | stored now url bytes fault n cached stale fetched small =>
    rw [Cache.put_elsewhere (hkey _ fetched),Cache.get_elsewhere (hkey _ fetched)]

theorem NoClash.key_ne {crates : Crates} {m : Murl} {acts : List Act} {parent : Option Nat}
    {i : String} (h : NoClash crates (acts.map (Access.mk parent m.unselected)) i)
    (hne : m.identity ≠ i) : ∀ act ∈ acts, cacheKey crates i ≠ cacheKey crates m.identity := by
  intro act hact heq
  exact hne (h ⟨parent,m.unselected,act⟩ (List.mem_map.mpr ⟨act,hact,rfl⟩) heq.symm)

theorem CacheEffect.readable {m : Murl} {c c' : Cache} {acts : List Act} {i : String}
    (parent : Option Nat) (h : CacheEffect env m c acts c')
    (hclash : NoClash env.crates (acts.map (Access.mk parent m.unselected)) i) :
    (c'.readable env.crates i = c.readable env.crates i) ∨
    (RefetchedLatest env (acts.map (Access.mk parent m.unselected)) i ∨
      c.readable env.crates i = none) ∧
    ∀ b, c'.readable env.crates i = some b → c.readable env.crates i = some b ∨
      ∃ bytes, Refetched env (acts.map (Access.mk parent m.unselected)) i bytes ∧
        (b = bytes ∨ ShortWrites env ∧ b <+: bytes) := by
  have hname : ∀ act ∈ acts, cacheKey env.crates m.identity = cacheKey env.crates i →
      m.identity = i := by
    intro act hact
    exact hclash ⟨parent,m.unselected,act⟩ (List.mem_map.mpr ⟨act,hact,rfl⟩)
  cases h with
  | same => exact .inl rfl
  | read now looked =>
    by_cases hk : cacheKey env.crates m.identity = cacheKey env.crates i
    · obtain rfl := hname _ looked hk
      exact .inl Cache.get_same
    · exact .inl (Cache.readable_congr (Cache.get_elsewhere (Ne.symm hk)))
  | stored now url bytes fault n cached stale fetched small =>
    by_cases hk : cacheKey env.crates m.identity = cacheKey env.crates i
    · obtain rfl := hname _ fetched hk
      have haccess : (⟨parent,m.unselected,.fetch url (.ok bytes)⟩ : Access) ∈
          acts.map (Access.mk parent m.unselected) := List.mem_map.mpr ⟨_,fetched,rfl⟩
      refine .inr ⟨?_,?_⟩
      · cases hread : c.readable env.crates m.identity with
        | none => exact .inr rfl
        | some b =>
          have httl := Cache.get_stale hread stale
          have hlatest : m.version = .latest := by
            cases hv : m.version with
            | latest => rfl
            | pinned parts =>
              rw [hv] at httl
              exact absurd rfl httl
          exact .inl ⟨_,haccess,rfl,hlatest,url,bytes,rfl,small⟩
      · intro b hb
        rcases Cache.put_same hb with hold | rfl | ⟨k,why,hfault,hpre⟩
        · rw [Cache.get_same] at hold
          exact .inl hold
        · exact .inr ⟨b,⟨_,haccess,rfl,small,url,rfl⟩,.inl rfl⟩
        · exact .inr ⟨bytes,⟨_,haccess,rfl,small,url,rfl⟩,
            .inr ⟨⟨fault,n,k,why,cached,hfault⟩,hpre⟩⟩
    · left
      refine Cache.readable_congr ?_
      rw [Cache.put_elsewhere (Ne.symm hk),Cache.get_elsewhere (Ne.symm hk)]

theorem RefetchedLatest.mono {log more : List Access} {i : String}
    (h : RefetchedLatest env log i) : RefetchedLatest env (log ++ more) i := by
  obtain ⟨a,ha,hrest⟩ := h
  exact ⟨a,List.mem_append_left _ ha,hrest⟩

theorem RefetchedLatest.late {log more : List Access} {i : String}
    (h : RefetchedLatest env more i) : RefetchedLatest env (log ++ more) i := by
  obtain ⟨a,ha,hrest⟩ := h
  exact ⟨a,List.mem_append_right _ ha,hrest⟩

theorem Refetched.mono {log more : List Access} {i : String} {bytes : Bytes}
    (h : Refetched env log i bytes) : Refetched env (log ++ more) i bytes := by
  obtain ⟨a,ha,hrest⟩ := h
  exact ⟨a,List.mem_append_left _ ha,hrest⟩

theorem Refetched.late {log more : List Access} {i : String} {bytes : Bytes}
    (h : Refetched env more i bytes) : Refetched env (log ++ more) i bytes := by
  obtain ⟨a,ha,hrest⟩ := h
  exact ⟨a,List.mem_append_right _ ha,hrest⟩

def CacheKept (env : Env) (before : Cache) (r : Run) : Prop :=
  ∀ i, NoClash env.crates r.log i → Kept env before r i ∧ Sourced env before r i

theorem CacheKept.located {before : Cache} {r r' : Run} {parent : Option Nat} {m : Murl}
    (h : CacheKept env before r) (hloc : Located env parent m r r') :
    CacheKept env before r' := by
  obtain ⟨acts,hlog,-,heffect⟩ := hloc.effect
  intro i hclash
  rw [hlog] at hclash
  obtain ⟨hkept,hsourced⟩ := h i fun a ha => hclash a (List.mem_append_left _ ha)
  have hclash' : NoClash env.crates (acts.map (Access.mk parent m.unselected)) i :=
    fun a ha => hclash a (List.mem_append_right _ ha)
  have hstep := heffect.readable parent hclash'
  constructor
  · intro b hb
    rw [hlog]
    rcases hkept b hb with hread | hlatest
    · rcases hstep with hsame | ⟨hlatest | hnone,-⟩
      · exact .inl (hsame ▸ hread)
      · exact .inr hlatest.late
      · rw [hread] at hnone
        cases hnone
    · exact .inr hlatest.mono
  · intro b hb
    rw [hlog]
    have hback : r.cache.readable env.crates i = some b ∨
        ∃ bytes, Refetched env (acts.map (Access.mk parent m.unselected)) i bytes ∧
          (b = bytes ∨ ShortWrites env ∧ b <+: bytes) := by
      rcases hstep with hsame | ⟨-,hsource⟩
      · exact .inl (hsame ▸ hb)
      · exact hsource b hb
    rcases hback with hread | ⟨bytes,hfetch,hsame⟩
    · rcases hsourced b hread with hbefore | ⟨bytes,hfetch,hsame⟩
      · exact .inl hbefore
      · exact .inr ⟨bytes,hfetch.mono,hsame⟩
    · exact .inr ⟨bytes,hfetch.late,hsame⟩

theorem CacheKept.start (before : Cache) : CacheKept env before (Run.start before) := by
  intro i _
  exact ⟨fun b hb => .inl hb,fun b hb => .inl hb⟩

theorem CacheKept.reachable {c : Config} (h : (walkSystem env cache ref).Reachable c) :
    CacheKept env cache c.run := by
  refine Transition.System.invariant (fun c : Config => CacheKept env cache c.run) ?_ ?_ h
  · intro c₀ h₀
    cases h₀ with
    | named m => exact CacheKept.start cache
    | file path bytes hread => exact CacheKept.start cache
  · intro c₁ c₂ _ hI hs
    rcases Step.log_cases hs with ⟨hlog,hcache,-⟩ | ⟨req,m,-,-,-,hloc⟩
    · intro i hclash
      rw [hlog] at hclash
      have hold := hI i hclash
      unfold Kept Sourced at hold ⊢
      rw [hlog,hcache]
      exact hold
    · exact CacheKept.located (r := c₁.run.count) hI hloc

theorem resolveRef_cacheKept (env : Env) (cache : Cache) (ref : TargetRef) :
    CacheKept env cache (final (resolveRef env ref) (Run.start cache)) := by
  have hstop := resolveRef_final env cache ref
  generalize final (resolveRef env ref) (Run.start cache) = last at hstop ⊢
  cases hstop with
  | unread => exact CacheKept.start cache
  | reached r stack h =>
    obtain ⟨fs,hr⟩ := h
    exact CacheKept.reachable hr

end Steps

end MurlSystem
