import MurlSystem.Resolution.CacheUse

namespace MurlSystem

open Program

def evictOwn (env : Env) (fault : Option EvictFault) (m : Murl) : ResolveM Unit :=
  modify fun r => { r with cache := r.cache.evict env.crates fault m.identity }

def resolveTarget (env : Env) (refresh : Bool) (fault : Option EvictFault) :
    TargetRef → ResolveM Resolution
  | .murl m =>
    if refresh then do
      evictOwn env fault m
      resolve env m
    else resolve env m
  | .file path => resolveFile env path

def OwnRefresh (refresh : Bool) (ref : TargetRef) (i : String) : Prop :=
  refresh = true ∧ ∃ m, ref = .murl m ∧ m.identity = i

section Refresh

variable {env : Env} {before : Cache}

theorem Cache.evict_other {fault : Option EvictFault} {i j : String}
    (h : cacheKey env.crates i ≠ cacheKey env.crates j) :
    (before.evict env.crates fault j).readable env.crates i = before.readable env.crates i := by
  unfold Cache.evict
  cases fault with
  | none => exact before.readable_write_other _ h
  | some f => cases f <;> first | rfl | exact before.readable_write_other _ h

theorem Cache.evict_same {fault : Option EvictFault} {i : String} {b : Bytes}
    (h : (before.evict env.crates fault i).readable env.crates i = some b) :
    before.readable env.crates i = some b := by
  unfold Cache.evict at h
  cases fault with
  | none =>
    rw [Cache.readable_write_same] at h
    cases h
  | some f =>
    cases f with
    | removeData => exact h
    | removeMeta =>
      rw [Cache.readable_write_same] at h
      cases h

theorem resolveTarget_cache (env : Env) (refresh : Bool) (fault : Option EvictFault)
    (ref : TargetRef) (before : Cache) (i : String)
    (hclash : NoClash env.crates
      (final (resolveTarget env refresh fault ref) (Run.start before)).log i)
    (hown : ∀ m, ref = .murl m → cacheKey env.crates m.identity = cacheKey env.crates i →
      m.identity = i) :
    (∀ b, before.readable env.crates i = some b →
      (final (resolveTarget env refresh fault ref) (Run.start before)).cache.readable
          env.crates i = some b ∨
        OwnRefresh refresh ref i ∨
        RefetchedLatest env
          (final (resolveTarget env refresh fault ref) (Run.start before)).log i) ∧
    Sourced env before (final (resolveTarget env refresh fault ref) (Run.start before)) i := by
  have hplain : ∀ r, final (resolveTarget env refresh fault ref) (Run.start before) = r →
      CacheKept env before r → NoClash env.crates r.log i →
      (∀ b, before.readable env.crates i = some b →
        r.cache.readable env.crates i = some b ∨ OwnRefresh refresh ref i ∨
          RefetchedLatest env r.log i) ∧ Sourced env before r i := by
    intro r _ hkept hno
    obtain ⟨hk,hs⟩ := hkept i hno
    refine ⟨?_,hs⟩
    intro b hb
    rcases hk b hb with h | h
    · exact .inl h
    · exact .inr (.inr h)
  cases ref with
  | file path => exact hplain _ rfl (resolveRef_cacheKept env before (.file path)) hclash
  | murl m =>
    cases refresh with
    | false => exact hplain _ rfl (resolveRef_cacheKept env before (.murl m)) hclash
    | true =>
      have hkept := resolveRef_cacheKept env (before.evict env.crates fault m.identity) (.murl m)
      have hrun : final (resolveTarget env true fault (.murl m)) (Run.start before) =
          final (resolveRef env (.murl m))
            (Run.start (before.evict env.crates fault m.identity)) := rfl
      rw [hrun] at hclash ⊢
      obtain ⟨hk,hs⟩ := hkept i hclash
      constructor
      · intro b hb
        by_cases hkey : cacheKey env.crates m.identity = cacheKey env.crates i
        · exact .inr (.inl ⟨rfl,m,rfl,hown m rfl hkey⟩)
        · have hsame : (before.evict env.crates fault m.identity).readable env.crates i =
              before.readable env.crates i := Cache.evict_other (Ne.symm hkey)
          rw [← hsame] at hb
          rcases hk b hb with h | h
          · exact .inl h
          · exact .inr (.inr h)
      · intro b hb
        rcases hs b hb with hold | hnew
        · by_cases hkey : cacheKey env.crates m.identity = cacheKey env.crates i
          · obtain rfl := hown m rfl hkey
            exact .inl (Cache.evict_same hold)
          · rw [Cache.evict_other (Ne.symm hkey)] at hold
            exact .inl hold
        · exact .inr hnew

end Refresh

section Poisoned

def errorPage : Bytes := Text.bytes "<html></html>"

def poisonedMurl : Murl := ⟨.remote "a.com" none,["p"],.pinned [1],none,none⟩

def poisonedCrates : Crates :=
  siteCrates []
    [(Text.bytes "murl://a.com/p@1",
      [59,69,210,53,108,203,166,221,32,81,105,245,173,42,155,93,43,8,20,139,98,5,151,76,2,196,206,
       7,199,206,16,149]),
     (errorPage,
      [182,51,165,135,198,82,208,35,134,196,241,111,140,111,106,171,115,82,217,127,22,54,124,60,64,
       87,98,20,55,45,214,40])] []

def poisonedEnv : Env :=
  { siteEnv poisonedCrates [] with
    remote := some fun _ _ => .ok errorPage
    cache := some fun _ => none }

def failsWith (x : ResolveM Resolution) (before : Cache) (p : Run → Bool) : Bool :=
  match x (Run.start before) with
  | .ok _ _ => false
  | .error _ r => p r

theorem rejected_bytes_become_entry :
    failsWith (resolveTarget poisonedEnv false none (.murl poisonedMurl)) Cache.empty
      (fun r => (r.cache.readable poisonedCrates "murl://a.com/p@1") == some errorPage) = true ∧
    Cache.empty.readable poisonedCrates "murl://a.com/p@1" = none ∧
    (Manifest.fromSlice poisonedCrates errorPage poisonedEnv.limits).isOk = false := by
  decide +kernel

theorem poisoned_entry_was_fetched :
    (∀ b, Cache.empty.readable poisonedEnv.crates "murl://a.com/p@1" = some b →
      (final (resolveTarget poisonedEnv true none (.murl poisonedMurl))
          (Run.start Cache.empty)).cache.readable poisonedEnv.crates "murl://a.com/p@1" = some b ∨
        OwnRefresh true (.murl poisonedMurl) "murl://a.com/p@1" ∨
        RefetchedLatest poisonedEnv
          (final (resolveTarget poisonedEnv true none (.murl poisonedMurl))
            (Run.start Cache.empty)).log "murl://a.com/p@1") ∧
    Sourced poisonedEnv Cache.empty
      (final (resolveTarget poisonedEnv true none (.murl poisonedMurl)) (Run.start Cache.empty))
      "murl://a.com/p@1" := by
  refine resolveTarget_cache poisonedEnv true none (.murl poisonedMurl) Cache.empty
    "murl://a.com/p@1" ?_ ?_
  · unfold NoClash
    decide +kernel
  · intro m hm _
    obtain rfl : poisonedMurl = m := by simpa using hm
    decide +kernel

end Poisoned

end MurlSystem
