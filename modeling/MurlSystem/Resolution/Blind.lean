import MurlSystem.Core.Resolver
import MurlSystem.Foundation.Lockstep

namespace MurlSystem

open Program

structure Blind (R : Run → Run → Prop) : Prop where
  cache : ∀ {r r' : Run}, R r r' → r'.cache = r.cache
  log : ∀ {r r' : Run}, R r r' → r'.log = r.log
  ticks : ∀ {r r' : Run}, R r r' → r'.ticks = r.ticks
  warn : ∀ {r r' : Run} (w : String), R r r' → R (r.warn w) (r'.warn w)
  access : ∀ {r r' : Run} (a : Access), R r r' → R (r.access a) (r'.access a)
  tick : ∀ {r r' : Run}, R r r' → R r.tick r'.tick
  store : ∀ {r r' : Run} (cache : Cache), R r r' →
    R { r with cache := cache } { r' with cache := cache }

section Blind

variable {R : Run → Run → Prop} (env : Env) (parent : Option Nat) (m : Murl)

theorem blind_warn (h : Blind R) (w : String) : Lockstep R Eq (warn w) (warn w) :=
  Lockstep.modify fun _ _ hr => h.warn w hr

theorem blind_warnWhen (h : Blind R) (c : Bool) (w : String) :
    Lockstep R Eq (warnWhen c w) (warnWhen c w) :=
  Lockstep.ite (blind_warn h w) (Lockstep.pure rfl)

theorem blind_nowEpoch (h : Blind R) : Lockstep R Eq (nowEpoch env) (nowEpoch env) := by
  refine Lockstep.get.bind fun r r' hr => ?_
  rw [h.ticks hr]
  exact (Lockstep.modify fun _ _ hs => h.tick hs).andThen fun _ => Lockstep.pure rfl

theorem blind_loadLocal (h : Blind R) :
    Lockstep R Eq (loadLocal env parent m) (loadLocal env parent m) :=
  (Lockstep.modify fun _ _ hr => h.access _ hr).andThen fun _ =>
    (Lockstep.fromExcept _).andThen fun _ => Lockstep.pure rfl

theorem blind_cacheGet (h : Blind R) (now : Nat) :
    Lockstep R Eq (cacheGet env parent m now) (cacheGet env parent m now) := by
  unfold cacheGet
  cases env.cache with
  | none => exact Lockstep.pure rfl
  | some fault =>
    refine Lockstep.get.bind fun r r' hr => ?_
    rw [h.cache hr]
    exact (Lockstep.modify fun _ _ hs => h.store _ (h.access _ hs)).andThen fun _ =>
      Lockstep.pure rfl

theorem blind_cachePut (h : Blind R) (url : String) (bytes : Bytes) (now : Nat) :
    Lockstep R Eq (cachePut env m url bytes now) (cachePut env m url bytes now) := by
  unfold cachePut
  cases env.cache with
  | none => exact Lockstep.pure rfl
  | some fault =>
    refine Lockstep.get.bind fun r r' hr => ?_
    have hfetched : r'.fetched = r.fetched := by
      unfold Run.fetched
      rw [h.log hr]
    rw [h.cache hr,hfetched]
    refine (Lockstep.modify fun _ _ hs => h.store _ hs).andThen fun _ => ?_
    cases (r.cache.put env.crates (fault r.fetched.length) m.identity url bytes now).1 with
    | ok _ => exact Lockstep.pure rfl
    | error e => exact blind_warn h _

theorem blind_fetchUrl (h : Blind R) (fetcher : List String → String → Except Error Bytes)
    (url : String) : Lockstep R Eq (fetchUrl parent m fetcher url) (fetchUrl parent m fetcher url) := by
  refine Lockstep.get.bind fun r r' hr => ?_
  have hfetched : r'.fetched = r.fetched := by
    unfold Run.fetched
    rw [h.log hr]
  rw [hfetched]
  exact (Lockstep.modify fun _ _ hs => h.access _ hs).andThen fun _ => Lockstep.pure rfl

theorem blind_acceptFetched (h : Blind R) (url : String) (bytes : Bytes) (now : Nat) :
    Lockstep R Eq (acceptFetched env m url bytes now) (acceptFetched env m url bytes now) :=
  Lockstep.ite (Lockstep.throw _)
    ((blind_cachePut env m h url bytes now).andThen fun _ => Lockstep.pure rfl)

theorem blind_serveStale (h : Blind R) (entry : CacheEntry) (why : String) :
    Lockstep R Eq (serveStale m entry why) (serveStale m entry why) :=
  (blind_warn h _).andThen fun _ => Lockstep.pure rfl

theorem blind_locateRemote (h : Blind R) (now : Nat) (cached : Option CacheEntry) :
    Lockstep R Eq (locateRemote env parent m now cached) (locateRemote env parent m now cached) := by
  unfold locateRemote
  cases env.remote with
  | none =>
    cases cached with
    | none => exact Lockstep.throw _
    | some entry => exact blind_serveStale m h entry _
  | some fetcher =>
    refine (blind_fetchUrl parent m h fetcher _).andThen fun answer => ?_
    cases answer with
    | ok bytes => exact blind_acceptFetched env m h _ bytes now
    | error e =>
      cases cached with
      | none => exact Lockstep.throw _
      | some entry => exact blind_serveStale m h entry _

theorem blind_locate (h : Blind R) : Lockstep R Eq (locate env parent m) (locate env parent m) := by
  refine Lockstep.ite (blind_loadLocal env parent m h) ((blind_nowEpoch env h).andThen fun now =>
    (blind_cacheGet env parent m h now).andThen fun cached => ?_)
  cases cached with
  | none => exact blind_locateRemote env parent m h now none
  | some entry =>
    exact Lockstep.ite (Lockstep.pure rfl) (blind_locateRemote env parent m h now _)

end Blind

end MurlSystem
