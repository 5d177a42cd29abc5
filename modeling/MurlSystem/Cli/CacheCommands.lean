import MurlSystem.Caching.Directory
import MurlSystem.Cli.Inspection

namespace MurlSystem

section Commands

variable (crates : Crates)

def listCache (dir : CacheDir) (order : ReadDir) : List String :=
  match dir.list crates order with
  | [] => ["(cache is empty)"]
  | entries => entries.map fun e => s!"{e.identity}  fetched_at={e.fetchedAt}  {e.url}"

def evictCached (dir : CacheDir) (stop : Option EvictStop) (murl : String) :
    Except Error (List String) × CacheDir :=
  match Murl.parse murl with
  | .error e => (.error (.parse e),dir)
  | .ok m =>
    match dir.evict crates stop m.identity with
    | (.ok true,dir') => (.ok [s!"evicted {m.identity}"],dir')
    | (.ok false,dir') => (.error (.notFound s!"{m.identity} is not cached"),dir')
    | (.error e,dir') => (.error e,dir')

def clearCache (dir : CacheDir) (order : ReadDir) (stops : Nat → Option EvictStop) :
    Except Error (List String) × CacheDir :=
  match dir.clear crates order stops with
  | (.ok n,dir') => (.ok [s!"cleared {n} cached manifest{plural n}"],dir')
  | (.error e,dir') => (.error e,dir')

end Commands

section Filed

variable {crates : Crates} {c c' : Cache} {entries : List CacheMeta}

def Filed (crates : Crates) (c : Cache) : Prop :=
  ∀ key info, (c key).info = some info → cacheKey crates info.identity = key

theorem Filed.write (h : Filed crates c) {key : String} {slot : Slot}
    (hslot : ∀ info, slot.info = some info → cacheKey crates info.identity = key) :
    Filed crates (c.write key slot) := by
  intro k info hinfo
  unfold Cache.write at hinfo
  split at hinfo
  · rename_i hk
    rw [hk]
    exact hslot info hinfo
  · exact h k info hinfo

theorem Filed.get (h : Filed crates c) (i : String) (ttl now : Nat) :
    Filed crates (c.get crates i ttl now).2 := by
  rcases c.get_cache crates i ttl now with hsame | ⟨-,hdropped⟩
  · rw [hsame]
    exact h
  · rw [hdropped]
    exact h.write fun info hinfo => by cases hinfo

theorem Filed.left (h : Filed crates c) (h' : Filed crates c') (stays : Stays) (key : String) :
    Filed crates (stays.left key c c') := by
  refine h'.write fun info hinfo => ?_
  dsimp only at hinfo
  split at hinfo
  · exact h key info hinfo
  · exact h' key info hinfo

theorem Filed.put (h : Filed crates c) (fault : Option PutFault) (i url : String) (b : Bytes)
    (now : Nat) : Filed crates (c.put crates fault i url b now).2 := by
  have hold : ∀ info, (c (cacheKey crates i)).info = some info →
      cacheKey crates info.identity = cacheKey crates i := fun info => h _ info
  unfold Cache.put
  cases fault with
  | none =>
    refine h.write fun info hinfo => ?_
    obtain rfl := Option.some.inj hinfo
    rfl
  | some fault =>
    cases fault with
    | createDir why => exact h
    | openData why => exact h
    | shortData n why => exact h.write hold
    | openMeta why => exact h.write hold
    | shortMeta why => exact h.write fun info hinfo => by cases hinfo

theorem Filed.evicts (h : Filed crates c) {stop : Option EvictStop} {i : String}
    {answer : Except Error Bool} (one : Evicts crates stop c i answer c') : Filed crates c' := by
  cases one with
  | gone existed seen => exact h.write fun info hinfo => by cases hinfo
  | stuck fault why stopped =>
    cases fault with
    | removeData => exact h
    | removeMeta => exact h.write fun info hinfo => h _ info hinfo

theorem Filed.sweeps {stops : Nat → Option EvictStop} {n : Nat} {answer : Except Error Unit}
    (h : Filed crates c) (all : Sweeps crates stops c n entries answer c') : Filed crates c' := by
  induction all with
  | done => exact h
  | next one more ih => exact ih (h.evicts one)
  | stuck one => exact h.evicts one

theorem Filed.spec (c : Cache) (op : CacheOp crates) (answer : CacheAnswer) (c' : Cache)
    (h : Filed crates c) (one : CacheSpec crates c op answer c') : Filed crates c' := by
  cases one with
  | get c g stays => exact h.left (h.get _ _ _) stays _
  | put c p stop => exact h.put _ _ _ _ _
  | evict evicts => exact h.evicts evicts
  | list order listing => exact h
  | clear order listing sweeps => exact h.sweeps sweeps

theorem Listing.mem (h : Listing c entries) {info : CacheMeta} :
    info ∈ entries ↔ ∃ key, (c key).info = some info := by
  obtain ⟨keys,-,hall,hperm⟩ := h.exact
  rw [hperm.mem_iff,List.mem_filterMap]
  constructor
  · rintro ⟨key,-,hinfo⟩
    exact ⟨key,hinfo⟩
  · rintro ⟨key,hinfo⟩
    exact ⟨key,hall key info hinfo,hinfo⟩

theorem Listing.distinct (h : Listing c entries) (filed : Filed crates c) :
    entries.Pairwise fun a b => a.identity < b.identity := by
  obtain ⟨keys,hnodup,-,hperm⟩ := h.exact
  have hne : entries.Pairwise fun a b => a.identity ≠ b.identity := by
    rw [hperm.pairwise_iff fun hab => Ne.symm hab,List.pairwise_filterMap]
    refine hnodup.imp fun {k k'} hkk' a ha b hb hsame => hkk' ?_
    rw [← filed k a ha,← filed k' b hb,hsame]
  exact (h.sorted.and hne).imp fun hab => lt_of_le_of_ne hab.1 hab.2

theorem Listing.unique (h : Listing c entries) (filed : Filed crates c)
    {entries' : List CacheMeta} (h' : Listing c entries') : entries = entries' := by
  have hlt := h.distinct filed
  have hlt' := h'.distinct filed
  have hperm : entries.Perm entries' := by
    refine (List.perm_ext_iff_of_nodup (hlt.imp fun hab => ?_) (hlt'.imp fun hab => ?_)).mpr ?_
    · rintro rfl
      exact lt_irrefl _ hab
    · rintro rfl
      exact lt_irrefl _ hab
    · intro info
      rw [h.mem,h'.mem]
  exact hperm.eq_of_pairwise (fun a b _ _ hab hba => absurd hab (lt_asymm hba)) hlt hlt'

end Filed

section Removal

variable {crates : Crates} {dir : CacheDir}

def OwnFile (crates : Crates) (identity name : String) : Prop :=
  name = dataName (cacheKey crates identity) ∨ name = infoName (cacheKey crates identity)

structure Cleared (crates : Crates) (gone : List String) (dir dir' : CacheDir) : Prop where
  own : ∀ i ∈ gone, ∀ name, OwnFile crates i name → dir'.read name = none
  rest : ∀ name, (∀ i ∈ gone, ¬OwnFile crates i name) → dir'.read name = dir.read name

theorem evictInfo_done (existed : Bool) (sidecar : String) : ∃ dir',
    dir.evictInfo none sidecar existed = (.ok existed,dir') ∧ dir.Set sidecar none dir' := by
  unfold CacheDir.evictInfo
  split
  · exact ⟨_,rfl,CacheDir.set_remove⟩
  · rename_i habsent
    refine ⟨_,rfl,fun other => ?_⟩
    split
    · rename_i h
      rw [h]
      simpa [CacheDir.has] using habsent
    · rfl

theorem evict_done (crates : Crates) (dir : CacheDir) (i : String) : ∃ dir',
    dir.evict crates none i = (.ok (dir.has (dataName (cacheKey crates i)) ||
      dir.has (infoName (cacheKey crates i))),dir') ∧ Cleared crates [i] dir dir' := by
  have hmid : ∃ mid, dir.Set (dataName (cacheKey crates i)) none mid ∧
      dir.evict crates none i = mid.evictInfo none (infoName (cacheKey crates i))
        (dir.has (dataName (cacheKey crates i)) || dir.has (infoName (cacheKey crates i))) := by
    unfold CacheDir.evict
    dsimp only
    split
    · exact ⟨_,CacheDir.set_remove,rfl⟩
    · rename_i habsent
      refine ⟨dir,fun other => ?_,rfl⟩
      split
      · rename_i h
        rw [h]
        simpa [CacheDir.has] using habsent
      · rfl
  obtain ⟨mid,hdata,heq⟩ := hmid
  obtain ⟨dir',hdone,hinfo⟩ := @evictInfo_done mid
    (dir.has (dataName (cacheKey crates i)) || dir.has (infoName (cacheKey crates i)))
    (infoName (cacheKey crates i))
  refine ⟨dir',heq.trans hdone,?_,?_⟩
  · intro j hj name hname
    obtain rfl := List.mem_singleton.mp hj
    rcases hname with rfl | rfl
    · rw [hinfo.other (dataName_ne_infoName _ _),hdata.same]
    · exact hinfo.same
  · intro name hname
    have hnot := hname i (List.mem_singleton_self i)
    rw [hinfo.other fun h => hnot (.inr h),hdata.other fun h => hnot (.inl h)]

theorem evictAll_done (crates : Crates) (entries : List CacheMeta) (dir : CacheDir) (n : Nat) :
    ∃ dir', dir.evictAll crates (fun _ => none) n entries = (.ok (),dir') ∧
      Cleared crates (entries.map CacheMeta.identity) dir dir' := by
  induction entries generalizing dir n with
  | nil => exact ⟨dir,rfl,fun i hi => (by cases hi),fun _ _ => rfl⟩
  | cons info rest ih =>
    obtain ⟨mid,hone,hmid⟩ := evict_done crates dir info.identity
    obtain ⟨dir',hall,hrest⟩ := ih mid (n + 1)
    refine ⟨dir',?_,?_,?_⟩
    · rw [CacheDir.evictAll,hone]
      exact hall
    · intro i hi name hname
      by_cases hlater : ∃ j ∈ rest.map CacheMeta.identity, OwnFile crates j name
      · obtain ⟨j,hj,hown⟩ := hlater
        exact hrest.own j hj name hown
      · rcases List.mem_cons.mp hi with rfl | hi
        · rw [hrest.rest name fun j hj hown => hlater ⟨j,hj,hown⟩]
          exact hmid.own _ (List.mem_singleton_self _) name hname
        · exact absurd ⟨i,hi,hname⟩ hlater
    · intro name hname
      rw [hrest.rest name fun j hj => hname j (List.mem_cons_of_mem _ hj)]
      refine hmid.rest name fun j hj => ?_
      obtain rfl := List.mem_singleton.mp hj
      exact hname _ List.mem_cons_self

theorem clear_done (crates : Crates) (dir : CacheDir) (order : ReadDir) : ∃ dir',
    dir.clear crates order (fun _ => none) = (.ok (dir.list crates order).length,dir') ∧
      Cleared crates ((dir.list crates order).map CacheMeta.identity) dir dir' := by
  obtain ⟨dir',hall,hremoved⟩ := evictAll_done crates (dir.list crates order) dir 0
  refine ⟨dir',?_,hremoved⟩
  unfold CacheDir.clear
  dsimp only
  rw [hall]

end Removal

section Managed

variable {crates : Crates} {dir dir' : CacheDir}

theorem get_served {g : CacheGet} {stays : Stays} {e : CacheEntry}
    (h : (dir.get crates g stays).1 = some e) :
    dir.infoOf crates (cacheKey crates g.identity) = some e.info := by
  unfold CacheDir.get at h
  dsimp only at h
  cases hdata : dir.read (dataName (cacheKey crates g.identity)) with
  | none =>
    rw [hdata] at h
    cases h
  | some bytes =>
    rw [hdata] at h
    cases hinfo : dir.infoOf crates (cacheKey crates g.identity) with
    | none =>
      rw [hinfo] at h
      cases h
    | some info =>
      rw [hinfo] at h
      dsimp only at h
      split at h
      · cases h
      · cases h
        rfl

theorem get_absent {g : CacheGet} {stays : Stays}
    (h : dir.read (dataName (cacheKey crates g.identity)) = none) :
    (dir.get crates g stays).1 = none := by
  unfold CacheDir.get
  dsimp only
  rw [h]

theorem served_listed {g : CacheGet} {stays : Stays} {e : CacheEntry}
    (h : (dir.get crates g stays).1 = some e) (order : ReadDir) : e.info ∈ dir.list crates order :=
  (dir.list_spec order).mem.mpr ⟨_,get_served h⟩

theorem cleared_empty (filed : Filed crates (dir.cache crates)) {order : ReadDir}
    (h : Cleared crates ((dir.list crates order).map CacheMeta.identity) dir dir')
    (order' : ReadDir) : dir'.list crates order' = [] := by
  refine List.eq_nil_iff_forall_not_mem.mpr fun info hinfo => ?_
  obtain ⟨key,hkey⟩ := (dir'.list_spec order').mem.mp hinfo
  obtain ⟨text,htext,hread⟩ := Option.bind_eq_some_iff.mp hkey
  by_cases howned : ∃ i ∈ (dir.list crates order).map CacheMeta.identity,
      OwnFile crates i (infoName key)
  · obtain ⟨i,hi,hown⟩ := howned
    rw [h.own i hi _ hown] at htext
    cases htext
  · rw [h.rest _ fun i hi hown => howned ⟨i,hi,hown⟩] at htext
    have hold : (dir.cache crates key).info = some info :=
      Option.bind_eq_some_iff.mpr ⟨text,htext,hread⟩
    have hlisted : info ∈ dir.list crates order := (dir.list_spec order).mem.mpr ⟨key,hold⟩
    refine howned ⟨info.identity,List.mem_map_of_mem hlisted,.inr ?_⟩
    rw [filed key info hold]

structure Managed (crates : Crates) (dir : CacheDir) : Prop where
  ordered : ∀ order, (dir.list crates order).Pairwise fun a b => a.identity < b.identity
  stable : ∀ order order', dir.list crates order = dir.list crates order'
  served : ∀ order g stays e, (dir.get crates g stays).1 = some e →
    e.info ∈ dir.list crates order
  cleared : ∀ order n, (dir.list crates order).length = n → ∃ dir',
    clearCache crates dir order (fun _ => none) =
      (.ok [s!"cleared {n} cached manifest{plural n}"],dir') ∧
    Cleared crates ((dir.list crates order).map CacheMeta.identity) dir dir' ∧
    (∀ order', listCache crates dir' order' = ["(cache is empty)"]) ∧
    ∀ g stays, (dir'.get crates g stays).1 = none
  evicted : ∀ text m, Murl.parse text = .ok m → ∃ dir',
    (evictCached crates dir none text).2 = dir' ∧ Cleared crates [m.identity] dir dir' ∧
    ((evictCached crates dir none text).1 = .ok [s!"evicted {m.identity}"] ↔
      ∃ name, OwnFile crates m.identity name ∧ dir.has name = true) ∧
    (evictCached crates dir' none text).1 = .error (.notFound s!"{m.identity} is not cached") ∧
    ∀ ttl now stays, (dir'.get crates ⟨m.identity,ttl,now⟩ stays).1 = none

theorem evictCached_done (crates : Crates) (dir : CacheDir) {text : String} {m : Murl}
    (h : Murl.parse text = .ok m) : ∃ dir',
    evictCached crates dir none text = (if dir.has (dataName (cacheKey crates m.identity)) ||
      dir.has (infoName (cacheKey crates m.identity)) then .ok [s!"evicted {m.identity}"]
      else .error (.notFound s!"{m.identity} is not cached"),dir') ∧
    Cleared crates [m.identity] dir dir' := by
  obtain ⟨dir',hone,hremoved⟩ := evict_done crates dir m.identity
  refine ⟨dir',?_,hremoved⟩
  unfold evictCached
  rw [h]
  dsimp only
  rw [hone]
  cases dir.has (dataName (cacheKey crates m.identity)) ||
    dir.has (infoName (cacheKey crates m.identity)) <;> rfl

theorem has_own {i : String} : (dir.has (dataName (cacheKey crates i)) ||
    dir.has (infoName (cacheKey crates i))) = true ↔
      ∃ name, OwnFile crates i name ∧ dir.has name = true := by
  rw [Bool.or_eq_true]
  constructor
  · rintro (h | h)
    · exact ⟨_,.inl rfl,h⟩
    · exact ⟨_,.inr rfl,h⟩
  · rintro ⟨name,rfl | rfl,h⟩
    · exact .inl h
    · exact .inr h

theorem Filed.managed (filed : Filed crates (dir.cache crates)) : Managed crates dir where
  ordered order := (dir.list_spec order).distinct filed
  stable order order' := (dir.list_spec order).unique filed (dir.list_spec order')
  served order g stays e h := served_listed h order
  cleared := by
    rintro order n rfl
    obtain ⟨dir',hdone,hremoved⟩ := clear_done crates dir order
    have hempty := cleared_empty filed hremoved
    refine ⟨dir',?_,hremoved,?_,?_⟩
    · unfold clearCache
      rw [hdone]
    · intro order'
      unfold listCache
      rw [hempty order']
    · intro g stays
      cases hget : (dir'.get crates g stays).1 with
      | none => rfl
      | some e =>
        have hlisted := served_listed hget order
        rw [hempty order] at hlisted
        cases hlisted
  evicted := by
    intro text m hparse
    obtain ⟨dir',hdone,hremoved⟩ := evictCached_done crates dir hparse
    obtain ⟨dir'',hagain,-⟩ := evictCached_done crates dir' hparse
    have hnone : ∀ name, OwnFile crates m.identity name → dir'.read name = none :=
      hremoved.own m.identity (List.mem_singleton_self _)
    refine ⟨dir',by rw [hdone],hremoved,?_,?_,?_⟩
    · rw [hdone,← has_own]
      cases dir.has (dataName (cacheKey crates m.identity)) ||
        dir.has (infoName (cacheKey crates m.identity)) <;> simp
    · have hgone : ¬(dir'.has (dataName (cacheKey crates m.identity)) ||
          dir'.has (infoName (cacheKey crates m.identity))) = true := by
        rw [has_own]
        rintro ⟨name,hown,hhas⟩
        rw [CacheDir.has,hnone name hown] at hhas
        cases hhas
      rw [hagain,if_neg hgone]
    · intro ttl now stays
      exact get_absent (hnone _ (.inl rfl))

theorem cache_managed (crates : Crates) (f64 : List Char → Option String)
    (serde : Serde.Tokenises crates f64) (ops : List (CacheOp crates)) :
    Managed crates (Component.run (CacheDir.act crates) .missing ops).2 := by
  refine Filed.managed ?_
  refine (CacheDir.run_allowed serde .missing ops).preserves Filed.spec ?_
  intro key info hinfo
  cases hinfo

theorem sample_ops_managed : Managed digestingCrates
    (Component.run (CacheDir.act digestingCrates) .missing sampleOps).2 :=
  cache_managed digestingCrates Serde.shown (Serde.tokenising_tokenises _ _) sampleOps

end Managed

end MurlSystem
