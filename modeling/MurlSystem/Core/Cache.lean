import MurlSystem.Core.Trust
import MurlSystem.Core.Error

namespace MurlSystem

structure CacheMeta where
  identity : String
  url : String
  fetchedAt : Nat
  sha256 : String
deriving DecidableEq, Repr

structure CacheEntry where
  bytes : Bytes
  info : CacheMeta
  fresh : Bool
deriving DecidableEq, Repr

structure Slot where
  data : Option Bytes
  info : Option CacheMeta
deriving DecidableEq, Repr

abbrev Cache := String → Slot

def Cache.empty : Cache := fun _ => ⟨none,none⟩

def Cache.write (cache : Cache) (key : String) (slot : Slot) : Cache :=
  fun k => if k = key then slot else cache k

@[simp]
theorem Cache.write_same (cache : Cache) (key : String) (slot : Slot) :
    cache.write key slot key = slot := by
  simp [Cache.write]

theorem Cache.write_other (cache : Cache) {key k : String} (slot : Slot) (h : k ≠ key) :
    cache.write key slot k = cache k := by
  simp [Cache.write,h]

def u64Max : Nat := 2 ^ 64 - 1

def isFresh (ttl now fetchedAt : Nat) : Bool :=
  ttl == u64Max || decide (now < min (fetchedAt + ttl) u64Max)

inductive PutFault where
  | createDir (why : String)
  | openData (why : String)
  | shortData (written : Nat) (why : String)
  | openMeta (why : String)
  | shortMeta (why : String)
deriving DecidableEq, Repr

section Store

variable (crates : Crates)

def cacheKey (identity : String) : String := sha256Hex crates (Text.bytes identity)

def Slot.readable (slot : Slot) (identity : String) : Option (Bytes × CacheMeta) :=
  match slot.data,slot.info with
  | some bytes,some info =>
    if info.identity = identity ∧ sha256Hex crates bytes = info.sha256 then some (bytes,info)
    else none
  | _,_ => none

def Cache.get (cache : Cache) (identity : String) (ttl now : Nat) : Option CacheEntry × Cache :=
  let key := cacheKey crates identity
  match (cache key).data,(cache key).info with
  | some bytes,some info =>
    if info.identity ≠ identity ∨ sha256Hex crates bytes ≠ info.sha256 then
      (none,cache.write key ⟨none,none⟩)
    else (some ⟨bytes,info,isFresh ttl now info.fetchedAt⟩,cache)
  | _,_ => (none,cache)

def Cache.put (cache : Cache) (fault : Option PutFault) (identity url : String) (bytes : Bytes)
    (now : Nat) : Except Error Unit × Cache :=
  let key := cacheKey crates identity
  let info : CacheMeta := ⟨identity,url,now,sha256Hex crates bytes⟩
  let old := (cache key).info
  match fault with
  | some (.createDir why) => (.error (.io why),cache)
  | some (.openData why) => (.error (.io why),cache)
  | some (.shortData n why) => (.error (.io why),cache.write key ⟨some (bytes.take n),old⟩)
  | some (.openMeta why) => (.error (.io why),cache.write key ⟨some bytes,old⟩)
  | some (.shortMeta why) => (.error (.io why),cache.write key ⟨some bytes,none⟩)
  | none => (.ok (),cache.write key ⟨some bytes,some info⟩)

inductive EvictFault where
  | removeData
  | removeMeta
deriving DecidableEq, Repr

def Cache.evict (cache : Cache) (fault : Option EvictFault) (identity : String) : Cache :=
  let key := cacheKey crates identity
  match fault with
  | some .removeData => cache
  | some .removeMeta => cache.write key ⟨none,(cache key).info⟩
  | none => cache.write key ⟨none,none⟩

def Cache.readable (cache : Cache) (identity : String) : Option Bytes :=
  ((cache (cacheKey crates identity)).readable crates identity).map Prod.fst

variable {crates}

theorem Cache.get_entry (crates : Crates) (cache : Cache) (identity : String) (ttl now : Nat) :
    (cache.get crates identity ttl now).1 =
      ((cache (cacheKey crates identity)).readable crates identity).map
        fun e => ⟨e.1,e.2,isFresh ttl now e.2.fetchedAt⟩ := by
  unfold Cache.get Slot.readable
  cases hd : (cache (cacheKey crates identity)).data with
  | none => simp [hd]
  | some bytes =>
    cases hi : (cache (cacheKey crates identity)).info with
    | none => simp [hd,hi]
    | some info =>
      by_cases h : info.identity = identity ∧ sha256Hex crates bytes = info.sha256
      · simp [hd,hi,h.1,h.2]
      · have hn : info.identity ≠ identity ∨ sha256Hex crates bytes ≠ info.sha256 := by tauto
        simp [hd,hi,h,hn]

theorem Cache.get_readable (crates : Crates) (cache : Cache) (identity : String) (ttl now : Nat) :
    (cache.get crates identity ttl now).1.map CacheEntry.bytes =
      cache.readable crates identity := by
  rw [Cache.get_entry,Option.map_map]
  rfl

theorem Cache.get_fresh {cache : Cache} {identity : String} {ttl now : Nat} {entry : CacheEntry}
    (h : (cache.get crates identity ttl now).1 = some entry) :
    entry.fresh = isFresh ttl now entry.info.fetchedAt := by
  rw [Cache.get_entry] at h
  obtain ⟨e,-,rfl⟩ := Option.map_eq_some_iff.mp h
  rfl

theorem Cache.get_cache (crates : Crates) (cache : Cache) (identity : String) (ttl now : Nat) :
    (cache.get crates identity ttl now).2 = cache ∨
      cache.readable crates identity = none ∧
      (cache.get crates identity ttl now).2 =
        cache.write (cacheKey crates identity) ⟨none,none⟩ := by
  have hread : (cache.get crates identity ttl now).1.map CacheEntry.bytes =
      cache.readable crates identity := cache.get_readable crates identity ttl now
  unfold Cache.get at hread ⊢
  cases hd : (cache (cacheKey crates identity)).data with
  | none => simp [hd]
  | some bytes =>
    cases hi : (cache (cacheKey crates identity)).info with
    | none => simp [hd,hi]
    | some info =>
      simp only [hd,hi] at hread ⊢
      by_cases hbad : info.identity ≠ identity ∨ sha256Hex crates bytes ≠ info.sha256
      · rw [if_pos hbad] at hread ⊢
        exact .inr ⟨hread.symm,rfl⟩
      · rw [if_neg hbad]
        exact .inl rfl

theorem Cache.readable_write_other (cache : Cache) {identity : String} {key : String}
    (slot : Slot) (h : cacheKey crates identity ≠ key) :
    (cache.write key slot).readable crates identity = cache.readable crates identity := by
  simp only [Cache.readable,Cache.write_other cache slot h]

end Store

end MurlSystem
