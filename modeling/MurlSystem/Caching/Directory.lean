import Mathlib.Data.List.AList
import Mathlib.Data.String.Basic
import MurlSystem.Caching.Files
import MurlSystem.Foundation.Component

namespace MurlSystem

section Directory

def dataName (key : String) : String := key ++ ".murl.json"

def infoName (key : String) : String := key ++ ".meta.json"

def isInfoName (name : String) : Bool := ".meta.json".toList.isSuffixOf name.toList

structure CacheDir where
  made : Bool
  files : AList fun _ : String => Bytes
  unmade : made = false → files = ∅

namespace CacheDir

def missing : CacheDir := ⟨false,∅,fun _ => rfl⟩

def read (dir : CacheDir) (name : String) : Option Bytes := dir.files.lookup name

def make (dir : CacheDir) : CacheDir := ⟨true,dir.files,fun h => by cases h⟩

def write (dir : CacheDir) (name : String) (b : Bytes) : CacheDir :=
  ⟨true,dir.files.insert name b,fun h => by cases h⟩

def remove (dir : CacheDir) (name : String) : CacheDir where
  made := dir.made
  files := dir.files.erase name
  unmade := by
    intro h
    rw [dir.unmade h]
    exact AList.ext rfl

def drop (dir : CacheDir) (stays : Bool) (name : String) : CacheDir :=
  if stays then dir else dir.remove name

variable {dir : CacheDir} {name : String} {b : Bytes}

def Set (dir : CacheDir) (name : String) (content : Option Bytes) (dir' : CacheDir) : Prop :=
  ∀ other, dir'.read other = if other = name then content else dir.read other

theorem set_write : Set dir name (some b) (dir.write name b) := by
  intro other
  split
  · rename_i h
    rw [h]
    exact AList.lookup_insert _
  · rename_i h
    exact AList.lookup_insert_ne h

theorem set_remove : Set dir name none (dir.remove name) := by
  intro other
  split
  · rename_i h
    rw [h]
    exact AList.lookup_erase _ _
  · rename_i h
    exact AList.lookup_erase_ne h

theorem set_drop {stays : Bool} :
    Set dir name (if stays then dir.read name else none) (dir.drop stays name) := by
  cases stays with
  | true =>
    intro other
    split
    · rename_i h
      rw [h]
      rfl
    · rfl
  | false => exact set_remove

variable {content : Option Bytes} {dir' : CacheDir}

theorem Set.same (h : Set dir name content dir') : dir'.read name = content :=
  (h name).trans (if_pos rfl)

theorem Set.other (h : Set dir name content dir') {other : String} (hne : other ≠ name) :
    dir'.read other = dir.read other := (h other).trans (if_neg hne)

end CacheDir

structure ReadDir where
  names : List String → List String
  perm : ∀ l, (names l).Perm l

inductive PutStop (crates : Crates) (put : CachePut) where
  | createDir (why : String)
  | openData (why : String)
  | shortData (written : Nat) (why : String)
  | openInfo (why : String)
  | shortInfo (written : Nat) (short : written < (put.info crates).toBytes.length) (why : String)

def PutStop.fault {crates : Crates} {put : CachePut} : PutStop crates put → PutFault
  | .createDir why => .createDir why
  | .openData why => .openData why
  | .shortData n why => .shortData n why
  | .openInfo why => .openMeta why
  | .shortInfo _ _ why => .shortMeta why

-- Which files of a crossed entry cannot be removed; a `get` passes over that.
structure Stays where
  data : Bool := false
  info : Bool := false

def Stays.left (stays : Stays) (key : String) (before after : Cache) : Cache :=
  after.write key ⟨if stays.data then (before key).data else (after key).data,
    if stays.info then (before key).info else (after key).info⟩

structure EvictStop where
  fault : EvictFault
  why : String

namespace CacheDir

variable (crates : Crates)

def infoOf (dir : CacheDir) (key : String) : Option CacheMeta :=
  (dir.read (infoName key)).bind fun text => (CacheMeta.fromSlice crates text).toOption

def get (dir : CacheDir) (g : CacheGet) (stays : Stays) : Option CacheEntry × CacheDir :=
  let data := dataName (cacheKey crates g.identity)
  let sidecar := infoName (cacheKey crates g.identity)
  match dir.read data with
  | none => (none,dir)
  | some bytes =>
    match dir.infoOf crates (cacheKey crates g.identity) with
    | none => (none,dir)
    | some info =>
      if info.identity ≠ g.identity ∨ sha256Hex crates bytes ≠ info.sha256 then
        (none,(dir.drop stays.data data).drop stays.info sidecar)
      else (some ⟨bytes,info,isFresh g.ttl g.now info.fetchedAt⟩,dir)

def put (dir : CacheDir) (p : CachePut) (stop : Option (PutStop crates p)) :
    Except Error Unit × CacheDir :=
  let data := dataName (cacheKey crates p.identity)
  let sidecar := infoName (cacheKey crates p.identity)
  let text := (p.info crates).toBytes
  match stop with
  | some (.createDir why) => (.error (.io why),dir)
  | some (.openData why) => (.error (.io why),dir.make)
  | some (.shortData n why) => (.error (.io why),dir.make.write data (p.bytes.take n))
  | some (.openInfo why) => (.error (.io why),dir.make.write data p.bytes)
  | some (.shortInfo n _ why) =>
    (.error (.io why),(dir.make.write data p.bytes).write sidecar (text.take n))
  | none => (.ok (),(dir.make.write data p.bytes).write sidecar text)

def has (dir : CacheDir) (name : String) : Bool := (dir.read name).isSome

def evictInfo (dir : CacheDir) (stop : Option EvictStop) (sidecar : String) (existed : Bool) :
    Except Error Bool × CacheDir :=
  if dir.has sidecar then
    match stop with
    | some ⟨.removeMeta,why⟩ => (.error (.io why),dir)
    | _ => (.ok existed,dir.remove sidecar)
  else (.ok existed,dir)

def evict (dir : CacheDir) (stop : Option EvictStop) (identity : String) :
    Except Error Bool × CacheDir :=
  let data := dataName (cacheKey crates identity)
  let sidecar := infoName (cacheKey crates identity)
  let existed := dir.has data || dir.has sidecar
  if dir.has data then
    match stop with
    | some ⟨.removeData,why⟩ => (.error (.io why),dir)
    | _ => (dir.remove data).evictInfo stop sidecar existed
  else dir.evictInfo stop sidecar existed

def listed (dir : CacheDir) (name : String) : Option CacheMeta :=
  if isInfoName name then
    (dir.read name).bind fun b => (CacheMeta.fromSlice crates b).toOption
  else none

def list (dir : CacheDir) (order : ReadDir) : List CacheMeta :=
  if dir.made then
    ((order.names dir.files.keys).filterMap (dir.listed crates)).mergeSort
      fun a b => decide (a.identity ≤ b.identity)
  else []

def evictAll (stops : Nat → Option EvictStop) (dir : CacheDir) :
    Nat → List CacheMeta → Except Error Unit × CacheDir
  | _,[] => (.ok (),dir)
  | n,info :: rest =>
    match dir.evict crates (stops n) info.identity with
    | (.ok _,dir') => dir'.evictAll stops (n + 1) rest
    | (.error e,dir') => (.error e,dir')

def clear (dir : CacheDir) (order : ReadDir) (stops : Nat → Option EvictStop) :
    Except Error Nat × CacheDir :=
  let entries := dir.list crates order
  match dir.evictAll crates stops 0 entries with
  | (.ok _,dir') => (.ok entries.length,dir')
  | (.error e,dir') => (.error e,dir')

end CacheDir

end Directory

section Specified

variable (crates : Crates)

inductive CacheOp where
  | get (g : CacheGet) (stays : Stays)
  | put (p : CachePut) (stop : Option (PutStop crates p))
  | evict (stop : Option EvictStop) (identity : String)
  | list (order : ReadDir)
  | clear (order : ReadDir) (stops : Nat → Option EvictStop)

inductive CacheAnswer where
  | entry (entry : Option CacheEntry)
  | stored (answer : Except Error Unit)
  | evicted (answer : Except Error Bool)
  | listed (entries : List CacheMeta)
  | cleared (answer : Except Error Nat)

def CacheDir.act (dir : CacheDir) : CacheOp crates → CacheAnswer × CacheDir
  | .get g stays => (.entry (dir.get crates g stays).1,(dir.get crates g stays).2)
  | .put p stop => (.stored (dir.put crates p stop).1,(dir.put crates p stop).2)
  | .evict stop i => (.evicted (dir.evict crates stop i).1,(dir.evict crates stop i).2)
  | .list order => (.listed (dir.list crates order),dir)
  | .clear order stops =>
    (.cleared (dir.clear crates order stops).1,(dir.clear crates order stops).2)

inductive Evicts (stop : Option EvictStop) (c : Cache) (identity : String) :
    Except Error Bool → Cache → Prop
  | gone (existed : Bool) (seen : c (cacheKey crates identity) ≠ ⟨none,none⟩ → existed = true) :
      Evicts stop c identity (.ok existed) (c.evict crates none identity)
  | stuck (fault : EvictFault) (why : String) (stopped : stop = some ⟨fault,why⟩) :
      Evicts stop c identity (.error (.io why)) (c.evict crates (some fault) identity)

structure Listing (c : Cache) (entries : List CacheMeta) : Prop where
  sorted : entries.Pairwise fun a b => a.identity ≤ b.identity
  exact : ∃ keys : List String, keys.Nodup ∧ (∀ key info, (c key).info = some info → key ∈ keys) ∧
    entries.Perm (keys.filterMap fun key => (c key).info)

inductive Sweeps (stops : Nat → Option EvictStop) :
    Cache → Nat → List CacheMeta → Except Error Unit → Cache → Prop
  | done (c : Cache) (n : Nat) : Sweeps stops c n [] (.ok ()) c
  | next {c c₁ c₂ : Cache} {n : Nat} {info : CacheMeta} {rest : List CacheMeta} {existed : Bool}
      {answer : Except Error Unit} (one : Evicts crates (stops n) c info.identity (.ok existed) c₁)
      (more : Sweeps stops c₁ (n + 1) rest answer c₂) : Sweeps stops c n (info :: rest) answer c₂
  | stuck {c c₁ : Cache} {n : Nat} {info : CacheMeta} {rest : List CacheMeta} {e : Error}
      (one : Evicts crates (stops n) c info.identity (.error e) c₁) :
      Sweeps stops c n (info :: rest) (.error e) c₁

inductive CacheSpec : Component.Spec Cache (CacheOp crates) CacheAnswer
  | get (c : Cache) (g : CacheGet) (stays : Stays) : CacheSpec c (.get g stays)
      (.entry (c.get crates g.identity g.ttl g.now).1)
      (stays.left (cacheKey crates g.identity) c (c.get crates g.identity g.ttl g.now).2)
  | put (c : Cache) (p : CachePut) (stop : Option (PutStop crates p)) : CacheSpec c (.put p stop)
      (.stored (c.put crates (stop.map PutStop.fault) p.identity p.url p.bytes p.now).1)
      (c.put crates (stop.map PutStop.fault) p.identity p.url p.bytes p.now).2
  | evict {c c' : Cache} {stop : Option EvictStop} {identity : String} {answer : Except Error Bool}
      (evicts : Evicts crates stop c identity answer c') :
      CacheSpec c (.evict stop identity) (.evicted answer) c'
  | list {c : Cache} {entries : List CacheMeta} (order : ReadDir) (listing : Listing c entries) :
      CacheSpec c (.list order) (.listed entries) c
  | clear {c c' : Cache} {entries : List CacheMeta} {answer : Except Error Unit} (order : ReadDir)
      {stops : Nat → Option EvictStop} (listing : Listing c entries)
      (sweeps : Sweeps crates stops c 0 entries answer c') :
      CacheSpec c (.clear order stops) (.cleared (answer.map fun _ => entries.length)) c'

end Specified

section Names

theorem dataName_ne_infoName (key key' : String) : dataName key ≠ infoName key' := by
  intro h
  have hchars : key.toList ++ ".murl.json".toList = key'.toList ++ ".meta.json".toList := by
    rw [← String.toList_append,← String.toList_append]
    exact congrArg String.toList h
  have hlen : ".murl.json".toList.length = ".meta.json".toList.length := by decide
  obtain ⟨-,hsame⟩ := List.append_inj' hchars hlen
  exact absurd hsame (by decide)

theorem dataName_injective : Function.Injective dataName := by
  intro k k' h
  have hchars := congrArg String.toList h
  rw [dataName,dataName,String.toList_append,String.toList_append] at hchars
  exact String.toList_inj.mp (List.append_cancel_right hchars)

theorem infoName_injective : Function.Injective infoName := by
  intro k k' h
  have hchars := congrArg String.toList h
  rw [infoName,infoName,String.toList_append,String.toList_append] at hchars
  exact String.toList_inj.mp (List.append_cancel_right hchars)

def infoStem (name : String) : Option String :=
  if isInfoName name then some (String.ofList (name.toList.take (name.toList.length - 10))) else none

theorem infoStem_infoName (key : String) : infoStem (infoName key) = some key := by
  have hchars : (infoName key).toList = key.toList ++ ".meta.json".toList := String.toList_append
  have hsuffix : isInfoName (infoName key) = true := by
    rw [isInfoName,hchars,List.isSuffixOf_iff_suffix]
    exact List.suffix_append _ _
  have hten : ".meta.json".toList.length = 10 := by decide
  rw [infoStem,if_pos hsuffix,hchars,List.length_append,hten,Nat.add_sub_cancel,List.take_left,
    String.ofList_toList]

theorem infoStem_eq_some {name key : String} : infoStem name = some key ↔ name = infoName key := by
  constructor
  · intro h
    unfold infoStem at h
    split at h
    · rename_i hsuffix
      obtain ⟨front,hfront⟩ := List.isSuffixOf_iff_suffix.mp hsuffix
      have hten : ".meta.json".toList.length = 10 := by decide
      rw [← hfront,List.length_append,hten,Nat.add_sub_cancel,List.take_left] at h
      obtain rfl := Option.some.inj h
      apply String.toList_inj.mp
      rw [infoName,String.toList_append,String.toList_ofList,hfront]
    · cases h
  · rintro rfl
    exact infoStem_infoName key

end Names

section View

variable (crates : Crates)

def CacheDir.cache (dir : CacheDir) : Cache := fun key =>
  ⟨dir.read (dataName key),dir.infoOf crates key⟩

variable {crates} {dir : CacheDir} {key : String}

variable {dir' : CacheDir} {content : Option Bytes}

theorem CacheDir.cache_data (h : Set dir (dataName key) content dir') :
    dir'.cache crates = (dir.cache crates).write key ⟨content,dir.infoOf crates key⟩ := by
  funext k
  have hinfo : dir'.read (infoName k) = dir.read (infoName k) :=
    h.other (dataName_ne_infoName key k).symm
  rcases eq_or_ne k key with rfl | hne
  · rw [Cache.write_same]
    unfold CacheDir.cache CacheDir.infoOf
    rw [h.same,hinfo]
  · rw [Cache.write_other _ _ hne]
    unfold CacheDir.cache CacheDir.infoOf
    rw [h.other fun hsame => hne (dataName_injective hsame),hinfo]

theorem CacheDir.cache_info (h : Set dir (infoName key) content dir') :
    dir'.cache crates = (dir.cache crates).write key ⟨dir.read (dataName key),
      content.bind fun text => (CacheMeta.fromSlice crates text).toOption⟩ := by
  funext k
  have hdata : dir'.read (dataName k) = dir.read (dataName k) :=
    h.other (dataName_ne_infoName k key)
  rcases eq_or_ne k key with rfl | hne
  · rw [Cache.write_same]
    unfold CacheDir.cache CacheDir.infoOf
    rw [h.same,hdata]
  · rw [Cache.write_other _ _ hne]
    unfold CacheDir.cache CacheDir.infoOf
    rw [h.other fun hsame => hne (infoName_injective hsame),hdata]

theorem Cache.write_again (c : Cache) (key : String) (slot slot' : Slot) :
    (c.write key slot).write key slot' = c.write key slot' := by
  funext k
  unfold Cache.write
  split <;> rfl

theorem Cache.write_self {c : Cache} {slot : Slot} (h : c key = slot) : c.write key slot = c := by
  funext k
  unfold Cache.write
  split
  · rename_i hk
    rw [hk,h]
  · rfl

theorem CacheDir.cache_both {mid : CacheDir} {data info : Option Bytes}
    (hdata : Set dir (dataName key) data mid) (hinfo : Set mid (infoName key) info dir') :
    dir'.cache crates = (dir.cache crates).write key
      ⟨data,info.bind fun text => (CacheMeta.fromSlice crates text).toOption⟩ := by
  rw [CacheDir.cache_info hinfo,CacheDir.cache_data hdata,Cache.write_again,hdata.same]

end View

section Refines

variable {crates : Crates} {dir : CacheDir} {f64 : List Char → Option String}

theorem Stays.left_same (stays : Stays) (key : String) (c : Cache) : stays.left key c c = c := by
  unfold Stays.left
  rw [ite_self,ite_self]
  exact Cache.write_self rfl

theorem CacheDir.drop_spec (stays : Stays) (key : String) :
    ((dir.drop stays.data (dataName key)).drop stays.info (infoName key)).cache crates =
      stays.left key (dir.cache crates) ((dir.cache crates).write key ⟨none,none⟩) := by
  have hmid : (dir.drop stays.data (dataName key)).read (infoName key) = dir.read (infoName key) :=
    set_drop.other (dataName_ne_infoName key key).symm
  rw [CacheDir.cache_both set_drop set_drop,hmid,Stays.left,Cache.write_again,Cache.write_same]
  have hslot : dir.cache crates key = ⟨dir.read (dataName key),dir.infoOf crates key⟩ := rfl
  rw [hslot]
  cases stays.info <;> rfl

theorem CacheDir.get_spec (g : CacheGet) (stays : Stays) :
    (dir.get crates g stays).1 = ((dir.cache crates).get crates g.identity g.ttl g.now).1 ∧
      (dir.get crates g stays).2.cache crates =
        stays.left (cacheKey crates g.identity) (dir.cache crates)
          ((dir.cache crates).get crates g.identity g.ttl g.now).2 := by
  have hslot : dir.cache crates (cacheKey crates g.identity) =
      ⟨dir.read (dataName (cacheKey crates g.identity)),
        dir.infoOf crates (cacheKey crates g.identity)⟩ := rfl
  unfold CacheDir.get Cache.get
  dsimp only
  rw [hslot]
  have hsame := (stays.left_same (cacheKey crates g.identity) (dir.cache crates)).symm
  cases dir.read (dataName (cacheKey crates g.identity)) with
  | none => exact ⟨rfl,hsame⟩
  | some bytes =>
    cases dir.infoOf crates (cacheKey crates g.identity) with
    | none => exact ⟨rfl,hsame⟩
    | some info =>
      dsimp only
      split
      · exact ⟨rfl,CacheDir.drop_spec stays _⟩
      · exact ⟨rfl,hsame⟩

theorem sidecar_reads (serde : Serde.Tokenises crates f64) (p : CachePut) :
    (CacheMeta.fromSlice crates (p.info crates).toBytes).toOption = some (p.info crates) := by
  rw [CacheMeta.reads serde p.now_lt]
  rfl

theorem sidecar_cut (serde : Serde.Tokenises crates f64) (p : CachePut) {n : Nat}
    (short : n < (p.info crates).toBytes.length) :
    (CacheMeta.fromSlice crates ((p.info crates).toBytes.take n)).toOption = none := by
  cases hread : CacheMeta.fromSlice crates ((p.info crates).toBytes.take n) with
  | error e => rfl
  | ok info =>
    have hlen := congrArg List.length (CacheMeta.whole serde hread)
    rw [List.length_take] at hlen
    omega

theorem CacheDir.cache_stored (crates : Crates) (dir : CacheDir) (key : String) (b text : Bytes) :
    ((dir.make.write (dataName key) b).write (infoName key) text).cache crates =
      (dir.cache crates).write key ⟨some b,(CacheMeta.fromSlice crates text).toOption⟩ :=
  CacheDir.cache_both set_write set_write

theorem CacheDir.put_spec (serde : Serde.Tokenises crates f64) (p : CachePut)
    (stop : Option (PutStop crates p)) :
    (dir.put crates p stop).1 = ((dir.cache crates).put crates (stop.map PutStop.fault) p.identity
      p.url p.bytes p.now).1 ∧
    (dir.put crates p stop).2.cache crates = ((dir.cache crates).put crates
      (stop.map PutStop.fault) p.identity p.url p.bytes p.now).2 := by
  cases stop with
  | none =>
    have hboth := dir.cache_stored crates (cacheKey crates p.identity) p.bytes (p.info crates).toBytes
    rw [sidecar_reads serde p] at hboth
    exact ⟨rfl,hboth⟩
  | some stop =>
    cases stop with
    | createDir why => exact ⟨rfl,rfl⟩
    | openData why => exact ⟨rfl,rfl⟩
    | shortData n why => exact ⟨rfl,CacheDir.cache_data set_write⟩
    | openInfo why => exact ⟨rfl,CacheDir.cache_data set_write⟩
    | shortInfo n short why =>
      have hboth := dir.cache_stored crates (cacheKey crates p.identity) p.bytes
        ((p.info crates).toBytes.take n)
      rw [sidecar_cut serde p short] at hboth
      exact ⟨rfl,hboth⟩

theorem CacheDir.evictInfo_spec {mid : CacheDir} {stop : Option EvictStop} {identity : String}
    (hmid : mid.cache crates = (dir.cache crates).write (cacheKey crates identity)
      ⟨none,dir.infoOf crates (cacheKey crates identity)⟩) {existed : Bool}
    (hseen : dir.cache crates (cacheKey crates identity) ≠ ⟨none,none⟩ → existed = true) :
    Evicts crates stop (dir.cache crates) identity
      (mid.evictInfo stop (infoName (cacheKey crates identity)) existed).1
      ((mid.evictInfo stop (infoName (cacheKey crates identity)) existed).2.cache crates) := by
  have hslot : mid.cache crates (cacheKey crates identity) =
      ⟨none,dir.infoOf crates (cacheKey crates identity)⟩ := by
    rw [hmid,Cache.write_same]
  have hdata : mid.read (dataName (cacheKey crates identity)) = none := congrArg Slot.data hslot
  have hinfo : mid.infoOf crates (cacheKey crates identity) =
      dir.infoOf crates (cacheKey crates identity) := congrArg Slot.info hslot
  have hremoved : (mid.remove (infoName (cacheKey crates identity))).cache crates =
      (dir.cache crates).evict crates none identity := by
    rw [CacheDir.cache_info set_remove,hmid,Cache.write_again,hdata]
    rfl
  unfold CacheDir.evictInfo
  split
  · cases stop with
    | none =>
      dsimp only
      rw [hremoved]
      exact .gone existed hseen
    | some stop =>
      obtain ⟨fault,why⟩ := stop
      cases fault with
      | removeData =>
        dsimp only
        rw [hremoved]
        exact .gone existed hseen
      | removeMeta =>
        dsimp only
        rw [hmid]
        exact .stuck .removeMeta why rfl
  · rename_i habsent
    have hnone : mid.read (infoName (cacheKey crates identity)) = none := by
      simpa [CacheDir.has] using habsent
    have hempty : dir.infoOf crates (cacheKey crates identity) = none := by
      rw [← hinfo,CacheDir.infoOf,hnone,Option.bind_none]
    dsimp only
    rw [hmid,hempty]
    exact .gone existed hseen

theorem CacheDir.evict_spec (stop : Option EvictStop) (identity : String) :
    Evicts crates stop (dir.cache crates) identity (dir.evict crates stop identity).1
      ((dir.evict crates stop identity).2.cache crates) := by
  have hseen : dir.cache crates (cacheKey crates identity) ≠ ⟨none,none⟩ →
      (dir.has (dataName (cacheKey crates identity)) ||
        dir.has (infoName (cacheKey crates identity))) = true := by
    intro hne
    by_contra hnot
    rw [Bool.not_eq_true,Bool.or_eq_false_iff] at hnot
    have hdata : dir.read (dataName (cacheKey crates identity)) = none := by
      simpa [CacheDir.has] using hnot.1
    have hinfo : dir.read (infoName (cacheKey crates identity)) = none := by
      simpa [CacheDir.has] using hnot.2
    refine hne ?_
    rw [CacheDir.cache,CacheDir.infoOf,hdata,hinfo,Option.bind_none]
  have hremoved : (dir.remove (dataName (cacheKey crates identity))).cache crates =
      (dir.cache crates).write (cacheKey crates identity)
        ⟨none,dir.infoOf crates (cacheKey crates identity)⟩ := CacheDir.cache_data set_remove
  unfold CacheDir.evict
  dsimp only
  split
  · cases stop with
    | none => exact CacheDir.evictInfo_spec hremoved hseen
    | some stop =>
      obtain ⟨fault,why⟩ := stop
      cases fault with
      | removeData => exact .stuck .removeData why rfl
      | removeMeta => exact CacheDir.evictInfo_spec hremoved hseen
  · rename_i habsent
    have hnone : dir.read (dataName (cacheKey crates identity)) = none := by
      simpa [CacheDir.has] using habsent
    refine CacheDir.evictInfo_spec (Cache.write_self ?_).symm hseen
    rw [CacheDir.cache,hnone]

theorem CacheDir.list_eq (order : ReadDir) : dir.list crates order =
    ((order.names dir.files.keys).filterMap (dir.listed crates)).mergeSort
      fun a b => decide (a.identity ≤ b.identity) := by
  unfold CacheDir.list
  split
  · rfl
  · rename_i hmade
    have hempty : dir.files.keys = [] := by
      rw [dir.unmade (by simpa using hmade)]
      rfl
    rw [hempty,(order.perm []).eq_nil,List.filterMap_nil,List.mergeSort_nil]

theorem CacheDir.listed_eq (name : String) :
    dir.listed crates name = (infoStem name).bind fun key => (dir.cache crates key).info := by
  unfold CacheDir.listed
  split
  · rename_i hinfo
    have hstem : ∃ key, infoStem name = some key := ⟨_,by rw [infoStem,if_pos hinfo]⟩
    obtain ⟨key,hkey⟩ := hstem
    rw [hkey,Option.bind_some]
    rw [infoStem_eq_some.mp hkey]
    rfl
  · rename_i hinfo
    rw [infoStem,if_neg hinfo,Option.bind_none]

theorem CacheDir.list_spec (order : ReadDir) : Listing (dir.cache crates) (dir.list crates order) := by
  rw [CacheDir.list_eq]
  refine ⟨?_,dir.files.keys.filterMap infoStem,?_,?_,?_⟩
  · refine (List.pairwise_mergeSort (fun a b c => ?_) (fun a b => ?_) _).imp of_decide_eq_true
    · simpa using fun hab hbc => le_trans (a := a.identity) hab hbc
    · simpa using le_total a.identity b.identity
  · refine List.Nodup.filterMap ?_ dir.files.keys_nodup
    intro name name' key h h'
    rw [infoStem_eq_some.mp h,infoStem_eq_some.mp h']
  · intro key info hinfo
    refine List.mem_filterMap.mpr ⟨infoName key,?_,infoStem_infoName key⟩
    obtain ⟨text,htext,-⟩ := Option.bind_eq_some_iff.mp hinfo
    exact AList.mem_keys.mp (AList.lookup_isSome.mp (Option.isSome_of_mem htext))
  · refine (List.mergeSort_perm _ _).trans ?_
    rw [List.filterMap_filterMap]
    refine ((order.perm _).filterMap _).trans ?_
    rw [List.filterMap_congr fun name _ => CacheDir.listed_eq name]

theorem CacheDir.evictAll_spec (stops : Nat → Option EvictStop) (entries : List CacheMeta)
    (dir : CacheDir) (n : Nat) :
    Sweeps crates stops (dir.cache crates) n entries (dir.evictAll crates stops n entries).1
      ((dir.evictAll crates stops n entries).2.cache crates) := by
  induction entries generalizing dir n with
  | nil => exact .done _ _
  | cons info rest ih =>
    have hone : Evicts crates _ _ _ _ _ := dir.evict_spec (stops n) info.identity
    rw [CacheDir.evictAll]
    cases hevict : dir.evict crates (stops n) info.identity with
    | mk answer dir' =>
      rw [hevict] at hone
      cases answer with
      | ok existed => exact .next hone (ih dir' (n + 1))
      | error e => exact .stuck hone

theorem CacheDir.clear_spec (order : ReadDir) (stops : Nat → Option EvictStop) :
    CacheSpec crates (dir.cache crates) (.clear order stops)
      (.cleared (dir.clear crates order stops).1) ((dir.clear crates order stops).2.cache crates) := by
  have hlist : Listing (dir.cache crates) _ := dir.list_spec order
  have hsweep : Sweeps crates stops _ 0 _ _ _ :=
    CacheDir.evictAll_spec stops (dir.list crates order) dir 0
  have hclear := CacheSpec.clear order hlist hsweep
  unfold CacheDir.clear
  dsimp only
  cases hall : dir.evictAll crates stops 0 (dir.list crates order) with
  | mk answer dir' =>
    rw [hall] at hclear
    cases answer with
    | ok u => exact hclear
    | error e => exact hclear

theorem CacheDir.act_spec (serde : Serde.Tokenises crates f64) (dir : CacheDir)
    (op : CacheOp crates) :
    CacheSpec crates (dir.cache crates) op (dir.act crates op).1
      ((dir.act crates op).2.cache crates) := by
  cases op with
  | get g stays =>
    obtain ⟨hentry,hcache⟩ : _ ∧ _ = _ := @CacheDir.get_spec crates dir g stays
    rw [CacheDir.act,hentry,hcache]
    exact .get _ g stays
  | put p stop =>
    obtain ⟨hanswer,hcache⟩ := dir.put_spec serde p stop
    rw [CacheDir.act,hanswer,hcache]
    exact .put _ p stop
  | evict stop i => exact .evict (dir.evict_spec stop i)
  | list order => exact .list order (dir.list_spec order)
  | clear order stops => exact dir.clear_spec order stops

theorem CacheDir.run_allowed (serde : Serde.Tokenises crates f64) (dir : CacheDir)
    (ops : List (CacheOp crates)) :
    Component.Allows (CacheSpec crates) (dir.cache crates)
      (Component.run (CacheDir.act crates) dir ops).1
      ((Component.run (CacheDir.act crates) dir ops).2.cache crates) :=
  Component.run_allowed (CacheDir.act_spec serde) dir ops

theorem cache_dir_refines (crates : Crates) (f64 : List Char → Option String)
    (serde : Serde.Tokenises crates f64) (dir : CacheDir) (ops : List (CacheOp crates)) :
    Component.Allows (CacheSpec crates) (dir.cache crates)
      (Component.run (CacheDir.act crates) dir ops).1
      ((Component.run (CacheDir.act crates) dir ops).2.cache crates) :=
  dir.run_allowed serde ops

def inOrder : ReadDir := ⟨id,fun l => .refl l⟩

def sampleOps : List (CacheOp digestingCrates) :=
  [.put samplePut none,.get sampleGet {},.list inOrder,.clear inOrder fun _ => none,
   .put samplePut (some (.openInfo "full")),.get sampleGet { data := true },.put samplePut none]

theorem sample_ops_refined :
    Component.Allows (CacheSpec digestingCrates) (CacheDir.missing.cache digestingCrates)
      (Component.run (CacheDir.act digestingCrates) .missing sampleOps).1
      ((Component.run (CacheDir.act digestingCrates) .missing sampleOps).2.cache
        digestingCrates) :=
  cache_dir_refines digestingCrates Serde.shown (Serde.tokenising_tokenises _ _) .missing sampleOps

end Refines

end MurlSystem
