import Mathlib.Logic.Function.Basic
import MurlSystem.Caching.Torn
import MurlSystem.Foundation.Transition

namespace MurlSystem

section Hex

theorem digitChar_injective : ∀ m n : Fin 16, Nat.digitChar m = Nat.digitChar n → m = n := by
  decide

theorem hexByte_injective {a b : UInt8} (h : hexByte a = hexByte b) : a = b := by
  obtain ⟨hhigh,hlow⟩ : Nat.digitChar (a.toNat / 16) = Nat.digitChar (b.toNat / 16) ∧
      Nat.digitChar (a.toNat % 16) = Nat.digitChar (b.toNat % 16) := by
    simpa [hexByte] using h
  have ha := a.toNat_lt
  have hb := b.toNat_lt
  have hdiv := congrArg Fin.val (digitChar_injective ⟨a.toNat / 16,by omega⟩
    ⟨b.toNat / 16,by omega⟩ hhigh)
  have hmod := congrArg Fin.val (digitChar_injective ⟨a.toNat % 16,by omega⟩
    ⟨b.toNat % 16,by omega⟩ hlow)
  apply UInt8.toNat_inj.mp
  dsimp only at hdiv hmod
  omega

theorem hexBytes_injective : ∀ {a b : Bytes}, a.flatMap hexByte = b.flatMap hexByte → a = b
  | [],[],_ => rfl
  | [],_ :: _,h => by cases h
  | _ :: _,[],h => by cases h
  | x :: a,y :: b,h => by
    obtain ⟨hxy,hab⟩ := List.append_inj h rfl
    rw [hexByte_injective hxy,hexBytes_injective hab]

theorem sha256Hex_injective {crates : Crates} (hash : Function.Injective crates.sha256)
    {a b : Bytes} (h : sha256Hex crates a = sha256Hex crates b) : a = b :=
  hash (hexBytes_injective (String.ofList_inj.mp h))

end Hex

section Files

structure CacheGet where
  identity : String
  ttl : Nat
  now : Nat

structure CachePut where
  identity : String
  url : String
  bytes : Bytes
  now : Nat
  now_lt : now < 2 ^ 64

def CachePut.info (crates : Crates) (put : CachePut) : CacheMeta :=
  ⟨put.identity,put.url,put.now,sha256Hex crates put.bytes⟩

structure CacheFiles where
  data : String → Option Bytes
  info : String → Option Bytes

inductive Verdict where
  | missing
  | crossed
  | serves (entry : CacheEntry)

variable (crates : Crates)

def CacheFiles.judge (files : CacheFiles) (get : CacheGet) (bytes : Bytes) : Verdict :=
  match files.info (cacheKey crates get.identity) with
  | none => .missing
  | some text =>
    match CacheMeta.fromSlice crates text with
    | .error _ => .missing
    | .ok info =>
      if info.identity ≠ get.identity ∨ sha256Hex crates bytes ≠ info.sha256 then .crossed
      else .serves ⟨bytes,info,isFresh get.ttl get.now info.fetchedAt⟩

end Files

section Steps

inductive CacheTask where
  | idle
  | readData (get : CacheGet)
  | readInfo (get : CacheGet) (bytes : Bytes)
  | dropData (get : CacheGet)
  | dropInfo (get : CacheGet)
  | writeData (put : CachePut)
  | writeInfo (put : CachePut)
  | findData (identity : String)
  | evictData (identity : String)
  | findInfo (identity : String)
  | evictInfo (identity : String)

def CacheTask.starts : CacheTask → Bool
  | .readData _ | .writeData _ | .findData _ => true
  | _ => false

-- Bookkeeping the source does not keep: what a `put` has written whole and what `get` returned.
structure CacheRun (ι : Type) where
  files : CacheFiles
  task : ι → CacheTask
  stored : List (String × Bytes)
  answers : List (CacheGet × Option CacheEntry)

variable {ι : Type} [DecidableEq ι]

def CacheRun.goto (s : CacheRun ι) (p : ι) (task : CacheTask) : CacheRun ι :=
  { s with task := Function.update s.task p task }

def CacheRun.answer (s : CacheRun ι) (p : ι) (get : CacheGet) (entry : Option CacheEntry) :
    CacheRun ι :=
  { s.goto p .idle with answers := s.answers ++ [(get,entry)] }

def CacheRun.setData (s : CacheRun ι) (key : String) (content : Option Bytes) : CacheRun ι :=
  { s with files := { s.files with data := Function.update s.files.data key content } }

def CacheRun.setInfo (s : CacheRun ι) (key : String) (content : Option Bytes) : CacheRun ι :=
  { s with files := { s.files with info := Function.update s.files.info key content } }

def CacheRun.judged (crates : Crates) (s : CacheRun ι) (p : ι) (get : CacheGet) (bytes : Bytes) :
    CacheRun ι :=
  match s.files.judge crates get bytes with
  | .missing => s.answer p get none
  | .crossed => s.goto p (.dropData get)
  | .serves entry => s.answer p get (some entry)

-- A file under writing shows some prefix of the content, a written one all of it; a file that
-- another process removed meanwhile takes the writes with it.
def Shows (old : Option Bytes) (content : Bytes) (new : Option Bytes) : Prop :=
  new = old ∨ ∃ n, new = some (content.take n)

def Wrote (old : Option Bytes) (content : Bytes) (new : Option Bytes) : Prop :=
  new = old ∨ new = some content

inductive CacheStep (crates : Crates) : CacheRun ι → CacheRun ι → Prop
  | start (s : CacheRun ι) (p : ι) (task : CacheTask) (idle : s.task p = .idle)
      (starts : task.starts = true) : CacheStep crates s (s.goto p task)
  | stop (s : CacheRun ι) (p : ι) : CacheStep crates s (s.goto p .idle)
  | crash (s : CacheRun ι) : CacheStep crates s { s with task := fun _ => .idle }
  | noData (s : CacheRun ι) (p : ι) (get : CacheGet) (now : s.task p = .readData get)
      (absent : s.files.data (cacheKey crates get.identity) = none) :
      CacheStep crates s (s.answer p get none)
  | readData (s : CacheRun ι) (p : ι) (get : CacheGet) (bytes : Bytes)
      (now : s.task p = .readData get)
      (there : s.files.data (cacheKey crates get.identity) = some bytes) :
      CacheStep crates s (s.goto p (.readInfo get bytes))
  | readInfo (s : CacheRun ι) (p : ι) (get : CacheGet) (bytes : Bytes)
      (now : s.task p = .readInfo get bytes) : CacheStep crates s (s.judged crates p get bytes)
  | dropData (s : CacheRun ι) (p : ι) (get : CacheGet) (left : Option Bytes)
      (now : s.task p = .dropData get)
      (removed : left = none ∨ left = s.files.data (cacheKey crates get.identity)) :
      CacheStep crates s
        ((s.setData (cacheKey crates get.identity) left).goto p (.dropInfo get))
  | dropInfo (s : CacheRun ι) (p : ι) (get : CacheGet) (left : Option Bytes)
      (now : s.task p = .dropInfo get)
      (removed : left = none ∨ left = s.files.info (cacheKey crates get.identity)) :
      CacheStep crates s
        ((s.setInfo (cacheKey crates get.identity) left).answer p get none)
  | writeData (s : CacheRun ι) (p : ι) (put : CachePut) (new : Option Bytes)
      (now : s.task p = .writeData put)
      (shows : Shows (s.files.data (cacheKey crates put.identity)) put.bytes new) :
      CacheStep crates s (s.setData (cacheKey crates put.identity) new)
  | wroteData (s : CacheRun ι) (p : ι) (put : CachePut) (new : Option Bytes)
      (now : s.task p = .writeData put)
      (wrote : Wrote (s.files.data (cacheKey crates put.identity)) put.bytes new) :
      CacheStep crates s
        { (s.setData (cacheKey crates put.identity) new).goto p (.writeInfo put) with
          stored := s.stored ++ [(put.identity,put.bytes)] }
  | writeInfo (s : CacheRun ι) (p : ι) (put : CachePut) (new : Option Bytes)
      (now : s.task p = .writeInfo put)
      (shows : Shows (s.files.info (cacheKey crates put.identity)) (put.info crates).toBytes new) :
      CacheStep crates s (s.setInfo (cacheKey crates put.identity) new)
  | wroteInfo (s : CacheRun ι) (p : ι) (put : CachePut) (new : Option Bytes)
      (now : s.task p = .writeInfo put)
      (wrote : Wrote (s.files.info (cacheKey crates put.identity)) (put.info crates).toBytes new) :
      CacheStep crates s ((s.setInfo (cacheKey crates put.identity) new).goto p .idle)
  | findData (s : CacheRun ι) (p : ι) (identity : String) (now : s.task p = .findData identity) :
      CacheStep crates s (s.goto p
        (if (s.files.data (cacheKey crates identity)).isSome then .evictData identity
        else .findInfo identity))
  | evictData (s : CacheRun ι) (p : ι) (identity : String) (now : s.task p = .evictData identity) :
      CacheStep crates s ((s.setData (cacheKey crates identity) none).goto p
        (if (s.files.data (cacheKey crates identity)).isSome then .findInfo identity else .idle))
  | findInfo (s : CacheRun ι) (p : ι) (identity : String) (now : s.task p = .findInfo identity) :
      CacheStep crates s (s.goto p
        (if (s.files.info (cacheKey crates identity)).isSome then .evictInfo identity else .idle))
  | evictInfo (s : CacheRun ι) (p : ι) (identity : String) (now : s.task p = .evictInfo identity) :
      CacheStep crates s ((s.setInfo (cacheKey crates identity) none).goto p .idle)

def emptyFiles : CacheFiles := ⟨fun _ => none,fun _ => none⟩

def cacheSystem (crates : Crates) (ι : Type) [DecidableEq ι] : Transition.System (CacheRun ι) :=
  ⟨fun s => s = ⟨emptyFiles,fun _ => .idle,[],[]⟩,CacheStep crates⟩

end Steps

section Sound

variable {crates : Crates} {ι : Type}

structure Described (crates : Crates) (s : CacheRun ι) : Prop where
  infos : ∀ key text, s.files.info key = some text → ∃ put : CachePut, ∃ n,
    (put.identity,put.bytes) ∈ s.stored ∧ text = (put.info crates).toBytes.take n
  writers : ∀ p put, s.task p = .writeInfo put → (put.identity,put.bytes) ∈ s.stored
  answered : ∀ get entry, (get,some entry) ∈ s.answers → (get.identity,entry.bytes) ∈ s.stored

variable [DecidableEq ι] {s t : CacheRun ι} {f64 : List Char → Option String}

theorem Described.goto (h : Described crates s) (p : ι) {task : CacheTask}
    (hw : ∀ put, task = .writeInfo put → (put.identity,put.bytes) ∈ s.stored) :
    Described crates (s.goto p task) where
  infos := h.infos
  writers := by
    intro q put hq
    rcases eq_or_ne q p with rfl | hne
    · exact hw put (by simpa [CacheRun.goto] using hq)
    · exact h.writers q put (by simpa [CacheRun.goto,hne] using hq)
  answered := h.answered

theorem Described.answer (h : Described crates s) (p : ι) (get : CacheGet)
    {entry : Option CacheEntry}
    (ha : ∀ e, entry = some e → (get.identity,e.bytes) ∈ s.stored) :
    Described crates (s.answer p get entry) where
  infos := h.infos
  writers := (h.goto p (by rintro put ⟨⟩)).writers
  answered := by
    intro get' e he
    rcases List.mem_append.mp he with he | he
    · exact h.answered get' e he
    · obtain ⟨rfl,rfl⟩ := Prod.mk.inj (List.mem_singleton.mp he)
      exact ha e rfl

omit [DecidableEq ι] in
theorem Described.setData (h : Described crates s) (key : String) (content : Option Bytes) :
    Described crates (s.setData key content) :=
  ⟨h.infos,h.writers,h.answered⟩

omit [DecidableEq ι] in
theorem Described.setInfo (h : Described crates s) (key : String) {content : Option Bytes}
    (hc : ∀ text, content = some text → ∃ put : CachePut, ∃ n,
      (put.identity,put.bytes) ∈ s.stored ∧ text = (put.info crates).toBytes.take n) :
    Described crates (s.setInfo key content) where
  infos := by
    intro k text hk
    rcases eq_or_ne k key with rfl | hne
    · exact hc text (by simpa [CacheRun.setInfo] using hk)
    · exact h.infos k text (by simpa [CacheRun.setInfo,hne] using hk)
  writers := h.writers
  answered := h.answered

omit [DecidableEq ι] in
theorem Described.store (h : Described crates s) (more : List (String × Bytes)) :
    Described crates { s with stored := s.stored ++ more } where
  infos := by
    intro key text hk
    obtain ⟨put,n,hput,htext⟩ := h.infos key text hk
    exact ⟨put,n,List.mem_append_left _ hput,htext⟩
  writers := fun p put hp => List.mem_append_left _ (h.writers p put hp)
  answered := fun get e he => List.mem_append_left _ (h.answered get e he)

omit [DecidableEq ι] in
theorem Described.served (h : Described crates s) (serde : Serde.Tokenises crates f64)
    (hash : Function.Injective crates.sha256) {get : CacheGet} {bytes : Bytes} {entry : CacheEntry}
    (hj : s.files.judge crates get bytes = .serves entry) :
    (get.identity,entry.bytes) ∈ s.stored := by
  unfold CacheFiles.judge at hj
  cases hinfo : s.files.info (cacheKey crates get.identity) with
  | none => simp [hinfo] at hj
  | some text =>
    simp only [hinfo] at hj
    cases hread : CacheMeta.fromSlice crates text with
    | error e => simp [hread] at hj
    | ok info =>
      simp only [hread] at hj
      split at hj
      · cases hj
      · rename_i hgood
        cases hj
        obtain ⟨hidentity,hdigest⟩ := not_or.mp hgood
        obtain ⟨put,n,hput,rfl⟩ := h.infos _ text hinfo
        obtain rfl := CacheMeta.cut serde put.now_lt hread
        have hbytes : bytes = put.bytes := sha256Hex_injective hash (not_not.mp hdigest)
        have hsame : put.identity = get.identity := not_not.mp hidentity
        rw [hbytes,← hsame]
        exact hput

omit [DecidableEq ι] in
theorem Described.shown (h : Described crates s) {put : CachePut} {key : String}
    {new : Option Bytes} (hput : (put.identity,put.bytes) ∈ s.stored)
    (shows : Shows (s.files.info key) (put.info crates).toBytes new) :
    ∀ text, new = some text → ∃ put : CachePut, ∃ n,
      (put.identity,put.bytes) ∈ s.stored ∧ text = (put.info crates).toBytes.take n := by
  rintro text rfl
  rcases shows with hold | ⟨n,hnew⟩
  · exact h.infos key text hold.symm
  · exact ⟨put,n,hput,Option.some.inj hnew⟩

theorem Wrote.shows {old new : Option Bytes} {content : Bytes} (h : Wrote old content new) :
    Shows old content new := by
  rcases h with h | h
  · exact .inl h
  · exact .inr ⟨content.length,by rw [h,List.take_length]⟩

theorem Described.step (h : Described crates s) (serde : Serde.Tokenises crates f64)
    (hash : Function.Injective crates.sha256) (hstep : CacheStep crates s t) :
    Described crates t := by
  cases hstep with
  | start p task idle starts =>
    refine h.goto p ?_
    rintro put rfl
    cases starts
  | stop p => exact h.goto p (by rintro put ⟨⟩)
  | crash => exact ⟨h.infos,by rintro p put ⟨⟩,h.answered⟩
  | noData p get => exact h.answer p get (by rintro e ⟨⟩)
  | readData p get bytes => exact h.goto p (by rintro put ⟨⟩)
  | readInfo p get bytes =>
    unfold CacheRun.judged
    split
    · exact h.answer p get (by rintro e ⟨⟩)
    · exact h.goto p (by rintro put ⟨⟩)
    · rename_i entry hj
      refine h.answer p get ?_
      rintro e ⟨⟩
      exact h.served serde hash hj
  | dropData p get left now removed => exact (h.setData _ _).goto p (by rintro put ⟨⟩)
  | dropInfo p get left now removed =>
    refine (h.setInfo _ ?_).answer p get (by rintro e ⟨⟩)
    rintro text rfl
    rcases removed with hnone | hold
    · cases hnone
    · exact h.infos _ text hold.symm
  | writeData p put new now shows => exact h.setData _ _
  | wroteData p put new now wrote =>
    refine ((h.setData _ _).store _).goto p ?_
    rintro put' ⟨⟩
    exact List.mem_append_right _ (List.mem_singleton_self _)
  | writeInfo p put new now shows => exact h.setInfo _ (h.shown (h.writers p put now) shows)
  | wroteInfo p put new now wrote =>
    exact (h.setInfo _ (h.shown (h.writers p put now) wrote.shows)).goto p (by rintro put ⟨⟩)
  | findData p identity => exact h.goto p (by intro put; split <;> rintro ⟨⟩)
  | evictData p identity => exact (h.setData _ _).goto p (by intro put; split <;> rintro ⟨⟩)
  | findInfo p identity => exact h.goto p (by intro put; split <;> rintro ⟨⟩)
  | evictInfo p identity =>
    exact (h.setInfo _ (by rintro text ⟨⟩)).goto p (by rintro put ⟨⟩)

theorem described_reachable (serde : Serde.Tokenises crates f64)
    (hash : Function.Injective crates.sha256) (h : (cacheSystem crates ι).Reachable s) :
    Described crates s := by
  refine Transition.System.invariant (Described crates) ?_ ?_ h
  · rintro s rfl
    exact ⟨by rintro key text ⟨⟩,by rintro p put ⟨⟩,by rintro get e ⟨⟩⟩
  · intro s t _ hs hst
    exact hs.step serde hash hst

theorem cache_serves_stored (crates : Crates) (f64 : List Char → Option String)
    (ι : Type) [DecidableEq ι] (s : CacheRun ι) (get : CacheGet) (entry : CacheEntry)
    (serde : Serde.Tokenises crates f64) (hash : Function.Injective crates.sha256)
    (h : (cacheSystem crates ι).Reachable s) (answered : (get,some entry) ∈ s.answers) :
    (get.identity,entry.bytes) ∈ s.stored :=
  (described_reachable serde hash h).answered get entry answered

theorem judge_serves {files : CacheFiles} {get : CacheGet} {bytes text : Bytes} {info : CacheMeta}
    (hinfo : files.info (cacheKey crates get.identity) = some text)
    (hread : CacheMeta.fromSlice crates text = .ok info) (hidentity : info.identity = get.identity)
    (hdigest : sha256Hex crates bytes = info.sha256) :
    files.judge crates get bytes = .serves ⟨bytes,info,isFresh get.ttl get.now info.fetchedAt⟩ := by
  unfold CacheFiles.judge
  simp [hinfo,hread,hidentity,hdigest]

def CachePut.entry (crates : Crates) (put : CachePut) (get : CacheGet) : CacheEntry :=
  ⟨put.bytes,put.info crates,isFresh get.ttl get.now put.now⟩

theorem put_then_get (serde : Serde.Tokenises crates f64) (s : CacheRun ι) (put : CachePut)
    (get : CacheGet) (same : put.identity = get.identity) {p q : ι} (hp : s.task p = .idle)
    (hq : s.task q = .idle) (hne : p ≠ q) :
    ∃ t, (cacheSystem crates ι).Path s t ∧ (get,some (put.entry crates get)) ∈ t.answers := by
  let key := cacheKey crates put.identity
  let text := (put.info crates).toBytes
  let writing := s.goto p (.writeData put)
  let written : CacheRun ι := { (writing.setData key (some put.bytes)).goto p (.writeInfo put) with
    stored := s.stored ++ [(put.identity,put.bytes)] }
  let done := (written.setInfo key (some text)).goto p .idle
  let reading := done.goto q (.readData get)
  let read := reading.goto q (.readInfo get put.bytes)
  have hkey : cacheKey crates get.identity = key := by rw [← same]
  have hwriting : writing.task p = .writeData put := by simp [writing,CacheRun.goto]
  have hwritten : written.task p = .writeInfo put := by simp [written,CacheRun.goto]
  have hidle : done.task q = .idle := by
    simp [done,written,writing,CacheRun.goto,CacheRun.setInfo,CacheRun.setData,hne.symm,hq]
  have hreading : reading.task q = .readData get := by simp [reading,CacheRun.goto]
  have hread : read.task q = .readInfo get put.bytes := by simp [read,CacheRun.goto]
  have hdata : reading.files.data (cacheKey crates get.identity) = some put.bytes := by
    rw [hkey]
    simp [reading,done,written,CacheRun.goto,CacheRun.setInfo,CacheRun.setData]
  have hinfo : read.files.info (cacheKey crates get.identity) = some text := by
    rw [hkey]
    simp [read,reading,done,CacheRun.goto,CacheRun.setInfo]
  have hjudge := judge_serves hinfo (CacheMeta.reads serde put.now_lt) same rfl
  refine ⟨read.judged crates q get put.bytes,?_,?_⟩
  · exact .cons (.start s p (.writeData put) hp rfl) <|
      .cons (.wroteData writing p put (some put.bytes) hwriting (.inr rfl)) <|
      .cons (.wroteInfo written p put (some text) hwritten (.inr rfl)) <|
      .cons (.start done q (.readData get) hidle rfl) <|
      .cons (.readData reading q get put.bytes hreading hdata) <|
      .single (.readInfo read q get put.bytes hread)
  · unfold CacheRun.judged
    rw [hjudge]
    exact List.mem_append_right _ (List.mem_singleton_self _)

end Sound

section Run

def sampleName : Bytes := Text.bytes "murl://a.com/x"

def bytesDigest : Bytes :=
  [3,144,88,198,242,192,203,73,44,83,59,10,77,20,239,119,204,15,120,171,204,206,213,40,125,132,
   161,162,1,28,251,129]

def nameDigest : Bytes :=
  [187,57,204,125,26,191,94,87,21,3,23,23,144,16,216,209,234,234,69,138,113,103,236,137,117,177,
   228,197,253,109,167,250]

def digest (b : Bytes) : Bytes :=
  if b = [1,2,3] then bytesDigest
  else if b = sampleName then nameDigest
  else List.replicate 33 0 ++ b

theorem digest_long {b : Bytes} (h : b ≠ [1,2,3]) (h' : b ≠ sampleName) :
    digest b = List.replicate 33 0 ++ b := by
  rw [digest,if_neg h,if_neg h']

theorem digest_cases (b : Bytes) :
    (b = [1,2,3] ∧ digest b = bytesDigest) ∨ (b = sampleName ∧ digest b = nameDigest) ∨
      digest b = List.replicate 33 0 ++ b := by
  rcases eq_or_ne b [1,2,3] with rfl | h
  · exact .inl ⟨rfl,rfl⟩
  · rcases eq_or_ne b sampleName with rfl | h'
    · exact .inr (.inl ⟨rfl,by rw [digest,if_neg h,if_pos rfl]⟩)
    · exact .inr (.inr (digest_long h h'))

theorem digest_injective : Function.Injective digest := by
  have hlong : ∀ (d b : Bytes), d.length = 32 → d ≠ List.replicate 33 0 ++ b := by
    intro d b hd heq
    rw [heq,List.length_append,List.length_replicate] at hd
    omega
  have hdistinct : bytesDigest ≠ nameDigest := by decide
  intro a b h
  rcases digest_cases a with ⟨rfl,ha⟩ | ⟨rfl,ha⟩ | ha <;>
    rcases digest_cases b with ⟨rfl,hb⟩ | ⟨rfl,hb⟩ | hb <;>
    have heq := ha.symm.trans (h.trans hb)
  · rfl
  · exact absurd heq hdistinct
  · exact absurd heq (hlong _ _ rfl)
  · exact absurd heq.symm hdistinct
  · rfl
  · exact absurd heq (hlong _ _ rfl)
  · exact absurd heq.symm (hlong _ _ rfl)
  · exact absurd heq.symm (hlong _ _ rfl)
  · exact List.append_cancel_left heq

def digestingCrates : Crates :=
  Serde.tokenising Serde.shown { Serde.bareCrates with sha256 := digest }

def samplePut : CachePut := ⟨"murl://a.com/x","https://a.com/x",[1,2,3],7,by decide⟩

def sampleGet : CacheGet := ⟨"murl://a.com/x",10,8⟩

theorem sample_put_then_get : ∃ s : CacheRun Bool, (cacheSystem digestingCrates Bool).Reachable s ∧
    (sampleGet,some (samplePut.entry digestingCrates sampleGet)) ∈ s.answers ∧
      (sampleGet.identity,samplePut.bytes) ∈ s.stored := by
  have serde : Serde.Tokenises digestingCrates Serde.shown := Serde.tokenising_tokenises _ _
  obtain ⟨s,hs,hmem⟩ := put_then_get serde ⟨emptyFiles,fun _ => .idle,[],[]⟩ samplePut sampleGet rfl
    (rfl : CacheTask.idle = .idle) (rfl : CacheTask.idle = .idle) (by decide : false ≠ true)
  have hreach : (cacheSystem digestingCrates Bool).Reachable s := ⟨_,rfl,hs⟩
  refine ⟨s,hreach,hmem,?_⟩
  exact cache_serves_stored digestingCrates Serde.shown Bool s sampleGet _ serde digest_injective
    hreach hmem

end Run

end MurlSystem
