import MurlSystem.Caching.Torn
import MurlSystem.Canonical.Readable
import MurlSystem.Core.TrustFile

namespace MurlSystem

section Text

def PinnedKey.toValue (key : PinnedKey) : Value :=
  .object ([("keyId",.string key.keyId),("publicKey",.string key.publicKey)] ++
    key.addedAt.toList.map fun n => ("addedAt",.number (.int n)))

def entryValue (entry : String × List PinnedKey) : String × Value :=
  (entry.1,.array (entry.2.map PinnedKey.toValue))

def TrustDoc.toValue (doc : TrustDoc) : Value :=
  .object [("authorities",.object (doc.store.authorities.map entryValue))]

def TrustDoc.toBytes (doc : TrustDoc) : Bytes := Text.bytes (pretty 0 doc.toValue)

def pinnedMembers : List String := ["keyId","publicKey","addedAt"]

def PinnedKey.fromValue (v : Value) : Except String PinnedKey := do
  uniqueFields pinnedMembers v
  let field ← structFields pinnedMembers v
  let keyId ← requiredField field readString "keyId"
  let publicKey ← requiredField field readString "publicKey"
  let addedAt ← defaultedField field (readOption readU64) none "addedAt"
  return ⟨keyId,publicKey,addedAt⟩

def TrustDoc.insert (doc : TrustDoc) (authority : String) (keys : List PinnedKey) : TrustDoc :=
  ⟨⟨changeEntry authority (fun _ => keys) doc.store.authorities⟩,doc.ascending.changeEntry⟩

def readEntry (doc : TrustDoc) (member : String × Value) : Except String TrustDoc := do
  let keys ← readSeq PinnedKey.fromValue member.2
  return doc.insert member.1 keys

def readAuthorities : Value → Except String TrustDoc
  | .object members => members.foldlM readEntry .empty
  | _ => .error "invalid type, expected a map"

def TrustDoc.fromValue (v : Value) : Except String TrustDoc := do
  uniqueFields ["authorities"] v
  let field ← structFields ["authorities"] v
  defaultedField field readAuthorities .empty "authorities"

def TrustDoc.fromSlice (crates : Crates) (b : Bytes) : Except String TrustDoc := do
  let v ← crates.serdeJson b
  TrustDoc.fromValue v

def TrustFile.ofRead (crates : Crates) (path : String) : FileRead → TrustFile
  | .notFound => .missing
  | .failed why => .unreadable why
  | .bytes b =>
    match TrustDoc.fromSlice crates b with
    | .ok doc => .holds doc
    | .error why => .malformed path why

def TrustDoc.Timely (doc : TrustDoc) : Prop :=
  ∀ entry ∈ doc.store.authorities, ∀ key ∈ entry.2, ∀ n ∈ key.addedAt, n < 2 ^ 64

end Text

section Reading

variable {crates : Crates} {f64 : List Char → Option String} {doc : TrustDoc} {key : PinnedKey}

theorem fromValue_added (keyId publicKey : String) {n : Number} {i : Int} (h : n.asU64 = some i) :
    PinnedKey.fromValue (.object [("keyId",.string keyId),("publicKey",.string publicKey),
      ("addedAt",.number n)]) = .ok ⟨keyId,publicKey,some i.toNat⟩ := by
  have hread : readOption readU64 (.number n) = .ok (some i.toNat) := by
    rw [readOption,readU64_shown h]
    · rfl
    · rintro ⟨⟩
  simp only [PinnedKey.fromValue,Fallible.bind_ok,Fallible.pure_ok]
  exact ⟨_,rfl,_,rfl,keyId,rfl,publicKey,rfl,some i.toNat,hread,rfl⟩

theorem PinnedKey.fromValue_toValue (h : ∀ n ∈ key.addedAt, n < 2 ^ 64) :
    PinnedKey.fromValue key.toValue = .ok key := by
  obtain ⟨keyId,publicKey,addedAt⟩ := key
  cases addedAt with
  | none =>
    simp only [PinnedKey.fromValue,Fallible.bind_ok,Fallible.pure_ok]
    exact ⟨_,rfl,_,rfl,keyId,rfl,publicKey,rfl,none,rfl,rfl⟩
  | some n => exact fromValue_added keyId publicKey (asU64_int (h n rfl))

theorem changeEntry_last {authority : String} {f : List PinnedKey → List PinnedKey}
    {authorities : List (String × List PinnedKey)} (h : ∀ x ∈ authorities, x.1 < authority) :
    changeEntry authority f authorities = authorities ++ [(authority,f [])] := by
  induction authorities with
  | nil => rfl
  | cons x rest ih =>
    obtain ⟨a,keys⟩ := x
    obtain ⟨hless,hrest⟩ := List.forall_mem_cons.mp h
    have hne : authority ≠ a := fun heq => String.lt_irrefl a (heq ▸ hless)
    have hnot : ¬authority < a := String.lt_asymm hless
    rw [changeEntry,if_neg hne,if_neg hnot,ih hrest]
    rfl

theorem readEntry_last {entry : String × List PinnedKey}
    (hkeys : ∀ key ∈ entry.2, ∀ n ∈ key.addedAt, n < 2 ^ 64)
    (hlast : ∀ x ∈ doc.store.authorities, x.1 < entry.1) :
    ∃ doc', readEntry doc (entryValue entry) = .ok doc' ∧
      doc'.store.authorities = doc.store.authorities ++ [entry] := by
  have hseq : readSeq PinnedKey.fromValue (.array (entry.2.map PinnedKey.toValue)) =
      .ok entry.2 := by
    refine Fallible.mapM_ok.mpr (List.forall₂_map_left_iff.mpr ?_)
    exact List.forall₂_same.mpr fun key hkey => PinnedKey.fromValue_toValue (hkeys key hkey)
  refine ⟨doc.insert entry.1 entry.2,?_,changeEntry_last hlast⟩
  rw [readEntry,Fallible.bind_ok]
  exact ⟨entry.2,hseq,rfl⟩

theorem readEntries {entries : List (String × List PinnedKey)}
    (hkeys : ∀ entry ∈ entries, ∀ key ∈ entry.2, ∀ n ∈ key.addedAt, n < 2 ^ 64)
    (hascending : Ascending (doc.store.authorities ++ entries)) :
    ∃ doc', (entries.map entryValue).foldlM readEntry doc = .ok doc' ∧
      doc'.store.authorities = doc.store.authorities ++ entries := by
  induction entries generalizing doc with
  | nil => exact ⟨doc,rfl,(List.append_nil _).symm⟩
  | cons entry rest ih =>
    obtain ⟨hhead,htail⟩ := List.forall_mem_cons.mp hkeys
    have hlast : ∀ x ∈ doc.store.authorities, x.1 < entry.1 := fun x hx =>
      (List.pairwise_append.mp hascending).2.2 x hx entry List.mem_cons_self
    obtain ⟨doc',hdoc,hauthorities⟩ := readEntry_last hhead hlast
    have hmore : Ascending (doc'.store.authorities ++ rest) := by
      rw [hauthorities,List.append_assoc]
      exact hascending
    obtain ⟨doc'',hrest,hall⟩ := ih htail hmore
    refine ⟨doc'',?_,by rw [hall,hauthorities,List.append_assoc]; rfl⟩
    rw [List.map_cons,List.foldlM_cons,hdoc]
    exact hrest

theorem TrustDoc.ext_authorities {doc doc' : TrustDoc}
    (h : doc.store.authorities = doc'.store.authorities) : doc = doc' := by
  obtain ⟨⟨authorities⟩,hascending⟩ := doc
  obtain ⟨⟨authorities'⟩,hascending'⟩ := doc'
  obtain rfl : authorities = authorities' := h
  rfl

theorem TrustDoc.fromValue_toValue (h : doc.Timely) : TrustDoc.fromValue doc.toValue = .ok doc := by
  obtain ⟨doc',hread,hauthorities⟩ := @readEntries .empty doc.store.authorities h doc.ascending
  obtain rfl := TrustDoc.ext_authorities hauthorities
  simp only [TrustDoc.fromValue,Fallible.bind_ok]
  exact ⟨_,rfl,_,rfl,hread⟩

theorem PinnedKey.token (h : ∀ n ∈ key.addedAt, n < 2 ^ 64) (d : Nat) :
    Serde.Token (d + 1) key.toValue := by
  refine .object d _ fun m hm => ?_
  rcases List.mem_append.mp hm with hm | hm
  · simp only [List.mem_cons,List.not_mem_nil,or_false] at hm
    rcases hm with rfl | rfl
    · exact .string d _
    · exact .string d _
  · obtain ⟨n,hn,rfl⟩ := List.mem_map.mp hm
    have hsmall := h n (Option.mem_toList.mp hn)
    exact .int d _ (by omega) (by omega)

theorem TrustDoc.token (h : doc.Timely) : Serde.Token Serde.maxNesting doc.toValue := by
  refine .object 126 _ (List.forall_mem_singleton.mpr (.object 125 _ fun m hm => ?_))
  obtain ⟨entry,hentry,rfl⟩ := List.mem_map.mp hm
  refine .array 124 _ fun v hv => ?_
  obtain ⟨key,hkey,rfl⟩ := List.mem_map.mp hv
  exact key.token (h entry hentry key hkey) 123

theorem mem_numbersItems {n : Number} {items : List Value} (h : n ∈ Serde.numbersItems items) :
    ∃ v ∈ items, n ∈ Serde.numbers v := by
  induction items with
  | nil => cases h
  | cons v rest ih =>
    rcases List.mem_append.mp h with h | h
    · exact ⟨v,List.mem_cons_self,h⟩
    · obtain ⟨w,hw,hn⟩ := ih h
      exact ⟨w,List.mem_cons_of_mem _ hw,hn⟩

theorem mem_numbersMembers {n : Number} {members : List (String × Value)}
    (h : n ∈ Serde.numbersMembers members) : ∃ m ∈ members, n ∈ Serde.numbers m.2 := by
  rw [Serde.numbersMembers_eq] at h
  exact List.mem_flatMap.mp h

theorem PinnedKey.numbers {n : Number} (h : n ∈ Serde.numbers key.toValue) :
    ∃ i ∈ key.addedAt, n = .int (i : Nat) := by
  obtain ⟨m,hm,hn⟩ := mem_numbersMembers h
  rcases List.mem_append.mp hm with hm | hm
  · simp only [List.mem_cons,List.not_mem_nil,or_false] at hm
    rcases hm with rfl | rfl <;> cases hn
  · obtain ⟨i,hi,rfl⟩ := List.mem_map.mp hm
    exact ⟨i,Option.mem_toList.mp hi,List.mem_singleton.mp hn⟩

theorem TrustDoc.integral (h : doc.Timely) : Serde.Integral doc.toValue := by
  intro n hn
  obtain ⟨m,hm,hn⟩ := mem_numbersMembers hn
  obtain rfl := List.mem_singleton.mp hm
  obtain ⟨m,hm,hn⟩ := mem_numbersMembers hn
  obtain ⟨entry,hentry,rfl⟩ := List.mem_map.mp hm
  obtain ⟨v,hv,hn⟩ := mem_numbersItems hn
  obtain ⟨key,hkey,rfl⟩ := List.mem_map.mp hv
  obtain ⟨i,hi,rfl⟩ := PinnedKey.numbers hn
  rw [asU64_int (h entry hentry key hkey i hi)]
  exact .inr rfl

theorem TrustDoc.reads (serde : Serde.Tokenises crates f64) (h : doc.Timely) :
    TrustDoc.fromSlice crates doc.toBytes = .ok doc := by
  have htext : pretty 0 doc.toValue ++ "" = pretty 0 doc.toValue := String.append_empty
  have hread := @pretty_tokens f64 _ "" Rfc8259.blank_nil (TrustDoc.token h) (TrustDoc.integral h)
  rw [htext] at hread
  rw [TrustDoc.fromSlice,Fallible.bind_ok]
  exact ⟨doc.toValue,(serde _ _).mpr hread,TrustDoc.fromValue_toValue h⟩

end Reading

end MurlSystem
