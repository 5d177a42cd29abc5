import MurlSystem.Bundling.Checked
import MurlSystem.Canonical.Readable
import MurlSystem.Daemon.Protocol
import MurlSystem.Trusting.Signed

namespace MurlSystem

section Plain

mutual

def plainValue : Value → Value
  | .array items => .array (plainItems items)
  | .object members => .object (plainMembers [] members)
  | v => v

def plainItems : List Value → List Value
  | [] => []
  | v :: rest => plainValue v :: plainItems rest

def plainMembers (out : List (String × Value)) : List (String × Value) → List (String × Value)
  | [] => out
  | (key,value) :: rest => plainMembers (putMember key (plainValue value) out) rest

end

def serdeValue (crates : Crates) (b : Bytes) : Except String Value :=
  (crates.serdeJson b).map plainValue

def DistinctNames (v : Value) : Prop := ∀ ms ∈ Serde.objects v, (ms.map Prod.fst).Nodup

def ReadsStrictly (crates : Crates) (b : Bytes) (v : Value) : Prop :=
  serdeValue crates b = .ok v ∧ ∃ tokens, crates.serdeJson b = .ok tokens ∧ DistinctNames tokens

theorem put_fresh {k : String} {v : Value} {out : List (String × Value)} (h : k ∉ out.map Prod.fst) :
    putMember k v out = insertMember k v out := by
  rw [putMember,List.filter_eq_self.mpr]
  intro m hm
  exact bne_iff_ne.mpr fun he => h (List.mem_map.mpr ⟨m,hm,he⟩)

mutual

theorem noDup_plain : ∀ {t v : Value}, noDup t = .ok v ↔ DistinctNames t ∧ v = plainValue t
  | .null,v => by simp [noDup,DistinctNames,Serde.objects,plainValue,eq_comm]
  | .bool b,v => by simp [noDup,DistinctNames,Serde.objects,plainValue,eq_comm]
  | .number n,v => by simp [noDup,DistinctNames,Serde.objects,plainValue,eq_comm]
  | .string s,v => by simp [noDup,DistinctNames,Serde.objects,plainValue,eq_comm]
  | .array items,v => by
    have hitems := @noDupSeq_plain items
    simp only [noDup,Fallible.bind_ok,Fallible.pure_ok,hitems,DistinctNames,Serde.objects,plainValue]
    constructor
    · rintro ⟨out,⟨hdistinct,rfl⟩,rfl⟩
      exact ⟨hdistinct,rfl⟩
    · rintro ⟨hdistinct,rfl⟩
      exact ⟨_,⟨hdistinct,rfl⟩,rfl⟩
  | .object members,v => by
    have hmembers := @noDupMap_plain [] members
    simp only [noDup,Fallible.bind_ok,Fallible.pure_ok,hmembers List.nodup_nil,DistinctNames,
      Serde.objects,plainValue,List.map_nil,List.nil_append,List.forall_mem_cons]
    constructor
    · rintro ⟨out,⟨hnodup,hdistinct,rfl⟩,rfl⟩
      exact ⟨⟨hnodup,hdistinct⟩,rfl⟩
    · rintro ⟨⟨hnodup,hdistinct⟩,rfl⟩
      exact ⟨_,⟨hnodup,hdistinct,rfl⟩,rfl⟩

theorem noDupSeq_plain : ∀ {items out : List Value}, noDupSeq items = .ok out ↔
    (∀ ms ∈ Serde.objectsItems items, (ms.map Prod.fst).Nodup) ∧ out = plainItems items
  | [],out => by simp [noDupSeq,Serde.objectsItems,plainItems,eq_comm]
  | t :: rest,out => by
    have ht := @noDup_plain t
    have hrest := @noDupSeq_plain rest
    simp only [Serde.noDupSeq_cons,ht,hrest,Serde.objectsItems,plainItems,List.forall_mem_append]
    constructor
    · rintro ⟨v,⟨hv,rfl⟩,vs,⟨hvs,rfl⟩,rfl⟩
      exact ⟨⟨hv,hvs⟩,rfl⟩
    · rintro ⟨⟨hv,hvs⟩,rfl⟩
      exact ⟨_,⟨hv,rfl⟩,_,⟨hvs,rfl⟩,rfl⟩

theorem noDupMap_plain : ∀ {out members res : List (String × Value)}, (out.map Prod.fst).Nodup →
    (noDupMap out members = .ok res ↔ (out.map Prod.fst ++ members.map Prod.fst).Nodup ∧
      (∀ ms ∈ Serde.objectsMembers members, (ms.map Prod.fst).Nodup) ∧
        res = plainMembers out members)
  | out,[],res,hout => by
    simp [noDupMap,Serde.objectsMembers,plainMembers,eq_comm,hout]
  | out,(k,t) :: rest,res,hout => by
    have ht := @noDup_plain t
    have hnodup : (out.map Prod.fst ++ k :: rest.map Prod.fst).Nodup ↔ k ∉ out.map Prod.fst ∧
        ((insertMember k (plainValue t) out).map Prod.fst ++ rest.map Prod.fst).Nodup := by
      rw [Serde.insertMember_append]
      exact ⟨fun h => ⟨fun hmem => (List.nodup_append.mp h).2.2 k hmem k (by simp) rfl,h⟩,
        fun h => h.2⟩
    rw [Serde.noDupMap_cons,List.map_cons,hnodup]
    simp only [Serde.objectsMembers,List.forall_mem_append,plainMembers]
    constructor
    · rintro ⟨v,hv,hk,h⟩
      obtain ⟨hdistinct,rfl⟩ := ht.mp hv
      obtain ⟨hall,hrest,rfl⟩ := (noDupMap_plain (Serde.insertMember_nodup hout hk)).mp h
      exact ⟨⟨hk,hall⟩,⟨hdistinct,hrest⟩,by rw [put_fresh hk]⟩
    · rintro ⟨⟨hk,hall⟩,⟨hdistinct,hrest⟩,rfl⟩
      refine ⟨plainValue t,ht.mpr ⟨hdistinct,rfl⟩,hk,?_⟩
      rw [put_fresh hk]
      exact (noDupMap_plain (Serde.insertMember_nodup hout hk)).mpr ⟨hall,hrest,rfl⟩

end

end Plain

section Readers

variable {crates : Crates} {b : Bytes} {v : Value}

theorem strict_iff : fromSliceStrict crates b = .ok v ↔ ReadsStrictly crates b v := by
  simp only [fromSliceStrict,Fallible.bind_ok,noDup_plain,ReadsStrictly,serdeValue,Fallible.map_ok]
  constructor
  · rintro ⟨tokens,htokens,hdistinct,rfl⟩
    exact ⟨⟨tokens,htokens,rfl⟩,tokens,htokens,hdistinct⟩
  · rintro ⟨⟨tokens,htokens,rfl⟩,tokens',htokens',hdistinct⟩
    obtain rfl := Except.ok.inj (htokens.symm.trans htokens')
    exact ⟨tokens,htokens,hdistinct,rfl⟩

theorem manifest_strict {limits : Limits} {m : Manifest}
    (h : Manifest.fromSlice crates b limits = .ok m) : ReadsStrictly crates b m.raw :=
  strict_iff.mp (Manifest.fromSlice_iff.mp h).2.1

theorem bundle_strict {limits : Limits} {bundle : Bundle}
    (h : Bundle.fromSlice crates limits b = .ok bundle) :
    ∃ v, ReadsStrictly crates b v ∧ Bundle.fromValue v = .ok bundle := by
  obtain ⟨-,⟨v,hv,hbundle⟩,-⟩ := fromSlice_iff.mp h
  exact ⟨v,strict_iff.mp hv,hbundle⟩

theorem request_strict {line : String} {request : Protocol.Request}
    (h : Protocol.parseRequest crates line = .ok request) :
    ∃ v, ReadsStrictly crates (Text.bytes line) v ∧ Protocol.Request.fromValue v = .ok request := by
  obtain ⟨-,v,hv,hrequest,-⟩ := Protocol.parseRequest_ok.mp h
  exact ⟨v,strict_iff.mp hv,hrequest⟩

theorem strict_reading (crates : Crates) :
    (∀ b v, fromSliceStrict crates b = .ok v ↔ serdeValue crates b = .ok v ∧
      ∃ tokens, crates.serdeJson b = .ok tokens ∧ DistinctNames tokens) ∧
    (∀ b limits m, Manifest.fromSlice crates b limits = .ok m → ReadsStrictly crates b m.raw) ∧
    (∀ b limits bundle, Bundle.fromSlice crates limits b = .ok bundle →
      ∃ v, ReadsStrictly crates b v ∧ Bundle.fromValue v = .ok bundle) ∧
    ∀ line request, Protocol.parseRequest crates line = .ok request →
      ∃ v, ReadsStrictly crates (Text.bytes line) v ∧ Protocol.Request.fromValue v = .ok request :=
  ⟨fun _ _ => strict_iff,fun _ _ _ => manifest_strict,fun _ _ _ => bundle_strict,
    fun _ _ => request_strict⟩

end Readers

end MurlSystem
