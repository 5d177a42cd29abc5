import MurlSystem.Trusting.Revoked
import MurlSystem.Trusting.Saved
import MurlSystem.Trusting.Signed

namespace MurlSystem

section Operations

variable (crates : Crates)

def TrustDoc.perform (doc : TrustDoc) : TrustCall → Except Error TrustDoc
  | .add authority publicKeyB64 now => (doc.add crates authority publicKeyB64 now).map Prod.fst
  | .remove authority keyId => (doc.remove crates authority keyId).map Prod.fst

def performAll (calls : List TrustCall) : Except Error TrustDoc :=
  calls.foldlM (TrustDoc.perform crates) .empty

def TrustCall.verdict (call : TrustCall) (authority keyId : String) : Option Bool :=
  match call.check crates with
  | .ok edit => if edit.pair = (authority,keyId) then some edit.pins else none
  | .error _ => none

def lastSaid (calls : List TrustCall) (authority keyId : String) : Option Bool :=
  calls.foldl (fun said call => (call.verdict crates authority keyId).or said) none

variable {crates} {doc doc' : TrustDoc} {call : TrustCall} {calls : List TrustCall}

theorem perform_ok : doc.perform crates call = .ok doc' ↔
    ∃ edit, call.check crates = .ok edit ∧ edit.apply doc = doc' := by
  cases call with
  | add authority publicKeyB64 now =>
    simp only [TrustDoc.perform,TrustDoc.add,Fallible.map_ok,Fallible.bind_ok,Fallible.pure_ok]
    constructor
    · rintro ⟨_,⟨edit,hcheck,rfl⟩,rfl⟩
      exact ⟨edit,hcheck,rfl⟩
    · rintro ⟨edit,hcheck,rfl⟩
      exact ⟨_,⟨edit,hcheck,rfl⟩,rfl⟩
  | remove authority keyId =>
    simp only [TrustDoc.perform,TrustDoc.remove,Fallible.map_ok,Fallible.bind_ok,Fallible.pure_ok]
    constructor
    · rintro ⟨_,⟨edit,hcheck,rfl⟩,rfl⟩
      exact ⟨edit,hcheck,rfl⟩
    · rintro ⟨edit,hcheck,rfl⟩
      exact ⟨_,⟨edit,hcheck,rfl⟩,rfl⟩

theorem performAll_concat : performAll crates (calls ++ [call]) = .ok doc' ↔
    ∃ doc, performAll crates calls = .ok doc ∧ doc.perform crates call = .ok doc' := by
  rw [performAll,List.foldlM_append,Fallible.bind_ok]
  refine exists_congr fun doc => and_congr_right fun _ => ?_
  rw [List.foldlM_cons,Fallible.bind_ok]
  simp only [List.foldlM_nil,Fallible.pure_ok]
  constructor
  · rintro ⟨_,h,rfl⟩
    exact h
  · intro h
    exact ⟨_,h,rfl⟩

theorem performAll_induction {P : List TrustCall → TrustDoc → Prop} (start : P [] .empty)
    (step : ∀ calls call edit doc, P calls doc → call.check crates = .ok edit →
      P (calls ++ [call]) (edit.apply doc))
    (h : performAll crates calls = .ok doc) : P calls doc := by
  induction calls using List.reverseRecOn generalizing doc with
  | nil =>
    obtain rfl := Fallible.pure_ok.mp h
    exact start
  | append_singleton calls call ih =>
    obtain ⟨before,hbefore,hcall⟩ := performAll_concat.mp h
    obtain ⟨edit,hcheck,rfl⟩ := perform_ok.mp hcall
    exact step calls call edit before (ih hbefore) hcheck

theorem lastSaid_concat (calls : List TrustCall) (call : TrustCall) (authority keyId : String) :
    lastSaid crates (calls ++ [call]) authority keyId =
      (call.verdict crates authority keyId).or (lastSaid crates calls authority keyId) := by
  rw [lastSaid,List.foldl_append]
  rfl

theorem performAll_pins (h : performAll crates calls = .ok doc) (authority keyId : String) :
    doc.store.pins authority keyId = (lastSaid crates calls authority keyId).getD false := by
  refine performAll_induction (P := fun calls doc => doc.store.pins authority keyId =
    (lastSaid crates calls authority keyId).getD false) rfl ?_ h
  intro calls call edit doc hdoc hcheck
  rw [edit.pins_apply,lastSaid_concat,TrustCall.verdict,hcheck,hdoc]
  dsimp only
  split <;> simp

end Operations

section Invariant

variable (crates : Crates)

structure VerifiedKey (key : PinnedKey) : Prop where
  decoded : ∃ pk, crates.base64Decode key.publicKey = .ok pk ∧ pk.length = 32 ∧
    crates.verifyingKey pk = .ok () ∧ keyIdFor crates pk = key.keyId

structure Listed (entry : String × List PinnedKey) : Prop where
  normal : normalizeAuthority entry.1 = .ok entry.1
  some : entry.2 ≠ []
  distinct : (entry.2.map PinnedKey.keyId).Nodup
  each : ∀ key ∈ entry.2, VerifiedKey crates key

def Held (doc : TrustDoc) : Prop := ∀ entry ∈ doc.store.authorities, Listed crates entry

variable {crates} {doc : TrustDoc} {call : TrustCall} {edit : TrustEdit}

theorem check_normal (h : call.check crates = .ok edit) :
    normalizeAuthority edit.authority = .ok edit.authority := by
  obtain ⟨s,m,hm,hauthority⟩ := TrustRequest.normal ⟨call,edit,h⟩
  rw [← hauthority]
  exact normalizeAuthority_parsed hm

theorem check_pinned {authority : String} {key : PinnedKey}
    (h : call.check crates = .ok (.add authority key)) : VerifiedKey crates key := by
  cases call with
  | remove input keyId =>
    obtain ⟨normal,-,⟨⟩⟩ := check_remove.mp h
  | add input publicKeyB64 now =>
    obtain ⟨normal,pk,-,hpk,hlen,hpoint,hedit⟩ := check_add.mp h
    cases hedit
    exact ⟨pk,hpk,hlen,hpoint,rfl⟩

theorem pushKey_listed {authority : String} {key : PinnedKey} {keys : List PinnedKey}
    (hnormal : normalizeAuthority authority = .ok authority) (hkey : VerifiedKey crates key)
    (hkeys : keys = [] ∨ Listed crates (authority,keys)) :
    Listed crates (authority,pushKey key keys) := by
  have hdistinct : (keys.map PinnedKey.keyId).Nodup := by
    rcases hkeys with rfl | h
    · exact List.nodup_nil
    · exact h.distinct
  have heach : ∀ k ∈ keys, VerifiedKey crates k := by
    rcases hkeys with rfl | h
    · exact fun _ hk => absurd hk List.not_mem_nil
    · exact h.each
  unfold pushKey
  split
  · rename_i hany
    obtain ⟨k,hk,-⟩ := List.any_eq_true.mp hany
    exact ⟨hnormal,List.ne_nil_of_mem hk,hdistinct,heach⟩
  · rename_i hnew
    refine ⟨hnormal,by simp,?_,List.forall_mem_append.mpr ⟨heach,List.forall_mem_singleton.mpr hkey⟩⟩
    rw [List.map_append,List.map_singleton]
    refine List.nodup_append.mpr ⟨hdistinct,List.nodup_singleton _,?_⟩
    rintro a ha b hb rfl
    obtain ⟨k,hk,rfl⟩ := List.mem_map.mp ha
    refine hnew (List.any_eq_true.mpr ⟨k,hk,?_⟩)
    rw [PinnedKey.names,beq_iff_eq]
    exact List.mem_singleton.mp hb

theorem withoutKey_listed {authority keyId : String} {keys : List PinnedKey}
    (h : Listed crates (authority,keys)) (hsome : withoutKey keyId keys ≠ []) :
    Listed crates (authority,withoutKey keyId keys) where
  normal := h.normal
  some := hsome
  distinct := h.distinct.sublist (List.filter_sublist.map _)
  each := fun key hkey => h.each key (List.mem_of_mem_filter hkey)

theorem Held.apply (h : Held crates doc) (hcheck : call.check crates = .ok edit) :
    Held crates (edit.apply doc) := by
  have hnormal := check_normal hcheck
  intro entry hentry
  cases edit with
  | add authority key =>
    rcases mem_changeEntry hentry with ⟨keys,hkeys,rfl⟩ | hold
    · exact pushKey_listed hnormal (check_pinned hcheck) (hkeys.imp_right (h _))
    · exact h entry hold
  | remove authority keyId =>
    rcases mem_dropKey hentry with ⟨keys,hkeys,hsome,rfl⟩ | hold
    · exact withoutKey_listed (h _ hkeys) hsome
    · exact h entry hold

theorem performAll_held {calls : List TrustCall} (h : performAll crates calls = .ok doc) :
    Held crates doc := by
  refine performAll_induction (P := fun _ doc => Held crates doc) ?_ ?_ h
  · intro entry hentry
    cases hentry
  · intro calls call edit doc hdoc hcheck
    exact hdoc.apply hcheck

end Invariant

section Stamps

variable {crates : Crates} {doc : TrustDoc} {call : TrustCall} {edit : TrustEdit}

def TrustCall.Stamped : TrustCall → Prop
  | .add _ _ now => now < 2 ^ 64
  | .remove _ _ => True

theorem check_stamped {authority : String} {key : PinnedKey} (h : call.Stamped)
    (hcheck : call.check crates = .ok (.add authority key)) : ∀ n ∈ key.addedAt, n < 2 ^ 64 := by
  cases call with
  | remove input keyId =>
    obtain ⟨normal,-,⟨⟩⟩ := check_remove.mp hcheck
  | add input publicKeyB64 now =>
    obtain ⟨normal,pk,-,-,-,-,hedit⟩ := check_add.mp hcheck
    cases hedit
    intro n hn
    obtain rfl := Option.some.inj hn
    exact h

theorem pushKey_mem {key k : PinnedKey} {keys : List PinnedKey} (h : k ∈ pushKey key keys) :
    k = key ∨ k ∈ keys := by
  unfold pushKey at h
  split at h
  · exact .inr h
  · exact (List.mem_append.mp h).symm.imp_left List.mem_singleton.mp

theorem Timely.apply (h : doc.Timely) (hcall : call.Stamped)
    (hcheck : call.check crates = .ok edit) : (edit.apply doc).Timely := by
  intro entry hentry key hkey
  cases edit with
  | add authority added =>
    rcases mem_changeEntry hentry with ⟨keys,hkeys,rfl⟩ | hold
    · rcases pushKey_mem hkey with rfl | hkey
      · exact check_stamped hcall hcheck
      · rcases hkeys with rfl | hkeys
        · cases hkey
        · exact h _ hkeys key hkey
    · exact h entry hold key hkey
  | remove authority keyId =>
    rcases mem_dropKey hentry with ⟨keys,hkeys,-,rfl⟩ | hold
    · exact h _ hkeys key (List.mem_of_mem_filter hkey)
    · exact h entry hold key hkey

theorem performAll_timely {calls : List TrustCall} (h : performAll crates calls = .ok doc)
    (hcalls : ∀ call ∈ calls, call.Stamped) : doc.Timely := by
  refine performAll_induction (P := fun calls doc => (∀ call ∈ calls, call.Stamped) → doc.Timely)
    ?_ ?_ h hcalls
  · intro _ entry hentry
    cases hentry
  · intro calls call edit doc hdoc hcheck hall
    obtain ⟨hbefore,hcall⟩ := List.forall_mem_append.mp hall
    exact Timely.apply (hdoc hbefore) (hcall call (List.mem_singleton.mpr rfl)) hcheck

end Stamps

section Frame

variable {crates : Crates} {doc doc' : TrustDoc} {call : TrustCall} {edit : TrustEdit}

theorem lookup_dropKey_of_ne {authority keyId b : String}
    {authorities : List (String × List PinnedKey)} (hne : authority ≠ b) :
    (dropKey authority keyId authorities).lookup b = authorities.lookup b := by
  have hb : (b == authority) = false := beq_false_of_ne (Ne.symm hne)
  induction authorities with
  | nil => rfl
  | cons entry rest ih =>
    obtain ⟨a,keys⟩ := entry
    unfold dropKey
    split
    · rename_i heq
      subst heq
      split <;> simp [List.lookup_cons,hb]
    · rw [List.lookup_cons,List.lookup_cons,ih]

theorem apply_frame (edit : TrustEdit) (doc : TrustDoc) {b : String} (h : edit.authority ≠ b) :
    (edit.apply doc).store.authorities.lookup b = doc.store.authorities.lookup b := by
  cases edit with
  | add authority key =>
    change (changeEntry authority (pushKey key) doc.store.authorities).lookup b = _
    rw [lookup_changeEntry doc.ascending]
    exact if_neg h
  | remove authority keyId => exact lookup_dropKey_of_ne h

def TrustCall.spelling : TrustCall → String
  | .add authority _ _ | .remove authority _ => authority

theorem check_spelling (h : call.check crates = .ok edit) :
    normalizeAuthority call.spelling = .ok edit.authority := by
  cases call with
  | remove input keyId =>
    obtain ⟨normal,hnormal,rfl⟩ := check_remove.mp h
    exact hnormal
  | add input publicKeyB64 now =>
    obtain ⟨normal,pk,hnormal,-,-,-,rfl⟩ := check_add.mp h
    exact hnormal

end Frame

theorem trust_store_is_set (crates : Crates) (f64 : List Char → Option String)
    (serde : Serde.Tokenises crates f64) (calls : List TrustCall) (doc : TrustDoc)
    (h : performAll crates calls = .ok doc) :
    (∀ authority keyId, doc.store.isTrusted authority keyId = true ↔
      ∃ normal, normalizeAuthority authority = .ok normal ∧
        lastSaid crates calls normal keyId = some true) ∧
    (∀ entry ∈ doc.store.authorities, normalizeAuthority entry.1 = .ok entry.1 ∧
      entry.2 ≠ [] ∧ (entry.2.map PinnedKey.keyId).Nodup) ∧
    (doc.store.authorities.map Prod.fst).Nodup ∧
    (∀ call doc', doc.perform crates call = .ok doc' → ∀ b,
      normalizeAuthority call.spelling ≠ .ok b →
        doc'.store.authorities.lookup b = doc.store.authorities.lookup b) ∧
    ((∀ call ∈ calls, call.Stamped) → TrustDoc.fromSlice crates doc.toBytes = .ok doc) := by
  refine ⟨?_,?_,?_,?_,fun hcalls => TrustDoc.reads serde (performAll_timely h hcalls)⟩
  · intro authority keyId
    rw [isTrusted_eq]
    cases hnormal : normalizeAuthority authority with
    | error e => simp
    | ok normal =>
      dsimp only
      rw [performAll_pins h]
      cases hlast : lastSaid crates calls normal keyId with
      | none => simp [hlast]
      | some said => simp [hlast]
  · intro entry hentry
    have hlisted := performAll_held h entry hentry
    exact ⟨hlisted.normal,hlisted.some,hlisted.distinct⟩
  · refine List.Pairwise.map Prod.fst ?_ doc.ascending
    intro a b hlt
    exact hlt.ne
  · intro call doc' hperform b hb
    obtain ⟨edit,hcheck,rfl⟩ := perform_ok.mp hperform
    refine apply_frame edit doc fun heq => hb ?_
    rw [check_spelling hcheck,heq]

section Samples

def storeCrates : Crates := Serde.tokenising Serde.shown signingCrates

def storeCalls : List TrustCall :=
  [.add "Example.COM" "11qYAYKxCrfVS/7TyWQHOg7hcvPapiMlrwIaaPcHURo=" 1000,
    .add "example.com" "PUAXw+hDiVqStwqnTRt+vJyYLM8uxJaMwM1V8Sr0Zgw=" 1001,
    .remove "EXAMPLE.com" "ed25519:21fe31dfa154a261"]

theorem storeCalls_perform : ∃ doc, performAll storeCrates storeCalls = .ok doc := by
  have hfirst : TrustCall.check storeCrates (.add "Example.COM"
      "11qYAYKxCrfVS/7TyWQHOg7hcvPapiMlrwIaaPcHURo=" 1000) = .ok (.add "example.com"
        ⟨"ed25519:21fe31dfa154a261","11qYAYKxCrfVS/7TyWQHOg7hcvPapiMlrwIaaPcHURo=",some 1000⟩) := by
    decide +kernel
  have hsecond : TrustCall.check storeCrates (.add "example.com"
      "PUAXw+hDiVqStwqnTRt+vJyYLM8uxJaMwM1V8Sr0Zgw=" 1001) = .ok (.add "example.com"
        ⟨"ed25519:39f713d0a644253f","PUAXw+hDiVqStwqnTRt+vJyYLM8uxJaMwM1V8Sr0Zgw=",some 1001⟩) := by
    decide +kernel
  have hthird : TrustCall.check storeCrates (.remove "EXAMPLE.com" "ed25519:21fe31dfa154a261") =
      .ok (.remove "example.com" "ed25519:21fe31dfa154a261") := by decide +kernel
  exact ⟨_,Fallible.bind_ok.mpr ⟨_,perform_ok.mpr ⟨_,hfirst,rfl⟩,
    Fallible.bind_ok.mpr ⟨_,perform_ok.mpr ⟨_,hsecond,rfl⟩,
      Fallible.bind_ok.mpr ⟨_,perform_ok.mpr ⟨_,hthird,rfl⟩,rfl⟩⟩⟩⟩

theorem first_key_removed : ∃ doc, performAll storeCrates storeCalls = .ok doc ∧
    doc.store.isTrusted "example.com" "ed25519:21fe31dfa154a261" = false ∧
    doc.store.isTrusted "eXample.com" "ed25519:39f713d0a644253f" = true ∧
    TrustDoc.fromSlice storeCrates doc.toBytes = .ok doc := by
  obtain ⟨doc,hdoc⟩ := storeCalls_perform
  obtain ⟨htrusted,-,-,-,hsaved⟩ := trust_store_is_set storeCrates Serde.shown
    (Serde.tokenising_tokenises _ _) storeCalls doc hdoc
  have hspelled : normalizeAuthority "eXample.com" = .ok "example.com" := by decide +kernel
  have hplain : normalizeAuthority "example.com" = .ok "example.com" := by decide +kernel
  have hremoved : lastSaid storeCrates storeCalls "example.com" "ed25519:21fe31dfa154a261" =
      some false := by decide +kernel
  have hpinned : lastSaid storeCrates storeCalls "example.com" "ed25519:39f713d0a644253f" =
      some true := by decide +kernel
  refine ⟨doc,hdoc,?_,(htrusted _ _).mpr ⟨_,hspelled,hpinned⟩,hsaved ?_⟩
  · rw [← Bool.not_eq_true,htrusted]
    rintro ⟨normal,hnormal,hlast⟩
    obtain rfl := Except.ok.inj (hplain.symm.trans hnormal)
    exact absurd (hremoved.symm.trans hlast) (by decide)
  · intro call hcall
    simp only [storeCalls,List.mem_cons,List.not_mem_nil,or_false] at hcall
    rcases hcall with rfl | rfl | rfl
    · exact (by decide : (1000 : Nat) < 2 ^ 64)
    · exact (by decide : (1001 : Nat) < 2 ^ 64)
    · trivial

end Samples

end MurlSystem
