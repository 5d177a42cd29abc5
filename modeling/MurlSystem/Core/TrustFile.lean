import Mathlib.Data.String.Basic
import MurlSystem.Core.Trust
import MurlSystem.Foundation.Fallible

namespace MurlSystem

section Doc

def PinnedKey.names (keyId : String) (key : PinnedKey) : Bool := key.keyId == keyId

def pushKey (key : PinnedKey) (keys : List PinnedKey) : List PinnedKey :=
  if keys.any (PinnedKey.names key.keyId) then keys else keys ++ [key]

def withoutKey (keyId : String) (keys : List PinnedKey) : List PinnedKey :=
  keys.filter fun key => !key.names keyId

-- `entry(authority).or_default()` of an ordered map, with the entry changed by `f`.
def changeEntry (authority : String) (f : List PinnedKey → List PinnedKey) :
    List (String × List PinnedKey) → List (String × List PinnedKey)
  | [] => [(authority,f [])]
  | (a,keys) :: rest =>
    if authority = a then (a,f keys) :: rest
    else if authority < a then (authority,f []) :: (a,keys) :: rest
    else (a,keys) :: changeEntry authority f rest

def dropKey (authority keyId : String) :
    List (String × List PinnedKey) → List (String × List PinnedKey)
  | [] => []
  | (a,keys) :: rest =>
    if authority = a then
      if (withoutKey keyId keys).isEmpty then rest else (a,withoutKey keyId keys) :: rest
    else (a,keys) :: dropKey authority keyId rest

def Ascending (authorities : List (String × List PinnedKey)) : Prop :=
  authorities.Pairwise fun x y => x.1 < y.1

variable {authority a : String} {f : List PinnedKey → List PinnedKey} {keyId : String}
variable {authorities : List (String × List PinnedKey)}

theorem mem_changeEntry {x : String × List PinnedKey}
    (h : x ∈ changeEntry authority f authorities) :
    (∃ keys, (keys = [] ∨ (authority,keys) ∈ authorities) ∧ x = (authority,f keys)) ∨
      x ∈ authorities := by
  induction authorities with
  | nil => exact .inl ⟨[],.inl rfl,List.mem_singleton.mp h⟩
  | cons y rest ih =>
    obtain ⟨b,keys⟩ := y
    unfold changeEntry at h
    split at h
    · rename_i heq
      subst heq
      rcases List.mem_cons.mp h with rfl | h
      · exact .inl ⟨keys,.inr List.mem_cons_self,rfl⟩
      · exact .inr (List.mem_cons_of_mem _ h)
    · split at h
      · rcases List.mem_cons.mp h with rfl | h
        · exact .inl ⟨[],.inl rfl,rfl⟩
        · exact .inr h
      · rcases List.mem_cons.mp h with rfl | h
        · exact .inr List.mem_cons_self
        · rcases ih h with ⟨old,hold,hx⟩ | hx
          · exact .inl ⟨old,hold.imp_right (List.mem_cons_of_mem _),hx⟩
          · exact .inr (List.mem_cons_of_mem _ hx)

theorem Ascending.changeEntry (h : Ascending authorities) :
    Ascending (changeEntry authority f authorities) := by
  induction authorities with
  | nil => exact List.pairwise_singleton _ _
  | cons y rest ih =>
    obtain ⟨b,keys⟩ := y
    obtain ⟨hall,hrest⟩ := List.pairwise_cons.mp h
    unfold MurlSystem.changeEntry
    split
    · exact .cons hall hrest
    · split
      · rename_i hlt
        refine .cons ?_ h
        rintro x hx
        rcases List.mem_cons.mp hx with rfl | hx
        · exact hlt
        · exact hlt.trans (hall x hx)
      · rename_i hne hnlt
        refine .cons ?_ (ih hrest)
        intro x hx
        rcases mem_changeEntry hx with ⟨_,-,rfl⟩ | hx
        · exact lt_of_le_of_ne (not_lt.mp hnlt) (Ne.symm hne)
        · exact hall x hx

theorem mem_dropKey {x : String × List PinnedKey} (h : x ∈ dropKey authority keyId authorities) :
    (∃ keys, (authority,keys) ∈ authorities ∧ withoutKey keyId keys ≠ [] ∧
      x = (authority,withoutKey keyId keys)) ∨ x ∈ authorities := by
  induction authorities with
  | nil => cases h
  | cons y rest ih =>
    obtain ⟨b,keys⟩ := y
    unfold dropKey at h
    split at h
    · rename_i heq
      subst heq
      split at h
      · exact .inr (List.mem_cons_of_mem _ h)
      · rename_i hsome
        rcases List.mem_cons.mp h with rfl | h
        · exact .inl ⟨keys,List.mem_cons_self,by simpa using hsome,rfl⟩
        · exact .inr (List.mem_cons_of_mem _ h)
    · rcases List.mem_cons.mp h with rfl | h
      · exact .inr List.mem_cons_self
      · rcases ih h with ⟨old,hold,hsome,hx⟩ | hx
        · exact .inl ⟨old,List.mem_cons_of_mem _ hold,hsome,hx⟩
        · exact .inr (List.mem_cons_of_mem _ hx)

theorem Ascending.dropKey (h : Ascending authorities) (authority keyId : String) :
    Ascending (dropKey authority keyId authorities) := by
  induction authorities with
  | nil => exact .nil
  | cons y rest ih =>
    obtain ⟨b,keys⟩ := y
    obtain ⟨hall,hrest⟩ := List.pairwise_cons.mp h
    unfold MurlSystem.dropKey
    split
    · split
      · exact hrest
      · exact .cons hall hrest
    · refine .cons ?_ (ih hrest)
      intro x hx
      rcases mem_dropKey hx with ⟨old,hold,-,rfl⟩ | hx
      · exact hall (authority,old) hold
      · exact hall x hx

theorem lookup_none_of_lt (h : ∀ x ∈ authorities, a < x.1) : authorities.lookup a = none := by
  induction authorities with
  | nil => rfl
  | cons y rest ih =>
    obtain ⟨b,keys⟩ := y
    have hne : (a == b) = false := beq_false_of_ne (h _ List.mem_cons_self).ne
    rw [List.lookup_cons,hne]
    exact ih fun x hx => h x (List.mem_cons_of_mem _ hx)

theorem lookup_changeEntry (h : Ascending authorities) (b : String) :
    (changeEntry authority f authorities).lookup b =
      if authority = b then some (f ((authorities.lookup b).getD [])) else authorities.lookup b := by
  induction authorities with
  | nil =>
    unfold changeEntry
    by_cases hb : authority = b
    · simp [hb]
    · have hne : (b == authority) = false := beq_false_of_ne (Ne.symm hb)
      simp [hb,List.lookup_cons,hne]
  | cons y rest ih =>
    obtain ⟨c,keys⟩ := y
    obtain ⟨hall,hrest⟩ := List.pairwise_cons.mp h
    unfold changeEntry
    split
    · rename_i heq
      subst heq
      by_cases hb : authority = b
      · simp [hb]
      · have hne : (b == authority) = false := beq_false_of_ne (Ne.symm hb)
        simp [hb,List.lookup_cons,hne]
    · split
      · rename_i hne hlt
        by_cases hb : authority = b
        · subst hb
          have hnone : List.lookup authority ((c,keys) :: rest) = none := by
            refine lookup_none_of_lt fun x hx => ?_
            rcases List.mem_cons.mp hx with rfl | hx
            · exact hlt
            · exact hlt.trans (hall x hx)
          rw [hnone]
          simp
        · have hne : (b == authority) = false := beq_false_of_ne (Ne.symm hb)
          simp [hb,List.lookup_cons,hne]
      · rename_i hne hnlt
        by_cases hc : b = c
        · subst hc
          simp [hne]
        · have hbc : (b == c) = false := beq_false_of_ne hc
          simp only [List.lookup_cons,hbc]
          exact ih hrest

theorem lookup_dropKey (h : Ascending authorities) (b : String) :
    ((dropKey authority keyId authorities).lookup b).getD [] =
      if authority = b then withoutKey keyId ((authorities.lookup b).getD [])
      else (authorities.lookup b).getD [] := by
  induction authorities with
  | nil => simp [dropKey,withoutKey]
  | cons y rest ih =>
    obtain ⟨c,keys⟩ := y
    obtain ⟨hall,hrest⟩ := List.pairwise_cons.mp h
    unfold dropKey
    split
    · rename_i heq
      subst heq
      by_cases hb : authority = b
      · subst hb
        rw [if_pos rfl]
        split
        · rename_i hempty
          have hnil : withoutKey keyId keys = [] := List.isEmpty_iff.mp hempty
          rw [lookup_none_of_lt hall]
          simp [hnil]
        · simp
      · have hne : (b == authority) = false := beq_false_of_ne (Ne.symm hb)
        rw [if_neg hb]
        split <;> simp [List.lookup_cons,hne]
    · rename_i hne
      by_cases hc : b = c
      · subst hc
        simp [hne]
      · have hbc : (b == c) = false := beq_false_of_ne hc
        simp only [List.lookup_cons,hbc]
        exact ih hrest

end Doc

structure TrustDoc where
  store : TrustStore
  ascending : Ascending store.authorities

def TrustDoc.empty : TrustDoc := ⟨⟨[]⟩,.nil⟩

def TrustStore.pins (store : TrustStore) (authority keyId : String) : Bool :=
  ((store.authorities.lookup authority).getD []).any (PinnedKey.names keyId)

section Edit

-- What a checked call of `add` or `remove` does to the document: the authority is normalised.
inductive TrustEdit where
  | add (authority : String) (key : PinnedKey)
  | remove (authority keyId : String)
deriving DecidableEq, Repr

def TrustEdit.authority : TrustEdit → String
  | .add authority _ | .remove authority _ => authority

def TrustEdit.keyId : TrustEdit → String
  | .add _ key => key.keyId
  | .remove _ keyId => keyId

def TrustEdit.pair (edit : TrustEdit) : String × String := (edit.authority,edit.keyId)

def TrustEdit.pins : TrustEdit → Bool
  | .add _ _ => true
  | .remove _ _ => false

def TrustEdit.apply (edit : TrustEdit) (doc : TrustDoc) : TrustDoc :=
  match edit with
  | .add authority key =>
    ⟨⟨changeEntry authority (pushKey key) doc.store.authorities⟩,doc.ascending.changeEntry⟩
  | .remove authority keyId =>
    ⟨⟨dropKey authority keyId doc.store.authorities⟩,doc.ascending.dropKey authority keyId⟩

theorem any_pushKey (key : PinnedKey) (keys : List PinnedKey) (keyId : String) :
    (pushKey key keys).any (PinnedKey.names keyId) =
      if key.keyId = keyId then true else keys.any (PinnedKey.names keyId) := by
  unfold pushKey
  by_cases hk : key.keyId = keyId
  · subst hk
    split
    · rename_i hany
      rw [hany,if_pos rfl]
    · simp [PinnedKey.names]
  · have hne : PinnedKey.names keyId key = false := beq_false_of_ne hk
    rw [if_neg hk]
    split
    · rfl
    · simp [hne]

theorem any_withoutKey (k : String) (keys : List PinnedKey) (keyId : String) :
    (withoutKey k keys).any (PinnedKey.names keyId) =
      if k = keyId then false else keys.any (PinnedKey.names keyId) := by
  unfold withoutKey
  rw [List.any_filter]
  by_cases hk : k = keyId
  · subst hk
    simp
  · rw [if_neg hk]
    refine congrArg (keys.any ·) ?_
    funext key
    by_cases hkey : key.keyId = keyId
    · simp [PinnedKey.names,hkey,Ne.symm hk]
    · simp [PinnedKey.names,hkey]

theorem TrustEdit.pins_apply (edit : TrustEdit) (doc : TrustDoc) (authority keyId : String) :
    (edit.apply doc).store.pins authority keyId =
      if edit.pair = (authority,keyId) then edit.pins else doc.store.pins authority keyId := by
  cases edit with
  | add a key =>
    change ((List.lookup authority (changeEntry a (pushKey key) _)).getD []).any _ = _
    rw [lookup_changeEntry doc.ascending]
    by_cases ha : a = authority
    · rw [if_pos ha,Option.getD_some,any_pushKey]
      simp [TrustEdit.pair,TrustEdit.authority,TrustEdit.keyId,TrustEdit.pins,ha,TrustStore.pins]
    · simp [TrustEdit.pair,TrustEdit.authority,ha,TrustStore.pins]
  | remove a k =>
    change ((List.lookup authority (dropKey a k _)).getD []).any _ = _
    rw [lookup_dropKey doc.ascending]
    by_cases ha : a = authority
    · rw [if_pos ha,any_withoutKey]
      simp [TrustEdit.pair,TrustEdit.authority,TrustEdit.keyId,TrustEdit.pins,ha,TrustStore.pins]
    · simp [TrustEdit.pair,TrustEdit.authority,ha,TrustStore.pins]

end Edit

section Calls

variable (crates : Crates)

inductive TrustCall where
  | add (authority publicKeyB64 : String) (now : Nat)
  | remove (authority keyId : String)
deriving DecidableEq, Repr

def TrustCall.check : TrustCall → Except Error TrustEdit
  | .add authority publicKeyB64 now => do
    let authority ← normalizeAuthority authority
    let pk ← (crates.base64Decode publicKeyB64).mapError
      fun e => .trust s!"bad public key encoding: {e}"
    if pk.length != 32 then throw (.trust "public key must be 32 bytes")
    (crates.verifyingKey pk).mapError fun e => .trust s!"invalid ed25519 public key: {e}"
    return .add authority ⟨keyIdFor crates pk,publicKeyB64,some now⟩
  | .remove authority keyId => do
    let authority ← normalizeAuthority authority
    return .remove authority keyId

variable {crates} in
theorem check_add {authority publicKeyB64 : String} {now : Nat} {edit : TrustEdit} :
    TrustCall.check crates (.add authority publicKeyB64 now) = .ok edit ↔
      ∃ normal pk, normalizeAuthority authority = .ok normal ∧
        crates.base64Decode publicKeyB64 = .ok pk ∧ pk.length = 32 ∧
        crates.verifyingKey pk = .ok () ∧
        edit = .add normal ⟨keyIdFor crates pk,publicKeyB64,some now⟩ := by
  simp only [TrustCall.check,Fallible.bind_ok,Fallible.ite_ok,Fallible.throw_ok,
    Fallible.mapError_ok,Fallible.pure_ok,false_and,exists_false,and_false,false_or,bne_iff_ne,
    ne_eq,Decidable.not_not]
  constructor
  · rintro ⟨normal,hnormal,pk,hpk,hlen,_,hpoint,rfl⟩
    exact ⟨normal,pk,hnormal,hpk,hlen,hpoint,rfl⟩
  · rintro ⟨normal,pk,hnormal,hpk,hlen,hpoint,rfl⟩
    exact ⟨normal,hnormal,pk,hpk,hlen,(),hpoint,rfl⟩

variable {crates} in
theorem check_remove {authority keyId : String} {edit : TrustEdit} :
    TrustCall.check crates (.remove authority keyId) = .ok edit ↔
      ∃ normal, normalizeAuthority authority = .ok normal ∧ edit = .remove normal keyId := by
  simp only [TrustCall.check,Fallible.bind_ok,Fallible.pure_ok]
  exact exists_congr fun normal => and_congr_right fun _ => eq_comm

def TrustDoc.add (doc : TrustDoc) (authority publicKeyB64 : String) (now : Nat) :
    Except Error (TrustDoc × String) := do
  let edit ← TrustCall.check crates (.add authority publicKeyB64 now)
  return (edit.apply doc,edit.keyId)

def TrustDoc.remove (doc : TrustDoc) (authority keyId : String) : Except Error (TrustDoc × Bool) := do
  let edit ← TrustCall.check crates (.remove authority keyId)
  return (edit.apply doc,doc.store.pins edit.authority keyId)

inductive TrustFile where
  | missing
  | unreadable (why : String)
  | malformed (path why : String)
  | holds (doc : TrustDoc)

def TrustFile.load : TrustFile → Except Error TrustDoc
  | .missing => .ok .empty
  | .unreadable why => .error (.io why)
  | .malformed path why => .error (.trust s!"malformed trust store {path}: {why}")
  | .holds doc => .ok doc

end Calls

end MurlSystem
