import MurlSystem.Trusting.Collision

namespace MurlSystem

-- What the file system answers while a store is saved: to the creation of the directories above
-- its file, and to the write.
structure Disk where
  createDirs : String → Option String
  write : String → Bytes → Option String

structure OpenStore where
  path : String
  doc : TrustDoc

def OpenStore.inMemory : OpenStore := ⟨"",.empty⟩

def OpenStore.entries (store : OpenStore) : List (String × PinnedKey) :=
  store.doc.store.authorities.flatMap fun entry => entry.2.map fun key => (entry.1,key)

section Operations

variable (crates : Crates) (disk : Disk)

def OpenStore.save (store : OpenStore) : Except Error Unit :=
  if store.path.isEmpty then .ok ()
  else
    match disk.createDirs store.path with
    | some why => .error (.io why)
    | none =>
      match disk.write store.path store.doc.toBytes with
      | some why => .error (.io why)
      | none => .ok ()

-- The document is changed in memory before it is saved.
def OpenStore.add (store : OpenStore) (authority publicKeyB64 : String) (now : Nat) :
    Except Error String × OpenStore :=
  match TrustCall.check crates (.add authority publicKeyB64 now) with
  | .error e => (.error e,store)
  | .ok edit =>
    let changed := { store with doc := edit.apply store.doc }
    ((changed.save disk).map fun _ => edit.keyId,changed)

def OpenStore.remove (store : OpenStore) (authority keyId : String) :
    Except Error Bool × OpenStore :=
  match TrustCall.check crates (.remove authority keyId) with
  | .error e => (.error e,store)
  | .ok edit =>
    let changed := { store with doc := edit.apply store.doc }
    ((changed.save disk).map fun _ => store.doc.store.pins edit.authority keyId,changed)

end Operations

section Unchanged

structure Unchanged (before after : OpenStore) : Prop where
  trusted : ∀ authority keyId,
    after.doc.store.isTrusted authority keyId = before.doc.store.isTrusted authority keyId
  entries : after.entries = before.entries

theorem Unchanged.refl (store : OpenStore) : Unchanged store store := ⟨fun _ _ => rfl,rfl⟩

variable {authorities : List (String × List PinnedKey)} {authority keyId : String}
variable {f : List PinnedKey → List PinnedKey}

theorem changeEntry_idle (hsome : (authorities.lookup authority).isSome = true)
    (hidle : f ((authorities.lookup authority).getD []) = (authorities.lookup authority).getD [])
    (h : Ascending authorities) : changeEntry authority f authorities = authorities := by
  induction authorities with
  | nil => cases hsome
  | cons y rest ih =>
    obtain ⟨a,keys⟩ := y
    obtain ⟨hall,hrest⟩ := List.pairwise_cons.mp h
    unfold changeEntry
    by_cases ha : authority = a
    · subst ha
      rw [List.lookup_cons_self,Option.getD_some] at hidle
      rw [if_pos rfl,hidle]
    · have hne : (authority == a) = false := beq_false_of_ne ha
      rw [List.lookup_cons,hne] at hsome hidle
      have hnlt : ¬authority < a := by
        intro hlt
        have hnone : rest.lookup authority = none :=
          lookup_none_of_lt fun x hx => hlt.trans (hall x hx)
        rw [hnone] at hsome
        cases hsome
      rw [if_neg ha,if_neg hnlt,ih hsome hidle hrest]

theorem dropKey_idle (hidle : withoutKey keyId ((authorities.lookup authority).getD []) =
    (authorities.lookup authority).getD []) (h : Ascending authorities) :
    (dropKey authority keyId authorities).flatMap (fun entry => entry.2.map fun key => (entry.1,key)) =
      authorities.flatMap fun entry => entry.2.map fun key => (entry.1,key) := by
  induction authorities with
  | nil => rfl
  | cons y rest ih =>
    obtain ⟨a,keys⟩ := y
    obtain ⟨-,hrest⟩ := List.pairwise_cons.mp h
    unfold dropKey
    by_cases ha : authority = a
    · subst ha
      rw [List.lookup_cons_self,Option.getD_some] at hidle
      rw [if_pos rfl,hidle]
      split
      · rename_i hempty
        rw [List.isEmpty_iff.mp hempty]
        rfl
      · rfl
    · have hne : (authority == a) = false := beq_false_of_ne ha
      rw [List.lookup_cons,hne] at hidle
      rw [if_neg ha,List.flatMap_cons,List.flatMap_cons,ih hidle hrest]

theorem pins_some {store : TrustStore} (h : store.pins authority keyId = true) :
    (store.authorities.lookup authority).isSome = true := by
  unfold TrustStore.pins at h
  cases hlookup : store.authorities.lookup authority with
  | none =>
    rw [hlookup] at h
    cases h
  | some keys => rfl

theorem withoutKey_idle {keys : List PinnedKey} (h : keys.any (PinnedKey.names keyId) = false) :
    withoutKey keyId keys = keys := by
  refine List.filter_eq_self.mpr fun key hkey => ?_
  rw [List.any_eq_false] at h
  simpa using h key hkey

variable {edit : TrustEdit} {store : OpenStore}

theorem unchanged_of_idle (h : store.doc.store.pins edit.authority edit.keyId = edit.pins) :
    Unchanged store { store with doc := edit.apply store.doc } := by
  constructor
  · intro authority keyId
    rw [isTrusted_eq,isTrusted_eq]
    cases normalizeAuthority authority with
    | error e => rfl
    | ok normal =>
      change (edit.apply store.doc).store.pins normal keyId = _
      rw [edit.pins_apply]
      split
      · rename_i hpair
        obtain ⟨rfl,rfl⟩ := Prod.mk.inj hpair
        exact h.symm
      · rfl
  · cases edit with
    | add authority key =>
      have hpush : pushKey key ((store.doc.store.authorities.lookup authority).getD []) =
          (store.doc.store.authorities.lookup authority).getD [] := if_pos h
      exact congrArg (List.flatMap fun entry => entry.2.map fun key => (entry.1,key))
        (changeEntry_idle (pins_some h) hpush store.doc.ascending)
    | remove authority keyId =>
      exact dropKey_idle (withoutKey_idle h) store.doc.ascending

theorem idle_of_unchanged (hnormal : normalizeAuthority edit.authority = .ok edit.authority)
    (h : Unchanged store { store with doc := edit.apply store.doc }) :
    store.doc.store.pins edit.authority edit.keyId = edit.pins := by
  have hsame := h.trusted edit.authority edit.keyId
  rw [isTrusted_eq,isTrusted_eq,hnormal] at hsame
  change (edit.apply store.doc).store.pins edit.authority edit.keyId = _ at hsame
  rw [edit.pins_apply] at hsame
  exact (hsame.symm.trans (if_pos rfl))

end Unchanged

section Failed

variable (crates : Crates) (store : OpenStore)

def AlreadyPinned (authority publicKeyB64 : String) : Prop :=
  ∀ normal pk, normalizeAuthority authority = .ok normal →
    crates.base64Decode publicKeyB64 = .ok pk → pk.length = 32 → crates.verifyingKey pk = .ok () →
      store.doc.store.pins normal (keyIdFor crates pk) = true

def AlreadyGone (authority keyId : String) : Prop :=
  ∀ normal, normalizeAuthority authority = .ok normal → store.doc.store.pins normal keyId = false

variable {crates} {store}

theorem add_unchanged (disk : Disk) (authority publicKeyB64 : String) (now : Nat) :
    Unchanged store (store.add crates disk authority publicKeyB64 now).2 ↔
      AlreadyPinned crates store authority publicKeyB64 := by
  unfold OpenStore.add
  cases hcheck : TrustCall.check crates (.add authority publicKeyB64 now) with
  | error e =>
    refine iff_of_true (.refl store) ?_
    intro normal pk hnormal hpk hlen hpoint
    have hok : TrustCall.check crates (.add authority publicKeyB64 now) =
        .ok (.add normal ⟨keyIdFor crates pk,publicKeyB64,some now⟩) :=
      check_add.mpr ⟨normal,pk,hnormal,hpk,hlen,hpoint,rfl⟩
    rw [hcheck] at hok
    cases hok
  | ok edit =>
    obtain ⟨normal,pk,hnormal,hpk,hlen,hpoint,rfl⟩ := check_add.mp hcheck
    constructor
    · intro h normal' pk' hnormal' hpk' _ _
      obtain rfl := Except.ok.inj (hnormal.symm.trans hnormal')
      obtain rfl := Except.ok.inj (hpk.symm.trans hpk')
      exact idle_of_unchanged (check_normal hcheck) h
    · intro h
      exact unchanged_of_idle (h normal pk hnormal hpk hlen hpoint)

theorem remove_unchanged (disk : Disk) (authority keyId : String) :
    Unchanged store (store.remove crates disk authority keyId).2 ↔
      AlreadyGone store authority keyId := by
  unfold OpenStore.remove
  cases hcheck : TrustCall.check crates (.remove authority keyId) with
  | error e =>
    refine iff_of_true (.refl store) ?_
    intro normal hnormal
    have hok : TrustCall.check crates (.remove authority keyId) = .ok (.remove normal keyId) :=
      check_remove.mpr ⟨normal,hnormal,rfl⟩
    rw [hcheck] at hok
    cases hok
  | ok edit =>
    obtain ⟨normal,hnormal,rfl⟩ := check_remove.mp hcheck
    constructor
    · intro h normal' hnormal'
      obtain rfl := Except.ok.inj (hnormal.symm.trans hnormal')
      exact idle_of_unchanged (check_normal hcheck) h
    · intro h
      exact unchanged_of_idle (h normal hnormal)

theorem failed_call_iff (crates : Crates) (disk : Disk) (store : OpenStore) :
    (∀ authority publicKeyB64 now e,
      (store.add crates disk authority publicKeyB64 now).1 = .error e →
        (Unchanged store (store.add crates disk authority publicKeyB64 now).2 ↔
          AlreadyPinned crates store authority publicKeyB64)) ∧
    ∀ authority keyId e, (store.remove crates disk authority keyId).1 = .error e →
      (Unchanged store (store.remove crates disk authority keyId).2 ↔
        AlreadyGone store authority keyId) :=
  ⟨fun authority publicKeyB64 now _ _ => add_unchanged disk authority publicKeyB64 now,
    fun authority keyId _ _ => remove_unchanged disk authority keyId⟩

end Failed

section Samples

variable {crates : Crates} {doc : TrustDoc} {edit : TrustEdit} {authority keyId : String}

def fullDisk : Disk := ⟨fun _ => none,fun _ _ => some "No space left on device"⟩

def filed (doc : TrustDoc) : OpenStore := ⟨"trust.json",doc⟩

theorem add_fails {publicKeyB64 : String} {now : Nat}
    (h : TrustCall.check crates (.add authority publicKeyB64 now) = .ok edit) :
    ((filed doc).add crates fullDisk authority publicKeyB64 now).1 =
      .error (.io "No space left on device") := by
  rw [OpenStore.add,h]
  rfl

theorem remove_fails (h : TrustCall.check crates (.remove authority keyId) = .ok edit) :
    ((filed doc).remove crates fullDisk authority keyId).1 =
      .error (.io "No space left on device") := by
  rw [OpenStore.remove,h]
  rfl

theorem sample_checked : TrustCall.check signingCrates (pinCall signingCrates firstKey) =
    .ok (.add "a.com" ⟨firstKey.keyId signingCrates,firstKey.publicKeyB64 signingCrates,some 1000⟩) :=
  check_add.mpr ⟨"a.com",firstKey.publicKey,by decide +kernel,firstKey_signs.decodes _,
    firstKey_signs.publicKey,firstKey_signs.point,rfl⟩

theorem failed_calls_idle :
    Unchanged (filed (pinnedStore signingCrates firstKey))
      ((filed (pinnedStore signingCrates firstKey)).add signingCrates fullDisk "a.com"
        (firstKey.publicKeyB64 signingCrates) 1000).2 ∧
    Unchanged (filed .empty) ((filed .empty).remove signingCrates fullDisk "a.com" "k").2 := by
  have hremove : TrustCall.check signingCrates (.remove "a.com" "k") = .ok (.remove "a.com" "k") := by
    decide +kernel
  constructor
  · refine ((failed_call_iff signingCrates fullDisk _).1 _ _ _ _ (add_fails sample_checked)).mpr ?_
    intro normal pk hnormal hpk _ _
    obtain rfl : "a.com" = normal :=
      Except.ok.inj ((by decide +kernel : normalizeAuthority "a.com" = .ok "a.com").symm.trans hnormal)
    obtain rfl := Except.ok.inj ((firstKey_signs.decodes _).symm.trans hpk)
    decide +kernel
  · refine ((failed_call_iff signingCrates fullDisk _).2 _ _ _ (remove_fails hremove)).mpr ?_
    intro normal _
    rfl

theorem unsaved_key_trusted :
    ¬∀ (crates : Crates) (disk : Disk) (store : OpenStore) (authority publicKeyB64 : String)
      (now : Nat) (e : Error), (store.add crates disk authority publicKeyB64 now).1 = .error e →
        Unchanged store (store.add crates disk authority publicKeyB64 now).2 := by
  intro h
  have hsame := h signingCrates fullDisk (filed .empty) _ _ _ _ (add_fails sample_checked)
  have hpinned := (add_unchanged fullDisk _ _ _).mp hsame "a.com" firstKey.publicKey
    (by decide +kernel) (firstKey_signs.decodes _) firstKey_signs.publicKey firstKey_signs.point
  cases hpinned

end Samples

end MurlSystem
